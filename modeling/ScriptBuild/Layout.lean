import ScriptBuild.BuildUnit.Basic

namespace ScriptBuild

/-- What a build makes loadable. -/
inductive ArtifactMode where
  /-- One module for each entry point, with all its units in it. -/
  | single
  /-- One module for each unit, which the others load. -/
  | perUnit
deriving DecidableEq, Repr

/-- How a build is set up. -/
structure BuildConfig where
  cacheDirectory : FilePath
  outDirectory : FilePath
  /-- The name of the module, if it is not to be that of the entry point. -/
  outputName : Option String
  searchPath : List FilePath
  mode : ArtifactMode
  compiler : String
  compilerFlags : List String
  linkerFlags : List String
  /-- A library that every module is linked with. -/
  runtime : Option FilePath
deriving DecidableEq, Repr

/-- The setup in which nothing is chosen. -/
def BuildConfig.default : BuildConfig :=
  ⟨⟨".scriptc"⟩, ⟨"."⟩, none, [], .single, "cc", [], [], none⟩

instance : Inhabited BuildConfig := ⟨.default⟩

/-- The extension of modules that are loaded. -/
def moduleExtension : String := "so"

/-- The module that is made for an entry point. -/
def BuildConfig.outputPath (c : BuildConfig) (entry : String) : FilePath :=
  c.outDirectory.entry (c.outputName.getD entry ++ "." ++ moduleExtension)

/-- The files that a build makes for a unit. -/
inductive FileRole where
  | header
  | source
  | object
  /-- The source of forward declarations, which members of a cycle have. -/
  | forwardSource
  | forwardObject
  /-- The module of forward declarations, which stands in for the real one. -/
  | standIn
  | artifact
deriving DecidableEq, Repr

/-- How the names of the files of a role end. -/
def FileRole.ending : FileRole → String
  | header => ".h"
  | source => ".c"
  | object => ".o"
  | forwardSource => "_fwd.c"
  | forwardObject => "_fwd.o"
  | standIn => "_fwd." ++ moduleExtension
  | artifact => "." ++ moduleExtension

/-- Where a build puts its files. -/
structure Layout where
  cacheFile : FilePath
  objectsDirectory : FilePath
deriving DecidableEq, Repr

/-- The layout inside a cache directory. -/
def Layout.within (cacheDirectory : FilePath) : Layout :=
  ⟨cacheDirectory.entry "build-cache.json", cacheDirectory.entry "objects"⟩

/-- The layout of a setup. -/
def BuildConfig.layout (c : BuildConfig) : Layout := .within c.cacheDirectory

/-- The file of a unit in a given role. The files of one unit differ in their endings only, and are
    named for its stem. -/
def Layout.path (l : Layout) (role : FileRole) (u : BuildUnit) : FilePath :=
  l.objectsDirectory.entry (u.stem ++ role.ending)

end ScriptBuild
