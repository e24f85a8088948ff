import ScriptBuild.Disk.Basic
import ScriptBuild.Plan
import ScriptBuild.Program.Basic
import ScriptBuild.Toolchain

namespace ScriptBuild

/-- A module with all that it is linked from, and the files whose change makes it stale. -/
structure Linkage where
  objects : List FilePath
  output : FilePath
  libraries : List FilePath
  watched : List FilePath
deriving DecidableEq, Repr

/-- The request that makes the module. -/
def Linkage.invocation (l : Linkage) : Invocation := .link l.objects l.output l.libraries

/-- Whether a file is there and no older than any of some others, which are there as well. -/
def Disk.isUpToDate (d : Disk) (output : FilePath) (inputs : List FilePath) : Bool :=
  (d.changed? output).any fun made => inputs.all fun input => (d.changed? input).any (· ≤ made)

/-- The file that a module is linked with to use a unit: its module or the stand-in for that, or the
    file itself if it was compiled elsewhere. -/
def Layout.library? (l : Layout) (byStandIn : Bool) (u : BuildUnit) : Option FilePath :=
  match u.kind.treatment with
  | .translate | .table => some (l.path (if byStandIn then .standIn else .artifact) u)
  | .linkAsIs => u.kind.path?
  | .runtime | .skip => none

namespace BuildConfig

variable (c : BuildConfig)

/-- The libraries that the module of a unit is linked with, each with the unit that it stands for.
    -/
def unitLibraries (units : Catalog) (plan : Plan) (id : Nat) (forward : Bool) :
    List (Nat × FilePath) :=
  let peers := plan.peers id
  (plan.subgraph.successors id).toList.filterMap fun other =>
    (units.get? other).bind fun u =>
      (c.layout.library? (forward && peers.contains other) u).map fun library => (other, library)

/-- What the module of a unit is linked from: its object and the modules of the units that it
    imports from. On the first pass through a cycle the other members are represented by their
    stand-ins. The modules of its peers in a cycle are not watched. -/
def unitLinkage (units : Catalog) (plan : Plan) (id : Nat) (u : BuildUnit) (forward : Bool) :
    Linkage :=
  let object := c.layout.path .object u
  let libraries := c.unitLibraries units plan id forward
  let outside := libraries.filter fun (other, _) => !(plan.peers id).contains other
  { objects := [object]
    output := c.layout.path .artifact u
    libraries := libraries.map (·.2) ++ c.runtime.toList
    watched := object :: outside.map (·.2) ++ c.runtime.toList }

/-- What a module of forward declarations is linked from. -/
def standInLinkage (u : BuildUnit) : Linkage :=
  let object := c.layout.path .forwardObject u
  ⟨[object], c.layout.path .standIn u, c.runtime.toList, [object]⟩

/-- What the module of an entry point is linked from if it holds all its units. -/
def entryLinkage (units : Catalog) (plan : Plan) (entry : String) : Linkage :=
  let needed := plan.units.filterMap units.get?
  let objects := (needed.filter (·.kind.treatment.makesObject)).map (c.layout.path .object)
  let libraries := (needed.filter (·.kind.treatment == .linkAsIs)).filterMap (·.kind.path?) ++
    c.runtime.toList
  ⟨objects, c.outputPath entry, libraries, objects ++ libraries⟩

end BuildConfig

end ScriptBuild
