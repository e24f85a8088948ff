import ScriptBuild.Program.Basic

namespace ScriptBuild

namespace Archive

/-- The names that a unit imports from another. -/
structure Dependency where
  name : String
  overload : Nat
  symbols : List String
deriving DecidableEq, Repr

/-- A unit with all that is recorded about it. -/
structure Row where
  name : String
  overload : Nat
  path : Option FilePath
  timestamp : Nat
  tag : KindTag
  slots : List String
  dependencies : List Dependency
  unresolved : List String
deriving DecidableEq, Repr

/-- A symbol that the module of a unit offers at run time. -/
structure Export where
  name : String
  overload : Nat
  symbol : String
deriving DecidableEq, Repr

/-- The order of the registry: by name, then by overload number, then by symbol. -/
def Export.le (a b : Export) : Bool :=
  ((compare a.name b.name).then
    ((compare a.overload b.overload).then (compare a.symbol b.symbol))).isLE

end Archive

/-- The lasting form of a program, with the version of its format: one row for each unit, in which
    other units are named by their names and overload numbers, and a registry of the symbols of
    modules that are loaded at run time. -/
structure Archive where
  version : Nat
  units : List Archive.Row
  registry : List Archive.Export
deriving DecidableEq, Repr

namespace Archive

/-- The version of the format that is written, and the only one that is understood. -/
def formatVersion : Nat := 1

/-- The archive of no units. -/
def empty : Archive := ⟨formatVersion, [], []⟩

instance : Inhabited Archive := ⟨empty⟩

/-- Whether a row is about the unit with a given name and overload number. -/
def Row.isAbout (row : Row) (name : String) (overload : Nat) : Bool :=
  row.name == name && row.overload == overload

/-- The row of a unit. -/
def Row.ofUnit (p : Program) (id : Nat) (u : BuildUnit) : Row where
  name := u.name
  overload := u.overload
  path := u.kind.path?
  timestamp := u.timestamp
  tag := u.kind.tag
  slots := u.slots
  dependencies := (p.importsOf id).found.toList.filterMap fun (other, symbols) =>
    (p.units.get? other).map fun v => ⟨v.name, v.overload, symbols.toList⟩
  unresolved := p.unresolvedNames id

/-- The unit of a row, whose body is found again where its kind implies one. -/
def Row.toUnit (row : Row) : BuildUnit :=
  let kind := row.tag.withPath row.path
  ⟨row.name, row.overload, kind, row.timestamp, kind.body?, row.slots⟩

/-- The rows of all units in the order of their numbers, and an empty registry. -/
def ofProgram (p : Program) : Archive where
  version := formatVersion
  units := p.units.ids.filterMap fun id => (p.units.get? id).map (Row.ofUnit p id)
  registry := []

/-- Adds the unit of a row unless there is one with its name and overload number. -/
def restoreUnit (p : Program) (row : Row) : Program :=
  if (p.units.find row.name row.overload).isSome then p else p.pushUnit row.toUnit

/-- Records the imports from one unit. An unknown unit is passed over; a known one is depended on
    even if nothing is imported from it. -/
def restoreDependency (id : Nat) (p : Program) (d : Dependency) : Program :=
  match p.units.find d.name d.overload with
  | none => p
  | some other =>
    d.symbols.foldl (fun p symbol => p.recordImport id (.unit other) symbol)
      { p with graph := p.graph.addEdge id other }

/-- Records the imports of a row. -/
def restoreImports (p : Program) (row : Row) : Program :=
  match p.units.find row.name row.overload with
  | none => p
  | some id =>
    row.unresolved.foldl (fun p name => p.recordImport id .unresolved name)
      (row.dependencies.foldl (restoreDependency id) p)

/-- The program that an archive describes. Of several rows about one unit the first one gives the
    unit, and all give imports. -/
def toProgram (a : Archive) : Program :=
  a.units.foldl restoreImports (a.units.foldl restoreUnit .empty)

/-- Replaces the first row that is about the same unit, or adds the row at the end. -/
def putRow (row : Row) : List Row → List Row
  | [] => [row]
  | r :: rs => if r.isAbout row.name row.overload then row :: rs else r :: putRow row rs

/-- Brings the rows of some units up to date. -/
def updateRows (a : Archive) (p : Program) (ids : List Nat) : Archive :=
  { a with units := ids.foldl (fun rows id =>
      match p.units.get? id with
      | some u => putRow (Row.ofUnit p id u) rows
      | none => rows) a.units }

/-- Replaces the symbols of one unit in the registry, which becomes sorted. -/
def updateRegistry (a : Archive) (name : String) (overload : Nat) (symbols : List String) :
    Archive :=
  let others := a.registry.filter fun row => !(row.name == name && row.overload == overload)
  let rows := symbols.map fun symbol => ⟨name, overload, symbol⟩
  { a with registry := (others ++ rows).mergeSort Export.le }

end Archive

end ScriptBuild
