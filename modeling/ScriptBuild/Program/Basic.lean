import ScriptBuild.BuildUnit.Catalog
import ScriptBuild.Digraph.Basic
import ScriptBuild.Scope

namespace ScriptBuild

/-- Where an imported name was found. -/
inductive Target where
  | unit (id : Nat)
  /-- Nowhere. -/
  | unresolved
deriving DecidableEq, Repr

/-- The names that one unit imports: those found in other units, and those found nowhere. No unit is
    listed without a name. -/
structure Imports where
  found : Std.ExtTreeMap Nat NameSet
  unresolved : NameSet
deriving DecidableEq

namespace Imports

/-- No imports. -/
def empty : Imports := ⟨∅, ∅⟩

instance : Inhabited Imports := ⟨empty⟩

/-- Whether nothing is imported. -/
def isEmpty (i : Imports) : Bool := i.found.isEmpty && i.unresolved.isEmpty

/-- The names imported from a target. -/
def from? (i : Imports) : Target → Option NameSet
  | .unit id => i.found[id]?
  | .unresolved => if i.unresolved.isEmpty then none else some i.unresolved

/-- Adds a name to those of a target. -/
def insert (i : Imports) (target : Target) (name : String) : Imports :=
  match target with
  | .unit id => { i with found := i.found.insert id ((i.found.getD id ∅).insert name) }
  | .unresolved => { i with unresolved := i.unresolved.insert name }

/-- Removes a name from those of a target. -/
def erase (i : Imports) (target : Target) (name : String) : Imports :=
  match target with
  | .unit id =>
    let names := (i.found.getD id ∅).erase name
    { i with found := if names.isEmpty then i.found.erase id else i.found.insert id names }
  | .unresolved => { i with unresolved := i.unresolved.erase name }

/-- The targets with their names: units in ascending order, what is unresolved last. -/
def toList (i : Imports) : List (Target × List String) :=
  i.found.toList.map (fun (id, names) => (.unit id, names.toList)) ++
    if i.unresolved.isEmpty then [] else [(.unresolved, i.unresolved.toList)]

end Imports

/-- What is known about a program between runs: its units, which unit depends on which, and the
    names that each unit imports from each other. Units that import nothing have no entry in the
    table of imports. -/
structure Program where
  units : Catalog
  graph : Digraph
  imports : Std.ExtTreeMap Nat Imports
deriving DecidableEq

namespace Program

/-- The program without units. -/
def empty : Program := ⟨.empty, ∅, ∅⟩

instance : Inhabited Program := ⟨empty⟩

/-- Whether two programs are the same but for the spelling of paths. -/
def same (p q : Program) : Bool :=
  p.units.size == q.units.size &&
    (p.units.units.toList.zip q.units.units.toList).all (fun (u, v) => u.same v) &&
    p.graph = q.graph && p.imports = q.imports

/-- What a unit imports. -/
def importsOf (p : Program) (id : Nat) : Imports := p.imports.getD id .empty

/-- The names that a unit imports from a target. -/
def imported (p : Program) (id : Nat) (target : Target) : Option NameSet :=
  (p.importsOf id).from? target

/-- The names of a unit that were found nowhere. -/
def unresolvedNames (p : Program) (id : Nat) : List String := (p.importsOf id).unresolved.toList

/-- Replaces what a unit imports. -/
def setImports (p : Program) (id : Nat) (i : Imports) : Program :=
  { p with imports := if i.isEmpty then p.imports.erase id else p.imports.insert id i }

/-- Records that a unit imports a name from a target, and depends on it. A unit does not import from
    itself. -/
def recordImport (p : Program) (id : Nat) (target : Target) (name : String) : Program :=
  if target = .unit id then p
  else
    let p := p.setImports id ((p.importsOf id).insert target name)
    match target with
    | .unit other => { p with graph := p.graph.addEdge id other }
    | .unresolved => p

/-- Forgets that a unit imports a name from a target. It no longer depends on the target once it
    imports nothing else from there. -/
def removeImport (p : Program) (id : Nat) (target : Target) (name : String) : Program :=
  if (p.imported id target).isNone then p
  else
    let p := p.setImports id ((p.importsOf id).erase target name)
    match target with
    | .unit other =>
      if (p.imported id target).isNone then { p with graph := p.graph.removeEdge id other } else p
    | .unresolved => p

/-- Forgets all that comes from the body of a unit: dependencies, imports and slots. -/
def clearBody (p : Program) (id : Nat) : Program where
  units := p.units.modify id fun u => { u with slots := [] }
  graph := p.graph.removeOut id
  imports := p.imports.erase id

/-- Adds a unit as a node of the graph too. -/
def insertUnit (p : Program) (name : String) (kind : UnitKind) (timestamp : Nat)
    (body : Option Body) : Program :=
  { p with
    units := p.units.insert name kind timestamp body
    graph := p.graph.addNode p.units.size }

/-- Adds a unit with its overload number and its slots, as a node of the graph too. -/
def pushUnit (p : Program) (u : BuildUnit) : Program :=
  { p with units := p.units.push u, graph := p.graph.addNode p.units.size }

end Program

end ScriptBuild
