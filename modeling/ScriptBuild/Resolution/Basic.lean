import ScriptBuild.Program.Basic
import ScriptBuild.Summary

namespace ScriptBuild

/-- A name that was found nowhere, with its place in the source if the source was read. -/
structure UnresolvedReference where
  unit : Nat
  name : String
  span : Option Span
deriving DecidableEq, Repr

/-- Something to do with a unit. -/
inductive Work where
  /-- Read its body. -/
  | read (id : Nat)
  /-- Look up again what it imports. -/
  | recheck (id : Nat)
deriving DecidableEq, Repr

/-- The names that lead to a directory, which are the same for all spellings of its path. -/
abbrev DirectoryKey := List String

/-- What is remembered for one run: how fresh the units are that were met, which ones were handled
    and which wait, the names that were looked up from each directory, the names that are known, the
    scopes of the bodies that were read and how many these are, and what was not found. -/
structure Run where
  freshness : Std.ExtTreeMap Nat Freshness
  handled : NodeSet
  waiting : List Work
  found : Std.ExtTreeMap (Option DirectoryKey) (Std.ExtTreeMap String Nat)
  names : Option NameSet
  namesIn : Std.ExtTreeMap DirectoryKey NameSet
  scopes : Std.ExtTreeMap Nat ScopeTree
  unresolved : List UnresolvedReference
  readings : Nat

/-- The start of a run. -/
def Run.start : Run := ⟨∅, ∅, [], ∅, none, ∅, ∅, [], 0⟩

instance : Inhabited Run := ⟨.start⟩

/-- A program and the run over it. Within a run every unit gets a freshness when it is first met,
    and is handled at most once. -/
structure Resolution where
  program : Program
  run : Run

namespace Resolution

/-- The start of a run over a program. -/
def start (p : Program) : Resolution := ⟨p, .start⟩

/-- Starts a new run over the same program. -/
def reset (r : Resolution) : Resolution := start r.program

/-- How fresh a unit is. One that was not met is old. -/
def freshness (r : Resolution) (id : Nat) : Freshness := r.run.freshness.getD id .old

/-- Sets how fresh a unit is. -/
def setFreshness (r : Resolution) (id : Nat) (freshness : Freshness) : Resolution :=
  { r with run := { r.run with freshness := r.run.freshness.insert id freshness } }

/-- Notes that a unit is built. -/
def markBuilt (r : Resolution) (id : Nat) : Resolution := r.setFreshness id .old

/-- Changes the program. -/
def modifyProgram (r : Resolution) (f : Program → Program) : Resolution :=
  { r with program := f r.program }

/-- Puts work at the end of what waits. -/
def enqueue (r : Resolution) (work : Work) : Resolution :=
  { r with run := { r.run with waiting := r.run.waiting ++ [work] } }

/-- Notes a name that was not found. -/
def reportUnresolved (r : Resolution) (reference : UnresolvedReference) : Resolution :=
  { r with run := { r.run with unresolved := r.run.unresolved ++ [reference] } }

/-- The name of the unit that holds the global variables. -/
def globalsName : String := "<globals>"

/-- The name of the unit that lists the built-in functions. -/
def builtinsName : String := "<builtins>"

/-- The name of the shared table of a kind. -/
def tableName (kind : UnitKind) : String :=
  if kind == .globals then globalsName else builtinsName

end Resolution

end ScriptBuild
