import ScriptBuild.Source.Event
import Std.Data.ExtTreeMap
import Std.Data.ExtTreeSet

namespace ScriptBuild

/-- A finite set of names. -/
abbrev NameSet := Std.ExtTreeSet String

/-- The kinds of binding that a scope holds. -/
inductive Bucket where
  | ordinary
  | inherited
  | persistent
  | nestedFunction
deriving DecidableEq, Repr

/-- What a name means from some scope. -/
inductive Binding where
  /-- Bound in the scope itself, or captured earlier. -/
  | here
  /-- Bound in the scope around it with the given number. -/
  | captured (owner : Nat)
  /-- Bound nowhere in the unit. -/
  | unbound
deriving DecidableEq, Repr

/-- One scope with its bindings. Inherited names come with the scope that owns them. -/
structure Scope where
  kind : ScopeKind
  name : Option String
  parent : Option Nat
  children : List Nat
  ordinary : NameSet
  inherited : Std.ExtTreeMap String Nat
  persistent : NameSet
  nested : NameSet

namespace Scope

/-- A scope without bindings. -/
def new (kind : ScopeKind) (name : Option String) (parent : Option Nat) : Scope :=
  ⟨kind, name, parent, [], ∅, ∅, ∅, ∅⟩

/-- Whether a scope binds a name itself. -/
def owns (s : Scope) (name : String) : Bool :=
  s.ordinary.contains name || s.persistent.contains name || s.nested.contains name

/-- Adds a binding. An inherited one is taken to come from the parent, and the first owner that is
    recorded for a name stays. -/
def declare (s : Scope) (bucket : Bucket) (name : String) : Scope :=
  match bucket with
  | .ordinary => { s with ordinary := s.ordinary.insert name }
  | .persistent => { s with persistent := s.persistent.insert name }
  | .nestedFunction => { s with nested := s.nested.insert name }
  | .inherited => { s with inherited := s.inherited.insertIfNew name (s.parent.getD 0) }

end Scope

/-- The scopes of a unit: a root for the body of the unit, which is number 0, a scope for each
    function and one for each closure. A name that a scope does not own is looked for in the scopes
    around it, and one that is found there is remembered as captured. A top-level function does not
    see the body of its unit. -/
structure ScopeTree where
  scopes : Array Scope

namespace ScopeTree

/-- The tree of a unit in which nothing is declared yet. -/
def new : ScopeTree := ⟨#[Scope.new .unit none none]⟩

instance : Inhabited ScopeTree := ⟨new⟩

/-- The number of scopes. -/
def size (t : ScopeTree) : Nat := t.scopes.size

/-- Adds a scope below `parent`. Its number is the former number of scopes. -/
def openChild (t : ScopeTree) (parent : Nat) (kind : ScopeKind) (name : Option String) :
    ScopeTree :=
  let scopes := t.scopes.push (Scope.new kind name (some parent))
  ⟨scopes.modify parent fun p => { p with children := p.children ++ [t.size] }⟩

/-- Adds a scope below `parent`, which has to be a scope once the new one is there. -/
def open? (t : ScopeTree) (parent : Nat) (kind : ScopeKind) (name : Option String) :
    Option ScopeTree :=
  if parent ≤ t.size then some (t.openChild parent kind name) else none

/-- Adds a binding to a scope. -/
def declare (t : ScopeTree) (scope : Nat) (bucket : Bucket) (name : String) : ScopeTree :=
  ⟨t.scopes.modify scope (·.declare bucket name)⟩

/-- The scope around a scope. -/
def parentOf (t : ScopeTree) (scope : Nat) : Option Nat := t.scopes[scope]?.bind (·.parent)

/-- Whether a scope has a given kind. -/
def hasKind (t : ScopeTree) (scope : Nat) (kind : ScopeKind) : Bool :=
  t.scopes[scope]?.any (·.kind == kind)

/-- The scope around a scope in which its free names are looked for next. From a top-level function
    there is none. -/
def visibleParent (t : ScopeTree) (scope : Nat) : Option Nat :=
  (t.parentOf scope).filter fun parent => !(t.hasKind scope .function && t.hasKind parent .unit)

/-- Follows `next` for at most `fuel` steps. -/
def chain (next : Nat → Option Nat) : Nat → Nat → List Nat
  | 0, _ => []
  | fuel + 1, scope =>
    match next scope with
    | none => []
    | some parent => parent :: chain next fuel parent

/-- The scopes around a scope, innermost first. Their number bounds the walk, which is enough when
    every scope is younger than the one around it. -/
def enclosing (t : ScopeTree) (scope : Nat) : List Nat := chain t.parentOf t.size scope

/-- The scopes around a scope in which its free names are looked for, innermost first. -/
def visible (t : ScopeTree) (scope : Nat) : List Nat := chain t.visibleParent t.size scope

/-- Whether a scope binds a name itself. -/
def owns (t : ScopeTree) (name : String) (scope : Nat) : Bool := t.scopes[scope]?.any (·.owns name)

/-- What a name means from a scope. A name that is found further out becomes an inherited one. -/
def lookup (t : ScopeTree) (scope : Nat) (name : String) : ScopeTree × Binding :=
  if t.owns name scope || t.scopes[scope]?.any (·.inherited.contains name) then (t, .here)
  else match (t.visible scope).find? (t.owns name) with
    | some owner =>
      (⟨t.scopes.modify scope fun s => { s with inherited := s.inherited.insert name owner }⟩,
        .captured owner)
    | none => (t, .unbound)

/-- The innermost scope, from the given one outwards, that declares a nested function. -/
def findNested (t : ScopeTree) (scope : Nat) (name : String) : Option Nat :=
  (scope :: t.enclosing scope).find? fun s => t.scopes[s]?.any (·.nested.contains name)

end ScopeTree

end ScriptBuild
