import ScriptBuild.Scope

namespace ScriptBuild

/-- What a body says about its unit. References come with the span of their first occurrence. -/
structure Summary where
  scopes : ScopeTree
  slots : List String
  globals : List String
  references : List (String × Span)

namespace Summary

/-- How far the events of a body have been read: the scopes, the open ones inside the root with the
    innermost first, and what was found so far. References that are bound nowhere come with the
    scope that they stand in, in the order of the source. -/
structure Progress where
  tree : ScopeTree
  stack : List Nat
  slots : List String
  globals : List String
  pending : List (String × Span × Nat)

namespace Progress

/-- The start of a body. -/
def start : Progress := ⟨.new, [], [], [], []⟩

/-- The innermost open scope. -/
def current (s : Progress) : Nat := s.stack.headD 0

/-- Adds a name at the end unless it is there. -/
def addName (names : List String) (name : String) : List String :=
  if names.contains name then names else names ++ [name]

/-- A declaration. A function in the root is exported; a function elsewhere is nested. -/
def declare (s : Progress) (declaration : Declaration) (name : String) : Progress :=
  let bind (bucket : Bucket) : Progress :=
    { s with tree := s.tree.declare s.current bucket name }
  match declaration with
  | .assigned => bind .ordinary
  | .persistent => bind .persistent
  | .global => { bind .ordinary with globals := addName s.globals name }
  | .function =>
    if s.current == 0 then { s with slots := addName s.slots name } else bind .nestedFunction

/-- A reference, which waits if it is bound nowhere: a nested function binds its name also for
    references that stand before it. -/
def refer (s : Progress) (name : String) (span : Span) : Progress :=
  let (tree, binding) := s.tree.lookup s.current name
  let s := { s with tree := tree }
  if binding == .unbound then { s with pending := s.pending ++ [(name, span, s.current)] } else s

/-- One event. An exit without an open scope says nothing. -/
def step (s : Progress) : Event → Progress
  | .enter kind name _ =>
    { s with tree := s.tree.openChild s.current kind name, stack := s.tree.size :: s.stack }
  | .exit => { s with stack := s.stack.tail }
  | .declare declaration name _ => s.declare declaration name
  | .reference name span => s.refer name span

/-- Everything that a list of events says. -/
def ofEvents (events : List Event) : Progress := events.foldl step start

end Progress

/-- The first occurrence of each name that is not among those already seen. -/
def firstOccurrences (seen : NameSet) : List (String × Span) → List (String × Span)
  | [] => []
  | (name, span) :: rest =>
    if seen.contains name then firstOccurrences seen rest
    else (name, span) :: firstOccurrences (seen.insert name) rest

/-- What the events of a body say about its unit. -/
def ofEvents (events : List Event) : Summary :=
  let s := Progress.ofEvents events
  let free := s.pending.filter fun (name, _, scope) => (s.tree.findNested scope name).isNone
  ⟨s.tree, s.slots, s.globals, firstOccurrences ∅ (free.map fun (name, span, _) => (name, span))⟩

end Summary

end ScriptBuild
