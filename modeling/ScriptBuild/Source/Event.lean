import ScriptBuild.Source.Token

namespace ScriptBuild

/-- What opens a scope. -/
inductive ScopeKind where
  | unit
  | function
  | closure
deriving DecidableEq, Repr

/-- How a name is introduced. -/
inductive Declaration where
  /-- An assignment target, a parameter, an output or a loop variable. -/
  | assigned
  | function
  | persistent
  | global
deriving DecidableEq, Repr

/-- One thing that a source says about names: a scope that opens or closes, a declaration or a
    reference. Everything that is known about a body is read off the list of its events. -/
inductive Event where
  | enter (kind : ScopeKind) (name : Option String) (span : Span)
  | exit
  | declare (declaration : Declaration) (name : String) (span : Span)
  | reference (name : String) (span : Span)
deriving DecidableEq, Repr

end ScriptBuild
