import ScriptBuild.BuildUnit.Basic
import ScriptBuild.Scope

namespace ScriptBuild

/-- Where a name is defined. -/
structure Definition where
  kind : UnitKind
  timestamp : Nat
  body : Body
deriving DecidableEq, Repr

/-- A snippet of code that came into being at a given time. -/
def Definition.snippet (text : String) (timestamp : Nat) : Definition :=
  ⟨.snippet, timestamp, .inline text⟩

/-- A way to look names up. It answers for a name and the directory that refers to it, and it also
    tells which names it can answer for at all. -/
structure NameLookup where
  /-- What a name denotes for a directory, or for nobody in particular. -/
  find : String → Option FilePath → Option Definition
  /-- The names that are known everywhere. -/
  names : NameSet
  /-- The names that are known in a directory. -/
  namesIn : FilePath → NameSet

end ScriptBuild
