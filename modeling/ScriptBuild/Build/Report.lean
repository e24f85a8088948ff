import ScriptBuild.Plan
import ScriptBuild.Resolution.Basic

namespace ScriptBuild

/-- How an entry point fared. -/
inductive Outcome where
  | built (name : String) (unit : Nat) (artifact : FilePath)
  /-- It is a unit that makes no module. -/
  | notBuildable (name : String) (unit : Nat)
  | unresolved (name : String)
deriving DecidableEq, Repr

/-- The module of an entry point, if there is one. -/
def Outcome.artifact? : Outcome → Option FilePath
  | built _ _ artifact => some artifact
  | _ => none

/-- A step of a plan as it was taken. -/
structure StepRecord where
  step : Step
  /-- How messages name the unit. -/
  display : String
  /-- The step had nothing to do. -/
  skipped : Bool
deriving DecidableEq, Repr

/-- What a build tells about itself: how each entry point fared, which steps were taken or had
    nothing to do, and which names were found nowhere. -/
structure Report where
  outcomes : List Outcome
  records : List StepRecord
  warnings : List String
  unresolved : List UnresolvedReference
deriving DecidableEq, Repr

namespace Report

/-- The modules that were built, one for each entry point that has one. -/
def artifacts (r : Report) : List FilePath := r.outcomes.filterMap Outcome.artifact?

/-- How many modules were built. -/
def builtCount (r : Report) : Nat := r.artifacts.length

/-- The steps of an action that had something to do. -/
def performedRecords (r : Report) (action : Action) : List StepRecord :=
  r.records.filter fun record => record.step.action == action && !record.skipped

/-- How many steps of an action had something to do. -/
def performed (r : Report) (action : Action) : Nat := (r.performedRecords action).length

/-- Whether a step of an action had something to do for the unit that is shown by a name. -/
def performedFor (r : Report) (display : String) (action : Action) : Bool :=
  (r.performedRecords action).any (·.display == display)

end Report

end ScriptBuild
