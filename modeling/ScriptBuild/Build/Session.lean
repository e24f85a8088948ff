import ScriptBuild.Build.Step
import ScriptBuild.Entry

namespace ScriptBuild

variable {σ : Type}

/-- What came of one entry point. -/
structure EntryResult where
  outcome : Outcome
  records : List StepRecord
  warnings : List String
  /-- The units that were built. -/
  touched : List Nat
deriving DecidableEq, Repr

/-- The result of an entry point that stands for nothing. -/
def EntryResult.unresolved (name warning : String) : EntryResult :=
  ⟨.unresolved name, [], [warning], []⟩

/-- The message about a name that leads to nothing that can be built. -/
def Entry.notBuildableText (name : String) : String :=
  "`" ++ name ++ "` does not name a buildable function"

/-- The message about a name that its directory does not have. -/
def Entry.missingText (name : String) (directory : FilePath) : String :=
  "`" ++ name ++ "` is not defined in " ++ directory.text

namespace Builder

variable (b : Builder σ)

/-- Starts a new run over the program. -/
def startRun : BuildM σ Unit := modify fun s => { s with resolution := s.resolution.reset }

/-- Notes that the units of a plan are built. Gives those that were not old before. -/
def settle (plan : Plan) : BuildM σ (List Nat) := fun s =>
  let touched := plan.units.filter fun id => (s.resolution.freshness id).needsBuild
  .ok touched { s with resolution := touched.foldl Resolution.markBuilt s.resolution }

/-- Builds what an entry point was resolved to. -/
def buildUnit (name : String) (root : Nat) : BuildM σ EntryResult := do
  let plan := b.planFor (← get) root
  let records ← b.execute name plan ∅ plan.steps
  let touched ← settle plan
  let outcome : Outcome :=
    if plan.hasStep root .emit then .built name root (b.config.outputPath name)
    else .notBuildable name root
  pure ⟨outcome, records, plan.warnings, touched⟩

/-- Builds an entry point, by its definition if that is known. -/
def buildNamed (name : String) (definition : Option Definition) : BuildM σ EntryResult := do
  match ← b.analyze name definition with
  | some root => b.buildUnit name root
  | none => pure (.unresolved name (Entry.notBuildableText name))

/-- What an entry point stands for as things stand. -/
def meaning (s : BuildState σ) (entry : Entry) : Entry.Meaning :=
  entry.meaning b.config.search s.disk b.now

/-- Builds an entry point. -/
def buildEntry (entry : Entry) : BuildM σ EntryResult := do
  match b.meaning (← get) entry with
  | .byName => b.buildNamed entry.name none
  | .defined definition => b.buildNamed entry.name (some definition)
  | .missingIn directory => pure (.unresolved entry.name (Entry.missingText entry.name directory))

/-- Builds some entry points in a new run, and keeps the archive. Each entry point is resolved,
    planned and built, and at the end the archive is brought up to date for all units that were not
    old. An entry point that stands for nothing is reported and does not stop the build. A fault
    does, and then the archive on the disk stays as it was. -/
def build (entries : List Entry) : BuildM σ Report := do
  startRun
  let results ← entries.mapM b.buildEntry
  let unresolved := (← get).resolution.run.unresolved
  b.persist (Std.ExtTreeSet.ofList (results.flatMap (·.touched)))
  pure ⟨results.map (·.outcome), results.flatMap (·.records), results.flatMap (·.warnings),
    unresolved⟩

/-- The entry points that are known from earlier builds: translated files on which nothing depends,
    to be found where they were. -/
def knownEntries (p : Program) : List Entry :=
  p.graph.sources.filterMap fun id =>
    (p.units.get? id).bind fun u =>
      if u.kind.treatment == .translate then u.directory?.map (.located u.name) else none

/-- Builds the known entry points again. -/
def refresh : BuildM σ Report := do
  b.build (knownEntries (← get).resolution.program)

/-- The plan for an entry point in a new run, if it stands for anything. Nothing is built. -/
def planEntry (entry : Entry) : BuildM σ (Option Plan) := do
  startRun
  let analyzed (definition : Option Definition) : BuildM σ (Option Plan) := do
    let root ← b.analyze entry.name definition
    pure (root.map (b.planFor (← get)))
  match b.meaning (← get) entry with
  | .byName => analyzed none
  | .defined definition => analyzed (some definition)
  | .missingIn _ => pure none

end Builder

end ScriptBuild
