import ScriptBuild.Build.Basic
import ScriptBuild.Build.Linkage
import ScriptBuild.Build.Report

namespace ScriptBuild

variable {σ : Type}

/-- What code is generated from for a unit of a program. -/
def Program.stubRequest (p : Program) (id : Nat) (u : BuildUnit) (cyclic : Bool) :
    Stub.Request where
  unit := u
  dependencies := (p.importsOf id).found.toList.filterMap fun (other, names) =>
    (p.units.get? other).map fun v => (v, names.toList)
  unresolved := p.unresolvedNames id
  cyclic := cyclic

namespace Builder

variable (b : Builder σ)

/-- Generates the code of a unit. -/
def generate (plan : Plan) (id : Nat) (u : BuildUnit) : BuildM σ Unit := do
  let program := (← get).resolution.program
  match b.generator (program.stubRequest id u (plan.isCyclic id)) with
  | .error fault => throw fault
  | .ok code =>
    b.writeFile (b.layout.path .header u) code.header
    b.writeFile (b.layout.path .source u) code.source
    match code.forward with
    | some text => b.writeFile (b.layout.path .forwardSource u) text
    | none => pure ()

/-- Compiles the code of a unit. -/
def compile (u : BuildUnit) : BuildM σ Unit :=
  b.run (.compile (b.layout.path .source u) (b.layout.path .object u) [b.layout.objectsDirectory])

/-- Makes the stand-in for the module of a unit. -/
def forwardLink (u : BuildUnit) : BuildM σ Unit := do
  let source := b.layout.path .forwardSource u
  if (← get).disk.hasPath source then
    b.run (.compile source (b.layout.path .forwardObject u) [b.layout.objectsDirectory])
    b.run (b.config.standInLinkage u).invocation
  else throw (.noCode u.display ("no forward declarations at " ++ source.text))

/-- Links the module of a unit, and registers what it exports. -/
def linkNow (u : BuildUnit) (l : Linkage) : BuildM σ Unit := do
  b.run l.invocation
  modify fun s => { s with archive := s.archive.updateRegistry u.name u.overload u.exports }

/-- Links the module of a unit unless it is up to date and no code that it depends on is new. In a
    cycle that is rebuilt it is always linked. Tells whether it was linked. -/
def link (plan : Plan) (generated : NodeSet) (id : Nat) (u : BuildUnit) : BuildM σ Bool := do
  let s ← get
  let forward := plan.hasStep id .forwardLink
  let linkage := b.config.unitLinkage s.resolution.program.units plan id u forward
  let renewed := (plan.subgraph.subgraph id).nodes.any generated.contains
  if !forward && !renewed && s.disk.isUpToDate linkage.output linkage.watched then
    pure false
  else
    b.linkNow u linkage
    pure true

/-- Links the module of a unit against the modules of its peers in a cycle. -/
def relink (plan : Plan) (id : Nat) (u : BuildUnit) : BuildM σ Unit := do
  let units := (← get).resolution.program.units
  b.linkNow u (b.config.unitLinkage units plan id u false)

/-- Makes the module of an entry point. With a module for each unit it is a copy; otherwise it is
    linked, unless no code is new and it is up to date. Tells whether it was made. -/
def emit (entry : String) (plan : Plan) (generated : NodeSet) (u : BuildUnit) : BuildM σ Bool := do
  match b.config.mode with
  | .perUnit =>
    b.copyFile (b.layout.path .artifact u) (b.config.outputPath entry)
    pure true
  | .single =>
    let s ← get
    let linkage := b.config.entryLinkage s.resolution.program.units plan entry
    if generated.isEmpty && s.disk.isUpToDate linkage.output linkage.watched then
      pure false
    else
      b.run linkage.invocation
      pure true

/-- Takes a step. Tells whether there was anything to do. -/
def take (entry : String) (plan : Plan) (generated : NodeSet) (step : Step) (u : BuildUnit) :
    BuildM σ Bool := do
  match step.action with
  | .generate => b.generate plan step.unit u; pure true
  | .compile => b.compile u; pure true
  | .forwardLink => b.forwardLink u; pure true
  | .link => b.link plan generated step.unit u
  | .relink => b.relink plan step.unit u; pure true
  | .emit => b.emit entry plan generated u

/-- Takes steps one after the other, and records them. Code was generated before for some units. The
    first step that fails ends the build. -/
def execute (entry : String) (plan : Plan) : NodeSet → List Step → BuildM σ (List StepRecord)
  | _, [] => pure []
  | generated, step :: steps => do
    match (← get).resolution.program.units.get? step.unit with
    | none => execute entry plan generated steps
    | some u =>
      let performed ← b.take entry plan generated step u
      let renewed := if step.action == .generate then generated.insert step.unit else generated
      let records ← execute entry plan renewed steps
      pure (⟨step, u.display, !performed⟩ :: records)

end Builder

end ScriptBuild
