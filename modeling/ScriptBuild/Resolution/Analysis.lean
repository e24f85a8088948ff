import ScriptBuild.Resolution.Lookup

namespace ScriptBuild

namespace Resolution

/-- Makes a global variable of a unit a slot of the shared table, and imports it from there. -/
def declareGlobal (id : Nat) (r : Resolution) (name : String) : Resolution :=
  let (r, table) := r.tableFor name .globals
  r.modifyProgram (·.recordImport id (.unit table) name)

/-- Looks up a name that a unit refers to, and imports it. -/
def importReference (w : World) (id : Nat) (r : Resolution) (reference : String × Span) :
    Resolution :=
  let (name, span) := reference
  let (r, target) := r.lookupExternal w id name
  let r := r.modifyProgram (·.recordImport id target name)
  if target == .unresolved then r.reportUnresolved ⟨id, name, some span⟩ else r

/-- Records what a body says about its unit. The slots come before the references, so that functions
    of the unit win over all others. -/
def absorb (w : World) (r : Resolution) (id : Nat) (s : Summary) : Resolution :=
  let r := r.modifyProgram fun p =>
    { p with units := p.units.modify id fun u => s.slots.foldl BuildUnit.addSlot u }
  let r := s.globals.foldl (declareGlobal id) r
  let r := s.references.foldl (importReference w id) r
  { r with run := { r.run with scopes := r.run.scopes.insert id s.scopes } }

/-- Reads the body of a unit, if it has one. All that was known from its former body is forgotten,
    also if the reading fails. -/
def readBody (w : World) (r : Resolution) (id : Nat) : Resolution × Option Fault :=
  match (r.program.units.get? id).filter (·.kind.hasBody) |>.bind (·.body) with
  | none => (r, none)
  | some body =>
    let r := r.modifyProgram (·.clearBody id)
    match w.events body with
    | .error fault => (r, some fault)
    | .ok events =>
      let r := { r with run := { r.run with readings := r.run.readings + 1 } }
      (r.absorb w id (.ofEvents events), none)

/-- The names that a unit imports with their targets, but for global variables, which come from
    declarations and not from lookups. -/
def lookedUpImports (p : Program) (id : Nat) : List (Target × String) :=
  let kept := (p.importsOf id).toList.filter fun
    | (.unit other, _) => !(p.units.get? other).any (·.kind == .globals)
    | (.unresolved, _) => true
  kept.flatMap fun (target, names) => names.map fun name => (target, name)

/-- Looks up again one name that a unit imports. The second component tells whether a target has
    changed so far. -/
def recheckImport (w : World) (id : Nat) (state : Resolution × Bool) (import_ : Target × String) :
    Resolution × Bool :=
  let (r, changed) := state
  let (former, name) := import_
  let (r, target) := r.lookupExternal w id name
  if target == former then (r, changed)
  else
    let r := r.modifyProgram fun p =>
      (p.removeImport id former name).recordImport id target name
    (if target == .unresolved then r.reportUnresolved ⟨id, name, none⟩ else r, true)

/-- Looks up again all that a unit imports, and tells whether a target has changed. Then the unit is
    no longer old. -/
def recheck (w : World) (r : Resolution) (id : Nat) : Resolution × Bool :=
  let (r, changed) := (lookedUpImports r.program id).foldl (recheckImport w id) (r, false)
  if changed && r.freshness id == .old then (r.setFreshness id .dependencyUpdated, changed)
  else (r, changed)

/-- Does one piece of work, unless its unit was handled before in this run. -/
def handle (w : World) (r : Resolution) (work : Work) : Resolution × Option Fault :=
  let id := match work with
    | .read id | .recheck id => id
  if r.run.handled.contains id then (r, none)
  else
    let r := { r with run := { r.run with handled := r.run.handled.insert id } }
    match work with
    | .read id => r.readBody w id
    | .recheck id => ((r.recheck w id).1, none)

/-- Does the work that waits until none is left or something fails, in the order in which units were
    met: the body of a unit that is new or changed is read, and what any other unit imports is
    looked up again. Each piece of work takes one unit of fuel. -/
def drain (w : World) : Nat → Resolution → Resolution × Option Fault
  | 0, r => if r.run.waiting.isEmpty then (r, none) else (r, some .tooManyUnits)
  | fuel + 1, r =>
    match r.run.waiting with
    | [] => (r, none)
    | work :: later =>
      match ({ r with run := { r.run with waiting := later } } : Resolution).handle w work with
      | (r, some fault) => (r, some fault)
      | (r, none) => drain w fuel r

/-- How many pieces of work one analysis may take on: unit numbers have 32 bits, and each unit gives
    work at most once in a run. -/
def workLimit : Nat := 0x100000000

/-- Resolves an entry point and all that it leads to. Without a definition the entry is looked up.
    There is no unit if nothing is found, or nothing that can be built. If something fails, the work
    that is left is dropped. -/
def analyze (w : World) (r : Resolution) (entry : String) (definition : Option Definition) :
    Resolution × Except Fault (Option Nat) :=
  match definition.or (w.lookup.find entry none) with
  | none => (r, .ok none)
  | some d =>
    if d.kind.isSharedTable then (r, .ok none)
    else
      let (r, root) := r.unitFor entry d
      match r.drain w workLimit with
      | (r, none) => (r, .ok (some root))
      | (r, some fault) => ({ r with run := { r.run with waiting := [] } }, .error fault)

end Resolution

end ScriptBuild
