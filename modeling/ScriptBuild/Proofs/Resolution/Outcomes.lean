import ScriptBuild.Proofs.Resolution.Run

namespace ScriptBuild

namespace Resolution

variable {w : World} {r s : Resolution} {id other : Nat} {name slot : String} {d : Definition}
  {kind : UnitKind} {work : Work} {later : List Work} {freshness : Freshness} {t : Target}
  {x : Target × String} {changed : Bool} {fuel : Nat}

/-- Noting how fresh a unit is meets that unit. -/
theorem met_setFreshness :
    (r.setFreshness id freshness).Met other ↔ r.Met other ∨ other = id := by
  rw [Met, setFreshness, Std.ExtTreeMap.mem_insert, Std.LawfulEqCmp.compare_eq_iff_eq, or_comm, Met,
    eq_comm]

/-- Adds a slot to a shared table, which is updated if it was old and grew. This and `makeTable` are
    the two things that finding a shared table comes to. -/
def growTable (r : Resolution) (id : Nat) (slot : String) : Resolution :=
  let grows := (r.program.units.get? id).any fun u => !u.hasSlot slot
  let s := r.modifyProgram fun p => { p with units := p.units.modify id (·.addSlot slot) }
  if grows && s.freshness id == .old then s.setFreshness id .updated else s

/-- The unit of a shared table that is made. -/
def makeTable (r : Resolution) (kind : UnitKind) : Resolution :=
  (r.modifyProgram (·.insertUnit (tableName kind) kind 0 (some .table))).setFreshness
    r.program.units.size .new

/-- A shared table that exists gets the slot. -/
theorem tableFor_of_some (hmatch : r.program.units.findMatch (tableName kind) kind 0 = some id) :
    r.tableFor slot kind = (r.growTable id slot, id) := by
  simp only [tableFor, hmatch, growTable]
  exact (apply_ite (·, id) _ _ _).symm

/-- A shared table that does not exist is made, and gets the slot. -/
theorem tableFor_of_none (hmatch : r.program.units.findMatch (tableName kind) kind 0 = none) :
    r.tableFor slot kind =
      ((r.makeTable kind).growTable r.program.units.size slot, r.program.units.size) := by
  simp only [tableFor, hmatch]
  exact (apply_ite (·, r.program.units.size) _ _ _).symm

theorem growTable_program : (r.growTable id slot).program =
    { r.program with units := r.program.units.modify id (·.addSlot slot) } := by
  rw [growTable]
  split <;> rfl

theorem growTable_run : (r.growTable id slot).run =
    { r.run with freshness := (r.growTable id slot).run.freshness } := by
  rw [growTable]
  split <;> rfl

/-- Adding a slot to a shared table meets at most that table. -/
theorem met_growTable (hmet : (r.growTable id slot).Met other) : r.Met other ∨ other = id := by
  rw [growTable] at hmet
  split at hmet
  · exact met_setFreshness.1 hmet
  · exact .inl hmet

/-- Units that were met stay met when a shared table gets a slot. -/
theorem Met.growTable (hmet : r.Met other) : (r.growTable id slot).Met other := by
  rw [Resolution.growTable]
  split
  · exact met_setFreshness.2 (.inl hmet)
  · exact hmet

/-- The file of a known unit is newer than what is recorded. -/
def Outdated (r : Resolution) (id : Nat) (d : Definition) : Prop :=
  ∃ u, r.program.units.get? id = some u ∧ u.kind.isFile ∧ u.timestamp < d.timestamp

/-- A unit whose file is newer gets the time and the body of the definition, and waits to be
read. -/
theorem refresh_of_outdated (h : r.Outdated id d) : r.refresh id d =
    ⟨⟨r.program.units.modify id fun u => { u with timestamp := d.timestamp, body := some d.body },
        r.program.graph.addNode id, r.program.imports⟩,
      { r.run with
        freshness := r.run.freshness.insert id .updated
        waiting := r.run.waiting ++ [.read id] }⟩ := by
  obtain ⟨u, hu, hfile, hnewer⟩ := h
  simp only [refresh, modifyProgram, hu, Option.any_some, hfile, hnewer, decide_true, Bool.and_self,
    if_true]
  rfl

/-- A unit whose file is not newer gets the body of the definition only, and waits to have its
imports fixed up. -/
theorem refresh_of_not_outdated (h : ¬ r.Outdated id d) : r.refresh id d =
    ⟨⟨r.program.units.modify id fun u => { u with body := u.body.or (some d.body) },
        r.program.graph.addNode id, r.program.imports⟩,
      { r.run with
        freshness := r.run.freshness.insert id .old
        waiting := r.run.waiting ++ [.recheck id] }⟩ := by
  have hnot : (r.program.units.get? id).any
      (fun u => u.kind.isFile && decide (u.timestamp < d.timestamp)) = false := by
    rw [← Bool.not_eq_true, Option.any_eq_true]
    rintro ⟨u, hu, hu'⟩
    rw [Bool.and_eq_true, decide_eq_true_iff] at hu'
    exact h ⟨u, hu, hu'⟩
  simp only [refresh, modifyProgram, hnot, Bool.false_eq_true, if_false]
  rfl

/-- The unit that is made for a definition, which waits to be read. -/
def makeUnit (r : Resolution) (name : String) (d : Definition) : Resolution :=
  ((r.modifyProgram (·.insertUnit name d.kind d.timestamp (some d.body))).setFreshness
    r.program.units.size .new).enqueue (.read r.program.units.size)

/-- What finding the unit of a definition comes to: it is a shared table, or it is made, or it was
    met already in the run, or it is met now. -/
inductive UnitOutcome (r : Resolution) (name : String) (d : Definition) : Resolution × Nat → Prop where
  | table (htable : d.kind.isSharedTable) : UnitOutcome r name d (r.tableFor name d.kind)
  | made (htable : d.kind.isSharedTable = false)
      (hmatch : r.program.units.findMatch name d.kind d.timestamp = none) :
      UnitOutcome r name d (r.makeUnit name d, r.program.units.size)
  | met {id : Nat} (htable : d.kind.isSharedTable = false)
      (hmatch : r.program.units.findMatch name d.kind d.timestamp = some id) (hmet : r.Met id) :
      UnitOutcome r name d (r, id)
  | refreshed {id : Nat} (htable : d.kind.isSharedTable = false)
      (hmatch : r.program.units.findMatch name d.kind d.timestamp = some id) (hmet : ¬ r.Met id) :
      UnitOutcome r name d (r.refresh id d, id)

theorem unitOutcome (r : Resolution) (name : String) (d : Definition) :
    UnitOutcome r name d (r.unitFor name d) := by
  rw [unitFor]
  split
  · next htable => exact .table htable
  · next htable =>
    have htable : d.kind.isSharedTable = false := by simpa using htable
    split
    · next hmatch => exact .made htable hmatch
    · next id hmatch =>
      split
      · next hmet => exact .met htable hmatch (Std.ExtTreeMap.contains_iff_mem.1 hmet)
      · next hmet =>
        exact .refreshed htable hmatch fun hmem => hmet (Std.ExtTreeMap.contains_iff_mem.2 hmem)

/-- Finding the unit of a definition changes only what is known of freshness, and what waits. -/
theorem run_unitFor (r : Resolution) (name : String) (d : Definition) : ∃ freshness waiting,
    (r.unitFor name d).1.run = { r.run with freshness := freshness, waiting := waiting } := by
  have hunit := unitOutcome r name d
  generalize r.unitFor name d = k at hunit ⊢
  cases hunit with
  | table =>
    cases hmatch : r.program.units.findMatch (tableName d.kind) d.kind 0 with
    | some id =>
      rw [tableFor_of_some hmatch, growTable_run]
      exact ⟨_, _, rfl⟩
    | none =>
      rw [tableFor_of_none hmatch, growTable_run]
      exact ⟨_, _, rfl⟩
  | made | met => exact ⟨_, _, rfl⟩
  | @refreshed id =>
    by_cases hnewer : r.Outdated id d
    · rw [refresh_of_outdated hnewer]
      exact ⟨_, _, rfl⟩
    · rw [refresh_of_not_outdated hnewer]
      exact ⟨_, _, rfl⟩

/-- A run remembers which names are known. -/
def learn (r : Resolution) (names : Option NameSet)
    (namesIn : Std.ExtTreeMap DirectoryKey NameSet) : Resolution :=
  ⟨r.program, { r.run with names := names, namesIn := namesIn }⟩

/-- Asking whether a name is known changes nothing but what is remembered of the known names. -/
theorem isKnown_eq (w : World) (r : Resolution) (directory : Option FilePath) (name : String) :
    ∃ names namesIn, (r.isKnown w directory name).1 = r.learn names namesIn := by
  simp only [isKnown]
  split
  · exact ⟨_, _, rfl⟩
  · split
    · exact ⟨_, _, rfl⟩
    · exact ⟨_, _, rfl⟩

/-- What looking up a name of a unit comes to: the unit exports it, or it is remembered where the
    name was found, or the name is not known or has no definition, or a definition is found. -/
inductive LookupOutcome (w : World) (r : Resolution) (id : Nat) (name : String) :
    Resolution × Target → Prop where
  | own (hown : r.Exports id name) : LookupOutcome w r id name (r, .unit id)
  | recalled {other : Nat} (hown : ¬ r.Exports id name)
      (hfound : r.foundFrom (r.directoryOf id) name = some other) :
      LookupOutcome w r id name (r, .unit other)
  | missing {names : Option NameSet} {namesIn : Std.ExtTreeMap DirectoryKey NameSet} {known : Bool}
      (hown : ¬ r.Exports id name) (hfound : r.foundFrom (r.directoryOf id) name = none)
      (hasked : r.isKnown w (r.directoryOf id) name = (r.learn names namesIn, known))
      (hmissing : known = false ∨ w.lookup.find name (r.directoryOf id) = none) :
      LookupOutcome w r id name (r.learn names namesIn, .unresolved)
  | found {names : Option NameSet} {namesIn : Std.ExtTreeMap DirectoryKey NameSet} {d : Definition}
      (hown : ¬ r.Exports id name) (hfound : r.foundFrom (r.directoryOf id) name = none)
      (hasked : r.isKnown w (r.directoryOf id) name = (r.learn names namesIn, true))
      (hfind : w.lookup.find name (r.directoryOf id) = some d) :
      LookupOutcome w r id name
        (((r.learn names namesIn).unitFor name d).1.rememberFound (r.directoryOf id) name
          ((r.learn names namesIn).unitFor name d).2,
          .unit ((r.learn names namesIn).unitFor name d).2)

theorem lookupOutcome (w : World) (r : Resolution) (id : Nat) (name : String) :
    LookupOutcome w r id name (r.lookupExternal w id name) := by
  simp only [lookupExternal]
  split
  · next hown => exact .own hown
  · next hown =>
    split
    · next other hfound => exact .recalled hown hfound
    · next hfound =>
      obtain ⟨names, namesIn, heq⟩ := isKnown_eq w r (r.directoryOf id) name
      cases hasked : r.isKnown w (r.directoryOf id) name with
      | mk s known =>
        rw [hasked] at heq
        obtain rfl : s = _ := heq
        rw [directoryOf] at hasked
        rw [hasked]
        dsimp only
        split
        · next hknown =>
          rw [hknown] at hasked
          split
          · next hnone => exact .missing hown hfound hasked (.inr hnone)
          · next d hfind => exact .found hown hfound hasked hfind
        · next hunknown => exact .missing hown hfound hasked (.inl (by simpa using hunknown))

/-- A global variable is imported from the table that lists it. -/
theorem declareGlobal_eq (r : Resolution) (id : Nat) (name : String) : r.declareGlobal id name =
    (r.tableFor name .globals).1.modifyProgram
      (·.recordImport id (.unit (r.tableFor name .globals).2) name) := rfl

/-- A reference is recorded as imported from where it was looked up. -/
theorem importReference_program (w : World) (r : Resolution) (id : Nat) (x : String × Span) :
    (importReference w id r x).program = (r.lookupExternal w id x.1).1.program.recordImport id
      (r.lookupExternal w id x.1).2 x.1 := by
  simp only [importReference]
  split <;> rfl

/-- Apart from the lookup, importing a reference does no more to a run than to report it. -/
theorem importReference_run (w : World) (r : Resolution) (id : Nat) (x : String × Span) :
    (importReference w id r x).run = { (r.lookupExternal w id x.1).1.run with
      unresolved := (importReference w id r x).run.unresolved } := by
  simp only [importReference]
  split <;> rfl

/-- An import that is found where it was stays there. -/
theorem recheckImport_of_eq (heq : (r.lookupExternal w id x.2).2 = x.1) :
    recheckImport w id (r, changed) x = ((r.lookupExternal w id x.2).1, changed) := by
  simp only [recheckImport, heq, beq_self_eq_true, if_true]

/-- An import that is found elsewhere is moved there. -/
theorem recheckImport_program_of_ne (changed : Bool) (hne : (r.lookupExternal w id x.2).2 ≠ x.1) :
    (recheckImport w id (r, changed) x).1.program =
      ((r.lookupExternal w id x.2).1.program.removeImport id x.1 x.2).recordImport id
        (r.lookupExternal w id x.2).2 x.2 := by
  simp only [recheckImport, beq_eq_false_iff_ne.2 hne, Bool.false_eq_true, if_false]
  split <;> rfl

/-- An import that is found elsewhere counts as changed. -/
theorem recheckImport_snd_of_ne (changed : Bool) (hne : (r.lookupExternal w id x.2).2 ≠ x.1) :
    (recheckImport w id (r, changed) x).2 = true := by
  simp only [recheckImport, beq_eq_false_iff_ne.2 hne, Bool.false_eq_true, if_false]

/-- Apart from the lookup, looking up an import again does no more to a run than to report it. -/
theorem recheckImport_run (w : World) (r : Resolution) (id : Nat) (changed : Bool)
    (x : Target × String) :
    (recheckImport w id (r, changed) x).1.run = { (r.lookupExternal w id x.2).1.run with
      unresolved := (recheckImport w id (r, changed) x).1.run.unresolved } := by
  simp only [recheckImport]
  split
  · rfl
  · split <;> rfl

theorem importReference_units (w : World) (r : Resolution) (id : Nat) (x : String × Span) :
    (importReference w id r x).program.units = (r.lookupExternal w id x.1).1.program.units := by
  rw [importReference_program, Program.units_recordImport]

theorem recheckImport_units (w : World) (r : Resolution) (id : Nat) (changed : Bool)
    (x : Target × String) : (recheckImport w id (r, changed) x).1.program.units =
      (r.lookupExternal w id x.2).1.program.units := by
  by_cases heq : (r.lookupExternal w id x.2).2 = x.1
  · rw [recheckImport_of_eq heq]
  · rw [recheckImport_program_of_ne changed heq, Program.units_recordImport, Program.units_removeImport]

/-- What fixing up the imports of a unit comes to once all were looked up again: a unit that was old
    so far is marked if an import has moved. -/
inductive RecheckOutcome (w : World) (r : Resolution) (id : Nat) : Resolution × Bool → Prop where
  | kept {s : Resolution} {changed : Bool}
      (hfold : (lookedUpImports r.program id).foldl (recheckImport w id) (r, false) = (s, changed))
      (hnot : changed = true → s.freshness id ≠ .old) : RecheckOutcome w r id (s, changed)
  | marked {s : Resolution}
      (hfold : (lookedUpImports r.program id).foldl (recheckImport w id) (r, false) = (s, true))
      (hold : s.freshness id = .old) :
      RecheckOutcome w r id (s.setFreshness id .dependencyUpdated, true)

theorem recheckOutcome (w : World) (r : Resolution) (id : Nat) :
    RecheckOutcome w r id (r.recheck w id) := by
  rw [recheck]
  cases hfold : (lookedUpImports r.program id).foldl (recheckImport w id) (r, false) with
  | mk s changed =>
    dsimp only
    split
    · next h =>
      obtain ⟨rfl, hold⟩ := Bool.and_eq_true_iff.1 h
      exact .marked hfold (beq_iff_eq.1 hold)
    · next h =>
      refine .kept hfold fun hchanged hold => h ?_
      rw [hchanged, hold]
      rfl

/-- Forgets the former body of a unit, and gives it the slots of the new one. -/
def openBody (r : Resolution) (id : Nat) (slots : List String) : Resolution :=
  let p := r.program.clearBody id
  ⟨{ p with units := p.units.modify id fun u => slots.foldl BuildUnit.addSlot u },
    { r.run with readings := r.run.readings + 1 }⟩

/-- Imports what the body of a unit declares and refers to. -/
def importBody (w : World) (r : Resolution) (id : Nat) (s : Summary) : Resolution :=
  s.references.foldl (importReference w id) (s.globals.foldl (declareGlobal id) (r.openBody id s.slots))

/-- The scopes of a body that was read are kept. -/
def closeBody (r : Resolution) (id : Nat) (s : Summary) : Resolution :=
  { r with run := { r.run with scopes := r.run.scopes.insert id s.scopes } }

/-- What reading the body of a unit comes to: there is none, or its events cannot be had, or all that
    it says is recorded. -/
inductive ReadOutcome (w : World) (r : Resolution) (id : Nat) : Resolution × Option Fault → Prop where
  | bodiless (hnone : ∀ u, r.program.units.get? id = some u → u.kind.hasBody = false ∨ u.body = none) :
      ReadOutcome w r id (r, none)
  | faulty {u : BuildUnit} {body : Body} {fault : Fault} (hget : r.program.units.get? id = some u)
      (hhas : u.kind.hasBody) (hbody : u.body = some body) (hevents : w.events body = .error fault) :
      ReadOutcome w r id (r.modifyProgram (·.clearBody id), some fault)
  | read {u : BuildUnit} {body : Body} {events : List Event} (hget : r.program.units.get? id = some u)
      (hhas : u.kind.hasBody) (hbody : u.body = some body) (hevents : w.events body = .ok events) :
      ReadOutcome w r id
        ((r.importBody w id (.ofEvents events)).closeBody id (.ofEvents events), none)

theorem readOutcome (w : World) (r : Resolution) (id : Nat) :
    ReadOutcome w r id (r.readBody w id) := by
  unfold readBody
  split
  · next hnone =>
    refine .bodiless fun u hu => ?_
    cases hhas : u.kind.hasBody with
    | false => exact .inl rfl
    | true =>
      rw [hu, Option.filter_some_pos (by simpa using hhas)] at hnone
      exact .inr hnone
  · next body hbody =>
    obtain ⟨u, hu, hbody⟩ := Option.bind_eq_some_iff.1 hbody
    obtain ⟨hget, hhas⟩ := Option.filter_eq_some_iff.1 hu
    dsimp only
    split
    · next hevents => exact .faulty hget hhas hbody hevents
    · next events hevents => exact .read hget hhas hbody hevents

/-- A body whose events can be had is read, and all that it says is recorded. -/
theorem readBody_of_events {u : BuildUnit} {body : Body} {events : List Event}
    (hget : r.program.units.get? id = some u) (hhas : u.kind.hasBody) (hbody : u.body = some body)
    (hevents : w.events body = .ok events) : r.readBody w id =
      ((r.importBody w id (.ofEvents events)).closeBody id (.ofEvents events), none) := by
  simp only [readBody, hget, Option.filter_some_pos (p := fun u : BuildUnit => u.kind.hasBody) hhas,
    Option.bind_some, hbody, hevents]
  rfl

/-- The first piece of work that waits is taken up. -/
def begin (r : Resolution) (work : Work) (later : List Work) : Resolution :=
  { r with run := { r.run with waiting := later, handled := r.run.handled.insert work.unit } }

/-- The body of a unit that was not handled before is read. -/
theorem handle_read (id : Nat) (hfresh : id ∉ r.run.handled) :
    ({ r with run := { r.run with waiting := later } } : Resolution).handle w (.read id) =
      (r.begin (.read id) later).readBody w id := by
  have hnot : r.run.handled.contains id = false := by
    rwa [← Bool.not_eq_true, Std.ExtTreeSet.contains_iff_mem]
  simp only [handle, hnot, Bool.false_eq_true, if_false]
  rfl

/-- The imports of a unit that was not handled before are fixed up. -/
theorem handle_recheck (id : Nat) (hfresh : id ∉ r.run.handled) :
    ({ r with run := { r.run with waiting := later } } : Resolution).handle w (.recheck id) =
      (((r.begin (.recheck id) later).recheck w id).1, none) := by
  have hnot : r.run.handled.contains id = false := by
    rwa [← Bool.not_eq_true, Std.ExtTreeSet.contains_iff_mem]
  simp only [handle, hnot, Bool.false_eq_true, if_false]
  rfl

/-- Work is passed over if its unit was handled before. -/
theorem handle_handled (hhandled : work.unit ∈ r.run.handled) :
    ({ r with run := { r.run with waiting := later } } : Resolution).handle w work =
      ({ r with run := { r.run with waiting := later } }, none) := by
  cases work <;> simp only [Resolution.handle] <;>
    exact if_pos (Std.ExtTreeSet.contains_iff_mem.2 hhandled)

/-- What a piece of work comes to: its unit was handled before, or the body of the unit is read, or
    what the unit imports is looked up again. -/
inductive HandleOutcome (w : World) (r : Resolution) : Work → Resolution × Option Fault → Prop where
  | handled {work : Work} (hhandled : work.unit ∈ r.run.handled) : HandleOutcome w r work (r, none)
  | read {id : Nat} (hfresh : id ∉ r.run.handled) :
      HandleOutcome w r (.read id) ((r.begin (.read id) r.run.waiting).readBody w id)
  | recheck {id : Nat} (hfresh : id ∉ r.run.handled) :
      HandleOutcome w r (.recheck id) (((r.begin (.recheck id) r.run.waiting).recheck w id).1, none)

theorem handleOutcome (w : World) (r : Resolution) (work : Work) :
    HandleOutcome w r work (r.handle w work) := by
  by_cases hhandled : work.unit ∈ r.run.handled
  · have heq : r.handle w work = (r, none) := handle_handled hhandled
    rw [heq]
    exact .handled hhandled
  · cases work with
    | read id =>
      have heq : r.handle w (.read id) = (r.begin (.read id) r.run.waiting).readBody w id :=
        handle_read id hhandled
      rw [heq]
      exact .read hhandled
    | recheck id =>
      have heq : r.handle w (.recheck id) =
          (((r.begin (.recheck id) r.run.waiting).recheck w id).1, none) :=
        handle_recheck id hhandled
      rw [heq]
      exact .recheck hhandled

theorem drain_of_nil (hwaiting : r.run.waiting = []) (fuel : Nat) : r.drain w fuel = (r, none) := by
  cases fuel <;> simp [drain, hwaiting]

/-- A piece of work that fails ends the analysis. -/
theorem drain_of_failed (hwaiting : r.run.waiting = work :: later) {fault : Fault}
    (hhandle : ({ r with run := { r.run with waiting := later } } : Resolution).handle w work =
      (s, some fault)) (fuel : Nat) : r.drain w (fuel + 1) = (s, some fault) := by
  rw [drain, hwaiting]
  simp only [hhandle]

/-- A piece of work that succeeds is followed by the rest. -/
theorem drain_of_handled (hwaiting : r.run.waiting = work :: later)
    (hhandle : ({ r with run := { r.run with waiting := later } } : Resolution).handle w work =
      (s, none)) (fuel : Nat) : r.drain w (fuel + 1) = s.drain w fuel := by
  rw [drain, hwaiting]
  simp only [hhandle]

/-- What working off the queue comes to, from a state with a property that each piece of work keeps:
    none is left, or there is more of it than the fuel allows, or some of it fails. -/
inductive DrainOutcome (w : World) (P : Resolution → Prop) : Resolution × Option Fault → Prop where
  | done {s : Resolution} (hs : P s) (hwaiting : s.run.waiting = []) : DrainOutcome w P (s, none)
  | stopped {s : Resolution} (hs : P s) : DrainOutcome w P (s, some .tooManyUnits)
  | failed {r s : Resolution} {work : Work} {later : List Work} {fault : Fault} (hr : P r)
      (hwaiting : r.run.waiting = work :: later)
      (hhandle : ({ r with run := { r.run with waiting := later } } : Resolution).handle w work =
        (s, some fault)) : DrainOutcome w P (s, some fault)

/-- Working off the queue comes to one of these, by induction on the work. -/
theorem drainOutcome {P : Resolution → Prop}
    (hstep : ∀ {r s : Resolution} {work : Work} {later : List Work}, P r →
      r.run.waiting = work :: later →
      ({ r with run := { r.run with waiting := later } } : Resolution).handle w work = (s, none) → P s)
    (h : P r) (fuel : Nat) : DrainOutcome w P (r.drain w fuel) := by
  induction fuel generalizing r with
  | zero =>
    rw [drain]
    split
    · next hempty => exact .done h (List.isEmpty_iff.1 hempty)
    · exact .stopped h
  | succ fuel ih =>
    rw [drain]
    split
    · next hempty => exact .done h hempty
    · next work later hwaiting =>
      split
      · next hhandle => exact .failed h hwaiting hhandle
      · next hhandle => exact ih (hstep h hwaiting hhandle)

/-- What each piece of work keeps holds when no work is left. -/
theorem drain_induction {P : Resolution → Prop}
    (hstep : ∀ {r s : Resolution} {work : Work} {later : List Work}, P r →
      r.run.waiting = work :: later →
      ({ r with run := { r.run with waiting := later } } : Resolution).handle w work = (s, none) → P s)
    (h : P r) (hdrain : r.drain w fuel = (s, none)) : P s ∧ s.run.waiting = [] := by
  have hlast := drainOutcome hstep h fuel
  rw [hdrain] at hlast
  cases hlast with
  | done hs hwaiting => exact ⟨hs, hwaiting⟩

/-- Working off the queue ends if each piece of work succeeds and handles one more unit, and the units
that are ever handled are no more than the fuel allows. -/
theorem drain_ends {P : Resolution → Prop} {bound : Nat}
    (hbound : ∀ {r : Resolution}, P r → r.run.handled.size ≤ bound)
    (hstep : ∀ {r : Resolution} {work : Work} {later : List Work}, P r →
      r.run.waiting = work :: later →
      ∃ s, ({ r with run := { r.run with waiting := later } } : Resolution).handle w work =
        (s, none) ∧ P s ∧ s.run.handled.size = r.run.handled.size + 1)
    (h : P r) (hfuel : bound ≤ r.run.handled.size + fuel) :
    ∃ s, r.drain w fuel = (s, none) ∧ P s := by
  induction fuel generalizing r with
  | zero =>
    cases hwaiting : r.run.waiting with
    | nil => exact ⟨r, drain_of_nil hwaiting 0, h⟩
    | cons work later =>
      obtain ⟨s, _, hs, hsize⟩ := hstep h hwaiting
      have hle := hbound hs
      omega
  | succ fuel ih =>
    cases hwaiting : r.run.waiting with
    | nil => exact ⟨r, drain_of_nil hwaiting _, h⟩
    | cons work later =>
      obtain ⟨s, hhandle, hs, hsize⟩ := hstep h hwaiting
      rw [drain_of_handled hwaiting hhandle]
      exact ih hs (by omega)

/-- What each piece of work keeps, also one that fails, is kept whatever comes of the rest. -/
theorem drain_keeps {P : Resolution → Prop}
    (hstep : ∀ {r : Resolution} {work : Work} {later : List Work}, P r →
      r.run.waiting = work :: later →
      P (({ r with run := { r.run with waiting := later } } : Resolution).handle w work).1)
    (h : P r) (fuel : Nat) : P (r.drain w fuel).1 := by
  have hlast := drainOutcome (w := w) (P := P)
    (fun hr hwaiting hhandle => by have hnext := hstep hr hwaiting; rwa [hhandle] at hnext) h fuel
  generalize r.drain w fuel = k at hlast ⊢
  cases hlast with
  | done hs | stopped hs => exact hs
  | failed hr hwaiting hhandle =>
    have hnext := hstep hr hwaiting
    rwa [hhandle] at hnext

/-- What an analysis comes to: nothing is found that could be built, or the work is done, or some of
    it fails and the rest is dropped. -/
inductive AnalyzeOutcome (w : World) (r : Resolution) (entry : String)
    (definition : Option Definition) : Resolution × Except Fault (Option Nat) → Prop where
  | undefined (hd : definition.or (w.lookup.find entry none) = none) :
      AnalyzeOutcome w r entry definition (r, .ok none)
  | table {d : Definition} (hd : definition.or (w.lookup.find entry none) = some d)
      (htable : d.kind.isSharedTable) : AnalyzeOutcome w r entry definition (r, .ok none)
  | done {d : Definition} {s : Resolution} (hd : definition.or (w.lookup.find entry none) = some d)
      (htable : d.kind.isSharedTable = false)
      (hdrain : (r.unitFor entry d).1.drain w workLimit = (s, none)) :
      AnalyzeOutcome w r entry definition (s, .ok (some (r.unitFor entry d).2))
  | failed {d : Definition} {s : Resolution} {fault : Fault}
      (hd : definition.or (w.lookup.find entry none) = some d)
      (htable : d.kind.isSharedTable = false)
      (hdrain : (r.unitFor entry d).1.drain w workLimit = (s, some fault)) :
      AnalyzeOutcome w r entry definition
        ({ s with run := { s.run with waiting := [] } }, .error fault)

theorem analyzeOutcome (w : World) (r : Resolution) (entry : String)
    (definition : Option Definition) :
    AnalyzeOutcome w r entry definition (r.analyze w entry definition) := by
  rw [analyze]
  split
  · next hd => exact .undefined hd
  · next d hd =>
    split
    · next htable => exact .table hd htable
    · next htable =>
      have htable : d.kind.isSharedTable = false := by simpa using htable
      dsimp only
      split
      · next hdrain => exact .done hd htable hdrain
      · next hdrain => exact .failed hd htable hdrain

end Resolution

end ScriptBuild
