import ScriptBuild.Proofs.Resolution.Counting
import ScriptBuild.Proofs.Resolution.Idempotence
import ScriptBuild.Proofs.Resolution.Tracking

namespace ScriptBuild

namespace Resolution

variable {B : Library} {past offered : Definition → Prop} {left : Nat → Prop} {w : World}
  {r r₀ s : Resolution} {id other : Nat} {name slot n : String} {t : Target} {d : Definition}
  {kind : UnitKind} {u : BuildUnit} {work : Work} {later : List Work} {fuel : Nat}
  {freshness : Freshness} {changed : Bool}

/-- A unit was found to be new, or its file to be newer than what was recorded. -/
def Renewed (r : Resolution) (id : Nat) : Prop := r.freshness id = .new ∨ r.freshness id = .updated

/-- A unit that was found new or newer was met. -/
theorem Renewed.met (h : r.Renewed id) : r.Met id := by
  refine Due.met ?_
  rcases h with heq | heq <;> rw [Due, heq] <;> rfl

/-- A part of a run in which no body is read marks what is to be read: the units that are found new
or newer are those that wait to be read from then on, shared tables apart. -/
structure Marks (r s : Resolution) : Prop where
  units : r.program.units.Grows s.program.units
  stays : ∀ id, r.Renewed id → s.Renewed id
  awaits : ∀ id, r.Awaits id → s.Awaits id
  reads : ∀ id, s.Awaits id → r.Awaits id ∨ s.Renewed id
  renewed : ∀ id, s.Renewed id → r.Renewed id ∨ s.Awaits id ∨ s.IsTable id
  scopes : s.run.scopes = r.run.scopes

namespace Marks

/-- What changes neither the freshness of units nor what waits marks nothing. -/
theorem of_same (hunits : r.program.units.Grows s.program.units)
    (hfreshness : s.run.freshness = r.run.freshness) (hwaiting : s.run.waiting = r.run.waiting)
    (hscopes : s.run.scopes = r.run.scopes) : Marks r s := by
  have hrenewed (id : Nat) : s.Renewed id ↔ r.Renewed id := by
    rw [Renewed, Renewed, Resolution.freshness, Resolution.freshness, hfreshness]
  have hawaits (id : Nat) : s.Awaits id ↔ r.Awaits id := by rw [Awaits, Awaits, hwaiting]
  exact ⟨hunits, fun id => (hrenewed id).2, fun id => (hawaits id).2, fun id h => .inl ((hawaits id).1 h),
    fun id h => .inl ((hrenewed id).1 h), hscopes⟩

theorem refl (r : Resolution) : Marks r r := of_same (.refl _) rfl rfl rfl

theorem trans {r₁ r₂ r₃ : Resolution} (h : Marks r₁ r₂) (h' : Marks r₂ r₃) : Marks r₁ r₃ where
  units := h.units.trans h'.units
  stays id hid := h'.stays id (h.stays id hid)
  awaits id hid := h'.awaits id (h.awaits id hid)
  reads id hid := by
    rcases h'.reads id hid with hid | hrenewed
    · exact (h.reads id hid).imp_right (h'.stays id)
    · exact .inr hrenewed
  renewed id hid := by
    rcases h'.renewed id hid with hid | hnew
    · exact (h.renewed id hid).imp_right (.imp (h'.awaits id) fun htable => htable.mono h'.units)
    · exact .inr hnew
  scopes := h'.scopes.trans h.scopes

/-- A unit gets a freshness that does not hide that it was found new or newer. -/
theorem mark (hunits : r.program.units.Grows s.program.units)
    (hrun : s.run = { r.run with
      freshness := r.run.freshness.insert id freshness, waiting := s.run.waiting })
    (hwaiting : s.run.waiting = r.run.waiting ∨
      s.run.waiting = r.run.waiting ++ [Work.read id] ∧ (freshness = .new ∨ freshness = .updated) ∨
      s.run.waiting = r.run.waiting ++ [Work.recheck id])
    (hstays : freshness = .new ∨ freshness = .updated ∨ ¬ r.Renewed id)
    (hmarks : freshness = .new ∨ freshness = .updated →
      s.IsTable id ∨ s.run.waiting = r.run.waiting ++ [Work.read id]) : Marks r s := by
  have hrenewed (unit : Nat) : s.Renewed unit ↔
      if unit = id then freshness = .new ∨ freshness = .updated else r.Renewed unit := by
    have heq : s.freshness unit = (r.setFreshness id freshness).freshness unit := by
      rw [Resolution.freshness, hrun]
      rfl
    rw [Renewed, heq, freshness_setFreshness]
    split <;> rfl
  refine ⟨hunits, fun other h => ?_, fun other h => ?_, fun other h => ?_, fun other h => ?_,
    by rw [hrun]⟩
  · rw [hrenewed]
    split
    · next heq =>
      subst heq
      rcases hstays with hnew | hupdated | hnot
      · exact .inl hnew
      · exact .inr hupdated
      · exact absurd h hnot
    · exact h
  · rw [Awaits] at h ⊢
    rcases hwaiting with heq | ⟨heq, _⟩ | heq <;> rw [heq]
    · exact h
    · exact List.mem_append_left _ h
    · exact List.mem_append_left _ h
  · rw [Awaits] at h ⊢
    rcases hwaiting with heq | ⟨heq, hfresh⟩ | heq <;> rw [heq] at h
    · exact .inl h
    · rcases List.mem_append.1 h with h | h
      · exact .inl h
      · cases List.mem_singleton.1 h
        exact .inr ((hrenewed id).2 (by rwa [if_pos rfl]))
    · exact .inl ((List.mem_append.1 h).resolve_right fun h => by cases List.mem_singleton.1 h)
  · rw [hrenewed] at h
    split at h
    · next heq =>
      subst heq
      refine .inr ((hmarks h).symm.imp_left fun heq => ?_)
      rw [Awaits, heq]
      exact List.mem_append_right _ (List.mem_singleton_self _)
    · exact .inl h

end Marks

/-- Growing a shared table marks nothing, as tables have no bodies. -/
theorem marks_growTable (slot : String) (htable : r.IsTable id) : Marks r (r.growTable id slot) := by
  have hgrows := (grows_growTable slot htable).touches.units
  have hmono := htable.mono hgrows
  rw [growTable] at hgrows hmono ⊢
  split at hgrows
  · next h =>
    rw [if_pos h] at hmono ⊢
    exact .mark hgrows rfl (.inl rfl) (.inr (.inl rfl)) fun _ => .inl hmono
  · next h =>
    rw [if_neg h]
    exact .of_same hgrows rfl rfl rfl

theorem marks_tableFor (r : Resolution) (slot : String) (htable : kind.isSharedTable) :
    Marks r (r.tableFor slot kind).1 := by
  cases hmatch : r.program.units.findMatch (tableName kind) kind 0 with
  | some id =>
    rw [tableFor_of_some hmatch]
    exact marks_growTable slot (isTable_of_findMatch htable hmatch)
  | none =>
    rw [tableFor_of_none hmatch]
    have hmade := isTable_makeTable (r := r) htable
    have hnew : Marks r (r.makeTable kind) :=
      .mark Catalog.grows_insert rfl (.inl rfl) (.inl rfl) fun _ => .inl hmade
    exact hnew.trans (marks_growTable slot hmade)

/-- A known unit that is met for the first time waits to be read if its file is newer. -/
theorem marks_refresh (h : r.Sane) (d : Definition) (hunit : r.IsUnit id) (hmet : ¬ r.Met id) :
    Marks r (r.refresh id d) := by
  have hgrows := (h.refresh (d := d) hunit).2.touches.units
  by_cases hnewer : r.Outdated id d
  · rw [refresh_of_outdated hnewer] at hgrows ⊢
    exact .mark hgrows rfl (.inr (.inl ⟨rfl, .inr rfl⟩)) (.inr (.inl rfl)) fun _ => .inr rfl
  · rw [refresh_of_not_outdated hnewer] at hgrows ⊢
    exact .mark hgrows rfl (.inr (.inr rfl)) (.inr (.inr fun h => hmet h.met))
      (by rintro (h | h) <;> cases h)

/-- A definition marks the unit that it denotes if that is new or its file is newer. -/
theorem marks_unitFor (h : r.Sane) (name : String) (d : Definition) :
    Marks r (r.unitFor name d).1 := by
  have hcases := unitOutcome r name d
  generalize r.unitFor name d = k at hcases ⊢
  cases hcases with
  | table htable => exact marks_tableFor r name htable
  | made => exact .mark Catalog.grows_insert rfl (.inr (.inl ⟨rfl, .inl rfl⟩)) (.inl rfl) fun _ => .inr rfl
  | met => exact .refl r
  | refreshed htable hmatch hmet => exact marks_refresh h d (isUnit_of_findMatch htable hmatch) hmet

/-- Looking a name up marks the unit that is found. -/
theorem marks_lookupExternal (h : r.Sane) (w : World) (id : Nat) (name : String) :
    Marks r (r.lookupExternal w id name).1 := by
  have hlookup := lookupOutcome w r id name
  generalize r.lookupExternal w id name = k at hlookup ⊢
  cases hlookup with
  | own | recalled => exact .refl r
  | missing => exact .of_same (.refl _) rfl rfl rfl
  | @found names namesIn d =>
    have hlearned : Marks r (r.learn names namesIn) := .of_same (.refl _) rfl rfl rfl
    have hmet := marks_unitFor (h.learn names namesIn) name d
    exact hlearned.trans (hmet.trans (.of_same (.refl _) rfl rfl rfl))

/-- Imports of a unit change, and nothing else that a run marks. -/
theorem Marks.imports (h : Marks r r₀) (hunits : s.program.units = r₀.program.units)
    (hrun : s.run = { r₀.run with unresolved := s.run.unresolved }) : Marks r s :=
  h.trans (.of_same (by rw [hunits]; exact .refl _) (by rw [hrun]) (by rw [hrun]) (by rw [hrun]))

theorem marks_declareGlobal (r : Resolution) (id : Nat) (name : String) :
    Marks r (declareGlobal id r name) :=
  (marks_tableFor r name (show UnitKind.globals.isSharedTable from rfl)).imports
    Program.units_recordImport rfl

/-- Importing a name marks the unit that is found. -/
theorem marks_importReference (h : r.Sane) (w : World) (id : Nat) (x : String × Span) :
    Marks r (importReference w id r x) :=
  (marks_lookupExternal h w id x.1).imports (importReference_units w r id x)
    (importReference_run w r id x)

/-- Looking up again a name that is imported marks the unit that is found. -/
theorem marks_recheckImport (h : r.Sane) (w : World) (id : Nat) (x : Target × String) (changed : Bool) :
    Marks r (recheckImport w id (r, changed) x).1 :=
  (marks_lookupExternal h w id x.2).imports (recheckImport_units w r id changed x)
    (recheckImport_run w r id changed x)

/-- Looking up again all that a unit imports marks the units that are found, and the unit itself only
if it was old. -/
theorem marks_recheck (h : r.Sane) (w : World) (hunit : r.IsUnit id) :
    Marks r (r.recheck w id).1 := by
  have hmarked {s : Resolution} (hold : s.freshness id = .old) (hp : Marks r s) :
      Marks r (s.setFreshness id .dependencyUpdated) := by
    refine hp.trans (.mark (.refl _) rfl (.inl rfl) (.inr (.inr ?_)) (by rintro (h | h) <;> cases h))
    rintro (h | h) <;> rw [hold] at h <;> cases h
  exact (h.recheck_induction w hunit (.refl r)
    (fun _ changed hs _ hp x _ => hp.trans (marks_recheckImport hs w id x changed))
    fun s hold hp => hmarked hold hp).2.2

/-- A body that is read leaves its scopes, and marks apart from that what lookups mark. -/
theorem marks_readBody (h : r.Sane) (w : World) (hget : r.program.units.get? id = some u)
    (hread : (r.readBody w id).2 = none) :
    ∃ m, Marks r m ∧ ((r.readBody w id).1 = m ∧ (u.kind.hasBody = false ∨ u.body = none) ∨
      ∃ scope, (r.readBody w id).1 =
        { m with run := { m.run with scopes := m.run.scopes.insert id scope } }) := by
  have hcases := readOutcome w r id
  generalize r.readBody w id = k at hcases hread ⊢
  cases hcases with
  | bodiless hnone => exact ⟨r, .refl r, .inl ⟨rfl, hnone u hget⟩⟩
  | faulty => cases hread
  | @read v _ events hv hhas =>
    have hopen : Marks r (r.openBody id (Summary.ofEvents events).slots) :=
      .of_same (changes_openBody _ hv hhas).touches.units rfl rfl rfl
    obtain ⟨-, -, hmarks⟩ := h.importBody_induction (P := Marks r) w hv hhas (.ofEvents events) hopen
      (fun _ _ _ hp name _ => hp.trans (marks_declareGlobal _ id name))
      fun _ hs _ hp reference _ => hp.trans (marks_importReference hs w id reference)
    exact ⟨_, hmarks, .inr ⟨_, rfl⟩⟩

/-- What handling a unit marks, apart from the scopes of a body that was read. -/
theorem marks_handle (h : (r.begin work later).Sane)
    (hget : r.program.units.get? work.unit = some u) (htable : u.kind.isSharedTable = false)
    (hfresh : work.unit ∉ r.run.handled)
    (hhandle : ({ r with run := { r.run with waiting := later } } : Resolution).handle w work =
      (s, none)) :
    ∃ m, Marks (r.begin work later) m ∧
      (s = m ∧ (work = .read work.unit → u.kind.hasBody = false ∨ u.body = none) ∨
        ∃ scope, work = .read work.unit ∧
          s = { m with run := { m.run with scopes := m.run.scopes.insert work.unit scope } }) := by
  cases work with
  | read id =>
    rw [handle_read id hfresh] at hhandle
    have hget : (r.begin (.read id) later).program.units.get? id = some u := hget
    have hread := marks_readBody h w hget (show (_ : Resolution × Option Fault).2 = none by rw [hhandle])
    rw [hhandle] at hread
    obtain ⟨m, hmarks, ⟨rfl, hnone⟩ | ⟨scope, rfl⟩⟩ := hread
    · exact ⟨_, hmarks, .inl ⟨rfl, fun _ => hnone⟩⟩
    · exact ⟨m, hmarks, .inr ⟨scope, rfl, rfl⟩⟩
  | recheck id =>
    rw [handle_recheck id hfresh] at hhandle
    obtain rfl := (Prod.mk.inj hhandle).1
    exact ⟨_, marks_recheck h w ⟨u, hget, htable⟩, .inl ⟨rfl, nofun⟩⟩

/-- A unit is unread: it was so before the run or was found new or newer in the run, and its body was
not read in the run. -/
def Skipped (left : Nat → Prop) (r : Resolution) (id : Nat) : Prop :=
  (left id ∨ r.Renewed id) ∧ id ∉ r.run.scopes

/-- What holds between two pieces of work when analyses before may have failed. Units count as handled
also if their work was dropped. -/
structure Trying (B : Library) (past : Definition → Prop) (w : World) (offered : Definition → Prop)
    (left : Nat → Prop) (r : Resolution) : Prop where
  sane : r.Sane
  underway : ∃ counted : NodeSet, (∀ id ∈ r.run.handled, id ∈ counted) ∧
    Underway w offered (r.counting counted)
  faithful : r.program.Faithful B (Seen past offered) (Skipped left r)
  legible : ∀ id u, r.Awaits id → r.program.units.get? id = some u → Legible B w u
  renewed : ∀ id, r.Awaits id → r.Renewed id
  scopes : ∀ id ∈ r.run.scopes, id ∈ r.run.handled

/-- Only the units that change need a closer look. -/
theorem Trying.of_meets {only : Nat → Prop} {counted : NodeSet} (h : Trying B past w offered left r)
    (hsane : s.Sane) (hcounted : ∀ id ∈ s.run.handled, id ∈ counted)
    (hunderway : Underway w offered (s.counting counted))
    (hmeets : Meets B w (Seen past offered) only r₀ (s.counting counted))
    (hprogram : r₀.program = r.program) (hback : ∀ id, r₀.Awaits id → r.Awaits id)
    (htouches : r.program.Touches only s.program) (hevolves : r.program.Evolves s.program)
    (hidle : ∀ id u, only id → s.program.units.get? id = some u → u.kind.hasBody = false →
      Idle s.program id)
    (htold : ∀ id u, only id → s.program.units.get? id = some u → u.kind.hasBody →
      ¬ Skipped left s id → s.program.Told B id u)
    (hstays : ∀ id, r.Renewed id → s.Renewed id)
    (hreads : ∀ id, s.Awaits id → r.Awaits id ∨ s.Renewed id)
    (hscopes : ∀ id ∈ s.run.scopes, id ∈ r.run.scopes ∨ only id ∧ id ∈ s.run.handled)
    (hhandled : ∀ id ∈ r.run.handled, id ∈ s.run.handled) :
    Trying B past w offered left s := by
  have hrenewed (id : Nat) (hid : s.Awaits id) : s.Renewed id :=
    (hreads id hid).elim (fun hold => hstays id (h.renewed id hold)) fun hnew => hnew
  have hread (id : Nat) (hid : id ∈ s.run.scopes) : id ∈ s.run.handled :=
    (hscopes id hid).elim (fun hold => hhandled id (h.scopes id hold)) And.right
  refine ⟨hsane, ⟨counted, hcounted, hunderway⟩, ?_, fun id u hawaits hu => ?_, hrenewed, hread⟩
  · refine hmeets.faithful (s := s.counting counted) (hprogram ▸ h.faithful) (hprogram ▸ htouches)
      (hprogram ▸ hevolves) (fun id hid hnot => ⟨fun hskipped => hnot ?_, fun hawaits => hnot ?_⟩)
      hidle htold
    · exact ⟨hskipped.1.imp_right (hstays id), fun hin =>
        (hscopes id hin).elim hskipped.2 fun hthis => hid hthis.1⟩
    · exact ⟨.inr (hrenewed id hawaits), fun hin =>
        hunderway.agenda.waiting_fresh (.read id) hawaits (hcounted id (hread id hin))⟩
  · refine hmeets.legible (fun id u hold hu => h.legible id u (hback id hold) ?_) hawaits hu
    rwa [← hprogram]

/-- One piece of work leaves no unit unread that was not so before, unless it fails. -/
theorem Trying.handle (h : Trying B past w offered left r) (hw : Dependable B past w offered)
    (hwaiting : r.run.waiting = work :: later)
    (hhandle : ({ r with run := { r.run with waiting := later } } : Resolution).handle w work =
      (s, none)) : Trying B past w offered left s := by
  obtain ⟨counted, hcounted, hunderway⟩ := h.underway
  have hmem : work ∈ r.run.waiting := hwaiting ▸ List.mem_cons_self
  have hnot : work.unit ∉ counted := hunderway.agenda.waiting_fresh work hmem
  have hfresh : work.unit ∉ r.run.handled := fun hin => hnot (hcounted _ hin)
  have hbegin : (r.begin work later).Sane := h.sane.begin hwaiting
  obtain ⟨u, hu, htable⟩ := h.sane.waiting work hmem
  have hsane : s.Sane := by
    have hs := (Sane.handle (r := { r with run := { r.run with waiting := later } })
      ⟨hbegin.waiting, hbegin.found⟩ w work ⟨u, hu, htable⟩).1
    rwa [hhandle] at hs
  have hdone : s.run.handled = r.run.handled.insert work.unit := by
    have heq : (({ r with run := { r.run with waiting := later } } : Resolution).handle w
        work).1.run.handled = r.run.handled.insert work.unit := handled_handle hfresh
    rwa [hhandle] at heq
  have hthis (id : Nat) : id ∈ s.run.handled ↔ id = work.unit ∨ id ∈ r.run.handled := by
    rw [hdone, Std.ExtTreeSet.mem_insert, Std.LawfulEqCmp.compare_eq_iff_eq, eq_comm]
  have hhandled : Handled B past w offered (r.counting counted) work later
      (s.counting (counted.insert work.unit)) := by
    refine hunderway.handled hw h.faithful (fun id u => h.legible id u) hwaiting ?_
    rw [handle_counting counted hfresh hnot, hhandle]
  obtain ⟨m, hmarks, hm⟩ := marks_handle hbegin hu htable hfresh hhandle
  have hrenewed (id : Nat) : s.Renewed id ↔ m.Renewed id := by
    obtain ⟨rfl, _⟩ | ⟨_, _, rfl⟩ := hm <;> rfl
  have hawaits (id : Nat) : s.Awaits id ↔ m.Awaits id := by
    obtain ⟨rfl, _⟩ | ⟨_, _, rfl⟩ := hm <;> rfl
  have hlater {id : Nat} (hid : (r.begin work later).Awaits id) : r.Awaits id := by
    rw [Awaits, hwaiting]
    exact List.mem_cons_of_mem _ hid
  refine h.of_meets hsane (fun id hid => ?_) hhandled.underway hhandled.meets rfl
    (fun id => hlater) hhandled.works.program.touches hhandled.works.program.evolves ?_ ?_
    (fun id hid => (hrenewed id).2 (hmarks.stays id hid)) (fun id hid => ?_) (fun id hid => ?_)
    fun id hid => (hthis id).2 (.inr hid)
  · rw [Std.ExtTreeSet.mem_insert, Std.LawfulEqCmp.compare_eq_iff_eq, eq_comm]
    exact ((hthis id).1 hid).imp_right (hcounted id)
  · rintro id v rfl
    exact hhandled.idle v
  · rintro id v rfl hv hbody hskipped
    refine hhandled.told u v hu hv hbody fun hrecheck => h.faithful.told work.unit u hu ?_ fun hold => ?_
    · rwa [← (hhandled.works.before.units.becomes hu hv).kind]
    · obtain ⟨rfl, _⟩ | ⟨_, hread, _⟩ := hm
      · refine hskipped ⟨hold.1.imp_right (hmarks.stays _), ?_⟩
        rw [hmarks.scopes]
        exact hold.2
      · rw [hread] at hrecheck
        cases hrecheck
  · exact (hmarks.reads id ((hawaits id).1 hid)).imp hlater (hrenewed id).2
  · obtain ⟨rfl, _⟩ | ⟨scope, _, rfl⟩ := hm
    · rw [hmarks.scopes] at hid
      exact .inl hid
    · have hid : id ∈ m.run.scopes.insert work.unit scope := hid
      rw [Std.ExtTreeMap.mem_insert, Std.LawfulEqCmp.compare_eq_iff_eq, hmarks.scopes] at hid
      exact hid.symm.imp_right fun heq => ⟨heq.symm, (hthis id).2 (.inl heq.symm)⟩

theorem meets_clearBody {known : Definition → Prop} (hbefore : r.Before (r.modifyProgram (·.clearBody id))) :
    Meets B w known (· = id) r (r.modifyProgram (·.clearBody id)) := by
  refine .of_same hbefore rfl fun other v hv _ => ?_
  have hv : (r.program.units.modify id fun u => { u with slots := [] }).get? other = some v := hv
  rw [Catalog.get?_modify_eq] at hv
  split at hv
  · next heq =>
    obtain ⟨u, hu, rfl⟩ := Option.map_eq_some_iff.1 hv
    exact ⟨u, hu, rfl, fun _ => rfl, fun hne => absurd heq.symm hne⟩
  · exact ⟨v, hv, rfl, fun _ => rfl, fun _ => rfl⟩

theorem hasBody_of_readBody_error {fault : Fault} (hget : r.program.units.get? id = some u)
    (h : r.readBody w id = (s, some fault)) : u.kind.hasBody := by
  have hcases := readOutcome w r id
  rw [h] at hcases
  cases hcases with
  | faulty hv hhas => rwa [Option.some.inj (hget.symm.trans hv)]

/-- A unit whose body cannot be read is unread from then on. -/
theorem Trying.fault {fault : Fault} (h : Trying B past w offered left r)
    (hwaiting : r.run.waiting = work :: later)
    (hhandle : ({ r with run := { r.run with waiting := later } } : Resolution).handle w work =
      (s, some fault)) : Trying B past w offered left s := by
  obtain ⟨counted, hcounted, hunderway⟩ := h.underway
  have hmem : work ∈ r.run.waiting := hwaiting ▸ List.mem_cons_self
  have hnot : work.unit ∉ counted := hunderway.agenda.waiting_fresh work hmem
  have hfresh : work.unit ∉ r.run.handled := fun hin => hnot (hcounted _ hin)
  have hbegin := hunderway.begin hwaiting
  obtain ⟨u, hu, htable⟩ := h.sane.waiting work hmem
  cases work with
  | recheck id =>
    rw [handle_recheck id hfresh] at hhandle
    cases (Prod.mk.inj hhandle).2
  | read id =>
    rw [handle_read id hfresh] at hhandle
    have hu : r.program.units.get? id = some u := hu
    have hbody : u.kind.hasBody := hasBody_of_readBody_error (r := r.begin (.read id) later) hu hhandle
    obtain rfl := readBody_eq_error hhandle
    have hchanges : r.program.Changes id (r.program.clearBody id) := .single (.clear u hu hbody)
    have hagrees : ((r.counting counted).begin (.read id) later).Agrees
        (((r.counting counted).begin (.read id) later).modifyProgram (·.clearBody id)) :=
      ⟨fun _ => .rfl, rfl, rfl, rfl, rfl, rfl⟩
    have hworks := hagrees.works hchanges
    have hinsert {a : NodeSet} (unit : Nat) : unit ∈ a.insert id ↔ unit = id ∨ unit ∈ a := by
      rw [Std.ExtTreeSet.mem_insert, Std.LawfulEqCmp.compare_eq_iff_eq, eq_comm]
    have hback (unit : Nat) (hunit : (r.begin (.read id) later).Awaits unit) : r.Awaits unit := by
      rw [Awaits, hwaiting]
      exact List.mem_cons_of_mem _ hunit
    refine h.of_meets (h.sane.mono hchanges.touches.units (fun x hx => .inl ?_) rfl)
      (fun unit hunit => ?_) (hbegin.advance hworks.before hagrees) (meets_clearBody hworks.before) rfl
      hback hchanges.touches hchanges.evolves ?_ ?_ (fun _ hold => hold)
      (fun unit hunit => .inl (hback unit hunit)) (fun _ => .inl)
      fun unit hunit => (hinsert unit).2 (.inr hunit)
    · rw [hwaiting]
      exact List.mem_cons_of_mem _ hx
    · exact (hinsert unit).2 (((hinsert unit).1 hunit).imp_right (hcounted unit))
    · rintro unit v rfl hv hnone
      rw [(hworks.before.units.becomes hu hv).kind, hbody] at hnone
      cases hnone
    · rintro unit v rfl _ _ hskipped
      exact absurd ⟨.inr (h.renewed unit hmem), fun hin => hfresh (h.scopes unit hin)⟩ hskipped

theorem Trying.drop (h : Trying B past w offered left r) :
    Trying B past w offered left { r with run := { r.run with waiting := [] } } := by
  obtain ⟨counted, hcounted, hunderway⟩ := h.underway
  have hin (id : Nat) : id ∈ counted.insertMany (r.run.waiting.map Work.unit) ↔
      id ∈ counted ∨ ∃ work ∈ r.run.waiting, work.unit = id := by
    simp [Std.ExtTreeSet.mem_insertMany_list]
  refine ⟨⟨fun _ hwork => absurd hwork List.not_mem_nil, h.sane.found⟩,
    ⟨counted.insertMany (r.run.waiting.map Work.unit), fun id hid => (hin id).2 (.inl (hcounted id hid)),
      hunderway.remembers.mono (before_of_eq rfl rfl) rfl rfl rfl, ?_,
      fun id hmet => (hunderway.ready id hmet).mono (before_of_eq rfl rfl)⟩, h.faithful,
    fun _ _ hawaits => absurd hawaits List.not_mem_nil,
    fun _ hawaits => absurd hawaits List.not_mem_nil, h.scopes⟩
  have hagenda := hunderway.agenda
  refine ⟨List.nodup_nil, fun _ hwork => absurd hwork List.not_mem_nil,
    fun _ hwork => absurd hwork List.not_mem_nil, fun _ hwork => absurd hwork List.not_mem_nil,
    fun id hid => ?_, fun id hid => ?_, fun id hmet => ?_⟩
  · rcases (hin id).1 hid with hid | ⟨work, hwork, rfl⟩
    · exact hagenda.handled_met id hid
    · exact hagenda.waiting_met work hwork
  · rcases (hin id).1 hid with hid | ⟨work, hwork, rfl⟩
    · exact hagenda.handled_unit id hid
    · exact hagenda.waiting_unit work hwork
  · refine (hagenda.covered id hmet).imp_right fun hcovered => .inl ((hin id).2 ?_)
    exact hcovered

/-- Working off what waits keeps what holds between two pieces of work, also if it fails. -/
theorem Trying.drain (fuel : Nat) (h : Trying B past w offered left r)
    (hw : Dependable B past w offered) : Trying B past w offered left (r.drain w fuel).1 := by
  have hlast := drainOutcome (w := w) (fun hr => Trying.handle hr hw) h fuel
  generalize r.drain w fuel = k at hlast ⊢
  cases hlast with
  | done hs | stopped hs => exact hs
  | failed hr hwaiting hhandle => exact hr.fault hwaiting hhandle

/-- So does meeting the unit of an entry point. -/
theorem Trying.unitFor (h : Trying B past w offered left r) (hw : Dependable B past w offered)
    (hoffered : offered d)
    (hbody : d.kind.hasBody → w.events d.body = B name d.identity d.timestamp) :
    Trying B past w offered left (r.unitFor name d).1 := by
  obtain ⟨counted, hcounted, hunderway⟩ := h.underway
  obtain ⟨hs, hlooked, _⟩ := hunderway.unitFor hw.times name hoffered
  have hmeets : Meets B w (Seen past offered) (fun _ => False) _ _ :=
    hunderway.meets_unitFor hw.times name hoffered (.inr hoffered) hbody
  rw [unitFor_counting] at hs hlooked hmeets
  have hmarks := marks_unitFor h.sane name d
  have hhandled : (r.unitFor name d).1.run.handled = r.run.handled :=
    congrArg (·.1.run.handled) (unitFor_counting r.run.handled r name d)
  refine h.of_meets (h.sane.unitFor name d).1 (fun id hid => ?_) hs hmeets rfl (fun _ hid => hid)
    hlooked.program.touches (.mono (fun _ _ hgrow => ⟨0, .grow hgrow⟩) _ _ hlooked.program)
    (fun _ _ => False.elim) (fun _ _ => False.elim) hmarks.stays hmarks.reads (fun id hid => ?_)
    fun id hid => ?_
  · exact hcounted id (hhandled ▸ hid)
  · exact .inl (hmarks.scopes ▸ hid)
  · rwa [hhandled]

/-- The body of every unit that was found new or newer waits to be read, or was read. -/
def Thorough (r : Resolution) : Prop := ∀ id u, r.program.units.get? id = some u → u.kind.hasBody →
  r.Renewed id → r.Awaits id ∨ id ∈ r.run.scopes

/-- A unit that was found new or newer in such a part of a run waits to be read, if those that were
so before wait or were read. -/
theorem Marks.thorough (h : Marks r s) (hknown : r.Renewed id → id < r.program.units.size)
    (hold : ∀ u, r.program.units.get? id = some u → u.kind.hasBody → r.Renewed id →
      r.Awaits id ∨ id ∈ r.run.scopes)
    (hu : s.program.units.get? id = some u) (hbody : u.kind.hasBody) (hrenewed : s.Renewed id) :
    s.Awaits id ∨ id ∈ s.run.scopes := by
  rcases h.renewed id hrenewed with hbefore | hawaits | ⟨v, hv, hshared⟩
  · obtain ⟨v, hv⟩ := Catalog.exists_get? (hknown hbefore)
    have hsame := hold v hv (by rwa [← (h.units.becomes hv hu).kind]) hbefore
    rw [h.scopes]
    exact hsame.imp_left (h.awaits id)
  · exact .inl hawaits
  · obtain rfl := Option.some.inj (hu.symm.trans hv)
    rw [UnitKind.isSharedTable_of_hasBody hbody] at hshared
    cases hshared

theorem Trying.lt_size (h : Trying B past w offered left r) (hrenewed : r.Renewed id) :
    id < r.program.units.size := by
  obtain ⟨_, _, hunderway⟩ := h.underway
  exact (hunderway.ready id hrenewed.met).lt_size

/-- A piece of work that succeeds reads the body that waited. -/
theorem Thorough.handle (h : Thorough r) (htrying : Trying B past w offered left r)
    (hwaiting : r.run.waiting = work :: later)
    (hhandle : ({ r with run := { r.run with waiting := later } } : Resolution).handle w work =
      (s, none)) : Thorough s := by
  obtain ⟨counted, hcounted, hunderway⟩ := htrying.underway
  have hmem : work ∈ r.run.waiting := hwaiting ▸ List.mem_cons_self
  have hfresh : work.unit ∉ r.run.handled := fun hin =>
    hunderway.agenda.waiting_fresh work hmem (hcounted _ hin)
  have hbegin : (r.begin work later).Sane := htrying.sane.begin hwaiting
  obtain ⟨u, hu, htable⟩ := htrying.sane.waiting work hmem
  have hnodup := hunderway.agenda.nodup
  rw [show (r.counting counted).run.waiting = work :: later from hwaiting, List.map_cons,
    List.nodup_cons] at hnodup
  obtain ⟨m, hmarks, hm⟩ := marks_handle hbegin hu htable hfresh hhandle
  have hother {id : Nat} {v : BuildUnit} (hid : work = .read work.unit → id ≠ work.unit)
      (hv : m.program.units.get? id = some v) (hbody : v.kind.hasBody) (hrenewed : m.Renewed id) :
      m.Awaits id ∨ id ∈ m.run.scopes := by
    refine hmarks.thorough htrying.lt_size (fun u hu hbody hbefore => ?_) hv hbody hrenewed
    refine (h id u hu hbody hbefore).imp_left fun hawaits => ?_
    rw [Awaits, hwaiting] at hawaits
    refine (List.mem_cons.1 hawaits).resolve_left fun heq => hid ?_ ?_ <;> rw [← heq] <;> rfl
  obtain ⟨rfl, hnone⟩ | ⟨scope, hread, rfl⟩ := hm
  · intro id v hv hbody hrenewed
    refine hother (fun hread heq => ?_) hv hbody hrenewed
    subst heq
    have hcode := (hmarks.units.becomes hu hv).kind
    rcases hnone hread with hnone | hnone
    · rw [hcode, hnone] at hbody
      cases hbody
    · obtain ⟨v', hv', hready⟩ := (hunderway.ready work.unit (hunderway.agenda.waiting_met work hmem)).unit
      obtain rfl := Option.some.inj (hu.symm.trans hv')
      have hsome := (hready htable).1
      rw [hnone] at hsome
      cases hsome
  · intro id v hv hbody hrenewed
    have hin {unit : Nat} : unit ∈ m.run.scopes.insert work.unit scope ↔
        unit = work.unit ∨ unit ∈ m.run.scopes := by
      rw [Std.ExtTreeMap.mem_insert, Std.LawfulEqCmp.compare_eq_iff_eq, eq_comm]
    by_cases heq : id = work.unit
    · exact .inr (hin.2 (.inl heq))
    · exact (hother (fun _ => heq) hv hbody hrenewed).imp_right fun hold => hin.2 (.inr hold)

/-- If all work succeeds, nothing waits, and the body of every unit that was found new or newer was
read. -/
theorem Thorough.drain (h : Thorough r) (htrying : Trying B past w offered left r)
    (hw : Dependable B past w offered) (hdrain : r.drain w fuel = (s, none)) :
    Thorough s ∧ s.run.waiting = [] := by
  obtain ⟨⟨hs, -⟩, hempty⟩ := drain_induction
    (P := fun s => Thorough s ∧ Trying B past w offered left s)
    (fun ⟨hs, htrying⟩ hwaiting hhandle =>
      ⟨hs.handle htrying hwaiting hhandle, htrying.handle hw hwaiting hhandle⟩) ⟨h, htrying⟩ hdrain
  exact ⟨hs, hempty⟩

/-- The unit of an entry point waits to be read if it is found new or newer. -/
theorem Thorough.unitFor (h : Thorough r) (htrying : Trying B past w offered left r) :
    Thorough (r.unitFor name d).1 := fun id _ =>
  (marks_unitFor htrying.sane name d).thorough htrying.lt_size fun u hu hbody => h id u hu hbody

/-- An entry point that is analyzed, by its definition if that is known. -/
abbrev Call := String × Option Definition

/-- Analyzes entry points one after the other in one run. The second component tells whether all
analyses succeed. -/
def analyzeAll (w : World) (r : Resolution) : List Call → Resolution × Bool
  | [] => (r, true)
  | (entry, definition) :: calls =>
    let (r, result) := r.analyze w entry definition
    let (r, fine) := analyzeAll w r calls
    (r, result.isOk && fine)

/-- The first entry point is analyzed before the others, which are analyzed even if it fails. -/
theorem analyzeAll_cons (w : World) (r : Resolution) (call : Call) (calls : List Call) :
    r.analyzeAll w (call :: calls) =
      (((r.analyze w call.1 call.2).1.analyzeAll w calls).1, (r.analyze w call.1 call.2).2.isOk &&
        ((r.analyze w call.1 call.2).1.analyzeAll w calls).2) := rfl

/-- The definitions that a run may meet: those that the lookup gives and those of the entry points. -/
def OfferedTo (w : World) (calls : List Call) (d : Definition) : Prop :=
  w.lookup.Offers d ∨ ∃ call ∈ calls, call.2 = some d

/-- A world in which entry points may be analyzed one after the other, on top of a program whose units
come from past definitions. -/
structure Callable (B : Library) (past : Definition → Prop) (w : World) (calls : List Call) : Prop
    extends Dependable B past w (OfferedTo w calls) where
  entries : ∀ call ∈ calls, ∀ d, call.2 = some d → d.kind.hasBody →
    w.events d.body = B call.1 d.identity d.timestamp

/-- A run leaves a unit unread that was left so before, or that it found new or newer if one of its
analyses failed, unless it has read the body of the unit. -/
def LeftUnread (left : Nat → Prop) (fine : Bool) (r : Resolution) (id : Nat) : Prop :=
  (left id ∨ fine = false ∧ r.Renewed id) ∧ id ∉ r.run.scopes

/-- The programs that runs lead to, one after the other and each in its own world, whether their
analyses succeed or fail; the definitions that were on offer on the way, and the units that were left
unread. In between a program may be saved and restored. -/
inductive Attempts (B : Library) : (Definition → Prop) → (Nat → Prop) → Program → Prop where
  | empty : Attempts B (fun _ => False) (fun _ => False) .empty
  | run {past : Definition → Prop} {left : Nat → Prop} {p : Program} {w : World} {calls : List Call}
      {r : Resolution} {fine : Bool} (h : Attempts B past left p) (hw : Callable B past w calls)
      (hcalls : (start p).analyzeAll w calls = (r, fine)) :
      Attempts B (Seen past (OfferedTo w calls)) (LeftUnread left fine r) r.program
  | restored {past : Definition → Prop} {left : Nat → Prop} {p : Program}
      (h : Attempts B past left p) : Attempts B past left (.restore p.save)

variable {p : Program} {calls : List Call} {call : Call} {fine : Bool}

theorem Trying.start (h : p.Faithful B past left) :
    Trying B past w offered left (Resolution.start p) where
  sane := sane_start p
  underway := ⟨∅, fun _ hid => absurd hid Std.ExtTreeSet.not_mem_empty, .start w offered p⟩
  faithful := by
    refine ⟨h.linked, h.permitted, h.bare, h.idle, fun id u hu hfile => ?_,
      fun id u hu hbody hskipped => h.told id u hu hbody fun hleft => hskipped ⟨.inl hleft, ?_⟩⟩
    · obtain ⟨d, hd, heq⟩ := h.stems id u hu hfile
      exact ⟨d, .inl hd, heq⟩
    · exact Std.ExtTreeMap.not_mem_empty
  legible _ _ hawaits := absurd hawaits List.not_mem_nil
  renewed _ hawaits := absurd hawaits List.not_mem_nil
  scopes _ hid := absurd hid Std.ExtTreeMap.not_mem_empty

/-- The definition of an entry point is on offer, and its body says what the library has. -/
theorem Callable.bodies_entry (hw : Callable B past w calls) (hcall : call ∈ calls)
    (hd : call.2.or (w.lookup.find call.1 none) = some d) :
    OfferedTo w calls d ∧ (d.kind.hasBody → w.events d.body = B call.1 d.identity d.timestamp) := by
  rcases Option.or_eq_some_iff.1 hd with hthis | ⟨_, hfind⟩
  · exact ⟨.inr ⟨call, hcall, hthis⟩, hw.entries call hcall d hthis⟩
  · exact ⟨.inl ⟨_, _, hfind⟩, hw.bodies call.1 none d hfind⟩

/-- An analysis keeps what holds between two pieces of work, also if it fails. -/
theorem Trying.analyze (h : Trying B past w (OfferedTo w calls) left r)
    (hw : Callable B past w calls) (hcall : call ∈ calls) :
    Trying B past w (OfferedTo w calls) left (r.analyze w call.1 call.2).1 := by
  have hdrained {d : Definition} (hd : call.2.or (w.lookup.find call.1 none) = some d) :
      Trying B past w (OfferedTo w calls) left ((r.unitFor call.1 d).1.drain w workLimit).1 := by
    obtain ⟨hoffered, hbody⟩ := hw.bodies_entry hcall hd
    exact (h.unitFor hw.toDependable hoffered hbody).drain workLimit hw.toDependable
  have hanalyze := analyzeOutcome w r call.1 call.2
  generalize r.analyze w call.1 call.2 = k at hanalyze ⊢
  cases hanalyze with
  | undefined | table => exact h
  | done hd _ hdrain =>
    have hlast := hdrained hd
    rwa [hdrain] at hlast
  | failed hd _ hdrain =>
    have hlast := hdrained hd
    rw [hdrain] at hlast
    exact hlast.drop

/-- The rest of the calls of a run. -/
theorem Trying.analyzeAll {rest : List Call} (h : Trying B past w (OfferedTo w calls) left r)
    (hw : Callable B past w calls) (hrest : ∀ call ∈ rest, call ∈ calls) :
    Trying B past w (OfferedTo w calls) left (r.analyzeAll w rest).1 := by
  induction rest generalizing r with
  | nil => exact h
  | cons call rest ih =>
    exact ih (h.analyze hw (hrest call List.mem_cons_self)) fun x hx =>
      hrest x (List.mem_cons_of_mem _ hx)

/-- An analysis that succeeds leaves no work behind. -/
theorem Thorough.analyze {found : Option Nat} (h : Thorough r) (hempty : r.run.waiting = [])
    (htrying : Trying B past w (OfferedTo w calls) left r) (hw : Callable B past w calls)
    (hcall : call ∈ calls) (hanalyze : r.analyze w call.1 call.2 = (s, .ok found)) :
    Thorough s ∧ s.run.waiting = [] := by
  cases found with
  | none =>
    obtain rfl := eq_of_analyze_none hanalyze
    exact ⟨h, hempty⟩
  | some root =>
    obtain ⟨d, hd, _, _, _, hdrain⟩ := analyze_ok hanalyze
    obtain ⟨hoffered, hbody⟩ := hw.bodies_entry hcall hd
    exact (h.unitFor htrying).drain (htrying.unitFor hw.toDependable hoffered hbody) hw.toDependable
      hdrain

/-- If all analyses succeed, nothing waits in the end, and all that was found new or newer was
read. -/
theorem Thorough.analyzeAll {rest : List Call} (h : Thorough r) (hempty : r.run.waiting = [])
    (htrying : Trying B past w (OfferedTo w calls) left r) (hw : Callable B past w calls)
    (hrest : ∀ call ∈ rest, call ∈ calls) (hcalls : r.analyzeAll w rest = (s, true)) :
    Thorough s ∧ s.run.waiting = [] := by
  induction rest generalizing r with
  | nil =>
    obtain rfl := (Prod.mk.inj hcalls).1
    exact ⟨h, hempty⟩
  | cons call rest ih =>
    have hcall := hrest call List.mem_cons_self
    have hnext := htrying.analyze hw hcall
    rw [analyzeAll_cons] at hcalls
    obtain ⟨hs, hfine⟩ := Prod.mk.inj hcalls
    obtain ⟨hok, hfine⟩ := Bool.and_eq_true_iff.1 hfine
    cases hanalyze : (r.analyze w call.1 call.2).2 with
    | error fault =>
      rw [hanalyze] at hok
      cases hok
    | ok found =>
      obtain ⟨hthis, hempty'⟩ := h.analyze hempty htrying hw hcall (Prod.ext rfl hanalyze)
      exact ih hthis hempty' hnext (fun x hx => hrest x (List.mem_cons_of_mem _ hx)) (Prod.ext hs hfine)

/-- After a run what is recorded of a unit is what its body says, unless the unit was left unread. -/
theorem Trying.faithful_of_calls (h : p.Faithful B past left) (hw : Callable B past w calls)
    (hcalls : (Resolution.start p).analyzeAll w calls = (r, fine)) :
    r.program.Faithful B (Seen past (OfferedTo w calls)) (LeftUnread left fine r) := by
  have hstart : Trying B past w (OfferedTo w calls) left (Resolution.start p) := .start h
  have htrying := hstart.analyzeAll hw fun _ hcall => hcall
  rw [hcalls] at htrying
  have hfaithful := htrying.faithful
  refine ⟨hfaithful.linked, hfaithful.permitted, hfaithful.bare, hfaithful.idle, hfaithful.stems,
    fun id u hu hbody hread => hfaithful.told id u hu hbody fun hskipped => ?_⟩
  rcases hskipped.1 with hleft | hrenewed
  · exact hread ⟨.inl hleft, hskipped.2⟩
  · cases fine with
    | false => exact hread ⟨.inr ⟨rfl, hrenewed⟩, hskipped.2⟩
    | true =>
      have hthorough : Thorough (Resolution.start p) := fun id u _ _ hrenewed =>
        absurd hrenewed.met Std.ExtTreeMap.not_mem_empty
      obtain ⟨hthis, hempty⟩ := hthorough.analyzeAll rfl hstart hw (fun _ hcall => hcall) hcalls
      refine (hthis id u hu hbody hrenewed).elim (fun hawaits => ?_) hskipped.2
      rw [Awaits, hempty] at hawaits
      cases hawaits

/-- Whatever runs a program has been through, what it records of a unit is what the body of that
unit says, but for the units that were left unread. -/
theorem Attempts.faithful (h : Attempts B past left p) : p.Faithful B past left := by
  induction h with
  | empty => exact Program.faithful_empty
  | run _ hw hcalls ih => exact Trying.faithful_of_calls ih hw hcalls
  | restored _ ih => exact ih.restore_save

variable {entry : String} {definition : Option Definition} {root : Nat}

/-- Further entry points are analyzed after the others. -/
theorem analyzeAll_append (rest : List Call) : r.analyzeAll w (calls ++ rest) =
    (((r.analyzeAll w calls).1.analyzeAll w rest).1,
      (r.analyzeAll w calls).2 && ((r.analyzeAll w calls).1.analyzeAll w rest).2) := by
  induction calls generalizing r with
  | nil => rfl
  | cons call calls ih =>
    rw [List.cons_append, analyzeAll_cons, ih, analyzeAll_cons, Bool.and_assoc]

/-- When an analysis succeeds, what is recorded of every unit with a body is what its body says as of
the recorded time, unless the unit was left unread because an analysis failed before. -/
theorem told_of_attempts (h : Attempts B past left p)
    (hw : Callable B past w (calls ++ [(entry, definition)]))
    (hcalls : (start p).analyzeAll w calls = (r, fine))
    (hanalyze : r.analyze w entry definition = (s, .ok (some root)))
    (hu : s.program.units.get? id = some u) (hbody : u.kind.hasBody)
    (hread : ¬ LeftUnread left fine s id) : s.program.Told B id u := by
  have hall : (start p).analyzeAll w (calls ++ [(entry, definition)]) = (s, fine) := by
    rw [analyzeAll_append, hcalls, analyzeAll_cons]
    dsimp only
    rw [hanalyze]
    exact congrArg (s, ·) (Bool.and_true fine)
  exact (Trying.faithful_of_calls h.faithful hw hall).told id u hu hbody hread

/-- The bodies of two scripts: the first calls the second, which is malformed. -/
def brokenBodies : Library := fun name _ _ =>
  if name = "f" then .ok [.reference "g" ⟨0, 1⟩] else .error (.unreadable ⟨"g.m"⟩ .missing)

/-- The world of these scripts. -/
def brokenWorld : World where
  lookup := twoFiles ("f", .script ⟨"f.m"⟩) ("g", .script ⟨"g.m"⟩)
  events
    | .file ⟨"f.m"⟩ => .ok [.reference "g" ⟨0, 1⟩]
    | _ => .error (.unreadable ⟨"g.m"⟩ .missing)

/-- In this world the first script may be analyzed, on top of any program of its time. -/
theorem callable_brokenWorld (hpast : ∀ d, past d → d.timestamp = 1) :
    Callable brokenBodies past brokenWorld [("f", none)] := by
  have hoffered {d : Definition} (hd : OfferedTo brokenWorld [("f", none)] d) : d.timestamp = 1 := by
    rcases hd with hoffers | ⟨call, hcall, hnone⟩
    · exact timestamp_of_offers_twoFiles hoffers
    · rw [List.mem_singleton.1 hcall] at hnone
      cases hnone
  have hfound {name : String} {directory : Option FilePath} {d : Definition}
      (hfind : brokenWorld.lookup.find name directory = some d) :
      (name = "f" ∧ d = ⟨.script ⟨"f.m"⟩, 1, .file ⟨"f.m"⟩⟩) ∨
        (name = "g" ∧ d = ⟨.script ⟨"g.m"⟩, 1, .file ⟨"g.m"⟩⟩) := by
    obtain ⟨⟨name', kind⟩, hlisted, hpath⟩ := Option.bind_eq_some_iff.1 hfind
    have hname : name' = name := by simpa using List.find?_some hlisted
    obtain ⟨path, hkind, rfl⟩ := Option.map_eq_some_iff.1 hpath
    rcases List.mem_pair.1 (List.mem_of_find?_eq_some hlisted) with heq | heq <;> cases heq <;>
      cases hkind
    · exact .inl ⟨hname.symm, rfl⟩
    · exact .inr ⟨hname.symm, rfl⟩
  refine ⟨⟨⟨ignoresSpelling_twoFiles _ _, fun d d' hd hd' _ _ => by rw [hoffered hd, hoffered hd'],
    fun _ => .inl⟩, fun d d' hd hd' _ _ => ?_, fun name directory d hfind _ => ?_, ?_,
    fun name directory d events hfind _ _ hevents hname => ?_⟩, fun call hcall d hnone => ?_⟩
  · rw [hpast d hd, hoffered hd']
  · rcases hfound hfind with ⟨rfl, rfl⟩ | ⟨rfl, rfl⟩ <;> rfl
  · rintro d ⟨name, directory, hfind⟩
    rcases hfound hfind with ⟨_, rfl⟩ | ⟨_, rfl⟩ <;> simp
  · rcases hfound hfind with ⟨rfl, _⟩ | ⟨rfl, _⟩
    · obtain rfl := Except.ok.inj hevents
      exact absurd hname (by decide)
    · cases hevents
  · rw [List.mem_singleton.1 hcall] at hnone
    cases hnone

/-- A run in which the analysis of the first script fails. -/
def brokenRun : Resolution × Bool := (start .empty).analyzeAll brokenWorld [("f", none)]

/-- The first script has been read when the analysis fails, so its record is right also later. -/
theorem told_of_attempts_brokenWorld :
    ∃ past left p r root u, Attempts brokenBodies past left p ∧
      Callable brokenBodies past brokenWorld ([] ++ [("f", none)]) ∧
      (start p).analyze brokenWorld "f" none = (r, .ok (some root)) ∧
      r.program.units.get? root = some u ∧ u.kind.hasBody ∧ ¬ LeftUnread left true r root ∧
      r.program.Told brokenBodies root u := by
  have hfails : brokenRun.2 = false := by cbv
  have hread : 0 ∈ brokenRun.1.run.scopes := Std.ExtTreeMap.contains_iff_mem.1 (by cbv)
  have hagain : ((start brokenRun.1.program).analyze brokenWorld "f" none).2 = .ok (some 0) := by cbv
  have hunit : (((start brokenRun.1.program).analyze brokenWorld "f" none).1.program.units.get? 0).map
      (·.kind) = some (.script ⟨"f.m"⟩) := by cbv
  obtain ⟨r, h⟩ := exists_of_snd _ hagain
  rw [h] at hunit
  obtain ⟨u, hu, hkind⟩ := Option.map_eq_some_iff.1 hunit
  have hattempts := Attempts.empty.run (callable_brokenWorld fun _ => False.elim)
    (Prod.ext rfl hfails : (start .empty).analyzeAll brokenWorld [("f", none)] = (brokenRun.1, false))
  have hpast (d : Definition)
      (hd : Seen (fun _ => False) (OfferedTo brokenWorld [("f", none)]) d) : d.timestamp = 1 := by
    rcases hd with hnone | hoffers | ⟨call, hcall, hnone⟩
    · exact hnone.elim
    · exact timestamp_of_offers_twoFiles hoffers
    · rw [List.mem_singleton.1 hcall] at hnone
      cases hnone
  have hcallable := callable_brokenWorld hpast
  have hbody : u.kind.hasBody := by rw [hkind]; rfl
  have hleft : ¬ LeftUnread (LeftUnread (fun _ => False) false brokenRun.1) true r 0 := by
    rintro ⟨hleft | ⟨hfalse, _⟩, _⟩
    · exact hleft.2 hread
    · cases hfalse
  have hnone : (start brokenRun.1.program).analyzeAll brokenWorld [] =
      (start brokenRun.1.program, true) := rfl
  exact ⟨_, _, _, r, 0, u, hattempts, hcallable, h, hu, hbody, hleft,
    told_of_attempts hattempts hcallable hnone h hu hbody hleft⟩

end Resolution

end ScriptBuild
