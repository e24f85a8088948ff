import ScriptBuild.Proofs.Resolution.Tracking

namespace ScriptBuild

/-- Only units with code take names. -/
def Program.TakenByCode (p : Program) : Prop :=
  ∀ id t n, p.Takes id t n → ∃ u, p.units.get? id = some u ∧ u.kind.hasBody

theorem Program.takenByCode_of_imports {p : Program} (h : p.imports = ∅) : p.TakenByCode :=
  fun id t n htakes => by simp [Takes, importsOf, h] at htakes

namespace Resolution

variable {w : World} {r r₀ s : Resolution} {id other root fuel : Nat} {name slot n : String}
  {t : Target} {d : Definition} {kind : UnitKind} {work : Work} {later new : List Work}
  {freshness : Freshness} {todo : List (Target × String)} {x : Target × String} {changed : Bool}

/-- A unit need not be met again: it is a shared table, or was handled, or waits. -/
def Scheduled (r : Resolution) (id : Nat) : Prop :=
  r.IsTable id ∨ id ∈ r.run.handled ∨ ∃ work ∈ r.run.waiting, work.unit = id

/-- Every unit that was met or found is scheduled, and those that wait have bodies. -/
structure Scheduling (r : Resolution) : Prop where
  met : ∀ id, r.Met id → r.Scheduled id
  found : ∀ directory name id, r.foundFrom directory name = some id → r.Scheduled id
  bodies : ∀ work ∈ r.run.waiting,
    ∃ u, r.program.units.get? work.unit = some u ∧ u.body.isSome

theorem scheduling_start (p : Program) : (start p).Scheduling where
  met _ hmet := absurd hmet Std.ExtTreeMap.not_mem_empty
  found _ _ _ heq := by simp [foundFrom, start, Run.start] at heq
  bodies _ hmem := absurd hmem List.not_mem_nil

/-- A part of a run handles nothing and strikes nothing off, and schedules what it meets. -/
structure Enlists (r s : Resolution) : Prop where
  units : r.program.units.Grows s.program.units
  handled : s.run.handled = r.run.handled
  waiting : ∀ work ∈ r.run.waiting, work ∈ s.run.waiting
  keeps : r.Scheduling → s.Scheduling

/-- A unit that is scheduled stays so as long as what was handled or waits is not forgotten. -/
theorem Scheduled.mono (h : r.Scheduled id) (hunits : r.program.units.Grows s.program.units)
    (hhandled : ∀ id ∈ r.run.handled, id ∈ s.run.handled)
    (hwaiting : ∀ work ∈ r.run.waiting, work ∈ s.run.waiting ∨ work.unit ∈ s.run.handled) :
    s.Scheduled id := by
  rcases h with ⟨u, hu, hshared⟩ | hid | ⟨work, hwork, rfl⟩
  · obtain ⟨v, hv, huv⟩ := hunits id u hu
    exact .inl ⟨v, hv, by rw [huv.kind, hshared]⟩
  · exact .inr (.inl (hhandled id hid))
  · rcases hwaiting work hwork with hwork | hid
    · exact .inr (.inr ⟨work, hwork, rfl⟩)
    · exact .inr (.inl hid)

namespace Enlists

theorem scheduled (h : Enlists r s) (hid : r.Scheduled id) : s.Scheduled id :=
  hid.mono h.units (fun _ hid => by rwa [h.handled]) fun work hwork => .inl (h.waiting work hwork)

theorem refl (r : Resolution) : Enlists r r := ⟨.refl _, rfl, fun _ h => h, fun h => h⟩

theorem trans {r₁ r₂ r₃ : Resolution} (h : Enlists r₁ r₂) (h' : Enlists r₂ r₃) : Enlists r₁ r₃ where
  units := h.units.trans h'.units
  handled := h'.handled.trans h.handled
  waiting work hwork := h'.waiting work (h.waiting work hwork)
  keeps hr := h'.keeps (h.keeps hr)

/-- Some units are met, and some names are found, that are scheduled by then. -/
theorem of_scheduled (hunits : r.program.units.Grows s.program.units)
    (hhandled : s.run.handled = r.run.handled) (hwaiting : s.run.waiting = r.run.waiting ++ new)
    (hmet : ∀ id, s.Met id → r.Met id ∨ s.Scheduled id)
    (hfound : ∀ directory name id, s.foundFrom directory name = some id →
      r.foundFrom directory name = some id ∨ (r.Scheduling → s.Scheduled id))
    (hbodies : ∀ work ∈ new, ∃ u, s.program.units.get? work.unit = some u ∧ u.body.isSome) :
    Enlists r s := by
  have hold (work : Work) (hwork : work ∈ r.run.waiting) : work ∈ s.run.waiting := by
    rw [hwaiting]
    exact List.mem_append_left new hwork
  have hmono {id : Nat} (hid : r.Scheduled id) : s.Scheduled id :=
    hid.mono hunits (fun _ hid => by rwa [hhandled]) fun work hwork => .inl (hold work hwork)
  refine ⟨hunits, hhandled, hold, fun h => ⟨fun id hid => ?_, fun directory name id heq => ?_,
    fun work hwork => ?_⟩⟩
  · exact (hmet id hid).elim (fun hid => hmono (h.met id hid)) fun hid => hid
  · exact (hfound directory name id heq).elim (fun heq => hmono (h.found directory name id heq))
      fun hid => hid h
  · rw [hwaiting] at hwork
    rcases List.mem_append.1 hwork with hwork | hwork
    · obtain ⟨u, hu, hbody⟩ := h.bodies work hwork
      obtain ⟨v, hv, huv⟩ := hunits _ u hu
      exact ⟨v, hv, huv.body hbody⟩
    · exact hbodies work hwork

/-- Only units are met that are scheduled by then, and nothing is found or waits that did not before. -/
theorem of_met (hunits : r.program.units.Grows s.program.units)
    (hmet : ∀ id, s.Met id → r.Met id ∨ s.Scheduled id) (hhandled : s.run.handled = r.run.handled)
    (hwaiting : s.run.waiting = r.run.waiting) (hfound : s.run.found = r.run.found) : Enlists r s :=
  of_scheduled hunits hhandled (hwaiting.trans (List.append_nil _).symm) hmet
    (fun directory name id heq => .inl (by rwa [foundFrom, hfound] at heq))
    fun _ hmem => absurd hmem List.not_mem_nil

/-- Nothing is met, found or put on the schedule. -/
theorem of_same (hunits : r.program.units.Grows s.program.units)
    (hmet : s.run.freshness = r.run.freshness) (hhandled : s.run.handled = r.run.handled)
    (hwaiting : s.run.waiting = r.run.waiting) (hfound : s.run.found = r.run.found) : Enlists r s :=
  of_met hunits (fun id hid => .inl (by rwa [Met, hmet] at hid)) hhandled hwaiting hfound

/-- A unit is met that is a shared table or waits by then. -/
theorem meet (hunits : r.program.units.Grows s.program.units)
    (hrun : s.run = { r.run with
      freshness := r.run.freshness.insert id freshness, waiting := r.run.waiting ++ new })
    (hid : s.IsTable id ∨ ∃ work ∈ new, work.unit = id)
    (hbodies : ∀ work ∈ new, ∃ u, s.program.units.get? work.unit = some u ∧ u.body.isSome) :
    Enlists r s ∧ s.Scheduled id := by
  have hid : s.Scheduled id := by
    refine hid.imp_right fun ⟨work, hwork, hunit⟩ => .inr ⟨work, ?_, hunit⟩
    rw [hrun]
    exact List.mem_append_right _ hwork
  refine ⟨.of_scheduled hunits (by rw [hrun]) (by rw [hrun]) (fun unit hmet => ?_)
    (fun directory name unit heq => .inl (by rwa [foundFrom, hrun] at heq)) hbodies, hid⟩
  have hmet : (r.setFreshness id freshness).Met unit := by rwa [Met, hrun] at hmet
  rcases met_setFreshness.1 hmet with hmet | rfl
  · exact .inl hmet
  · exact .inr hid

end Enlists

/-- Adding a slot to a shared table schedules nothing, as the table needs no turn. -/
theorem enlists_growTable (slot : String) (htable : r.IsTable id) :
    Enlists r (r.growTable id slot) := by
  have hunits := (grows_growTable slot htable).touches.units
  refine .of_met hunits (fun other hmet => (met_growTable hmet).imp_right ?_)
    (by rw [growTable_run]) (by rw [growTable_run]) (by rw [growTable_run])
  rintro rfl
  exact .inl (htable.mono hunits)

/-- Finding or making a shared table schedules nothing, as the table needs no turn. -/
theorem enlists_tableFor (r : Resolution) (slot : String) (htable : kind.isSharedTable) :
    Enlists r (r.tableFor slot kind).1 ∧ (r.tableFor slot kind).1.IsTable (r.tableFor slot kind).2 := by
  cases hmatch : r.program.units.findMatch (tableName kind) kind 0 with
  | some id =>
    rw [tableFor_of_some hmatch]
    have htable := isTable_of_findMatch htable hmatch
    have hgrown := enlists_growTable slot htable
    exact ⟨hgrown, htable.mono hgrown.units⟩
  | none =>
    rw [tableFor_of_none hmatch]
    have hmade := isTable_makeTable (r := r) htable
    have hrun : (r.makeTable kind).run = { r.run with
        freshness := r.run.freshness.insert r.program.units.size .new
        waiting := r.run.waiting ++ [] } := by
      rw [List.append_nil]
      rfl
    obtain ⟨hnew, -⟩ := Enlists.meet Catalog.grows_insert hrun (.inl hmade)
      fun _ hmem => absurd hmem List.not_mem_nil
    have hgrown := enlists_growTable slot hmade
    exact ⟨hnew.trans hgrown, hmade.mono hgrown.units⟩

/-- A unit that is met with a definition is scheduled. -/
theorem enlists_refresh (h : r.Sane) (d : Definition) (hunit : r.IsUnit id) :
    Enlists r (r.refresh id d) ∧ (r.refresh id d).Scheduled id := by
  have hunits := (h.refresh (d := d) hunit).2.touches.units
  obtain ⟨u, hu, -⟩ := hunit
  have hget {f : BuildUnit → BuildUnit} (hname : (f u).name = u.name) :
      (r.program.units.modify id f).get? id = some (f u) := Catalog.get?_modify_of_get? hu hname
  by_cases hnewer : r.Outdated id d
  · rw [refresh_of_outdated hnewer] at hunits ⊢
    refine Enlists.meet hunits rfl (.inr ⟨_, List.mem_singleton_self _, rfl⟩) fun work hwork => ?_
    obtain rfl := List.mem_singleton.1 hwork
    exact ⟨_, hget rfl, rfl⟩
  · rw [refresh_of_not_outdated hnewer] at hunits ⊢
    refine Enlists.meet hunits rfl (.inr ⟨_, List.mem_singleton_self _, rfl⟩) fun work hwork => ?_
    obtain rfl := List.mem_singleton.1 hwork
    exact ⟨_, hget rfl, by cases u.body <;> rfl⟩

/-- The unit of a definition that is not a shared table's is no shared table. -/
theorem isUnit_unitFor (h : r.Sane) (name : String) (htable : d.kind.isSharedTable = false) :
    (r.unitFor name d).1.IsUnit (r.unitFor name d).2 := by
  have hcases := unitOutcome r name d
  generalize r.unitFor name d = k at hcases ⊢
  cases hcases with
  | table hshared => rw [htable] at hshared; cases hshared
  | made => exact ⟨_, Catalog.get?_insert.trans (if_pos rfl), htable⟩
  | met _ hmatch => exact isUnit_of_findMatch htable hmatch
  | refreshed _ hmatch =>
    have hunit := isUnit_of_findMatch htable hmatch
    exact hunit.mono (h.refresh hunit).2.touches.units

/-- The unit that a definition denotes is scheduled. -/
theorem enlists_unitFor (h : r.Sane) (name : String) (d : Definition) :
    Enlists r (r.unitFor name d).1 ∧
      (r.Scheduling → (r.unitFor name d).1.Scheduled (r.unitFor name d).2) := by
  have hcases := unitOutcome r name d
  generalize r.unitFor name d = k at hcases ⊢
  cases hcases with
  | table htable =>
    obtain ⟨henlists, hshared⟩ := enlists_tableFor r name htable
    exact ⟨henlists, fun _ => .inl hshared⟩
  | made =>
    obtain ⟨henlists, hid⟩ := Enlists.meet (r := r) (s := r.makeUnit name d) Catalog.grows_insert rfl
      (.inr ⟨_, List.mem_singleton_self _, rfl⟩) fun work hwork => by
        obtain rfl := List.mem_singleton.1 hwork
        exact ⟨_, Catalog.get?_insert.trans (if_pos rfl), rfl⟩
    exact ⟨henlists, fun _ => hid⟩
  | met _ _ hmet => exact ⟨.refl r, fun hr => hr.met _ hmet⟩
  | refreshed htable hmatch =>
    obtain ⟨henlists, hid⟩ := enlists_refresh h d (isUnit_of_findMatch htable hmatch)
    exact ⟨henlists, fun _ => hid⟩

/-- A unit may be remembered that is scheduled. -/
theorem Enlists.rememberFound (h : Enlists r s) (directory : Option FilePath) (name : String)
    (hid : r.Scheduling → s.Scheduled id) : Enlists r (s.rememberFound directory name id) where
  units := h.units
  handled := h.handled
  waiting := h.waiting
  keeps hr := by
    have hs := h.keeps hr
    refine ⟨hs.met, fun directory' name' other heq => ?_, hs.bodies⟩
    rcases foundFrom_rememberFound_eq_some heq with ⟨rfl, -⟩ | heq
    · exact hid hr
    · exact hs.found directory' name' other heq

/-- Where a name of a unit was found is scheduled, unless it is the unit itself. -/
theorem enlists_lookupExternal (h : r.Sane) (w : World) (id : Nat) (name : String) :
    Enlists r (r.lookupExternal w id name).1 ∧
      (r.Scheduling → ∀ other, (r.lookupExternal w id name).2 = .unit other →
        other = id ∨ (r.lookupExternal w id name).1.Scheduled other) := by
  have hlookup := lookupOutcome w r id name
  generalize r.lookupExternal w id name = k at hlookup ⊢
  cases hlookup with
  | own =>
    refine ⟨.refl r, fun _ => ?_⟩
    rintro other ⟨⟩
    exact .inl rfl
  | recalled _ hfound =>
    refine ⟨.refl r, fun hr => ?_⟩
    rintro _ ⟨⟩
    exact .inr (hr.found _ _ _ hfound)
  | missing => exact ⟨.of_same (.refl _) rfl rfl rfl rfl, fun _ other heq => by cases heq⟩
  | @found names namesIn d =>
    have hlearned : Enlists r (r.learn names namesIn) := .of_same (.refl _) rfl rfl rfl rfl
    obtain ⟨hmet, hid⟩ := enlists_unitFor (h.learn names namesIn) name d
    have hid (hr : r.Scheduling) := hid (hlearned.keeps hr)
    refine ⟨(hlearned.trans hmet).rememberFound _ name hid, fun hr other heq => .inr ?_⟩
    cases heq
    exact hid hr

/-- A unit takes names from itself and from units that are scheduled, but for what is on a list. -/
def Secured (r : Resolution) (id : Nat) (todo : List (Target × String)) : Prop :=
  ∀ other n, r.program.Takes id (.unit other) n →
    other = id ∨ (.unit other, n) ∈ todo ∨ r.Scheduled other

/-- A unit stays secured while its imports stay as they are and no unit is struck off. -/
theorem Secured.mono (h : Secured r id todo) (himports : s.program.importsOf id =
    r.program.importsOf id) (hkeeps : ∀ other, r.Scheduled other → s.Scheduled other) :
    Secured s id todo := by
  intro other n htakes
  rw [Program.Takes, himports] at htakes
  exact (h other n htakes).imp_right (.imp_right (hkeeps other))

/-- A name is recorded as imported from where it was found. -/
theorem Secured.record (h : Secured r id todo)
    (ht : ∀ other, t = .unit other → other = id ∨ r.Scheduled other)
    (hprogram : s.program = r.program.recordImport id t n) (hhandled : s.run.handled = r.run.handled)
    (hwaiting : s.run.waiting = r.run.waiting) : Secured s id todo := by
  have hkeeps {other : Nat} (hother : r.Scheduled other) : s.Scheduled other := by
    refine hother.mono ?_ (fun _ hid => by rwa [hhandled]) fun work hwork => .inl (by rwa [hwaiting])
    rw [hprogram, Program.units_recordImport]
    exact .refl _
  intro other m htakes
  rw [hprogram, Program.takes_recordImport] at htakes
  rcases htakes with ⟨-, htarget, -, -⟩ | htakes
  · exact (ht other htarget.symm).imp_right fun hother => .inr (hkeeps hother)
  · exact (h other m htakes).imp_right (.imp_right hkeeps)

/-- A name is imported from where it was found, and nothing else changes. -/
theorem Enlists.record (h : Enlists r r₀) (hunits : s.program.units = r₀.program.units)
    (hrun : s.run = { r₀.run with unresolved := s.run.unresolved }) : Enlists r s :=
  h.trans (.of_same (by rw [hunits]; exact .refl _) (by rw [hrun]) (by rw [hrun]) (by rw [hrun])
    (by rw [hrun]))

/-- A part of a run that handles a unit, which takes names only from where it is secured. -/
structure Secures (id : Nat) (r s : Resolution) : Prop where
  enlists : Enlists r s
  secured : r.Scheduling → Secured r id [] → Secured s id []

theorem Secures.trans {r₁ r₂ r₃ : Resolution} (h : Secures id r₁ r₂) (h' : Secures id r₂ r₃) :
    Secures id r₁ r₃ where
  enlists := h.enlists.trans h'.enlists
  secured hr hid := h'.secured (h.enlists.keeps hr) (h.secured hr hid)

/-- A global variable is taken from a shared table, which counts as scheduled. -/
theorem secures_declareGlobal (h : r.Sane) (id : Nat) (name : String) :
    Secures id r (declareGlobal id r name) := by
  have hglobals : UnitKind.globals.isSharedTable := rfl
  obtain ⟨henlists, htable⟩ := enlists_tableFor r name hglobals
  have hgrows := (h.tableFor name hglobals).2.1
  rw [declareGlobal_eq]
  refine ⟨henlists.record Program.units_recordImport rfl, fun _ hid => ?_⟩
  refine (hid.mono (hgrows.touches.imports id not_false) fun _ => henlists.scheduled).record ?_ rfl
    rfl rfl
  rintro other ⟨⟩
  exact .inr (.inl htable)

/-- A reference is taken from a unit that is scheduled from then on. -/
theorem secures_importReference (h : r.Sane) (w : World) (hunit : r.IsUnit id)
    (reference : String × Span) : Secures id r (importReference w id r reference) := by
  obtain ⟨henlists, htarget⟩ := enlists_lookupExternal h w id reference.1
  have hgrows := (h.lookupExternal w reference.1 hunit).2.1
  have hrun := importReference_run w r id reference
  refine ⟨henlists.record (importReference_units w r id reference) hrun, fun hr hid => ?_⟩
  have hlooked : Secured (r.lookupExternal w id reference.1).1 id [] :=
    hid.mono (hgrows.touches.imports id not_false) fun _ => henlists.scheduled
  exact hlooked.record (htarget hr) (importReference_program w r id reference) (by rw [hrun])
    (by rw [hrun])

/-- A body that is read has its unit take names only from where it is secured. -/
theorem secures_readBody (h : r.Sane) (w : World) (hcode : r.program.TakenByCode)
    (hbody : ∃ u, r.program.units.get? id = some u ∧ u.body.isSome)
    (hread : r.readBody w id = (s, none)) :
    Enlists r s ∧ (r.Scheduling → Secured s id []) := by
  obtain ⟨u, hget, hsome⟩ := hbody
  have hcases := readOutcome w r id
  rw [hread] at hcases
  cases hcases with
  | bodiless hnone =>
    refine ⟨.refl r, fun _ other n htakes => ?_⟩
    -- The unit knows where its body is, so it has none that could be read.
    obtain ⟨v, hv, hhas⟩ := hcode id _ n htakes
    obtain rfl := Option.some.inj (hget.symm.trans hv)
    rcases hnone u hget with hbody | hbody
    · rw [hbody] at hhas; cases hhas
    · rw [hbody] at hsome; cases hsome
  | @read v _ events hv hhas =>
    have hopen := changes_openBody (Summary.ofEvents events).slots hv hhas
    have hstart : Enlists r (r.openBody id (Summary.ofEvents events).slots) :=
      .of_same hopen.touches.units rfl rfl rfl rfl
    have hnone : Secured (r.openBody id (Summary.ofEvents events).slots) id [] :=
      fun other n htakes => absurd (Program.takes_clearBody.1 htakes).1 (by simp)
    obtain ⟨-, -, hall⟩ := h.importBody_induction
      (P := Secures id (r.openBody id (Summary.ofEvents events).slots)) w hv hhas (.ofEvents events)
      ⟨.refl _, fun _ hid => hid⟩
      (fun _ hs _ hp name _ => hp.trans (secures_declareGlobal hs id name))
      fun _ hs hunit hp reference _ => hp.trans (secures_importReference hs w hunit reference)
    exact ⟨hstart.trans (hall.enlists.trans (.of_same (.refl _) rfl rfl rfl rfl)),
      fun hr => (hall.secured (hstart.keeps hr) hnone).mono rfl fun _ hother => hother⟩

/-- A name on the list is no longer taken from where it was. -/
theorem Secured.remove (h : Secured r id (x :: todo))
    (hprogram : s.program = r.program.removeImport id x.1 x.2)
    (hrun : s.run = r.run) : Secured s id todo := by
  intro other n htakes
  rw [hprogram, Program.takes_removeImport] at htakes
  obtain ⟨htakes, hother⟩ := htakes
  refine (h other n htakes).imp_right (.imp (fun hmem => ?_) fun hother => ?_)
  · refine (List.mem_cons.1 hmem).resolve_left fun heq => hother ⟨rfl, ?_⟩
    rw [← heq]
    exact ⟨rfl, rfl⟩
  · refine hother.mono ?_ (fun _ hid => by rwa [hrun]) fun work hwork => .inl (by rwa [hrun])
    rw [hprogram, Program.units_removeImport]
    exact .refl _

/-- A name on the list is looked up again. -/
theorem secures_recheckImport (h : r.Sane) (w : World) (hunit : r.IsUnit id) (changed : Bool)
    (x : Target × String) (todo : List (Target × String)) :
    Enlists r (recheckImport w id (r, changed) x).1 ∧ (r.Scheduling → Secured r id (x :: todo) →
      Secured (recheckImport w id (r, changed) x).1 id todo) := by
  obtain ⟨henlists, htarget⟩ := enlists_lookupExternal h w id x.2
  have hgrows := (h.lookupExternal w x.2 hunit).2.1
  have hlooked (hid : Secured r id (x :: todo)) :
      Secured (r.lookupExternal w id x.2).1 id (x :: todo) :=
    hid.mono (hgrows.touches.imports id not_false) fun _ => henlists.scheduled
  have hrun := recheckImport_run w r id changed x
  refine ⟨henlists.record (recheckImport_units w r id changed x) hrun, fun hr hid => ?_⟩
  by_cases heq : (r.lookupExternal w id x.2).2 = x.1
  · rw [recheckImport_of_eq heq]
    intro other n htakes
    rcases hlooked hid other n htakes with hself | hmem | hother
    · exact .inl hself
    · rcases List.mem_cons.1 hmem with hx | hmem
      · exact (htarget hr other (heq.trans (congrArg Prod.fst hx).symm)).imp_right .inr
      · exact .inr (.inl hmem)
    · exact .inr (.inr hother)
  · have hprogram := recheckImport_program_of_ne changed heq
    generalize (recheckImport w id (r, changed) x).1 = s' at hprogram hrun ⊢
    generalize r.lookupExternal w id x.2 = k at *
    obtain ⟨s, t⟩ := k
    have hremoved : Secured (s.modifyProgram (·.removeImport id x.1 x.2)) id todo :=
      (hlooked hid).remove rfl rfl
    refine hremoved.record (fun other hother => (htarget hr other hother).imp_right fun hid => ?_)
      hprogram (by rw [hrun]; rfl) (by rw [hrun]; rfl)
    exact hid.mono (by rw [modifyProgram, Program.units_removeImport]; exact .refl _)
      (fun _ hid => hid) fun _ => .inl

/-- After all imports were looked up again a unit takes names only from scheduled units, by
induction on the list. -/
theorem secures_foldl_recheckImport (h : r.Sane) (w : World) (hunit : r.IsUnit id)
    (changed : Bool) (todo : List (Target × String)) :
    Enlists r (todo.foldl (recheckImport w id) (r, changed)).1 ∧
      (r.Scheduling → Secured r id todo →
        Secured (todo.foldl (recheckImport w id) (r, changed)).1 id []) := by
  induction todo generalizing r changed with
  | nil => exact ⟨.refl r, fun _ hid => hid⟩
  | cons x todo ih =>
    obtain ⟨henlists, hsecured⟩ := secures_recheckImport h w hunit changed x todo
    obtain ⟨hrest, hlast⟩ := ih (h.recheckImport w x changed hunit).1 (hunit.mono henlists.units)
      (recheckImport w id (r, changed) x).2
    exact ⟨henlists.trans hrest, fun hr hid => hlast (henlists.keeps hr) (hsecured hr hid)⟩

/-- When its imports have been looked up again, a unit takes names only from where it is secured. -/
theorem secures_recheck (h : r.Sane) (w : World) (hunit : r.IsUnit id)
    (hid : id ∈ r.run.handled) :
    Enlists r (r.recheck w id).1 ∧ (r.Scheduling → Secured (r.recheck w id).1 id []) := by
  have hstart : Secured r id (lookedUpImports r.program id) := by
    intro other n htakes
    by_cases hglobal : r.program.IsGlobal (.unit other)
    · exact .inr (.inr (.inl (IsGlobal.isTable hglobal)))
    · exact .inr (.inl (mem_lookedUpImports.2 ⟨htakes, hglobal⟩))
  have hall := secures_foldl_recheckImport h w hunit false (lookedUpImports r.program id)
  have hrecheck := recheckOutcome w r id
  generalize r.recheck w id = k at hrecheck ⊢
  cases hrecheck with
  | kept hfold =>
    rw [hfold] at hall
    exact ⟨hall.1, fun hr => hall.2 hr hstart⟩
  | @marked s hfold =>
    rw [hfold] at hall
    obtain ⟨henlists, hsecured⟩ := hall
    have hmarks : Enlists s (s.setFreshness id .dependencyUpdated) := by
      refine .of_met (.refl _) (fun other hmet => ?_) rfl rfl rfl
      rcases met_setFreshness.1 hmet with hmet | rfl
      · exact .inl hmet
      · exact .inr (.inr (.inl (henlists.handled ▸ hid)))
    exact ⟨henlists.trans hmarks, fun hr => (hsecured hr hstart).mono rfl fun _ hother => hother⟩

/-- What holds between two pieces of work, whatever the worlds in which they are done. A unit that
    is met is scheduled to be handled, and one that was handled takes names from such units only; so
    in the end everything that it leads to was handled. -/
structure Closing (r : Resolution) : Prop where
  sane : r.Sane
  scheduling : r.Scheduling
  code : r.program.TakenByCode
  secured : ∀ id ∈ r.run.handled, Secured r id []

/-- A run goes on: what was scheduled stays so, and a unit that was handled takes the same names. -/
structure Extends (r s : Resolution) : Prop where
  units : r.program.units.Grows s.program.units
  scheduled : ∀ id, r.Scheduled id → s.Scheduled id
  handled : ∀ id ∈ r.run.handled, id ∈ s.run.handled
  imports : ∀ id ∈ r.run.handled, s.program.importsOf id = r.program.importsOf id

theorem Extends.refl (r : Resolution) : Extends r r :=
  ⟨.refl _, fun _ h => h, fun _ h => h, fun _ _ => rfl⟩

theorem Extends.trans {r₁ r₂ r₃ : Resolution} (h : Extends r₁ r₂) (h' : Extends r₂ r₃) :
    Extends r₁ r₃ where
  units := h.units.trans h'.units
  scheduled id hid := h'.scheduled id (h.scheduled id hid)
  handled id hid := h'.handled id (h.handled id hid)
  imports id hid := (h'.imports id (h.handled id hid)).trans (h.imports id hid)

/-- At the start of a run only units with code take names, and nothing waits. -/
theorem closing_start {p : Program} (hcode : p.TakenByCode) : (start p).Closing where
  sane := sane_start p
  scheduling := scheduling_start p
  code := hcode
  secured _ hid := absurd hid Std.ExtTreeSet.not_mem_empty

/-- The unit whose turn it is counts as handled, so that it is scheduled still. -/
theorem scheduled_begin (hwaiting : r.run.waiting = work :: later) (hid : r.Scheduled id) :
    (r.begin work later).Scheduled id := by
  refine hid.mono (.refl _) (fun _ hid => Std.ExtTreeSet.mem_insert.2 (.inr hid)) fun x hx => ?_
  rw [hwaiting] at hx
  rcases List.mem_cons.1 hx with rfl | hx
  · exact .inr Std.ExtTreeSet.mem_insert_self
  · exact .inl hx

/-- Taking up a piece of work strikes no unit off. -/
theorem scheduling_begin (h : r.Scheduling) (hwaiting : r.run.waiting = work :: later) :
    (r.begin work later).Scheduling where
  met id hid := scheduled_begin hwaiting (h.met id hid)
  found directory name id heq := scheduled_begin hwaiting (h.found directory name id heq)
  bodies x hx := h.bodies x (hwaiting ▸ List.mem_cons_of_mem _ hx)

/-- Handling a unit with code lets no other unit take names. -/
theorem takenByCode_of_changes {p q : Program} (h : p.TakenByCode) (hchanges : p.Changes id q)
    (hid : ∃ u, p.units.get? id = some u ∧ u.kind.hasBody) : q.TakenByCode := by
  have htouches := hchanges.touches
  intro other t n htakes
  have hother : ∃ u, p.units.get? other = some u ∧ u.kind.hasBody := by
    by_cases heq : other = id
    · exact heq ▸ hid
    · rw [Program.Takes, htouches.imports other heq] at htakes
      exact h other t n htakes
  obtain ⟨u, hu, hhas⟩ := hother
  obtain ⟨v, hv, huv⟩ := htouches.units other u hu
  exact ⟨v, hv, by rw [huv.kind, hhas]⟩

/-- Only units with code have bodies to be read. -/
theorem takenByCode_readBody (h : r.Sane) (hcode : r.program.TakenByCode) (w : World) (id : Nat) :
    (r.readBody w id).1.program.TakenByCode := by
  have hchanges := (h.readBody w id).2
  have hread := readOutcome w r id
  generalize r.readBody w id = k at hchanges hread ⊢
  cases hread with
  | bodiless => exact hcode
  | faulty hget hhas | read hget hhas => exact takenByCode_of_changes hcode hchanges ⟨_, hget, hhas⟩

/-- A fix-up moves names of units that took them before. -/
theorem takenByCode_recheck (h : r.Sane) (hcode : r.program.TakenByCode) (w : World) (id : Nat) :
    (r.recheck w id).1.program.TakenByCode := by
  by_cases hhas : ∃ u, r.program.units.get? id = some u ∧ u.kind.hasBody
  · obtain ⟨u, hu, hbody⟩ := hhas
    have hunit : r.IsUnit id := ⟨u, hu, UnitKind.isSharedTable_of_hasBody hbody⟩
    exact takenByCode_of_changes hcode (h.recheck w hunit).2 ⟨u, hu, hbody⟩
  · rw [recheck_of_idle fun t n htakes => hhas (hcode id t n htakes)]
    exact hcode

/-- Meeting a unit gives names to nobody. -/
theorem takenByCode_unitFor (h : r.Sane) (hcode : r.program.TakenByCode) (name : String)
    (d : Definition) : (r.unitFor name d).1.program.TakenByCode := by
  have htouches := (h.unitFor name d).2.1.touches
  intro other t n htakes
  rw [Program.Takes, htouches.imports other not_false] at htakes
  obtain ⟨u, hu, hhas⟩ := hcode other t n htakes
  obtain ⟨v, hv, huv⟩ := htouches.units other u hu
  exact ⟨v, hv, by rw [huv.kind, hhas]⟩

/-- A unit that was not handled before is handled. -/
theorem Closing.works (h : Closing r) (hwaiting : r.run.waiting = work :: later)
    (hfresh : work.unit ∉ r.run.handled) (hsane : s.Sane)
    (hchanges : (r.begin work later).program.Changes work.unit s.program)
    (hcode : s.program.TakenByCode) (henlists : Enlists (r.begin work later) s)
    (hsecured : Secured s work.unit []) : Closing s ∧ Extends r s := by
  have htouches := hchanges.touches
  have hkeeps (id : Nat) (hid : r.Scheduled id) : s.Scheduled id :=
    henlists.scheduled (scheduled_begin hwaiting hid)
  have hother (id : Nat) (hid : id ∈ r.run.handled) :
      s.program.importsOf id = r.program.importsOf id :=
    htouches.imports id fun heq => hfresh (heq ▸ hid)
  refine ⟨⟨hsane, henlists.keeps (scheduling_begin h.scheduling hwaiting), hcode, fun id hid => ?_⟩,
    htouches.units, hkeeps, fun id hid => ?_, hother⟩
  · rw [henlists.handled] at hid
    rcases mem_begin.1 hid with rfl | hid
    · exact hsecured
    · exact (h.secured id hid).mono (hother id hid) hkeeps
  · rw [henlists.handled]
    exact mem_begin.2 (.inr hid)

/-- A unit that was handled without a fault takes names from scheduled units, and the run goes
on. -/
theorem Closing.handle (h : Closing r) (hwaiting : r.run.waiting = work :: later)
    (hhandle : ({ r with run := { r.run with waiting := later } } : Resolution).handle w work =
      (s, none)) : Closing s ∧ Extends r s := by
  have hmem : work ∈ r.run.waiting := hwaiting ▸ List.mem_cons_self
  have hscheduling := scheduling_begin h.scheduling hwaiting
  have hbegin := h.sane.begin hwaiting
  by_cases hfresh : work.unit ∈ r.run.handled
  · rw [handle_handled hfresh] at hhandle
    cases hhandle
    have hkeeps (id : Nat) (hid : r.Scheduled id) :
        Scheduled { r with run := { r.run with waiting := later } } id := by
      refine hid.mono (.refl _) (fun _ hid => hid) fun x hx => ?_
      rw [hwaiting] at hx
      rcases List.mem_cons.1 hx with rfl | hx
      · exact .inr hfresh
      · exact .inl hx
    have hs := h.scheduling
    exact ⟨⟨⟨hbegin.waiting, hbegin.found⟩,
      ⟨fun id hid => hkeeps id (hs.met id hid), fun directory name id heq =>
        hkeeps id (hs.found directory name id heq), hscheduling.bodies⟩, h.code,
      fun id hid => (h.secured id hid).mono rfl hkeeps⟩, .refl _, hkeeps, fun _ hid => hid,
      fun _ _ => rfl⟩
  · cases work with
    | read id =>
      rw [handle_read id hfresh] at hhandle
      obtain ⟨hsane, hchanges⟩ := hbegin.readBody w id
      have hcode := takenByCode_readBody hbegin h.code w id
      obtain ⟨henlists, hsecured⟩ :=
        secures_readBody hbegin w h.code (h.scheduling.bodies _ hmem) hhandle
      rw [hhandle] at hsane hchanges hcode
      exact h.works hwaiting hfresh hsane hchanges hcode henlists (hsecured hscheduling)
    | recheck id =>
      rw [handle_recheck id hfresh] at hhandle
      have hunit : (r.begin (.recheck id) later).IsUnit id := h.sane.waiting _ hmem
      obtain ⟨hsane, hchanges⟩ := hbegin.recheck w hunit
      have hcode := takenByCode_recheck hbegin h.code w id
      obtain ⟨henlists, hsecured⟩ := secures_recheck hbegin w hunit (mem_begin.2 (.inl rfl))
      cases hhandle
      exact h.works hwaiting hfresh hsane hchanges hcode henlists (hsecured hscheduling)

/-- When nothing waits any more, all that was scheduled was handled. -/
theorem Closing.drain (h : Closing r) (hdrain : r.drain w fuel = (s, none)) :
    Closing s ∧ Extends r s ∧ s.run.waiting = [] := by
  have hall := drain_induction (P := fun s => Closing s ∧ Extends r s)
    (fun ⟨hs, hextends⟩ hwaiting hhandle =>
      (hs.handle hwaiting hhandle).imp_right hextends.trans) ⟨h, .refl r⟩ hdrain
  exact and_assoc.1 hall

/-- An analysis that succeeds handles the entry point, unless that is handled already, and leaves
nothing waiting. -/
theorem Closing.analyze (h : Closing r) {entry : String} {definition : Option Definition}
    (hanalyze : r.analyze w entry definition = (s, .ok (some root))) :
    Closing s ∧ Extends r s ∧ s.run.waiting = [] ∧ root ∈ s.run.handled := by
  have hcases := analyzeOutcome w r entry definition
  rw [hanalyze] at hcases
  cases hcases with
  | @done d _ _ htable hdrain =>
    obtain ⟨hsane, hgrows, -⟩ := h.sane.unitFor entry d
    obtain ⟨henlists, hroot⟩ := enlists_unitFor h.sane entry d
    have himports (id : Nat) : (r.unitFor entry d).1.program.importsOf id = r.program.importsOf id :=
      hgrows.touches.imports id not_false
    have hmet : Closing (r.unitFor entry d).1 := by
      refine ⟨hsane, henlists.keeps h.scheduling, takenByCode_unitFor h.sane h.code entry d,
        fun other hid => ?_⟩
      rw [henlists.handled] at hid
      exact (h.secured other hid).mono (himports other) fun _ => henlists.scheduled
    have hextends : Extends r (r.unitFor entry d).1 :=
      ⟨henlists.units, fun _ => henlists.scheduled, fun _ hid => by rwa [henlists.handled],
        fun id _ => himports id⟩
    obtain ⟨hlast, hrest, hempty⟩ := hmet.drain hdrain
    refine ⟨hlast, hextends.trans hrest, hempty, ?_⟩
    rcases hrest.scheduled _ (hroot h.scheduling) with ⟨v, hv, hshared⟩ | hid | ⟨work, hwork, -⟩
    · obtain ⟨v', hv', htable'⟩ := (isUnit_unitFor h.sane entry htable).mono hrest.units
      rw [Option.some.inj (hv.symm.trans hv'), htable'] at hshared
      cases hshared
    · exact hid
    · rw [hempty] at hwork
      cases hwork

/-- Noting that some units are built changes nothing if they were met. -/
theorem Closing.foldl_markBuilt (h : Closing r) (ids : List Nat) (hids : ∀ id ∈ ids, r.Met id) :
    Closing (ids.foldl markBuilt r) ∧ Extends r (ids.foldl markBuilt r) ∧
      (ids.foldl markBuilt r).run.waiting = r.run.waiting := by
  induction ids generalizing r with
  | nil => exact ⟨h, .refl r, rfl⟩
  | cons id ids ih =>
    have hmet {other : Nat} (hother : (r.markBuilt id).Met other) : r.Met other := by
      rcases met_setFreshness.1 hother with hother | rfl
      · exact hother
      · exact hids _ List.mem_cons_self
    have hmarked : Closing (r.markBuilt id) :=
      ⟨⟨h.sane.waiting, h.sane.found⟩, ⟨fun other hother => h.scheduling.met other (hmet hother),
        h.scheduling.found, h.scheduling.bodies⟩, h.code, h.secured⟩
    have hextends : Extends r (r.markBuilt id) :=
      ⟨.refl _, fun _ hother => hother, fun _ hid => hid, fun _ _ => rfl⟩
    obtain ⟨hlast, hrest, hwaiting⟩ := ih hmarked fun other hother =>
      met_setFreshness.2 (.inl (hids other (List.mem_cons_of_mem _ hother)))
    exact ⟨hlast, hextends.trans hrest, hwaiting⟩

/-- When nothing waits, all that a unit that was handled depends on was handled as well, or is a shared
table, which takes no names; and so it stays for the rest of the run. -/
theorem Closing.edge_iff_of_handled (h : Closing r) (hwaiting : r.run.waiting = [])
    (hlinked : r.program.Linked) (hs : s.program.Linked) (hcode : s.program.TakenByCode)
    (hextends : Extends r s) {a b : Nat} (ha : a ∈ r.run.handled ∨ r.IsTable a) :
    (s.program.graph.Edge a b ↔ r.program.graph.Edge a b) ∧
      (r.program.graph.Edge a b → b ∈ r.run.handled ∨ r.IsTable b) := by
  rw [hs.edge_iff, hlinked.edge_iff]
  rcases ha with ha | ha
  · simp only [Program.Takes, hextends.imports a ha, true_and]
    rintro ⟨n, htakes⟩
    rcases h.secured a ha b n htakes with rfl | hmem | htable | hb | ⟨work, hwork, -⟩
    · exact .inl ha
    · cases hmem
    · exact .inr htable
    · exact .inl hb
    · rw [hwaiting] at hwork
      cases hwork
  · have hnone {p : Program} (hp : p.TakenByCode) (htable : IsTable ⟨p, r.run⟩ a) :
        ¬ ∃ n, p.Takes a (.unit b) n := by
      rintro ⟨n, htakes⟩
      obtain ⟨u, hu, hhas⟩ := hp a _ n htakes
      obtain ⟨v, hv, hshared⟩ := htable
      rw [Option.some.inj (hv.symm.trans hu), UnitKind.isSharedTable_of_hasBody hhas] at hshared
      cases hshared
    have hr := hnone h.code ha
    exact ⟨iff_of_false (hnone hcode (ha.mono hextends.units)) hr, fun htakes => absurd htakes hr⟩

/-- All that such a unit leads to was handled, or is a shared table. -/
theorem Closing.handled_of_reaches (h : Closing r) (hwaiting : r.run.waiting = [])
    (hlinked : r.program.Linked) (hroot : root ∈ r.run.handled)
    (hreaches : r.program.graph.Reaches root id) : id ∈ r.run.handled ∨ r.IsTable id := by
  induction hreaches with
  | refl => exact .inl hroot
  | tail _ hedge ih =>
    exact (h.edge_iff_of_handled hwaiting hlinked hlinked h.code (.refl r) ih).2 hedge

/-- What such a unit leads to depends on the same units for the rest of the run. -/
theorem Closing.edge_iff (h : Closing r) (hwaiting : r.run.waiting = [])
    (hlinked : r.program.Linked) (hs : s.program.Linked) (hcode : s.program.TakenByCode)
    (hextends : Extends r s) (hroot : root ∈ r.run.handled) {a b : Nat}
    (ha : r.program.graph.Reaches root a) :
    s.program.graph.Edge a b ↔ r.program.graph.Edge a b :=
  (h.edge_iff_of_handled hwaiting hlinked hs hcode hextends
    (h.handled_of_reaches hwaiting hlinked hroot ha)).1

/-- When nothing waits, a unit that was handled leads to the same units for the rest of the run. -/
theorem Closing.reaches_iff (h : Closing r) (hwaiting : r.run.waiting = [])
    (hlinked : r.program.Linked) (hs : s.program.Linked) (hcode : s.program.TakenByCode)
    (hextends : Extends r s) (hroot : root ∈ r.run.handled) :
    s.program.graph.Reaches root id ↔ r.program.graph.Reaches root id := by
  have hedge {a b : Nat} (ha : r.program.graph.Reaches root a) :=
    h.edge_iff hwaiting hlinked hs hcode hextends hroot (b := b) ha
  constructor
  · intro hreach
    induction hreach with
    | refl => exact .refl
    | tail _ hnext ih => exact ih.tail ((hedge ih).1 hnext)
  · intro hreach
    induction hreach with
    | refl => exact .refl
    | tail hfirst hnext ih => exact ih.tail ((hedge hfirst).2 hnext)

end Resolution

end ScriptBuild
