import ScriptBuild.Proofs.Resolution.Meaning
import ScriptBuild.Resolution.Analysis

namespace ScriptBuild

/-- The unit that a piece of work is about. -/
def Work.unit : Work → Nat
  | .read id | .recheck id => id

namespace Resolution

variable {w : World} {offered : Definition → Prop} {r s : Resolution} {id other : Nat}
  {name slot : String} {t : Target} {d : Definition} {kind : UnitKind} {work : Work}
  {directory : Option FilePath} {freshness : Freshness}

/-- A unit is a shared table. -/
def IsTable (r : Resolution) (id : Nat) : Prop :=
  ∃ u, r.program.units.get? id = some u ∧ u.kind.isSharedTable

/-- What a run remembers of lookups is true. -/
structure Remembers (w : World) (r : Resolution) : Prop where
  names : ∀ names, r.run.names = some names → names = w.lookup.names
  namesIn : ∀ (directory : FilePath) names, r.run.namesIn[directory.key]? = some names →
    names = w.lookup.namesIn directory
  found : ∀ directory name id, r.foundFrom directory name = some id →
    Stands w r directory name (.unit id)

/-- The units that were met are the shared tables that grew, those that were handled and those that
wait, each once. -/
structure Agenda (r : Resolution) : Prop where
  nodup : (r.run.waiting.map Work.unit).Nodup
  waiting_met : ∀ work ∈ r.run.waiting, r.Met work.unit
  waiting_fresh : ∀ work ∈ r.run.waiting, work.unit ∉ r.run.handled
  waiting_unit : ∀ work ∈ r.run.waiting, ¬ r.IsTable work.unit
  handled_met : ∀ id ∈ r.run.handled, r.Met id
  handled_unit : ∀ id ∈ r.run.handled, ¬ r.IsTable id
  covered : ∀ id, r.Met id → r.IsTable id ∨ id ∈ r.run.handled ∨
    ∃ work ∈ r.run.waiting, work.unit = id

/-- A unit that was met is a node with a body, and as new as any definition on offer. -/
structure Ready (offered : Definition → Prop) (r : Resolution) (id : Nat) : Prop where
  unit : ∃ u, r.program.units.get? id = some u ∧
    (u.kind.isSharedTable = false → u.body.isSome ∧ u.Current offered)
  node : ¬ r.IsTable id → r.program.graph.hasNode id

/-- What holds of a run at any time. What it remembers of lookups is true, every unit that was met
    waits or was handled, and each is as new as any definition on offer. -/
structure Underway (w : World) (offered : Definition → Prop) (r : Resolution) : Prop where
  remembers : Remembers w r
  agenda : Agenda r
  ready : ∀ id, r.Met id → Ready offered r id

/-- New work may be to read the body of a unit only if the unit was just made or is a file. -/
def NewWork (r s : Resolution) (new : List Work) : Prop :=
  ∀ id, Work.read id ∈ new → r.program.units.size ≤ id ∨
    ∃ u, s.program.units.get? id = some u ∧ u.kind.isFile

theorem NewWork.nil (r s : Resolution) : NewWork r s [] := fun _ hmem => absurd hmem List.not_mem_nil

theorem NewWork.append {r₁ r₂ r₃ : Resolution} {new new' : List Work} (h : NewWork r₁ r₂ new)
    (h' : NewWork r₂ r₃ new') (hgrows : r₁.program.units.Grows r₂.program.units)
    (hgrows' : r₂.program.units.Grows r₃.program.units) : NewWork r₁ r₃ (new ++ new') := by
  intro id hmem
  rcases List.mem_append.1 hmem with hmem | hmem
  · refine (h id hmem).imp_right ?_
    rintro ⟨u, hu, hfile⟩
    obtain ⟨v, hv, huv⟩ := hgrows' id u hu
    exact ⟨v, hv, by rw [huv.kind, hfile]⟩
  · exact (h' id hmem).imp_left fun hle => Nat.le_trans hgrows.size_le hle

/-- What looking names up does to a run. -/
structure Looked (r s : Resolution) : Prop where
  program : r.program.Grows s.program
  met : ∀ id, r.Met id → s.Met id
  handled : s.run.handled = r.run.handled
  waiting : ∃ new, s.run.waiting = r.run.waiting ++ new ∧ NewWork r s new
  readings : s.run.readings = r.run.readings

theorem Looked.refl (r : Resolution) : r.Looked r :=
  ⟨.refl, fun _ => id, rfl, ⟨[], (List.append_nil _).symm, .nil r r⟩, rfl⟩

theorem Looked.trans {r₁ r₂ r₃ : Resolution} (h : r₁.Looked r₂) (h' : r₂.Looked r₃) :
    r₁.Looked r₃ where
  program := h.program.trans h'.program
  met id hid := h'.met id (h.met id hid)
  handled := h'.handled.trans h.handled
  waiting := by
    obtain ⟨new, hnew, hwork⟩ := h.waiting
    obtain ⟨new', hnew', hwork'⟩ := h'.waiting
    exact ⟨new ++ new', by rw [hnew', hnew, List.append_assoc],
      hwork.append hwork' h.program.touches.units h'.program.touches.units⟩
  readings := h'.readings.trans h.readings

/-- States with the same program and the same marks come one before the other. -/
theorem before_of_eq (hprogram : s.program = r.program)
    (hfreshness : s.run.freshness = r.run.freshness) : r.Before s :=
  ⟨by rw [hprogram]; exact .refl _, fun _ h => by rwa [hprogram], fun _ h => by rwa [Met, hfreshness]⟩

/-- Looking names up leads to a later state of the run. -/
theorem Looked.before (h : r.Looked s) : r.Before s :=
  ⟨h.program.touches.units, h.program.touches.node, h.met⟩

/-- A unit is a shared table in a later state exactly if it was one before. -/
theorem Before.isTable_iff (h : r.Before s) (hlt : id < r.program.units.size) :
    s.IsTable id ↔ r.IsTable id := by
  obtain ⟨u, hu⟩ := Catalog.exists_get? hlt
  obtain ⟨v, hv, huv⟩ := h.units id u hu
  simp only [IsTable, hu, hv, Option.some.injEq, exists_eq_left', huv.kind]

/-- Looking names up does not change what a unit exports, unless it is a shared table. -/
theorem Looked.exports_iff (h : r.Looked s) (hlt : id < r.program.units.size)
    (hunit : ¬ r.IsTable id) : s.Exports id name ↔ r.Exports id name := by
  obtain ⟨u, hu⟩ := Catalog.exists_get? hlt
  obtain ⟨v, hv, _⟩ := h.before.units id u hu
  have htable : u.kind.isSharedTable = false := by
    rw [← Bool.not_eq_true]
    exact fun hshared => hunit ⟨u, hu, hshared⟩
  have hslots := h.program.touches.slots id u v not_false hu hv htable
  simp only [Exports, hu, hv, Option.any_some, BuildUnit.hasSlot, hslots]

/-- A unit that is ready is in the catalog. -/
theorem Ready.lt_size (h : r.Ready offered id) : id < r.program.units.size := by
  obtain ⟨u, hu, _⟩ := h.unit
  exact Catalog.lt_size_of_get? hu

theorem Ready.mono (h : r.Ready offered id) (hbefore : r.Before s) : s.Ready offered id where
  unit := by
    obtain ⟨u, hu, hready⟩ := h.unit
    obtain ⟨v, hv, huv⟩ := hbefore.units id u hu
    refine ⟨v, hv, fun htable => ?_⟩
    obtain ⟨hbody, hcurrent⟩ := hready (by rw [← huv.kind, htable])
    refine ⟨huv.body hbody, fun d hoffered hfile hidentity => ?_⟩
    exact Nat.le_trans (hcurrent d hoffered hfile (hidentity.trans huv.identity)) huv.timestamp
  node htable := by
    rw [hbefore.isTable_iff h.lt_size] at htable
    exact hbefore.node id (h.node htable)

theorem Remembers.mono (h : Remembers w r) (hbefore : r.Before s)
    (hnames : s.run.names = r.run.names) (hnamesIn : s.run.namesIn = r.run.namesIn)
    (hfound : s.run.found = r.run.found) : Remembers w s where
  names names heq := h.names names (hnames ▸ heq)
  namesIn directory names heq := h.namesIn directory names (hnamesIn ▸ heq)
  found directory name id heq := by
    rw [foundFrom, hfound] at heq
    exact (h.found directory name id heq).mono hbefore

/-- A shared table that is made or grows needs no further work. -/
theorem Underway.meet_table (h : Underway w offered r) (hprogram : r.program.Grows s.program)
    (hrun : s.run = { r.run with freshness := s.run.freshness }) (hmet : ∀ id, r.Met id → s.Met id)
    (hmet_table : ∀ id, s.Met id → r.Met id ∨ s.IsTable id) :
    Underway w offered s ∧ r.Looked s := by
  have hlooked : r.Looked s := ⟨hprogram, hmet, by rw [hrun], ⟨[], by rw [hrun, List.append_nil], .nil r s⟩,
    by rw [hrun]⟩
  have hbefore := hlooked.before
  have hwaiting : s.run.waiting = r.run.waiting := by rw [hrun]
  have htable {id : Nat} (hid : r.Met id) : s.IsTable id ↔ r.IsTable id :=
    hbefore.isTable_iff (h.ready id hid).lt_size
  refine ⟨⟨h.remembers.mono hbefore (by rw [hrun]) (by rw [hrun]) (by rw [hrun]), ?_, ?_⟩, hlooked⟩
  · constructor
    · rw [hwaiting]; exact h.agenda.nodup
    · rw [hwaiting]; exact fun work hwork => hmet _ (h.agenda.waiting_met work hwork)
    · rw [hwaiting, hlooked.handled]; exact h.agenda.waiting_fresh
    · rw [hwaiting]
      intro work hwork
      rw [htable (h.agenda.waiting_met work hwork)]
      exact h.agenda.waiting_unit work hwork
    · rw [hlooked.handled]; exact fun id hid => hmet id (h.agenda.handled_met id hid)
    · rw [hlooked.handled]
      intro id hid
      rw [htable (h.agenda.handled_met id hid)]
      exact h.agenda.handled_unit id hid
    · rw [hwaiting, hlooked.handled]
      intro id hid
      rcases hmet_table id hid with hold | hnew
      · rw [htable hold]; exact h.agenda.covered id hold
      · exact .inl hnew
  · intro id hid
    rcases hmet_table id hid with hold | ⟨u, hu, hshared⟩
    · exact (h.ready id hold).mono hbefore
    · refine ⟨⟨u, hu, fun hnot => ?_⟩, fun hnot => absurd ⟨u, hu, hshared⟩ hnot⟩
      rw [hshared] at hnot
      cases hnot

/-- A unit that is met for the first time waits from then on. -/
theorem Underway.meet (h : Underway w offered r) (work : Work) (hprogram : r.program.Grows s.program)
    (hrun : s.run = { r.run with
      freshness := r.run.freshness.insert work.unit freshness
      waiting := r.run.waiting ++ [work] })
    (hwork : NewWork r s [work]) (hnew : ¬ r.Met work.unit)
    (hready : s.Ready offered work.unit) (hunit : ¬ s.IsTable work.unit) :
    Underway w offered s ∧ r.Looked s := by
  have hwaiting : s.run.waiting = r.run.waiting ++ [work] := by rw [hrun]
  have hmet_iff (id : Nat) : s.Met id ↔ id = work.unit ∨ r.Met id := by
    rw [Met, hrun, Std.ExtTreeMap.mem_insert, Std.LawfulEqCmp.compare_eq_iff_eq, eq_comm, Met]
  have hmet (id : Nat) (hid : r.Met id) : s.Met id := (hmet_iff id).2 (.inr hid)
  have hlooked : r.Looked s := ⟨hprogram, hmet, by rw [hrun], ⟨[work], hwaiting, hwork⟩, by rw [hrun]⟩
  have hbefore := hlooked.before
  have htable {id : Nat} (hid : r.Met id) : s.IsTable id ↔ r.IsTable id :=
    hbefore.isTable_iff (h.ready id hid).lt_size
  refine ⟨⟨h.remembers.mono hbefore (by rw [hrun]) (by rw [hrun]) (by rw [hrun]), ?_, ?_⟩, hlooked⟩
  · have hcases {x : Work} (hx : x ∈ s.run.waiting) : x ∈ r.run.waiting ∨ x = work := by
      rwa [hwaiting, List.mem_append, List.mem_singleton] at hx
    constructor
    · rw [hwaiting, List.map_append, List.map_singleton, List.nodup_append]
      refine ⟨h.agenda.nodup, by simp, fun id hid other hother heq => hnew ?_⟩
      obtain ⟨x, hx, rfl⟩ := List.mem_map.1 hid
      rw [List.mem_singleton.1 hother] at heq
      exact heq ▸ h.agenda.waiting_met x hx
    · intro x hx
      rcases hcases hx with hx | rfl
      · exact hmet _ (h.agenda.waiting_met x hx)
      · exact (hmet_iff _).2 (.inl rfl)
    · rw [hlooked.handled]
      intro x hx
      rcases hcases hx with hx | rfl
      · exact h.agenda.waiting_fresh x hx
      · exact fun hhandled => hnew (h.agenda.handled_met _ hhandled)
    · intro x hx
      rcases hcases hx with hx | rfl
      · rw [htable (h.agenda.waiting_met x hx)]; exact h.agenda.waiting_unit x hx
      · exact hunit
    · rw [hlooked.handled]; exact fun id hid => hmet id (h.agenda.handled_met id hid)
    · rw [hlooked.handled]
      intro id hid
      rw [htable (h.agenda.handled_met id hid)]
      exact h.agenda.handled_unit id hid
    · rw [hlooked.handled, hwaiting]
      intro id hid
      rcases (hmet_iff id).1 hid with rfl | hold
      · exact .inr (.inr ⟨work, by simp, rfl⟩)
      · rw [htable hold]
        refine (h.agenda.covered id hold).imp_right (Or.imp_right ?_)
        rintro ⟨x, hx, heq⟩
        exact ⟨x, List.mem_append_left _ hx, heq⟩
  · intro id hid
    rcases (hmet_iff id).1 hid with rfl | hold
    · exact hready
    · exact (h.ready id hold).mono hbefore

/-- Two states agree on the units that were met and handled and wait, and on what was looked up. -/
structure Agrees (r s : Resolution) : Prop where
  met : ∀ id, s.Met id ↔ r.Met id
  handled : s.run.handled = r.run.handled
  waiting : s.run.waiting = r.run.waiting
  found : s.run.found = r.run.found
  names : s.run.names = r.run.names
  namesIn : s.run.namesIn = r.run.namesIn

/-- Two runs agree if one has only reported more than the other. -/
theorem Agrees.of_run (hrun : s.run = { r.run with unresolved := s.run.unresolved }) :
    r.Agrees s := by
  refine ⟨fun _ => ?_, ?_, ?_, ?_, ?_, ?_⟩
  · rw [Met, hrun, Met]
  all_goals rw [hrun]

theorem Agenda.congr (h : Agenda r) (hready : ∀ id, r.Met id → id < r.program.units.size)
    (hbefore : r.Before s) (hmet : ∀ id, s.Met id ↔ r.Met id)
    (hhandled : s.run.handled = r.run.handled) (hwaiting : s.run.waiting = r.run.waiting) :
    Agenda s := by
  have htable {id : Nat} (hid : r.Met id) : s.IsTable id ↔ r.IsTable id :=
    hbefore.isTable_iff (hready id hid)
  constructor <;> simp only [hmet, hhandled, hwaiting]
  · exact h.nodup
  · exact h.waiting_met
  · exact h.waiting_fresh
  · intro work hwork
    rw [htable (h.waiting_met work hwork)]
    exact h.waiting_unit work hwork
  · exact h.handled_met
  · intro id hid
    rw [htable (h.handled_met id hid)]
    exact h.handled_unit id hid
  · intro id hid
    rw [htable hid]
    exact h.covered id hid

/-- A change of the program that lets units grow keeps what holds of a run. -/
theorem Underway.advance (h : Underway w offered r) (hbefore : r.Before s) (hagrees : r.Agrees s) :
    Underway w offered s where
  remembers := h.remembers.mono hbefore hagrees.names hagrees.namesIn hagrees.found
  agenda := h.agenda.congr (fun id hid => (h.ready id hid).lt_size) hbefore hagrees.met
    hagrees.handled hagrees.waiting
  ready id hid := (h.ready id ((hagrees.met id).1 hid)).mono hbefore

/-- Remembering something true about lookups changes nothing else. -/
theorem Underway.remember (h : Underway w offered r) (hprogram : s.program = r.program)
    (hfreshness : s.run.freshness = r.run.freshness) (hhandled : s.run.handled = r.run.handled)
    (hwaiting : s.run.waiting = r.run.waiting) (hreadings : s.run.readings = r.run.readings)
    (hremembers : Remembers w s) : Underway w offered s ∧ r.Looked s := by
  have hbefore : r.Before s := before_of_eq hprogram hfreshness
  have hlooked : r.Looked s := ⟨by rw [hprogram], hbefore.met, hhandled,
    ⟨[], by rw [hwaiting, List.append_nil], .nil r s⟩, hreadings⟩
  have hmet (id : Nat) : s.Met id ↔ r.Met id := by rw [Met, Met, hfreshness]
  exact ⟨⟨hremembers, h.agenda.congr (fun id hid => (h.ready id hid).lt_size) hbefore hmet
    hhandled hwaiting, fun id hid => (h.ready id ((hmet id).1 hid)).mono hbefore⟩, hlooked⟩

/-- What handling a unit does to a run. -/
structure Works (id : Nat) (r s : Resolution) : Prop where
  program : r.program.Changes id s.program
  met : ∀ id, r.Met id → s.Met id
  handled : s.run.handled = r.run.handled
  waiting : ∃ new, s.run.waiting = r.run.waiting ++ new ∧ NewWork r s new

theorem Works.refl (id : Nat) (r : Resolution) : r.Works id r :=
  ⟨.refl, fun _ h => h, rfl, ⟨[], (List.append_nil _).symm, .nil r r⟩⟩

theorem Works.trans {r₁ r₂ r₃ : Resolution} (h : r₁.Works id r₂) (h' : r₂.Works id r₃) :
    r₁.Works id r₃ where
  program := h.program.trans h'.program
  met id hid := h'.met id (h.met id hid)
  handled := h'.handled.trans h.handled
  waiting := by
    obtain ⟨new, hnew, hwork⟩ := h.waiting
    obtain ⟨new', hnew', hwork'⟩ := h'.waiting
    exact ⟨new ++ new', by rw [hnew', hnew, List.append_assoc],
      hwork.append hwork' h.program.touches.units h'.program.touches.units⟩

/-- Looking names up is part of handling any unit. -/
theorem Looked.works (h : r.Looked s) : r.Works id s :=
  ⟨h.program.changes, h.met, h.handled, h.waiting⟩

/-- Handling a unit leads to a later state of the run. -/
theorem Works.before (h : r.Works id s) : r.Before s :=
  ⟨h.program.touches.units, h.program.touches.node, h.met⟩

/-- A change about a unit that meets nobody is part of handling it. -/
theorem Agrees.works (h : r.Agrees s) (hprogram : r.program.Changes id s.program) : r.Works id s :=
  ⟨hprogram, fun id hmet => (h.met id).2 hmet, h.handled,
    ⟨[], by rw [h.waiting, List.append_nil], .nil r s⟩⟩

/-- Names mean the same as long as no unit changes. -/
theorem Means.of_units (h : Means w r id n t) (hbefore : r.Before s)
    (hlt : id < r.program.units.size) (hunits : s.program.units = r.program.units) :
    Means w s id n t :=
  h.mono hbefore hlt (by rw [Exports, Exports, hunits])

end Resolution

end ScriptBuild
