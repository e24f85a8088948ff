import ScriptBuild.Proofs.Resolution.Attempts

namespace ScriptBuild

namespace Resolution

variable {p : Program} {named : String → Definition → Prop} {only : Nat → Prop} {w : World}
  {r s : Resolution} {id other a : Nat} {name slot n : String} {d : Definition} {kind : UnitKind}
  {u v : BuildUnit} {freshness : Freshness} {seen : Option Freshness}
  {directory : Option FilePath}

/-- How fresh a unit is, if it was met. -/
def mark (r : Resolution) (id : Nat) : Option Freshness := r.run.freshness[id]?

/-- A unit that was not met is old. -/
theorem freshness_eq (r : Resolution) (id : Nat) : r.freshness id = (r.mark id).getD .old :=
  Std.ExtTreeMap.getD_eq_getD_getElem?

/-- The units that were met are those with a mark. -/
theorem met_iff : r.Met id ↔ r.mark id ≠ none := by
  rw [Met, Std.ExtTreeMap.mem_iff_isSome_getElem?, Option.isSome_iff_ne_none, mark]

/-- Noting how fresh a unit is marks that unit only. -/
theorem mark_setFreshness : (r.setFreshness id freshness).mark other =
    if other = id then some freshness else r.mark other := by
  simp only [mark, setFreshness, Std.ExtTreeMap.getElem?_insert, Std.LawfulEqCmp.compare_eq_iff_eq,
    eq_comm (a := id)]

/-- Where a unit comes from: from a program that the run started from, which it has under the same
number, or from a definition on offer under its name. -/
inductive Origin (p : Program) (named : String → Definition → Prop) (mark : Option Freshness)
    (id : Nat) (v : BuildUnit) : Prop where
  /-- It was made for a definition that denoted nothing. -/
  | created (d : Definition) (hid : p.units.size ≤ id) (hmark : mark = some .new)
      (htable : d.kind.isSharedTable = false) (hnamed : named v.name d) (hkind : v.kind = d.kind)
      (htime : v.timestamp = d.timestamp) (hbody : v.body = some d.body)
      (hslots : v.kind.hasBody = false → v.slots = [])
  /-- Its file is newer than what was recorded. -/
  | renewed (u : BuildUnit) (d : Definition) (hu : p.units.get? id = some u)
      (hmark : mark = some .updated) (hnamed : named v.name d) (hkind : v.kind = u.kind)
      (hidentity : d.identity = u.identity) (hfile : u.kind.isFile)
      (hnewer : u.timestamp < d.timestamp) (htime : v.timestamp = d.timestamp)
      (hbody : v.body = some d.body)
  /-- It was found again as it was recorded. -/
  | known (u : BuildUnit) (d : Definition) (hu : p.units.get? id = some u)
      (hmark : mark = some .old ∨ mark = some .dependencyUpdated)
      (htable : u.kind.isSharedTable = false) (hnamed : named v.name d) (hkind : v.kind = u.kind)
      (hidentity : d.identity = u.identity)
      (hcurrent : u.kind.isFile → d.timestamp ≤ u.timestamp) (htime : v.timestamp = u.timestamp)
      (hbody : v.body = u.body.or (some d.body))
  /-- It was not found. -/
  | unmet (u : BuildUnit) (hu : p.units.get? id = some u) (hmark : mark = none)
      (htable : u.kind.isSharedTable = false) (hkind : v.kind = u.kind)
      (htime : v.timestamp = u.timestamp) (hbody : v.body = u.body)
  /-- It is a shared table that was known and may have grown. -/
  | table (u : BuildUnit) (added : List String) (hu : p.units.get? id = some u)
      (hmark : mark = if added = [] then none else some .updated) (htable : u.kind.isSharedTable)
      (hkind : v.kind = u.kind) (htime : v.timestamp = u.timestamp) (hbody : v.body = u.body)
      (hslots : v.slots = u.slots ++ added) (hnodup : added.Nodup)
      (hnew : ∀ n ∈ added, n ∉ u.slots)
  /-- It is a shared table that was made. -/
  | newTable (kind : UnitKind) (hid : p.units.size ≤ id) (hmark : mark = some .new)
      (htable : kind.isSharedTable) (hkind : v.kind = kind) (htime : v.timestamp = 0)
      (hbody : v.body = some .table) (hnodup : v.slots.Nodup) (hsome : v.slots ≠ [])

/-- The origin of a unit without code or slots of its own does not depend on its slots. -/
theorem Origin.congr_slots {slots : List String} (h : Origin p named seen id v)
    (hbody : v.kind.hasBody) : Origin p named seen id { v with slots := slots } := by
  have hunit : v.kind.isSharedTable = false := UnitKind.isSharedTable_of_hasBody hbody
  cases h with
  | created d hid hmark htable hnamed hkind htime hwhere _ =>
    refine .created d hid hmark htable hnamed hkind htime hwhere fun hnone => ?_
    rw [show v.kind.hasBody = false from hnone] at hbody
    cases hbody
  | renewed u d hu hmark hnamed hkind hidentity hfile hnewer htime hwhere =>
    exact .renewed u d hu hmark hnamed hkind hidentity hfile hnewer htime hwhere
  | known u d hu hmark htable hnamed hkind hidentity hcurrent htime hwhere =>
    exact .known u d hu hmark htable hnamed hkind hidentity hcurrent htime hwhere
  | unmet u hu hmark htable hkind htime hwhere => exact .unmet u hu hmark htable hkind htime hwhere
  | table u added hu _ htable hkind =>
    rw [hkind, htable] at hunit
    cases hunit
  | newTable kind _ _ htable hkind =>
    rw [hkind, htable] at hunit
    cases hunit

/-- A shared table that gets a slot is updated if it was not met before. -/
theorem Origin.addSlot (h : Origin p named seen id v) (htable : v.kind.isSharedTable)
    (hslot : ¬ v.hasSlot slot) :
    Origin p named (if seen.getD .old = .old then some .updated else seen) id
      { v with slots := v.slots ++ [slot] } := by
  have hfresh : slot ∉ v.slots := by rwa [BuildUnit.hasSlot, List.contains_iff_mem] at hslot
  cases h with
  | created d _ _ hunit _ hkind =>
    rw [hkind, hunit] at htable
    cases htable
  | renewed u d _ _ _ hkind _ hfile =>
    rw [hkind, UnitKind.isSharedTable_of_isFile hfile] at htable
    cases htable
  | known u d _ _ hunit _ hkind =>
    rw [hkind, hunit] at htable
    cases htable
  | unmet u _ _ hunit hkind =>
    rw [hkind, hunit] at htable
    cases htable
  | table u added hu hmark hshared hkind htime hbody hslots hnodup hnew =>
    rw [hslots, List.mem_append, not_or] at hfresh
    refine .table u (added ++ [slot]) hu ?_ hshared hkind htime hbody ?_ ?_ fun n hn => ?_
    · rw [if_neg (by simp : added ++ [slot] ≠ []), hmark]
      by_cases hnone : added = []
      · rw [if_pos hnone]
        rfl
      · rw [if_neg hnone]
        rfl
    · rw [hslots, List.append_assoc]
    · exact List.nodup_append.2 ⟨hnodup, List.nodup_singleton slot, fun x hx y hy heq =>
        hfresh.2 (List.mem_singleton.1 hy ▸ heq ▸ hx)⟩
    · rcases List.mem_append.1 hn with hold | hlast
      · exact hnew n hold
      · rw [List.mem_singleton.1 hlast]
        exact hfresh.1
  | newTable kind hid hmark hshared hkind htime hbody hnodup hsome =>
    refine .newTable kind hid ?_ hshared hkind htime hbody ?_ (by simp)
    · rw [hmark]
      rfl
    · exact List.nodup_append.2 ⟨hnodup, List.nodup_singleton slot, fun x hx y hy heq =>
        hfresh (List.mem_singleton.1 hy ▸ heq ▸ hx)⟩

/-- A unit that was found again as it was recorded may depend on something that has moved. -/
theorem Origin.moved (h : Origin p named (some .old) id v) :
    Origin p named (some .dependencyUpdated) id v := by
  cases h with
  | known u d hu _ htable hnamed hkind hidentity hcurrent htime hbody =>
    exact .known u d hu (.inr rfl) htable hnamed hkind hidentity hcurrent htime hbody
  | created d _ hmark => cases hmark
  | renewed u d _ hmark => cases hmark
  | unmet u _ hmark => cases hmark
  | table u added _ hmark => split at hmark <;> cases hmark
  | newTable kind _ hmark => cases hmark

/-- Every unit has an origin that fits how fresh it is. It was known before the run or was made for
    a definition, and whether its file was found to be newer is told by how fresh it is. What is
    recorded of a unit when it is met stays until the end of the run. -/
def Documented (p : Program) (named : String → Definition → Prop) (r : Resolution) : Prop :=
  ∀ id v, r.program.units.get? id = some v → Origin p named (r.mark id) id v

/-- What a part of a run does to units: their origins stay in order, units that were met before, but
for some, stay as they are and as fresh, and dependencies are found to have moved only of these. -/
structure Sights (p : Program) (named : String → Definition → Prop) (only : Nat → Prop)
    (r s : Resolution) : Prop where
  size : r.program.units.size ≤ s.program.units.size
  documented : p.units.size ≤ r.program.units.size → Documented p named r → Documented p named s
  stays : ∀ id, r.Met id → r.IsUnit id → ¬ only id →
    s.program.units.get? id = r.program.units.get? id ∧ s.mark id = r.mark id
  moved : ∀ id, s.mark id = some .dependencyUpdated → r.mark id = some .dependencyUpdated ∨ only id

namespace Sights

theorem of_eq (hunits : s.program.units = r.program.units)
    (hfreshness : s.run.freshness = r.run.freshness) : Sights p named only r s where
  size := by rw [hunits]
  documented _ h id v hv := by
    rw [mark, hfreshness]
    exact h id v (by rwa [← hunits])
  stays id _ _ _ := ⟨by rw [hunits], by rw [mark, mark, hfreshness]⟩
  moved id h := .inl (by rwa [mark, hfreshness] at h)

theorem refl (r : Resolution) : Sights p named only r r := of_eq rfl rfl

theorem mono {only' : Nat → Prop} (h : Sights p named only r s) (honly : ∀ id, only id → only' id) :
    Sights p named only' r s :=
  ⟨h.size, h.documented, fun id hmet hunit hid => h.stays id hmet hunit fun hin => hid (honly id hin),
    fun id hid => (h.moved id hid).imp_right (honly id)⟩

/-- A unit that was met stays a unit and met. -/
theorem isUnit (h : Sights p named only r s) (hmet : r.Met id) (hunit : r.IsUnit id)
    (hid : ¬ only id) : s.Met id ∧ s.IsUnit id := by
  obtain ⟨hget, hmark⟩ := h.stays id hmet hunit hid
  refine ⟨?_, ?_⟩
  · rw [met_iff] at hmet ⊢
    rwa [hmark]
  · rwa [IsUnit, hget]

theorem trans {r₁ r₂ r₃ : Resolution} (h : Sights p named only r₁ r₂)
    (h' : Sights p named only r₂ r₃) : Sights p named only r₁ r₃ where
  size := Nat.le_trans h.size h'.size
  documented hle hdocumented := h'.documented (Nat.le_trans hle h.size) (h.documented hle hdocumented)
  stays id hmet hunit hid := by
    obtain ⟨hget, hmark⟩ := h.stays id hmet hunit hid
    obtain ⟨hmet', hunit'⟩ := h.isUnit hmet hunit hid
    obtain ⟨hget', hmark'⟩ := h'.stays id hmet' hunit' hid
    exact ⟨hget'.trans hget, hmark'.trans hmark⟩
  moved id hid := by
    rcases h'.moved id hid with hold | hin
    · exact h.moved id hold
    · exact .inr hin

/-- One unit changes, or is added at the end, and gets a freshness. -/
theorem touch (id : Nat) (hsize : r.program.units.size ≤ s.program.units.size)
    (hget : ∀ other, other ≠ id → s.program.units.get? other = r.program.units.get? other)
    (hmark : ∀ other, other ≠ id → s.mark other = r.mark other)
    (hmoved : s.mark id = some .dependencyUpdated → r.mark id = some .dependencyUpdated)
    (horigin : p.units.size ≤ r.program.units.size → Documented p named r →
      ∀ v, s.program.units.get? id = some v → Origin p named (s.mark id) id v)
    (hid : r.Met id → r.IsUnit id → only id) : Sights p named only r s where
  size := hsize
  documented hle h other v hv := by
    by_cases heq : other = id
    · rw [heq] at hv ⊢
      exact horigin hle h v hv
    · rw [hmark other heq]
      exact h other v (by rwa [← hget other heq])
  stays other hmet hunit hother := by
    have hne : other ≠ id := by
      intro heq
      exact hother (heq ▸ hid (heq ▸ hmet) (heq ▸ hunit))
    exact ⟨hget other hne, hmark other hne⟩
  moved other hother := by
    refine .inl ?_
    by_cases heq : other = id
    · rw [heq] at hother ⊢
      exact hmoved hother
    · rwa [hmark other heq] at hother

end Sights

/-- Adding a slot to a shared table marks no other unit. -/
theorem mark_growTable_of_ne (hne : other ≠ id) : (r.growTable id slot).mark other = r.mark other := by
  rw [growTable]
  split
  · rw [mark_setFreshness, if_neg hne]
    rfl
  · rfl

/-- A table that has the slot already stays as fresh as it is. -/
theorem mark_growTable (hu : r.program.units.get? id = some u) : (r.growTable id slot).mark id =
    if ¬ u.hasSlot slot ∧ (r.mark id).getD .old = .old then some .updated else r.mark id := by
  have hfreshness : (r.modifyProgram fun p =>
      { p with units := p.units.modify id (·.addSlot slot) }).freshness id = (r.mark id).getD .old :=
    freshness_eq r id
  simp only [growTable, hfreshness, hu, Option.any_some]
  split
  · next hgrows =>
    have hgrows : ¬ u.hasSlot slot ∧ (r.mark id).getD .old = .old := by simpa using hgrows
    rw [if_pos hgrows, mark_setFreshness, if_pos rfl]
  · next hnot =>
    have hnot : ¬ (¬ u.hasSlot slot ∧ (r.mark id).getD .old = .old) := by simpa using hnot
    rw [if_neg hnot]
    rfl

/-- A shared table that gets a slot keeps its origin. -/
theorem sights_growTable (slot : String) (htable : r.IsTable id) :
    Sights p named only r (r.growTable id slot) := by
  obtain ⟨u, hu, hshared⟩ := htable
  refine .touch id ?_ (fun other hne => ?_) (fun other hne => mark_growTable_of_ne hne) (fun h => ?_)
    (fun _ h v hv => ?_) fun _ hunit => ?_
  · rw [growTable_program, Catalog.size_modify]
  · rw [get?_growTable, if_neg (Ne.symm hne)]
  · rw [mark_growTable hu] at h
    split at h
    · cases h
    · exact h
  · have hold := h id u hu
    rw [get?_growTable, if_pos rfl, hu, Option.map_some] at hv
    obtain rfl := Option.some.inj hv
    rw [mark_growTable hu]
    by_cases hslot : u.hasSlot slot
    · rw [if_neg (fun hnot => hnot.1 hslot), BuildUnit.addSlot, if_pos hslot]
      exact hold
    · have hgrown := hold.addSlot hshared hslot
      rw [BuildUnit.addSlot, if_neg hslot]
      simpa only [hslot, Bool.false_eq_true, not_false_eq_true, true_and] using hgrown
  · obtain ⟨v, hv, hnot⟩ := hunit
    rw [Option.some.inj (hu.symm.trans hv), hnot] at hshared
    cases hshared

theorem not_isUnit_size : ¬ r.IsUnit r.program.units.size := by
  rintro ⟨u, hu, _⟩
  rw [Catalog.get?_size] at hu
  cases hu

/-- A shared table that is found or made has an origin. -/
theorem sights_tableFor (r : Resolution) (slot : String) (htable : kind.isSharedTable) :
    Sights p named only r (r.tableFor slot kind).1 := by
  cases hmatch : r.program.units.findMatch (tableName kind) kind 0 with
  | some id =>
    rw [tableFor_of_some hmatch]
    exact sights_growTable slot (isTable_of_findMatch htable hmatch)
  | none =>
    rw [tableFor_of_none hmatch]
    have hget : ∀ other, (r.makeTable kind).program.units.get? other =
        if other = r.program.units.size
        then some ⟨tableName kind, r.program.units.nextOverload (tableName kind), kind, 0, some .table, []⟩
        else r.program.units.get? other := fun other => Catalog.get?_insert
    have hmark : ∀ other, (r.makeTable kind).mark other =
        if other = r.program.units.size then some .new else r.mark other := fun other =>
      mark_setFreshness
    have hnew := (hget r.program.units.size).trans (if_pos rfl)
    have hmade : ((r.makeTable kind).growTable r.program.units.size slot).mark r.program.units.size =
        some .new := by
      rw [mark_growTable hnew, hmark, if_pos rfl]
      rfl
    refine .touch r.program.units.size ?_ (fun other hne => ?_) (fun other hne => ?_) (fun h => ?_)
      (fun hle _ v hv => ?_) fun _ hunit => absurd hunit not_isUnit_size
    · rw [growTable_program, Catalog.size_modify, makeTable]
      exact Nat.le_of_lt (by simp [modifyProgram, setFreshness, Program.insertUnit])
    · rw [get?_growTable, if_neg (Ne.symm hne), hget, if_neg hne]
    · rw [mark_growTable_of_ne hne, hmark, if_neg hne]
    · rw [hmade] at h
      cases h
    · rw [get?_growTable, if_pos rfl, hnew, Option.map_some] at hv
      obtain rfl := Option.some.inj hv
      have hslots : (BuildUnit.addSlot ⟨tableName kind, r.program.units.nextOverload (tableName kind),
          kind, 0, some .table, []⟩ slot).slots = [slot] := rfl
      refine .newTable kind hle hmade htable rfl rfl rfl ?_ ?_
      · rw [hslots]
        exact List.nodup_singleton slot
      · rw [hslots]
        exact List.cons_ne_nil _ _

/-- A unit that was not met in the run is as it was recorded before. -/
theorem Documented.recorded (h : Documented p named r) (hu : r.program.units.get? id = some u)
    (htable : u.kind.isSharedTable = false) (hmet : ¬ r.Met id) :
    ∃ u₀, p.units.get? id = some u₀ ∧ u.kind = u₀.kind ∧ u.timestamp = u₀.timestamp ∧
      u.body = u₀.body := by
  have hnone : r.mark id = none := by
    by_contra hsome
    exact hmet (met_iff.2 hsome)
  have hold := h id u hu
  rw [hnone] at hold
  cases hold with
  | created d _ hmark => cases hmark
  | renewed u₀ d _ hmark => cases hmark
  | known u₀ d _ hmark => rcases hmark with heq | heq <;> cases heq
  | unmet u₀ hu₀ _ _ hkind htime hbody => exact ⟨u₀, hu₀, hkind, htime, hbody⟩
  | table u₀ added _ _ hshared hkind =>
    rw [hkind, hshared] at htable
    cases htable
  | newTable kind _ hmark => cases hmark

/-- A unit whose definition is newer gets that definition as its origin. -/
theorem sights_refresh_of_outdated (hu : r.program.units.get? id = some u) (hnamed : named u.name d)
    (hidentity : u.identity = d.identity) (htable : u.kind.isSharedTable = false)
    (hmet : ¬ r.Met id) (hnewer : r.Outdated id d) : Sights p named only r (r.refresh id d) := by
  rw [refresh_of_outdated hnewer]
  obtain ⟨u', hu', hfile, hlater⟩ := hnewer
  obtain rfl := Option.some.inj (hu.symm.trans hu')
  have hmark (other : Nat) : mark ⟨_, { r.run with
      freshness := r.run.freshness.insert id .updated, waiting := _ }⟩ other =
      if other = id then some .updated else r.mark other := mark_setFreshness
  refine .touch id ?_ (fun other hne => ?_) (fun other hne => ?_) (fun h => ?_) (fun _ h v hv => ?_)
    fun hin => absurd hin hmet
  · rw [Catalog.size_modify]
  · exact Catalog.get?_modify_of_ne (Ne.symm hne)
  · exact (hmark other).trans (if_neg hne)
  · cases ((hmark id).trans (if_pos rfl)).symm.trans h
  · obtain ⟨u₀, hu₀, hkind, htime, _⟩ := h.recorded hu htable hmet
    rw [Catalog.get?_modify_of_get? hu rfl] at hv
    obtain rfl := Option.some.inj hv
    refine .renewed u₀ d hu₀ ?_ hnamed hkind ?_ (by rwa [← hkind]) (by rwa [← htime]) rfl rfl
    · exact (hmark id).trans (if_pos rfl)
    · rw [← hidentity, BuildUnit.identity, BuildUnit.identity, hkind, htime]

/-- A unit whose definition is not newer keeps its origin. -/
theorem sights_refresh_of_not_outdated (hu : r.program.units.get? id = some u)
    (hnamed : named u.name d) (hidentity : u.identity = d.identity)
    (htable : u.kind.isSharedTable = false) (hmet : ¬ r.Met id) (hnot : ¬ r.Outdated id d) :
    Sights p named only r (r.refresh id d) := by
  rw [refresh_of_not_outdated hnot]
  have hmark (other : Nat) : mark ⟨_, { r.run with
      freshness := r.run.freshness.insert id .old, waiting := _ }⟩ other =
      if other = id then some .old else r.mark other := mark_setFreshness
  refine .touch id ?_ (fun other hne => ?_) (fun other hne => ?_) (fun h => ?_) (fun _ h v hv => ?_)
    fun hin => absurd hin hmet
  · rw [Catalog.size_modify]
  · exact Catalog.get?_modify_of_ne (Ne.symm hne)
  · exact (hmark other).trans (if_neg hne)
  · cases ((hmark id).trans (if_pos rfl)).symm.trans h
  · obtain ⟨u₀, hu₀, hkind, htime, hbody⟩ := h.recorded hu htable hmet
    rw [Catalog.get?_modify_of_get? hu rfl] at hv
    obtain rfl := Option.some.inj hv
    refine .known u₀ d hu₀ (.inl ?_) (by rwa [← hkind]) hnamed hkind ?_ (fun hfile => ?_) htime ?_
    · exact (hmark id).trans (if_pos rfl)
    · rw [← hidentity, BuildUnit.identity, BuildUnit.identity, hkind, htime]
    · by_contra hlt
      exact hnot ⟨u, hu, by rwa [hkind], by rw [htime]; exact Nat.lt_of_not_le hlt⟩
    · rw [← hbody]

/-- A unit that is met with a definition gets that definition as its origin if its file is newer. -/
theorem sights_refresh (hu : r.program.units.get? id = some u) (hnamed : named u.name d)
    (hidentity : u.identity = d.identity) (htable : u.kind.isSharedTable = false)
    (hmet : ¬ r.Met id) : Sights p named only r (r.refresh id d) := by
  by_cases hnewer : r.Outdated id d
  · exact sights_refresh_of_outdated hu hnamed hidentity htable hmet hnewer
  · exact sights_refresh_of_not_outdated hu hnamed hidentity htable hmet hnewer

/-- A unit that is made for a definition has that definition as its origin. -/
theorem sights_unitFor (r : Resolution) (hnamed : named name d) :
    Sights p named only r (r.unitFor name d).1 := by
  have hcases := unitOutcome r name d
  generalize r.unitFor name d = k at hcases ⊢
  cases hcases with
  | table htable => exact sights_tableFor r name htable
  | made htable =>
    have hmark (other : Nat) : (r.makeUnit name d).mark other =
        if other = r.program.units.size then some .new else r.mark other := mark_setFreshness
    refine .touch r.program.units.size ?_ (fun other hne => ?_) (fun other hne => ?_) (fun h => ?_)
      (fun hle _ v hv => ?_) fun _ hunit => absurd hunit not_isUnit_size
    · exact Nat.le_of_lt (by simp [makeUnit, modifyProgram, setFreshness, enqueue, Program.insertUnit])
    · exact Catalog.get?_insert.trans (if_neg hne)
    · exact (hmark other).trans (if_neg hne)
    · cases ((hmark _).trans (if_pos rfl)).symm.trans h
    · obtain rfl := Option.some.inj ((Catalog.get?_insert.trans (if_pos rfl)).symm.trans hv)
      exact .created d hle ((hmark _).trans (if_pos rfl)) htable hnamed rfl rfl rfl fun _ => rfl
  | met => exact .refl r
  | refreshed htable hmatch hmet =>
    obtain ⟨u, hu, hname, hidentity⟩ := Catalog.describes_of_findMatch hmatch
    refine sights_refresh hu (hname ▸ hnamed) hidentity ?_ hmet
    rw [UnitKind.isSharedTable_eq_of_tag (congrArg Identity.tag hidentity), htable]

theorem sights_lookupExternal (r : Resolution) (id : Nat)
    (hnamed : ∀ directory d, w.lookup.find name directory = some d → named name d) :
    Sights p named only r (r.lookupExternal w id name).1 := by
  have hlookup := lookupOutcome w r id name
  generalize r.lookupExternal w id name = k at hlookup ⊢
  cases hlookup with
  | own | recalled => exact .refl r
  | missing => exact .of_eq rfl rfl
  | @found names namesIn d _ _ _ hfind =>
    have hlearned : Sights p named only r (r.learn names namesIn) := .of_eq rfl rfl
    have hmet : Sights p named only _ _ := sights_unitFor (r.learn names namesIn) (hnamed _ d hfind)
    exact (hlearned.trans hmet).trans (.of_eq rfl rfl)

end Resolution

end ScriptBuild
