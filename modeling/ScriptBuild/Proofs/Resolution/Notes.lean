import ScriptBuild.Proofs.Resolution.Reached

namespace ScriptBuild

namespace Program

variable {p q : Program} {id : Nat}

/-- What is kept about a unit itself is the same in two programs. -/
def SameUnit (p q : Program) (id : Nat) : Prop :=
  (q.units.get? id).map BuildUnit.kept = (p.units.get? id).map BuildUnit.kept

theorem SameUnit.of_eq (h : q.units.get? id = p.units.get? id) : p.SameUnit q id := by
  rw [SameUnit, h]

theorem SameUnit.trans {r : Program} (h : p.SameUnit q id) (h' : q.SameUnit r id) :
    p.SameUnit r id := Eq.trans h' h

/-- A change of one unit that is not kept changes nothing that is. -/
theorem sameUnit_modify {other : Nat} {f : BuildUnit → BuildUnit} {graph : Digraph}
    {imports : Std.ExtTreeMap Nat Imports}
    (hsame : id = other → ∀ u, p.units.get? id = some u → (f u).kept = u.kept) :
    p.SameUnit ⟨p.units.modify id f, graph, imports⟩ other := by
  rw [SameUnit, Catalog.get?_modify_eq]
  split
  · next heq =>
    subst heq
    rw [Option.map_map]
    refine Option.map_congr fun u hu => ?_
    have hkept := hsame rfl u hu
    have hname : (f u).kept.name = u.kept.name := by rw [hkept]
    rw [Function.comp_apply, ← show (f u).name = u.name from hname]
    exact hkept
  · rfl

end Program

namespace Resolution

variable {w : World} {r r₀ s : Resolution} {id other unit : Nat} {name slot n : String} {t : Target}
  {d : Definition} {kind : UnitKind} {work : Work} {directory : Option FilePath}
  {freshness : Freshness} {near near' : Nat → Prop} {todo : List (Target × String)}
  {x : Target × String}

/-- A unit has to be built. -/
def Due (r : Resolution) (id : Nat) : Prop := (r.freshness id).needsBuild

/-- Noting how fresh a unit is changes that of no other unit. -/
theorem freshness_setFreshness : (r.setFreshness id freshness).freshness other =
    if other = id then freshness else r.freshness other := by
  simp only [Resolution.freshness, setFreshness, Std.ExtTreeMap.getD_insert,
    Std.LawfulEqCmp.compare_eq_iff_eq, eq_comm (a := id)]

/-- The units that need not be built are the old ones. -/
theorem not_due_iff : ¬ r.Due id ↔ r.freshness id = .old := by
  rw [Due, Freshness.needsBuild]
  simp

/-- A unit that was not met is not due. -/
theorem Due.met (h : r.Due id) : r.Met id := by
  by_contra hnot
  rw [Due, freshness, Std.ExtTreeMap.getD_eq_fallback hnot] at h
  cases h

/-- A part of a run takes note of what it changes: units become due and wait to be handled only
    nearby, and those that are not due are as they were. A lookup meets at most the unit that it
    finds, and a unit that it changes is due from then on. -/
structure Notes (near : Nat → Prop) (r s : Resolution) : Prop where
  waiting : ∀ work ∈ s.run.waiting, work ∈ r.run.waiting ∨ near work.unit
  due : ∀ id, s.Due id → r.Due id ∨ near id
  stays : ∀ id, r.Due id → s.Due id
  same : ∀ id, ¬ s.Due id → r.program.SameUnit s.program id
  reads : ∀ id, .read id ∈ s.run.waiting → .read id ∈ r.run.waiting ∨ s.Due id
  found : ∀ directory name id, r.foundFrom directory name = some id →
    s.foundFrom directory name = some id
  handled : s.run.handled = r.run.handled

namespace Notes

theorem refl (near : Nat → Prop) (r : Resolution) : Notes near r r :=
  ⟨fun _ => .inl, fun _ => .inl, fun _ => id, fun _ _ => .of_eq rfl, fun _ => .inl, fun _ _ _ => id,
    rfl⟩

theorem mono (h : Notes near r s) (hnear : ∀ id, near id → near' id) : Notes near' r s :=
  ⟨fun work hwork => (h.waiting work hwork).imp_right (hnear _),
    fun id hid => (h.due id hid).imp_right (hnear id), h.stays, h.same, h.reads, h.found, h.handled⟩

theorem trans {r₁ r₂ r₃ : Resolution} (h : Notes near r₁ r₂) (h' : Notes near r₂ r₃) :
    Notes near r₁ r₃ where
  waiting work hwork := by
    rcases h'.waiting work hwork with hwork | hnear
    · exact h.waiting work hwork
    · exact .inr hnear
  due id hid := by
    rcases h'.due id hid with hid | hnear
    · exact h.due id hid
    · exact .inr hnear
  stays id hid := h'.stays id (h.stays id hid)
  same id hid := (h.same id fun hdue => hid (h'.stays id hdue)).trans (h'.same id hid)
  reads id hid := by
    rcases h'.reads id hid with hid | hdue
    · exact (h.reads id hid).imp_right (h'.stays id)
    · exact .inr hdue
  found directory name id hfound := h'.found directory name id (h.found directory name id hfound)
  handled := h'.handled.trans h.handled

/-- Changes of the program that keep what is kept of units that are not due, and of what a run
remembers for itself. -/
theorem of_run (hrun : s.run = { r.run with
      names := s.run.names, namesIn := s.run.namesIn, scopes := s.run.scopes,
      unresolved := s.run.unresolved, readings := s.run.readings })
    (hsame : ∀ id, ¬ r.Due id → r.program.SameUnit s.program id) : Notes near r s := by
  have hwaiting : s.run.waiting = r.run.waiting := by rw [hrun]
  have hdue (id : Nat) : s.Due id ↔ r.Due id := by
    simp only [Due, Resolution.freshness, show s.run.freshness = r.run.freshness by rw [hrun]]
  refine ⟨fun work hwork => .inl (hwaiting ▸ hwork), fun id hid => .inl ((hdue id).1 hid),
    fun id hid => (hdue id).2 hid, fun id hid => hsame id fun h => hid ((hdue id).2 h),
    fun id hid => .inl (hwaiting ▸ hid), fun directory name id hfound => ?_, by rw [hrun]⟩
  rw [foundFrom, show s.run.found = r.run.found by rw [hrun]]
  exact hfound

/-- A unit gets a freshness, and may have to be handled. -/
theorem meet {freshness : Freshness} {new : List Work} {p : Program}
    (hstays : freshness.needsBuild ∨ ¬ r.Due id) (hnew : ∀ work ∈ new, work.unit = id)
    (hreads : .read id ∈ new → freshness.needsBuild)
    (hsame : ∀ other, (other = id → ¬ freshness.needsBuild) → r.program.SameUnit p other) :
    Notes (· = id) r ⟨p, { r.run with
      freshness := r.run.freshness.insert id freshness, waiting := r.run.waiting ++ new }⟩ := by
  have hdue (other : Nat) : Due ⟨p, { r.run with
      freshness := r.run.freshness.insert id freshness, waiting := r.run.waiting ++ new }⟩ other ↔
      if other = id then freshness.needsBuild = true else r.Due other := by
    have hfreshness : Resolution.freshness ⟨p, { r.run with
        freshness := r.run.freshness.insert id freshness, waiting := r.run.waiting ++ new }⟩ other =
        if other = id then freshness else r.freshness other := freshness_setFreshness
    rw [Due, hfreshness]
    split <;> rfl
  refine ⟨fun work hwork => ?_, fun other hid => ?_, fun other hid => ?_, fun other hid => ?_,
    fun other hmem => ?_, fun _ _ _ hfound => hfound, rfl⟩
  · exact (List.mem_append.1 hwork).imp_right (hnew work)
  · rw [hdue] at hid
    split at hid
    · next heq => exact .inr heq
    · exact .inl hid
  · rw [hdue]
    split
    · next heq => exact hstays.resolve_right fun hnot => hnot (heq ▸ hid)
    · exact hid
  · rw [hdue] at hid
    exact hsame other fun heq => by rwa [if_pos heq] at hid
  · refine (List.mem_append.1 hmem).imp_right fun hmem => ?_
    have heq : other = id := hnew _ hmem
    rw [hdue, if_pos heq]
    exact hreads (heq ▸ hmem)

end Notes

/-- Adding a slot takes note of the shared table. -/
theorem notes_growTable (slot : String) : Notes (· = id) r (r.growTable id slot) := by
  rw [growTable]
  split
  · next hgrows =>
    have hmeet : Notes (· = id) r ⟨_, { r.run with
        freshness := r.run.freshness.insert id .updated, waiting := r.run.waiting ++ [] }⟩ :=
      .meet (p := { r.program with units := r.program.units.modify id (·.addSlot slot) }) (.inl rfl)
        (fun _ hmem => absurd hmem List.not_mem_nil) (fun hmem => absurd hmem List.not_mem_nil)
        fun other hother => Program.sameUnit_modify fun heq => absurd rfl (hother heq.symm)
    rwa [List.append_nil] at hmeet
  · next hnot =>
    refine .of_run rfl fun other hdue => Program.sameUnit_modify fun heq u hu => ?_
    subst heq
    have hold : (r.modifyProgram fun p => { p with units := p.units.modify id (·.addSlot slot) }
        ).freshness id = .old := not_due_iff.1 hdue
    rw [hold, hu, Option.any_some, beq_self_eq_true, Bool.and_true, Bool.not_eq_true,
      Bool.not_eq_false'] at hnot
    rw [BuildUnit.addSlot, if_pos hnot]

/-- A unit that is added changes no other one. -/
theorem sameUnit_insert (name : String) (kind : UnitKind) (timestamp : Nat) (body : Option Body)
    (hne : id ≠ r.program.units.size) :
    r.program.SameUnit (r.program.insertUnit name kind timestamp body) id :=
  .of_eq (Catalog.get?_insert.trans (if_neg hne))

/-- Finding or making a shared table takes note of it. -/
theorem notes_tableFor (r : Resolution) (slot : String) (kind : UnitKind) :
    Notes (· = (r.tableFor slot kind).2) r (r.tableFor slot kind).1 := by
  cases hmatch : r.program.units.findMatch (tableName kind) kind 0 with
  | some id =>
    rw [tableFor_of_some hmatch]
    exact notes_growTable slot
  | none =>
    rw [tableFor_of_none hmatch]
    have hmake : Notes (· = r.program.units.size) r ⟨_, { r.run with
        freshness := r.run.freshness.insert r.program.units.size .new
        waiting := r.run.waiting ++ [] }⟩ :=
      .meet (.inl rfl) (fun _ hmem => absurd hmem List.not_mem_nil)
        (fun hmem => absurd hmem List.not_mem_nil)
        fun other hother => sameUnit_insert (tableName kind) kind 0 (some .table) fun heq =>
          hother heq rfl
    rw [List.append_nil] at hmake
    exact hmake.trans (notes_growTable slot)

/-- Meeting a unit with a definition takes note of the unit. -/
theorem notes_refresh (d : Definition) (hmet : ¬ r.Met id) : Notes (· = id) r (r.refresh id d) := by
  have hold : ¬ r.Due id := fun hdue => hmet hdue.met
  by_cases hnewer : r.Outdated id d
  · rw [refresh_of_outdated hnewer]
    refine .meet (.inl rfl) (fun work hmem => by rw [List.mem_singleton.1 hmem]; rfl) (fun _ => rfl)
      fun other hother => Program.sameUnit_modify fun heq => absurd rfl (hother heq.symm)
  · rw [refresh_of_not_outdated hnewer]
    refine .meet (.inr hold) (fun work hmem => by rw [List.mem_singleton.1 hmem]; rfl)
      (fun hmem => by cases List.mem_singleton.1 hmem)
      fun other _ => Program.sameUnit_modify fun _ _ _ => rfl

/-- Finding or making the unit of a definition takes note of it. -/
theorem notes_unitFor (r : Resolution) (name : String) (d : Definition) :
    Notes (· = (r.unitFor name d).2) r (r.unitFor name d).1 := by
  have hunit := unitOutcome r name d
  generalize r.unitFor name d = k at hunit ⊢
  cases hunit with
  | table => exact notes_tableFor r name d.kind
  | made =>
    exact .meet (.inl rfl) (fun work hmem => by rw [List.mem_singleton.1 hmem]; rfl)
      (fun _ => rfl) fun other hother => sameUnit_insert _ _ _ _ fun heq => hother heq rfl
  | met => exact .refl _ r
  | refreshed _ _ hmet => exact notes_refresh d hmet

/-- Finding or making the unit of a definition remembers nothing about names. -/
theorem found_unitFor : (r.unitFor name d).1.run.found = r.run.found := by
  obtain ⟨freshness, waiting, hrun⟩ := run_unitFor r name d
  rw [hrun]

theorem foundFrom_rememberFound : (r.rememberFound directory name id).foundFrom directory name =
    some id := by
  simp [foundFrom, rememberFound]

/-- What is remembered about one name does not replace what is remembered about another. -/
theorem notes_rememberFound (hnone : r.foundFrom directory name = none) :
    Notes near r (r.rememberFound directory name id) := by
  refine ⟨fun _ => .inl, fun _ => .inl, fun _ hdue => hdue, fun _ _ => .of_eq rfl, fun _ => .inl,
    fun directory' n other hfound => ?_, rfl⟩
  have hother : directory'.map FilePath.key = directory.map FilePath.key → n ≠ name := by
    rintro hkey rfl
    rw [foundFrom, hkey, ← foundFrom, hnone] at hfound
    cases hfound
  rw [foundFrom] at hfound
  simp only [foundFrom, rememberFound, Std.ExtTreeMap.getElem?_insert,
    Std.LawfulEqCmp.compare_eq_iff_eq]
  split
  · next hkey =>
    have hne : ¬ name = n := fun heq => hother hkey.symm heq.symm
    rw [← hkey] at hfound
    cases hnames : r.run.found[directory.map FilePath.key]? with
    | none =>
      rw [hnames] at hfound
      cases hfound
    | some names =>
      rw [hnames] at hfound
      simpa [Std.ExtTreeMap.getD_eq_getD_getElem?, hnames, Std.ExtTreeMap.getElem?_insert, hne]
        using hfound
  · exact hfound

/-- Where a name of a unit was looked up: in the unit itself if it exports the name, or else under
what is remembered from then on. -/
def Pinned (r : Resolution) (id : Nat) (n : String) (other : Nat) : Prop :=
  other = id ∨ ¬ r.Exports id n ∧ r.foundFrom (r.directoryOf id) n = some other

/-- Remembering which names are known leaves the program and the work as they are. -/
theorem notes_learn (r : Resolution) (names : Option NameSet)
    (namesIn : Std.ExtTreeMap DirectoryKey NameSet) : Notes near r (r.learn names namesIn) :=
  .of_run rfl fun _ _ => .of_eq rfl

/-- A lookup takes note of the unit that it finds, which is pinned from then on. -/
theorem notes_lookupExternal (h : r.Sane) (w : World) (name : String) (hunit : r.IsUnit id) :
    Notes (fun other => (r.lookupExternal w id name).2 = .unit other) r
        (r.lookupExternal w id name).1 ∧
      ∀ other, (r.lookupExternal w id name).2 = .unit other →
        (r.lookupExternal w id name).1.Pinned id name other := by
  have hlookup := lookupOutcome w r id name
  generalize r.lookupExternal w id name = k at hlookup ⊢
  cases hlookup with
  | own =>
    refine ⟨.refl _ r, ?_⟩
    rintro _ ⟨⟩
    exact .inl rfl
  | recalled hown hfound =>
    refine ⟨.refl _ r, ?_⟩
    rintro _ ⟨⟩
    exact .inr ⟨hown, hfound⟩
  | missing => exact ⟨notes_learn r _ _, by simp⟩
  | @found names namesIn d hown hnone =>
    have hgrows := ((h.learn names namesIn).unitFor name d).2.1
    have hmeets := notes_unitFor (r.learn names namesIn) name d
    have hkept : ((r.learn names namesIn).unitFor name d).1.run.found = r.run.found := found_unitFor
    generalize (r.learn names namesIn).unitFor name d = k at hgrows hmeets hkept ⊢
    obtain ⟨s, other⟩ := k
    dsimp only at hgrows hmeets hkept ⊢
    have hnone : s.foundFrom (r.directoryOf id) name = none := by
      rw [foundFrom, hkept]
      exact hnone
    refine ⟨(notes_learn r names namesIn).trans
      ((hmeets.mono ?_).trans (notes_rememberFound hnone)), ?_⟩
    · rintro _ rfl
      rfl
    · rintro _ ⟨⟩
      refine .inr ⟨fun hexports => hown ((hunit.exports_iff hgrows).1 hexports), ?_⟩
      have hsame : s.directoryOf id = r.directoryOf id :=
        directoryOf_of_grows hgrows.touches.units hunit.lt_size
      exact hsame ▸ foundFrom_rememberFound

end Resolution

end ScriptBuild
