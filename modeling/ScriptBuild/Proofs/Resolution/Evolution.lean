import ScriptBuild.Proofs.Program.Sound
import ScriptBuild.Proofs.Resolution.Worklist

namespace ScriptBuild

/-- What becomes of a program in the course of analyses. It goes through changes of single units,
    each of which keeps the program sound, whatever the worlds in which the analyses run and whether
    they succeed or fail. -/
abbrev Program.Evolves (p q : Program) : Prop :=
  Relation.ReflTransGen (fun p q => ∃ id, Program.Change id p q) p q

/-- Changes of one unit are a way for the program to evolve. -/
theorem Program.Changes.evolves {p q : Program} {id : Nat} (h : p.Changes id q) : p.Evolves q :=
  Relation.ReflTransGen.mono (fun _ _ hchange => ⟨id, hchange⟩) _ _ h

/-- A sound program is sound whatever becomes of it. -/
theorem Program.Sound.evolves {p q : Program} (h : p.Sound) (hevolves : p.Evolves q) : q.Sound := by
  induction hevolves with
  | refl => exact h
  | tail _ hchange ih =>
    obtain ⟨id, hchange⟩ := hchange
    exact ih.change hchange

namespace Resolution

variable {w : World} {r s : Resolution} {id other a : Nat} {name slot n : String} {t former : Target}
  {d : Definition} {kind : UnitKind} {work : Work} {directory : Option FilePath} {fuel : Nat}

/-- A unit is known and is not a shared table. -/
def IsUnit (r : Resolution) (id : Nat) : Prop :=
  ∃ u, r.program.units.get? id = some u ∧ u.kind.isSharedTable = false

/-- A unit is known, and lists a name if it is a shared table. -/
def Lists (r : Resolution) (id : Nat) (name : String) : Prop :=
  ∃ u, r.program.units.get? id = some u ∧ (u.kind.isSharedTable → u.hasSlot name)

/-- What a run keeps for later is about units that can be handled, and about shared tables that list
what was found in them. -/
structure Sane (r : Resolution) : Prop where
  waiting : ∀ work ∈ r.run.waiting, r.IsUnit work.unit
  found : ∀ directory name id, r.foundFrom directory name = some id → r.Lists id name

theorem IsUnit.mono (h : r.IsUnit id) (hgrows : r.program.units.Grows s.program.units) :
    s.IsUnit id := by
  obtain ⟨u, hu, htable⟩ := h
  obtain ⟨v, hv, huv⟩ := hgrows id u hu
  exact ⟨v, hv, by rw [huv.kind, htable]⟩

/-- A unit has a number of the catalog. -/
theorem IsUnit.lt_size (h : r.IsUnit id) : id < r.program.units.size := by
  obtain ⟨u, hu, _⟩ := h
  exact Catalog.lt_size_of_get? hu

theorem IsTable.mono (h : r.IsTable id) (hgrows : r.program.units.Grows s.program.units) :
    s.IsTable id := by
  obtain ⟨u, hu, hshared⟩ := h
  obtain ⟨v, hv, huv⟩ := hgrows id u hu
  exact ⟨v, hv, by rw [huv.kind, hshared]⟩

/-- The unit that a definition of a shared table denotes is one. -/
theorem isTable_of_findMatch {timestamp : Nat} (htable : kind.isSharedTable)
    (hmatch : r.program.units.findMatch name kind timestamp = some id) : r.IsTable id := by
  obtain ⟨u, hu, _, hidentity⟩ := Catalog.describes_of_findMatch hmatch
  exact ⟨u, hu, by rw [UnitKind.isSharedTable_eq_of_tag (congrArg Identity.tag hidentity), htable]⟩

/-- What is found by a kind that is not a shared table's is a unit. -/
theorem isUnit_of_findMatch {timestamp : Nat} (htable : kind.isSharedTable = false)
    (hmatch : r.program.units.findMatch name kind timestamp = some id) : r.IsUnit id := by
  obtain ⟨u, hu, _, hidentity⟩ := Catalog.describes_of_findMatch hmatch
  exact ⟨u, hu, by rw [UnitKind.isSharedTable_eq_of_tag (congrArg Identity.tag hidentity), htable]⟩

theorem Lists.mono (h : r.Lists id name) (hgrows : r.program.units.Grows s.program.units) :
    s.Lists id name := by
  obtain ⟨u, hu, hlists⟩ := h
  obtain ⟨v, hv, huv⟩ := hgrows id u hu
  refine ⟨v, hv, fun htable => ?_⟩
  rw [huv.kind] at htable
  have hslot := hlists htable
  rw [BuildUnit.hasSlot, List.contains_iff_mem] at hslot ⊢
  exact huv.slots htable name hslot

theorem IsUnit.lists (h : r.IsUnit id) (name : String) : r.Lists id name := by
  obtain ⟨u, hu, htable⟩ := h
  refine ⟨u, hu, fun hshared => ?_⟩
  rw [htable] at hshared
  cases hshared

theorem lists_of_exports (h : r.Exports id name) : r.Lists id name := by
  obtain ⟨u, hu, hslot⟩ := (Option.any_eq_true _ _).1 h
  exact ⟨u, hu, fun _ => hslot⟩

/-- A run stays sane while the program grows, if only units are added to the work that waits. -/
theorem Sane.mono (h : r.Sane) (hgrows : r.program.units.Grows s.program.units)
    (hwaiting : ∀ work ∈ s.run.waiting, work ∈ r.run.waiting ∨ s.IsUnit work.unit)
    (hfound : s.run.found = r.run.found) : s.Sane where
  waiting work hwork := by
    rcases hwaiting work hwork with hold | hunit
    · exact (h.waiting work hold).mono hgrows
    · exact hunit
  found directory name id heq := by
    rw [foundFrom, hfound] at heq
    exact (h.found directory name id heq).mono hgrows

/-- Adding a slot to a shared table keeps the run sane. -/
theorem Sane.growTable (h : r.Sane) (slot : String) (htable : r.IsTable id) :
    (r.growTable id slot).Sane := by
  refine h.mono (grows_growTable slot htable).touches.units (fun work hwork => .inl ?_) ?_
  · rwa [growTable_run] at hwork
  · rw [growTable_run]

/-- The program grows by a shared table that it did not have. -/
theorem grows_makeTable (hmatch : r.program.units.findMatch (tableName kind) kind 0 = none) :
    r.program.Grows (r.makeTable kind).program :=
  .single (.insert _ kind 0 .table hmatch fun _ => rfl)

/-- The program grows by the shared table of a kind, or by its slot. -/
theorem grows_tableFor (r : Resolution) (slot : String) (htable : kind.isSharedTable) :
    r.program.Grows (r.tableFor slot kind).1.program := by
  cases hmatch : r.program.units.findMatch (tableName kind) kind 0 with
  | some id =>
    rw [tableFor_of_some hmatch]
    exact grows_growTable slot (isTable_of_findMatch htable hmatch)
  | none =>
    rw [tableFor_of_none hmatch]
    exact (grows_makeTable hmatch).trans (grows_growTable slot (isTable_makeTable htable))

/-- The shared table of a kind is there afterwards, lists the slot, and the run is sane. -/
theorem Sane.tableFor (h : r.Sane) (slot : String) (htable : kind.isSharedTable) :
    (r.tableFor slot kind).1.Sane ∧ r.program.Grows (r.tableFor slot kind).1.program ∧
      (r.tableFor slot kind).1.program.units.findMatch (tableName kind) kind 0 =
        some (r.tableFor slot kind).2 ∧
      (r.tableFor slot kind).1.Lists (r.tableFor slot kind).2 slot := by
  have hgrows := grows_tableFor r slot htable
  cases hmatch : r.program.units.findMatch (tableName kind) kind 0 with
  | some id =>
    rw [tableFor_of_some hmatch] at hgrows ⊢
    exact ⟨h.growTable slot (isTable_of_findMatch htable hmatch), hgrows,
      hgrows.touches.units.findMatch hmatch,
      lists_of_exports (exports_growTable (Catalog.describes_of_findMatch hmatch).lt_size)⟩
  | none =>
    rw [tableFor_of_none hmatch] at hgrows ⊢
    have hmade : (r.makeTable kind).Sane :=
      h.mono (grows_makeTable hmatch).touches.units (fun _ hwork => .inl hwork) rfl
    have hmatch' : (r.makeTable kind).program.units.findMatch (tableName kind) kind 0 =
        some r.program.units.size := Catalog.findMatch_insert hmatch
    have hshared := isTable_makeTable (r := r) htable
    exact ⟨hmade.growTable slot hshared, hgrows,
      (grows_growTable slot hshared).touches.units.findMatch hmatch',
      lists_of_exports (exports_growTable (Catalog.describes_of_findMatch hmatch').lt_size)⟩

/-- The program grows when a unit is met with a definition. -/
theorem grows_refresh (d : Definition) (hlt : id < r.program.units.size) :
    r.program.Grows (r.refresh id d).program := by
  by_cases hnewer : r.Outdated id d
  · rw [refresh_of_outdated hnewer]
    obtain ⟨v, hv, hfile, hlater⟩ := hnewer
    exact .tail (.single (.stamp id v d.timestamp d.body hv hfile hlater))
      (.node id (by rwa [Catalog.size_modify]))
  · rw [refresh_of_not_outdated hnewer]
    exact .tail (.single (.attach id d.body)) (.node id (by rwa [Catalog.size_modify]))

/-- A unit that is met for the first time waits from then on. -/
theorem run_refresh (r : Resolution) (id : Nat) (d : Definition) : ∃ work freshness, work.unit = id ∧
    (r.refresh id d).run = { r.run with
      freshness := r.run.freshness.insert id freshness
      waiting := r.run.waiting ++ [work] } := by
  by_cases hnewer : r.Outdated id d
  · rw [refresh_of_outdated hnewer]
    exact ⟨.read id, .updated, rfl, rfl⟩
  · rw [refresh_of_not_outdated hnewer]
    exact ⟨.recheck id, .old, rfl, rfl⟩

/-- Meeting a unit with a definition keeps the run sane. -/
theorem Sane.refresh (h : r.Sane) (hunit : r.IsUnit id) :
    (r.refresh id d).Sane ∧ r.program.Grows (r.refresh id d).program := by
  have hgrows := grows_refresh d hunit.lt_size
  obtain ⟨last, freshness, hlast, hrun⟩ := run_refresh r id d
  refine ⟨h.mono hgrows.touches.units (fun work hwork => ?_) (by rw [hrun]), hgrows⟩
  rw [hrun] at hwork
  refine (List.mem_append.1 hwork).imp_right fun hmem => ?_
  rw [List.mem_singleton.1 hmem, hlast]
  exact hunit.mono hgrows.touches.units

/-- The program grows by the unit of a definition, or leaves it as it is. -/
theorem grows_unitFor (r : Resolution) (name : String) (d : Definition) :
    r.program.Grows (r.unitFor name d).1.program := by
  have hunit := unitOutcome r name d
  generalize r.unitFor name d = k at hunit ⊢
  cases hunit with
  | table htable => exact grows_tableFor r name htable
  | made htable hmatch => exact .single (.insert name d.kind d.timestamp d.body hmatch (by simp [htable]))
  | met => exact .refl
  | refreshed _ hmatch => exact grows_refresh d (Catalog.describes_of_findMatch hmatch).lt_size

/-- The unit of a definition is there afterwards, lists the name, and the run is sane. -/
theorem Sane.unitFor (h : r.Sane) (name : String) (d : Definition) :
    (r.unitFor name d).1.Sane ∧ r.program.Grows (r.unitFor name d).1.program ∧
      (r.unitFor name d).1.Lists (r.unitFor name d).2 name := by
  have hgrows := grows_unitFor r name d
  have hunit := unitOutcome r name d
  generalize r.unitFor name d = k at hgrows hunit ⊢
  cases hunit with
  | table htable =>
    obtain ⟨hsane, _, _, hlists⟩ := h.tableFor name htable
    exact ⟨hsane, hgrows, hlists⟩
  | made htable hmatch =>
    have hget : (r.makeUnit name d).program.units.get? r.program.units.size = _ :=
      Catalog.get?_insert.trans (if_pos rfl)
    refine ⟨h.mono hgrows.touches.units (fun work hwork => ?_) rfl, hgrows,
      IsUnit.lists ⟨_, hget, htable⟩ name⟩
    refine (List.mem_append.1 hwork).imp_right fun hlast => ?_
    obtain rfl := List.mem_singleton.1 hlast
    exact ⟨_, hget, htable⟩
  | met htable hmatch => exact ⟨h, hgrows, (isUnit_of_findMatch htable hmatch).lists name⟩
  | refreshed htable hmatch =>
    have hunit := isUnit_of_findMatch htable hmatch
    exact ⟨(h.refresh hunit).1, hgrows, (hunit.lists name).mono hgrows.touches.units⟩

/-- What is found after something was remembered is that, or was found before. -/
theorem foundFrom_rememberFound_eq_some {directory' : Option FilePath} {name' : String}
    (h : (r.rememberFound directory name id).foundFrom directory' name' = some other) :
    (other = id ∧ name' = name) ∨ r.foundFrom directory' name' = some other := by
  simp only [foundFrom, Resolution.rememberFound, Std.ExtTreeMap.getElem?_insert,
    Std.LawfulEqCmp.compare_eq_iff_eq] at h
  split at h
  · next hkey =>
    simp only [Option.bind_some, Std.ExtTreeMap.getElem?_insert,
      Std.LawfulEqCmp.compare_eq_iff_eq] at h
    split at h
    · next hname => exact .inl ⟨(Option.some.inj h).symm, hname.symm⟩
    · refine .inr ?_
      rw [foundFrom, ← hkey]
      rw [Std.ExtTreeMap.getD_eq_getD_getElem?] at h
      cases hold : r.run.found[directory.map FilePath.key]? with
      | none => rw [hold] at h; simp at h
      | some names => rw [hold] at h; exact h
  · exact .inr h

/-- A run may remember where a name was found, if the unit lists it. -/
theorem Sane.rememberFound (h : r.Sane) (directory : Option FilePath) (hlists : r.Lists id name) :
    (r.rememberFound directory name id).Sane where
  waiting := h.waiting
  found directory' name' other heq := by
    rcases foundFrom_rememberFound_eq_some heq with ⟨rfl, rfl⟩ | heq
    · exact hlists
    · exact h.found directory' name' other heq

/-- Growing does not change what a unit exports. -/
theorem IsUnit.exports_iff (h : r.IsUnit id) (hgrows : r.program.Grows s.program) :
    s.Exports id name ↔ r.Exports id name := by
  obtain ⟨u, hu, htable⟩ := h
  obtain ⟨v, hv, _⟩ := hgrows.touches.units id u hu
  have hslots := hgrows.touches.slots id u v not_false hu hv htable
  simp only [Exports, hu, hv, Option.any_some, BuildUnit.hasSlot, hslots]

theorem Exports.mono (h : r.Exports id name) (htable : r.IsTable id)
    (hgrows : r.program.units.Grows s.program.units) : s.Exports id name := by
  obtain ⟨u, hu, hshared⟩ := htable
  obtain ⟨v, hv, huv⟩ := hgrows id u hu
  rw [Exports, hu, Option.any_some, BuildUnit.hasSlot, List.contains_iff_mem] at h
  rw [Exports, hv, Option.any_some, BuildUnit.hasSlot, List.contains_iff_mem]
  exact huv.slots hshared name h

/-- What a unit exports it still exports when programs have grown. -/
theorem Exports.grows (h : r.Exports id name) (hgrows : r.program.Grows s.program) :
    s.Exports id name := by
  by_cases htable : r.IsTable id
  · exact h.mono htable hgrows.touches.units
  · obtain ⟨u, hu, _⟩ := (Option.any_eq_true _ _).1 h
    refine (IsUnit.exports_iff ⟨u, hu, ?_⟩ hgrows).2 h
    rw [← Bool.not_eq_true]
    exact fun hshared => htable ⟨u, hu, hshared⟩

/-- Adding a slot to a table is about no other unit. -/
theorem get?_growTable : (r.growTable id slot).program.units.get? other =
    if id = other then (r.program.units.get? other).map (·.addSlot slot)
    else r.program.units.get? other := by
  rw [growTable_program]
  exact Catalog.get?_modify fun _ => BuildUnit.becomes_addSlot.name

/-- After a slot was added to a table, it exports that name besides what was exported before. -/
theorem exports_growTable_iff : (r.growTable id slot).Exports a n ↔
    r.Exports a n ∨ (a = id ∧ n = slot ∧ (r.program.units.get? id).isSome) := by
  rw [Exports, get?_growTable, Exports]
  split
  · next heq =>
    subst heq
    cases hu : r.program.units.get? id with
    | none => simp
    | some u =>
      rw [Option.map_some, Option.any_some, Option.any_some, BuildUnit.hasSlot_addSlot]
      simp [or_comm]
  · next hne => simp [Ne.symm hne]

/-- A lookup adds a name only to the shared table where it is found. -/
theorem exports_tableFor (h : (r.tableFor slot kind).1.Exports a n) :
    r.Exports a n ∨ (a = (r.tableFor slot kind).2 ∧ n = slot) := by
  cases hmatch : r.program.units.findMatch (tableName kind) kind 0 with
  | some id =>
    rw [tableFor_of_some hmatch] at h ⊢
    exact (exports_growTable_iff.1 h).imp_right fun hnew => ⟨hnew.1, hnew.2.1⟩
  | none =>
    rw [tableFor_of_none hmatch] at h ⊢
    rcases exports_growTable_iff.1 h with hmade | hnew
    · refine .inl ?_
      have hget : (r.makeTable kind).program.units.get? a = _ := Catalog.get?_insert
      rw [Exports, hget] at hmade
      split at hmade
      · cases hmade
      · exact hmade
    · exact .inr ⟨hnew.1, hnew.2.1⟩

/-- Meeting a unit with a definition lets nothing export another name. -/
theorem exports_refresh (h : (r.refresh id d).Exports a n) : r.Exports a n := by
  have hslots (f : BuildUnit → BuildUnit) (hname : ∀ u, (f u).name = u.name)
      (hf : ∀ u, (f u).slots = u.slots)
      (h : ((r.program.units.modify id f).get? a).any (·.hasSlot n) = true) : r.Exports a n := by
    rw [Catalog.get?_modify hname] at h
    split at h
    · rw [Option.any_map] at h
      simpa [Exports, BuildUnit.hasSlot, hf, Function.comp_def] using h
    · exact h
  by_cases hnewer : r.Outdated id d
  · rw [refresh_of_outdated hnewer] at h
    exact hslots (fun u => { u with timestamp := d.timestamp, body := some d.body })
      (fun _ => rfl) (fun _ => rfl) h
  · rw [refresh_of_not_outdated hnewer] at h
    exact hslots (fun u => { u with body := u.body.or (some d.body) }) (fun _ => rfl)
      (fun _ => rfl) h

/-- Only the unit of the definition can export a name that was not exported before. -/
theorem exports_unitFor (h : (r.unitFor name d).1.Exports a n) :
    r.Exports a n ∨ (a = (r.unitFor name d).2 ∧ n = name) := by
  have hunit := unitOutcome r name d
  generalize r.unitFor name d = k at hunit h ⊢
  cases hunit with
  | table => exact exports_tableFor h
  | made =>
    refine .inl ?_
    have hget : (r.makeUnit name d).program.units.get? a = _ := Catalog.get?_insert
    rw [Exports, hget] at h
    split at h
    · cases h
    · exact h
  | met => exact .inl h
  | refreshed => exact .inl (exports_refresh h)

/-- A lookup lets nothing export a name but the unit that the name is resolved to. -/
theorem exports_lookupExternal (h : (r.lookupExternal w id name).1.Exports a n) :
    r.Exports a n ∨ ((r.lookupExternal w id name).2 = .unit a ∧ n = name) := by
  have hlookup := lookupOutcome w r id name
  generalize r.lookupExternal w id name = k at hlookup h ⊢
  cases hlookup with
  | own | recalled | missing => exact .inl h
  | found =>
    rcases exports_unitFor h with hold | ⟨heq, hn⟩
    · exact .inl hold
    · exact .inr ⟨by rw [heq], hn⟩

/-- What is remembered of the known names has no part in this. -/
theorem Sane.learn (h : r.Sane) (names : Option NameSet)
    (namesIn : Std.ExtTreeMap DirectoryKey NameSet) : (r.learn names namesIn).Sane :=
  ⟨h.waiting, h.found⟩

/-- A lookup meets units. It leads to the unit that asks if that exports the name, and otherwise to
nothing but what lists it. -/
theorem Sane.looked (h : r.Sane) (w : World) (id : Nat) (name : String) :
    (r.lookupExternal w id name).1.Sane ∧
      r.program.Grows (r.lookupExternal w id name).1.program ∧
      (r.Exports id name → (r.lookupExternal w id name).2 = .unit id) ∧
      ∀ other, (r.lookupExternal w id name).2 = .unit other →
        (r.lookupExternal w id name).1.Lists other name := by
  have hlookup := lookupOutcome w r id name
  generalize r.lookupExternal w id name = k at hlookup ⊢
  cases hlookup with
  | own hown =>
    refine ⟨h, .refl, fun _ => rfl, ?_⟩
    rintro _ ⟨⟩
    exact lists_of_exports hown
  | recalled hown hfound =>
    refine ⟨h, .refl, fun hexports => absurd hexports hown, ?_⟩
    rintro _ ⟨⟩
    exact h.found _ _ _ hfound
  | missing hown => exact ⟨h.learn _ _, .refl, fun hexports => absurd hexports hown, by simp⟩
  | @found names namesIn d hown =>
    obtain ⟨hsane, hgrows, hlists⟩ := (h.learn names namesIn).unitFor name d
    refine ⟨hsane.rememberFound _ hlists, hgrows, fun hexports => absurd hexports hown, ?_⟩
    rintro other ⟨⟩
    exact hlists

/-- A name of a unit may be imported from where it was looked up. -/
theorem Sane.lookupExternal (h : r.Sane) (w : World) (name : String) (hunit : r.IsUnit id) :
    (r.lookupExternal w id name).1.Sane ∧
      r.program.Grows (r.lookupExternal w id name).1.program ∧
      (r.lookupExternal w id name).1.program.MayTake id (r.lookupExternal w id name).2 name := by
  obtain ⟨hsane, hgrows, hown, hlists⟩ := h.looked w id name
  refine ⟨hsane, hgrows, hunit.mono hgrows.touches.units, fun other heq => ?_,
    fun other v heq hv htable => ?_, fun v hv hslot hne => absurd (hown ?_) hne⟩
  · obtain ⟨v, hv, _⟩ := hlists other heq
    exact Catalog.lt_size_of_get? hv
  · obtain ⟨v', hv', hlisted⟩ := hlists other heq
    obtain rfl := Option.some.inj (hv.symm.trans hv')
    exact hlisted htable
  · rwa [← hunit.exports_iff hgrows, Exports, hv, Option.any_some]

/-- A run stays sane when the program changes about one unit and nothing else does. -/
theorem Sane.changes (h : r.Sane) (hchanges : r.program.Changes id s.program)
    (hwaiting : s.run.waiting = r.run.waiting) (hfound : s.run.found = r.run.found) : s.Sane :=
  h.mono hchanges.touches.units (fun _ hwork => .inl (hwaiting ▸ hwork)) hfound

/-- Declaring a global variable changes the program about the unit that declares it. -/
theorem Sane.declareGlobal (h : r.Sane) (name : String) (hunit : r.IsUnit id) :
    (Resolution.declareGlobal id r name).Sane ∧
      r.program.Changes id (Resolution.declareGlobal id r name).program := by
  have htable : UnitKind.globals.isSharedTable := rfl
  obtain ⟨hsane, hgrows, hmatch, hlists⟩ := h.tableFor name htable
  have hglobal := GlobalTable.isGlobal hmatch
  rw [declareGlobal_eq]
  generalize r.tableFor name .globals = k at hsane hgrows hmatch hlists hglobal ⊢
  obtain ⟨s, table⟩ := k
  have hchange : s.program.Changes id
      (s.modifyProgram (·.recordImport id (.unit table) name)).program := by
    refine .single (.record _ name ⟨hunit.mono hgrows.touches.units, ?_, ?_, fun _ _ _ _ => hglobal⟩)
    · rintro other ⟨⟩
      exact (Catalog.describes_of_findMatch hmatch).lt_size
    · rintro other v ⟨⟩ hv htable
      obtain ⟨v', hv', hlisted⟩ := hlists
      obtain rfl := Option.some.inj (hv.symm.trans hv')
      exact hlisted htable
  exact ⟨hsane.changes hchange rfl rfl, hgrows.changes.trans hchange⟩

/-- Resolving a reference changes the program about the unit that refers. -/
theorem Sane.importReference (h : r.Sane) (w : World) (reference : String × Span)
    (hunit : r.IsUnit id) : (Resolution.importReference w id r reference).Sane ∧
      r.program.Changes id (Resolution.importReference w id r reference).program := by
  obtain ⟨hsane, hgrows, hmay⟩ := h.lookupExternal w reference.1 hunit
  have hchange : (r.lookupExternal w id reference.1).1.program.Changes id
      (Resolution.importReference w id r reference).program := by
    rw [importReference_program]
    exact .single (.record _ reference.1 hmay)
  have hrun := importReference_run w r id reference
  exact ⟨hsane.changes hchange (by rw [hrun]) (by rw [hrun]), hgrows.changes.trans hchange⟩

/-- Opening a body changes the program about its unit. -/
theorem changes_openBody {u : BuildUnit} (slots : List String)
    (hget : r.program.units.get? id = some u) (hbody : u.kind.hasBody) :
    r.program.Changes id (r.openBody id slots).program := by
  have hget' : (r.program.clearBody id).units.get? id = some { u with slots := [] } := by
    exact Catalog.get?_modify_of_get? hget rfl
  exact .tail (.single (.clear u hget hbody))
    (.exports _ slots hget' hbody (by rw [Program.importsOf_clearBody, if_pos rfl]))

/-- Importing what a body says goes through states that are sane. What its opening and then each of
these steps keeps is kept by all of it. -/
theorem Sane.importBody_induction {P : Resolution → Prop} {u : BuildUnit} (h : r.Sane) (w : World)
    (hget : r.program.units.get? id = some u) (hhas : u.kind.hasBody) (summary : Summary)
    (hopen : P (r.openBody id summary.slots))
    (hglobal : ∀ s : Resolution, s.Sane → s.IsUnit id → P s →
      ∀ name ∈ summary.globals, P (s.declareGlobal id name))
    (hreference : ∀ s : Resolution, s.Sane → s.IsUnit id → P s →
      ∀ reference ∈ summary.references, P (s.importReference w id reference)) :
    (r.importBody w id summary).Sane ∧
      r.program.Changes id (r.importBody w id summary).program ∧ P (r.importBody w id summary) := by
  have hunit : r.IsUnit id := ⟨u, hget, UnitKind.isSharedTable_of_hasBody hhas⟩
  have hopened := changes_openBody summary.slots hget hhas
  have hdeclared := List.foldlRecOn summary.globals (Resolution.declareGlobal id)
    (motive := fun s => s.Sane ∧ r.program.Changes id s.program ∧ P s)
    ⟨h.changes hopened rfl rfl, hopened, hopen⟩ fun s ⟨hs, hchanges, hp⟩ name hmem => by
      have hmono := hunit.mono hchanges.touches.units
      obtain ⟨hs', hchanges'⟩ := hs.declareGlobal name hmono
      exact ⟨hs', hchanges.trans hchanges', hglobal s hs hmono hp name hmem⟩
  exact List.foldlRecOn summary.references (Resolution.importReference w id)
    (motive := fun s => s.Sane ∧ r.program.Changes id s.program ∧ P s) hdeclared
    fun s ⟨hs, hchanges, hp⟩ reference hmem => by
      have hmono := hunit.mono hchanges.touches.units
      obtain ⟨hs', hchanges'⟩ := hs.importReference w reference hmono
      exact ⟨hs', hchanges.trans hchanges', hreference s hs hmono hp reference hmem⟩

/-- Reading a body changes the program about its unit, also when the body has a fault. -/
theorem Sane.readBody (h : r.Sane) (w : World) (id : Nat) :
    (r.readBody w id).1.Sane ∧ r.program.Changes id (r.readBody w id).1.program := by
  have hread := readOutcome w r id
  generalize r.readBody w id = k at hread ⊢
  cases hread with
  | bodiless => exact ⟨h, .refl⟩
  | @faulty u _ _ hget hhas =>
    have hclear : r.program.Changes id (r.program.clearBody id) := .single (.clear u hget hhas)
    exact ⟨h.changes (s := r.modifyProgram (·.clearBody id)) hclear rfl rfl, hclear⟩
  | @read u _ events hget hhas =>
    obtain ⟨hs, hchanges, -⟩ := h.importBody_induction (P := fun _ => True) w hget hhas
      (.ofEvents events) trivial (fun _ _ _ _ _ _ => trivial) fun _ _ _ _ _ _ => trivial
    exact ⟨⟨hs.waiting, hs.found⟩, hchanges⟩

/-- Looking up a recorded import again changes the program about the unit that imports. -/
theorem Sane.recheckImport (h : r.Sane) (w : World) (x : Target × String) (changed : Bool)
    (hunit : r.IsUnit id) : (Resolution.recheckImport w id (r, changed) x).1.Sane ∧
      r.program.Changes id (Resolution.recheckImport w id (r, changed) x).1.program := by
  obtain ⟨hsane, hgrows, hmay⟩ := h.lookupExternal w x.2 hunit
  by_cases heq : (r.lookupExternal w id x.2).2 = x.1
  · rw [recheckImport_of_eq heq]
    exact ⟨hsane, hgrows.changes⟩
  · have hmove : (r.lookupExternal w id x.2).1.program.Changes id
        (Resolution.recheckImport w id (r, changed) x).1.program := by
      rw [recheckImport_program_of_ne _ heq]
      obtain ⟨htaker, htarget, hlisted, hforeign⟩ := hmay
      refine .tail (.single (.remove x.1 x.2)) (.record _ x.2 ?_)
      constructor <;> simp only [Program.IsGlobal, Program.units_removeImport]
      exacts [htaker, htarget, hlisted, hforeign]
    have hrun := recheckImport_run w r id changed x
    exact ⟨hsane.changes hmove (by rw [hrun]) (by rw [hrun]), hgrows.changes.trans hmove⟩

/-- Looking up again what a unit imports goes through states that are sane. What each of these steps
and the mark at the end keeps is kept by all of it. -/
theorem Sane.recheck_induction {P : Resolution → Prop} (h : r.Sane) (w : World) (hunit : r.IsUnit id)
    (hstart : P r)
    (hstep : ∀ (s : Resolution) (changed : Bool), s.Sane → s.IsUnit id → P s →
      ∀ x ∈ lookedUpImports r.program id, P (Resolution.recheckImport w id (s, changed) x).1)
    (hmark : ∀ s : Resolution, s.freshness id = .old → P s →
      P (s.setFreshness id .dependencyUpdated)) :
    (r.recheck w id).1.Sane ∧ r.program.Changes id (r.recheck w id).1.program ∧
      P (r.recheck w id).1 := by
  have hall := List.foldlRecOn (lookedUpImports r.program id) (Resolution.recheckImport w id)
    (motive := fun k : Resolution × Bool => k.1.Sane ∧ r.program.Changes id k.1.program ∧ P k.1)
    (b := (r, false)) ⟨h, .refl, hstart⟩ fun k ⟨hs, hchanges, hp⟩ x hmem => by
      have hmono := hunit.mono hchanges.touches.units
      obtain ⟨hs', hchanges'⟩ := hs.recheckImport w x k.2 hmono
      exact ⟨hs', hchanges.trans hchanges', hstep k.1 k.2 hs hmono hp x hmem⟩
  have hrecheck := recheckOutcome w r id
  generalize r.recheck w id = k at hrecheck ⊢
  cases hrecheck with
  | kept hfold => rwa [hfold] at hall
  | marked hfold hold =>
    rw [hfold] at hall
    obtain ⟨hs, hchanges, hp⟩ := hall
    exact ⟨⟨hs.waiting, hs.found⟩, hchanges, hmark _ hold hp⟩

/-- A fix-up changes the program about the unit whose imports are fixed up. -/
theorem Sane.recheck (h : r.Sane) (w : World) (hunit : r.IsUnit id) :
    (r.recheck w id).1.Sane ∧ r.program.Changes id (r.recheck w id).1.program := by
  obtain ⟨hs, hchanges, -⟩ := h.recheck_induction (P := fun _ => True) w hunit trivial
    (fun _ _ _ _ _ _ _ => trivial) fun _ _ _ => trivial
  exact ⟨hs, hchanges⟩

/-- A run is sane when a piece of work is taken up. -/
theorem Sane.begin (h : r.Sane) {later : List Work} (hwaiting : r.run.waiting = work :: later) :
    (r.begin work later).Sane :=
  ⟨fun x hx => h.waiting x (hwaiting ▸ List.mem_cons_of_mem _ hx), h.found⟩

/-- Handling a unit keeps the run sane, and lets the program evolve. -/
theorem Sane.handle (h : r.Sane) (w : World) (work : Work) (hunit : r.IsUnit work.unit) :
    (r.handle w work).1.Sane ∧ r.program.Evolves (r.handle w work).1.program := by
  have hbegin : (r.begin work r.run.waiting).Sane := ⟨h.waiting, h.found⟩
  have hhandle := handleOutcome w r work
  generalize r.handle w work = k at hhandle ⊢
  cases hhandle with
  | handled => exact ⟨h, .refl⟩
  | @read id =>
    obtain ⟨hsane, hchanges⟩ := hbegin.readBody w id
    exact ⟨hsane, hchanges.evolves⟩
  | recheck =>
    obtain ⟨hsane, hchanges⟩ := hbegin.recheck w hunit
    exact ⟨hsane, hchanges.evolves⟩

/-- Working off the queue keeps the run sane and lets the program evolve, by induction on the
work. -/
theorem Sane.drain (fuel : Nat) (h : r.Sane) (w : World) :
    (r.drain w fuel).1.Sane ∧ r.program.Evolves (r.drain w fuel).1.program := by
  refine drain_keeps (P := fun s => s.Sane ∧ r.program.Evolves s.program)
    (fun {s work later} ⟨hs, hevolves⟩ hwaiting => ?_) ⟨h, .refl⟩ fuel
  have hlater : Sane { s with run := { s.run with waiting := later } } :=
    ⟨fun x hx => hs.waiting x (hwaiting ▸ List.mem_cons_of_mem _ hx), hs.found⟩
  obtain ⟨hsane, hrest⟩ := hlater.handle w work (hs.waiting work (hwaiting ▸ List.mem_cons_self))
  exact ⟨hsane, hevolves.trans hrest⟩

/-- An analysis takes the program through changes of single units, in any world and also if it
fails. -/
theorem Sane.analyze (h : r.Sane) (w : World) (entry : String) (definition : Option Definition) :
    (r.analyze w entry definition).1.Sane ∧
      r.program.Evolves (r.analyze w entry definition).1.program := by
  have hdrained (d : Definition) : ((r.unitFor entry d).1.drain w workLimit).1.Sane ∧
      r.program.Evolves ((r.unitFor entry d).1.drain w workLimit).1.program := by
    obtain ⟨hs, hgrows, _⟩ := h.unitFor entry d
    obtain ⟨hlast, hevolves⟩ := hs.drain workLimit w
    have hgrown : r.program.Evolves (r.unitFor entry d).1.program :=
      .mono (fun _ _ hgrow => ⟨0, .grow hgrow⟩) _ _ hgrows
    exact ⟨hlast, hgrown.trans hevolves⟩
  have hanalyze := analyzeOutcome w r entry definition
  generalize r.analyze w entry definition = k at hanalyze ⊢
  cases hanalyze with
  | undefined | table => exact ⟨h, .refl⟩
  | @done d _ _ _ hdrain =>
    have hlast := hdrained d
    rwa [hdrain] at hlast
  | @failed d _ _ _ _ hdrain =>
    have hlast := hdrained d
    rw [hdrain] at hlast
    exact ⟨⟨fun _ hmem => absurd hmem List.not_mem_nil, hlast.1.found⟩, hlast.2⟩

/-- The states that come about: a program is restored from an archive, which may be empty, and then
analyses in any worlds, new runs and notes about built units follow in any order. -/
inductive Arises : Resolution → Prop where
  | restored (archive : Archive) : Arises (.start archive.toProgram)
  | analyzed (w : World) (entry : String) (definition : Option Definition) {r : Resolution}
      (h : Arises r) : Arises (r.analyze w entry definition).1
  | reset {r : Resolution} (h : Arises r) : Arises r.reset
  | markBuilt (id : Nat) {r : Resolution} (h : Arises r) : Arises (r.markBuilt id)

theorem sane_start (p : Program) : (start p).Sane where
  waiting _ hmem := absurd hmem List.not_mem_nil
  found _ _ _ heq := by simp [foundFrom, start, Run.start] at heq

theorem Arises.sane (h : Arises r) : r.Sane := by
  induction h with
  | restored archive => exact sane_start _
  | analyzed w entry definition _ ih => exact (ih.analyze w entry definition).1
  | reset _ _ => exact sane_start _
  | markBuilt id _ ih => exact ⟨ih.waiting, ih.found⟩

theorem Arises.sound (h : Arises r) : r.program.Sound := by
  induction h with
  | restored archive => exact Program.sound_toProgram archive
  | analyzed w entry definition hr ih =>
    exact ih.evolves (hr.sane.analyze w entry definition).2
  | reset _ ih => exact ih
  | markBuilt id _ ih => exact ih

end Resolution

end ScriptBuild
