import Mathlib.Data.Set.Card
import ScriptBuild.Proofs.Resolution.Counting

namespace ScriptBuild

/-- The definitions that denote a unit, each by its name and by what identifies it. -/
def Catalog.definitions (c : Catalog) : Set (String × Identity) :=
  {x | ∃ id u, c.get? id = some u ∧ u.name = x.1 ∧ u.identity = x.2}

/-- A definition that denotes a unit goes on doing so. -/
theorem Catalog.Grows.definitions {c d : Catalog} (h : c.Grows d) : c.definitions ⊆ d.definitions := by
  rintro x ⟨id, u, hu, hname, hidentity⟩
  obtain ⟨v, hv, huv⟩ := h id u hu
  exact ⟨id, v, hv, huv.name.trans hname, huv.identity.trans hidentity⟩

/-- Some body refers to a name, or declares it as a global variable. -/
def World.Says (w : World) (name : String) : Prop :=
  ∃ body events, w.events body = .ok events ∧ (name ∈ (Summary.ofEvents events).globals ∨
    name ∈ (Summary.ofEvents events).references.map (·.1))

namespace Resolution

/-- A name that may be looked up: some body says it, or a unit of the program imports it. -/
def Mentions (w : World) (p : Program) (name : String) : Prop :=
  w.Says name ∨ ∃ id t, p.Takes id t name

/-- A directory from which names may be looked up: none in particular, that of a unit of the program or
of the entry point, or that of a definition that was found from such a directory. -/
inductive Visits (w : World) (p : Program) (root : Option Definition) : Option FilePath → Prop where
  | nowhere : Visits w p root none
  | unit (id : Nat) (u : BuildUnit) (hu : p.units.get? id = some u) : Visits w p root u.directory?
  | root (d : Definition) (hroot : root = some d) : Visits w p root d.directory?
  | found (directory : Option FilePath) (name : String) (d : Definition)
      (h : Visits w p root directory) (hname : Mentions w p name)
      (hfind : w.lookup.find name directory = some d) : Visits w p root d.directory?

/-- The definitions that may be found, each by its name and by what identifies it. -/
def Findable (w : World) (p : Program) (root : Option Definition) : Set (String × Identity) :=
  {x | Mentions w p x.1 ∧ ∃ directory d, Visits w p root directory ∧
    w.lookup.find x.1 directory = some d ∧ d.identity = x.2}

variable {w : World} {p : Program} {root : Option Definition} {r s : Resolution} {id : Nat}
  {name slot : String} {t : Target} {d : Definition} {kind : UnitKind} {work : Work}
  {later : List Work} {v : BuildUnit} {defs : Set (String × Identity)} {x : String × Identity}
  {limit : Nat}

/-- The known units that were not met. -/
def unmet (r : Resolution) : Set Nat := {id | id < r.program.units.size ∧ ¬ r.Met id}

/-- The units that were not met are known. -/
theorem unmet_subset (r : Resolution) : r.unmet ⊆ Finset.range r.program.units.size :=
  fun _ h => Finset.mem_coe.2 (Finset.mem_range.2 h.1)

theorem finite_unmet (r : Resolution) : r.unmet.Finite :=
  (Finset.finite_toSet _).subset r.unmet_subset

/-- How much work may be left: that for definitions which denote no unit, that for units which were
not met, and that which waits. -/
noncomputable def budget (defs : Set (String × Identity)) (r : Resolution) : Nat :=
  (defs \ r.program.units.definitions).ncard + r.unmet.ncard + r.run.waiting.length

/-- At most all definitions, all units and all that waits are left. -/
theorem budget_le (hfinite : defs.Finite) (r : Resolution) :
    r.budget defs ≤ defs.ncard + r.program.units.size + r.run.waiting.length := by
  have hdefs : (defs \ r.program.units.definitions).ncard ≤ defs.ncard :=
    Set.ncard_le_ncard Set.sdiff_subset hfinite
  have hunmet := Set.ncard_le_ncard r.unmet_subset (Finset.finite_toSet _)
  rw [Set.ncard_coe_finset, Finset.card_range] at hunmet
  rw [budget]
  omega

/-- What may be left only gets less while units grow and are met. -/
structure Uses (r s : Resolution) : Prop where
  units : r.program.units.Grows s.program.units
  unmet : s.unmet ⊆ r.unmet

/-- No unit that was met becomes one that was not. -/
theorem Uses.ncard_unmet_le (h : r.Uses s) : s.unmet.ncard ≤ r.unmet.ncard :=
  Set.ncard_le_ncard h.unmet r.finite_unmet

/-- A definition that denotes a unit is off the budget. -/
theorem Uses.definitions_subset (h : r.Uses s) (defs : Set (String × Identity)) :
    defs \ s.program.units.definitions ⊆ defs \ r.program.units.definitions :=
  Set.sdiff_subset_sdiff_right h.units.definitions

/-- So the definitions that are left do not become more. -/
theorem Uses.ncard_definitions_le (h : r.Uses s) (hfinite : defs.Finite) :
    (defs \ s.program.units.definitions).ncard ≤ (defs \ r.program.units.definitions).ncard :=
  Set.ncard_le_ncard (h.definitions_subset defs) (hfinite.subset Set.sdiff_subset)

/-- The budget is not raised where no work is put down. -/
theorem Uses.budget_le (h : r.Uses s) (hfinite : defs.Finite)
    (hwaiting : s.run.waiting = r.run.waiting) : s.budget defs ≤ r.budget defs := by
  have hdefs := h.ncard_definitions_le hfinite
  have hunmet := h.ncard_unmet_le
  rw [budget, budget, hwaiting]
  omega

/-- A single piece of work raises it by one at most. -/
theorem Uses.budget_le_succ (h : r.Uses s) (hfinite : defs.Finite)
    (hwaiting : s.run.waiting = r.run.waiting ++ [work]) : s.budget defs ≤ r.budget defs + 1 := by
  have hdefs := h.ncard_definitions_le hfinite
  have hunmet := h.ncard_unmet_le
  rw [budget, budget, hwaiting, List.length_append, List.length_singleton]
  omega

/-- A definition that is denoted for the first time pays for a piece of work. -/
theorem Uses.budget_le_of_denoted (h : r.Uses s) (hfinite : defs.Finite)
    (hwaiting : s.run.waiting = r.run.waiting ++ [work]) (hdef : x ∈ defs)
    (hbefore : x ∉ r.program.units.definitions) (hafter : x ∈ s.program.units.definitions) :
    s.budget defs ≤ r.budget defs := by
  have hdefs : (defs \ s.program.units.definitions).ncard <
      (defs \ r.program.units.definitions).ncard := by
    refine Set.ncard_lt_ncard ⟨h.definitions_subset defs, fun hsubset => ?_⟩
      (hfinite.subset Set.sdiff_subset)
    exact (hsubset ⟨hdef, hbefore⟩).2 hafter
  have hunmet := h.ncard_unmet_le
  rw [budget, budget, hwaiting, List.length_append, List.length_singleton]
  omega

/-- So does a unit that is met for the first time. -/
theorem Uses.budget_le_of_met (h : r.Uses s) (hfinite : defs.Finite)
    (hwaiting : s.run.waiting = r.run.waiting ++ [work]) (hlt : id < r.program.units.size)
    (hbefore : ¬ r.Met id) (hafter : s.Met id) : s.budget defs ≤ r.budget defs := by
  have hunmet : s.unmet.ncard < r.unmet.ncard := by
    refine Set.ncard_lt_ncard ⟨h.unmet, fun hsubset => ?_⟩ r.finite_unmet
    exact (hsubset ⟨hlt, hbefore⟩).2 hafter
  have hdefs := h.ncard_definitions_le hfinite
  rw [budget, budget, hwaiting, List.length_append, List.length_singleton]
  omega

/-- A unit that is made counts as met at once. -/
theorem uses_of_insert {timestamp : Nat} {body : Option Body}
    (hunits : s.program.units = r.program.units.insert name kind timestamp body)
    (hmet : ∀ id, s.Met id ↔ r.Met id ∨ id = r.program.units.size) : r.Uses s where
  units := by
    rw [hunits]
    exact Catalog.grows_insert
  unmet id h := by
    have hlt := h.1
    have hnot := h.2
    rw [hunits, Catalog.size_insert] at hlt
    rw [hmet, not_or] at hnot
    exact ⟨by omega, hnot.1⟩

/-- The budget is not raised by units that change without becoming more. -/
theorem uses_of_size_eq (hunits : r.program.units.Grows s.program.units)
    (hsize : s.program.units.size = r.program.units.size) (hmet : ∀ id, r.Met id → s.Met id) :
    r.Uses s :=
  ⟨hunits, fun _ h => ⟨hsize ▸ h.1, fun hid => h.2 (hmet _ hid)⟩⟩

/-- Parts of a run that do not raise the budget do not raise it together. -/
theorem Uses.trans {r₁ r₂ r₃ : Resolution} (h : r₁.Uses r₂) (h' : r₂.Uses r₃) : r₁.Uses r₃ :=
  ⟨h.units.trans h'.units, h'.unmet.trans h.unmet⟩

theorem size_growTable : (r.growTable id slot).program.units.size = r.program.units.size := by
  rw [growTable_program]
  exact Catalog.size_modify

theorem size_refresh : (r.refresh id d).program.units.size = r.program.units.size := by
  rw [refresh]
  split <;> exact Catalog.size_modify

theorem uses_growTable (slot : String) (htable : r.IsTable id) : r.Uses (r.growTable id slot) :=
  uses_of_size_eq (grows_growTable slot htable).touches.units size_growTable fun _ => Met.growTable

theorem uses_tableFor (r : Resolution) (slot : String) (htable : kind.isSharedTable) :
    r.Uses (r.tableFor slot kind).1 ∧
      (r.tableFor slot kind).1.run.waiting = r.run.waiting := by
  cases hmatch : r.program.units.findMatch (tableName kind) kind 0 with
  | some id =>
    rw [tableFor_of_some hmatch]
    exact ⟨uses_growTable slot (isTable_of_findMatch htable hmatch), by rw [growTable_run]⟩
  | none =>
    rw [tableFor_of_none hmatch]
    have hmade : r.Uses (r.makeTable kind) := uses_of_insert rfl fun _ => met_setFreshness
    exact ⟨hmade.trans (uses_growTable slot (isTable_makeTable htable)), by rw [growTable_run]; rfl⟩

/-- Meeting a known unit takes it off the units that were not met. -/
theorem uses_refresh (d : Definition) (hlt : id < r.program.units.size) :
    r.Uses (r.refresh id d) := by
  obtain ⟨_, freshness, _, hrun⟩ := run_refresh r id d
  refine uses_of_size_eq (grows_refresh d hlt).touches.units size_refresh fun other hmet => ?_
  rw [Met, hrun]
  exact Std.ExtTreeMap.mem_insert.2 (.inr hmet)

/-- A unit gives work when it is made and when it is met for the first time. Then the definition pays,
if it is among those that are counted. -/
theorem budget_unitFor (hfinite : defs.Finite) (r : Resolution) (name : String) (d : Definition) :
    (r.unitFor name d).1.budget defs ≤ r.budget defs + 1 ∧
      ((name, d.identity) ∈ defs → (r.unitFor name d).1.budget defs ≤ r.budget defs) := by
  have hcases := unitOutcome r name d
  generalize r.unitFor name d = k at hcases ⊢
  cases hcases with
  | table htable =>
    obtain ⟨huses, hwaiting⟩ := uses_tableFor r name htable
    have hle := huses.budget_le hfinite hwaiting
    exact ⟨Nat.le_succ_of_le hle, fun _ => hle⟩
  | made _ hmatch =>
    have huses : r.Uses (r.makeUnit name d) := uses_of_insert rfl fun _ => met_setFreshness
    refine ⟨huses.budget_le_succ hfinite rfl, fun hdef =>
      huses.budget_le_of_denoted hfinite rfl hdef ?_
        ⟨_, _, Catalog.get?_insert.trans (if_pos rfl), rfl, rfl⟩⟩
    rintro ⟨id, u, hu, hname, hidentity⟩
    exact Catalog.findMatch_eq_none_iff.1 hmatch id ⟨u, hu, hname, hidentity⟩
  | met => exact ⟨Nat.le_succ _, fun _ => Nat.le_refl _⟩
  | @refreshed id _ hmatch hmet =>
    have hlt := (Catalog.describes_of_findMatch hmatch).lt_size
    obtain ⟨_, freshness, _, hrun⟩ := run_refresh r id d
    have hle := (uses_refresh d hlt).budget_le_of_met hfinite (congrArg Run.waiting hrun) hlt hmet
      (by rw [Met, hrun]; exact Std.ExtTreeMap.mem_insert_self)
    exact ⟨Nat.le_succ_of_le hle, fun _ => hle⟩

/-- All that a run has come across was to be expected. -/
structure Expected (w : World) (p : Program) (root : Option Definition) (r : Resolution) : Prop where
  takes : ∀ id t n, r.program.Takes id t n → Mentions w p n
  directory : ∀ id u, r.program.units.get? id = some u → Visits w p root u.directory?

theorem expected_start (w : World) (root : Option Definition) (r : Resolution) :
    Expected w r.program root r :=
  ⟨fun id t _ htakes => .inr ⟨id, t, htakes⟩, fun id u hu => .unit id u hu⟩

/-- The directory of every unit is one from which names may be looked up. -/
theorem Expected.directoryOf (h : Expected w p root r) (id : Nat) :
    Visits w p root (r.directoryOf id) := by
  rw [Resolution.directoryOf]
  cases hu : r.program.units.get? id with
  | none => exact .nowhere
  | some u => exact h.directory id u hu

/-- A shared table is known, or it is made. -/
theorem unit_tableFor (htable : kind.isSharedTable)
    (hv : (r.tableFor slot kind).1.program.units.get? id = some v) :
    id < r.program.units.size ∨ v.kind = kind := by
  cases hmatch : r.program.units.findMatch (tableName kind) kind 0 with
  | some table =>
    rw [tableFor_of_some hmatch] at hv
    exact .inl (Nat.lt_of_lt_of_eq (Catalog.lt_size_of_get? hv) size_growTable)
  | none =>
    rw [tableFor_of_none hmatch] at hv
    have hgrows := (grows_growTable slot (isTable_makeTable (r := r) htable)).touches.units
    obtain ⟨u, hu⟩ := Catalog.exists_get?
      (Nat.lt_of_lt_of_eq (Catalog.lt_size_of_get? hv) size_growTable)
    rw [(hgrows.becomes hu hv).kind]
    have hu : (r.program.insertUnit (tableName kind) kind 0 (some .table)).units.get? id = some u := hu
    rw [Program.insertUnit, Catalog.get?_insert] at hu
    split at hu
    · obtain rfl := Option.some.inj hu
      exact .inr rfl
    · exact .inl (Catalog.lt_size_of_get? hu)

/-- A unit is known, or it is made for the definition. -/
theorem unit_unitFor (hv : (r.unitFor name d).1.program.units.get? id = some v) :
    id < r.program.units.size ∨ v.kind = d.kind := by
  have hcases := unitOutcome r name d
  generalize r.unitFor name d = k at hcases hv
  cases hcases with
  | table htable => exact unit_tableFor htable hv
  | made =>
    have hv : (r.program.insertUnit name d.kind d.timestamp (some d.body)).units.get? id =
      some v := hv
    rw [Program.insertUnit, Catalog.get?_insert] at hv
    split at hv
    · obtain rfl := Option.some.inj hv
      exact .inr rfl
    · exact .inl (Catalog.lt_size_of_get? hv)
  | met => exact .inl (Catalog.lt_size_of_get? hv)
  | refreshed => exact .inl (Nat.lt_of_lt_of_eq (Catalog.lt_size_of_get? hv) size_refresh)

/-- A definition that was found in an expected place gives a unit that is expected. -/
theorem Expected.unitFor (h : Expected w p root r) (name : String)
    (hvisits : Visits w p root d.directory?) : Expected w p root (r.unitFor name d).1 := by
  have hgrows := (grows_unitFor r name d).touches
  refine ⟨fun id t n htakes => h.takes id t n ?_, fun id v hv => ?_⟩
  · rwa [Program.Takes, hgrows.imports id not_false] at htakes
  · rcases unit_unitFor hv with hlt | hkind
    · obtain ⟨u, hu⟩ := Catalog.exists_get? hlt
      rw [BuildUnit.directory?, (hgrows.units.becomes hu hv).kind]
      exact h.directory id u hu
    · rw [BuildUnit.directory?, hkind]
      exact hvisits

/-- A run comes across nothing unexpected, and what may be left of it keeps within a limit. -/
structure Within (w : World) (p : Program) (root : Option Definition) (limit : Nat) (r : Resolution) :
    Prop extends Expected w p root r where
  budget : r.budget (Findable w p root) ≤ limit

/-- What makes no unit and gives no work keeps within the limit, if it records no unexpected name. -/
theorem Within.keep (h : Within w p root limit r) (hfinite : (Findable w p root).Finite)
    (hunits : r.program.units.Grows s.program.units)
    (hsize : s.program.units.size = r.program.units.size) (hmet : ∀ id, r.Met id → s.Met id)
    (hwaiting : s.run.waiting = r.run.waiting)
    (htakes : ∀ id t n, s.program.Takes id t n → r.program.Takes id t n ∨ Mentions w p n) :
    Within w p root limit s := by
  refine ⟨⟨fun id t n ht => (htakes id t n ht).elim (h.takes id t n) fun hname => hname,
    fun id v hv => ?_⟩,
    Nat.le_trans ((uses_of_size_eq hunits hsize hmet).budget_le hfinite hwaiting) h.budget⟩
  obtain ⟨u, hu⟩ := Catalog.exists_get? (hsize ▸ Catalog.lt_size_of_get? hv)
  rw [BuildUnit.directory?, (hunits.becomes hu hv).kind]
  exact h.directory id u hu

/-- A change of dependencies and imports keeps within the limit. -/
theorem Within.of_units (h : Within w p root limit r) (hfinite : (Findable w p root).Finite)
    (hunits : s.program.units = r.program.units) (hfreshness : s.run.freshness = r.run.freshness)
    (hwaiting : s.run.waiting = r.run.waiting)
    (htakes : ∀ id t n, s.program.Takes id t n → r.program.Takes id t n ∨ Mentions w p n) :
    Within w p root limit s :=
  h.keep hfinite (by rw [hunits]; exact .refl _) (by rw [hunits])
    (fun _ hmet => by rwa [Met, hfreshness]) hwaiting htakes

/-- A definition that is found gives no more work than it takes off the budget: it denotes a new
unit, a unit that was not met, or one that gives no work. -/
theorem Within.unitFor {directory : Option FilePath} (h : Within w p root limit r)
    (hfinite : (Findable w p root).Finite) (hname : Mentions w p name)
    (hvisits : Visits w p root directory) (hfind : w.lookup.find name directory = some d) :
    Within w p root limit (r.unitFor name d).1 :=
  ⟨h.toExpected.unitFor name (.found directory name d hvisits hname hfind),
    Nat.le_trans ((budget_unitFor hfinite r name d).2 ⟨hname, directory, d, hvisits, hfind, rfl⟩)
      h.budget⟩

/-- Looking up a name that may be looked up keeps within the limit. -/
theorem Within.lookupExternal (h : Within w p root limit r) (hfinite : (Findable w p root).Finite)
    (id : Nat) (hname : Mentions w p name) :
    Within w p root limit (r.lookupExternal w id name).1 := by
  have hlearned (names : Option NameSet) (namesIn : Std.ExtTreeMap DirectoryKey NameSet) :
      Within w p root limit (r.learn names namesIn) :=
    h.of_units hfinite rfl rfl rfl fun _ _ _ => .inl
  have hlookup := lookupOutcome w r id name
  generalize r.lookupExternal w id name = k at hlookup ⊢
  cases hlookup with
  | own | recalled => exact h
  | missing => exact hlearned _ _
  | @found names namesIn d _ _ _ hfind =>
    have hmet := (hlearned names namesIn).unitFor hfinite hname (h.directoryOf id) hfind
    exact hmet.of_units hfinite rfl rfl rfl fun _ _ _ => .inl

/-- Recording a name as imported keeps the work within the limit. -/
theorem Within.record (h : Within w p root limit r) (hfinite : (Findable w p root).Finite)
    (hname : Mentions w p name) (hprogram : s.program = r.program.recordImport id t name)
    (hfreshness : s.run.freshness = r.run.freshness) (hwaiting : s.run.waiting = r.run.waiting) :
    Within w p root limit s := by
  refine h.of_units hfinite (by rw [hprogram, Program.units_recordImport]) hfreshness hwaiting
    fun other t' n ht => ?_
  rw [hprogram, Program.takes_recordImport] at ht
  rcases ht with ⟨_, _, rfl, _⟩ | hold
  · exact .inr hname
  · exact .inl hold

/-- So does declaring a global variable. -/
theorem Within.declareGlobal (h : Within w p root limit r) (hfinite : (Findable w p root).Finite)
    (id : Nat) (hname : Mentions w p name) : Within w p root limit (r.declareGlobal id name) := by
  obtain ⟨huses, hwaiting⟩ := uses_tableFor r name (show UnitKind.globals.isSharedTable from rfl)
  have hexpected : Expected w p root (r.tableFor name .globals).1 :=
    h.toExpected.unitFor name (d := ⟨.globals, 0, .table⟩) .nowhere
  have htable : Within w p root limit (r.tableFor name .globals).1 :=
    ⟨hexpected, Nat.le_trans (huses.budget_le hfinite hwaiting) h.budget⟩
  rw [declareGlobal_eq]
  exact htable.record hfinite hname rfl rfl rfl

/-- So does importing a name that the body refers to. -/
theorem Within.importReference (h : Within w p root limit r) (hfinite : (Findable w p root).Finite)
    (id : Nat) (reference : String × Span) (hname : Mentions w p reference.1) :
    Within w p root limit (r.importReference w id reference) := by
  have hrun := importReference_run w r id reference
  exact (h.lookupExternal hfinite id hname).record hfinite hname
    (importReference_program w r id reference) (by rw [hrun]) (by rw [hrun])

/-- So does looking up again a name that is imported. -/
theorem Within.recheckImport (h : Within w p root limit r) (hfinite : (Findable w p root).Finite)
    (id : Nat) (x : Target × String) (changed : Bool) (hname : Mentions w p x.2) :
    Within w p root limit (Resolution.recheckImport w id (r, changed) x).1 := by
  have hlooked := h.lookupExternal hfinite id hname
  by_cases heq : (r.lookupExternal w id x.2).2 = x.1
  · rwa [recheckImport_of_eq heq]
  · have hremoved : Within w p root limit
        ((r.lookupExternal w id x.2).1.modifyProgram (·.removeImport id x.1 x.2)) :=
      hlooked.of_units hfinite Program.units_removeImport rfl rfl fun other t n ht =>
        .inl (Program.takes_removeImport.1 ht).1
    have hrun := recheckImport_run w r id changed x
    exact hremoved.record hfinite hname (recheckImport_program_of_ne _ heq) (by rw [hrun]; rfl)
      (by rw [hrun]; rfl)

/-- So does looking up again all that a unit imports. -/
theorem Within.recheck (h : Within w p root limit r) (hfinite : (Findable w p root).Finite) (id : Nat) :
    Within w p root limit (r.recheck w id).1 := by
  have hall := List.foldlRecOn (lookedUpImports r.program id) (Resolution.recheckImport w id)
    (motive := fun k : Resolution × Bool => Within w p root limit k.1) (b := (r, false)) h
    fun k hk x hx => hk.recheckImport hfinite id x k.2 (h.takes id x.1 x.2 (mem_lookedUpImports.1 hx).1)
  have hrecheck := recheckOutcome w r id
  generalize r.recheck w id = k at hrecheck ⊢
  cases hrecheck with
  | kept hfold => rwa [hfold] at hall
  | marked hfold =>
    rw [hfold] at hall
    exact hall.keep hfinite (.refl _) rfl (fun _ hmet => met_setFreshness.2 (.inl hmet)) rfl
      fun _ _ _ => .inl

/-- So does reading a body. -/
theorem Within.readBody (h : Within w p root limit r) (hfinite : (Findable w p root).Finite) (id : Nat) :
    Within w p root limit (r.readBody w id).1 := by
  have hread := readOutcome w r id
  generalize r.readBody w id = k at hread ⊢
  cases hread with
  | bodiless => exact h
  | @faulty u _ _ hget hhas =>
    exact h.keep hfinite (Program.Change.clear u hget hhas).touches.units Catalog.size_modify
      (fun _ hmet => hmet) rfl fun other t n ht => .inl (Program.takes_clearBody.1 ht).2
  | @read _ body events hget hhas _ hevents =>
    have hopen : Within w p root limit (r.openBody id (Summary.ofEvents events).slots) :=
      h.keep hfinite (changes_openBody _ hget hhas).touches.units
        (Catalog.size_modify.trans Catalog.size_modify) (fun _ hmet => hmet) rfl
        fun other t n ht => .inl (Program.takes_clearBody.1 ht).2
    have hdeclared := List.foldlRecOn (Summary.ofEvents events).globals (Resolution.declareGlobal id)
      hopen fun s hs name hmem =>
        hs.declareGlobal hfinite id (.inl ⟨body, events, hevents, .inl hmem⟩)
    have himported := List.foldlRecOn (Summary.ofEvents events).references
      (Resolution.importReference w id) hdeclared fun s hs reference hmem =>
        hs.importReference hfinite id reference
          (.inl ⟨body, events, hevents, .inr (List.mem_map_of_mem hmem)⟩)
    exact himported.of_units hfinite rfl rfl rfl fun _ _ _ => .inl

/-- So does any piece of work. -/
theorem Within.handle (h : Within w p root limit r) (hfinite : (Findable w p root).Finite)
    (work : Work) : Within w p root limit (r.handle w work).1 := by
  have hbegin (work : Work) : Within w p root limit (r.begin work r.run.waiting) :=
    h.of_units hfinite rfl rfl rfl fun _ _ _ => .inl
  have hhandle := handleOutcome w r work
  generalize r.handle w work = k at hhandle ⊢
  cases hhandle with
  | handled => exact h
  | read => exact (hbegin _).readBody hfinite _
  | recheck => exact (hbegin _).recheck hfinite _

/-- An analysis starts with what the definitions that can be found, the known units and the work that
waits may give, and with the entry point. -/
theorem within_entry (hfinite : (Findable w r.program (some d)).Finite) (entry : String) :
    Within w r.program (some d) ((Findable w r.program (some d)).ncard + r.program.units.size +
      r.run.waiting.length + 1) (r.unitFor entry d).1 where
  toExpected := (expected_start w (some d) r).unitFor entry (.root d rfl)
  budget := Nat.le_trans (budget_unitFor hfinite r entry d).1
    (Nat.succ_le_succ (budget_le hfinite r))

/-- Taking up a piece of work uses some of what may be left. -/
theorem Within.take (h : Within w p root (limit + 1) r) (hwaiting : r.run.waiting = work :: later) :
    Within w p root limit { r with run := { r.run with waiting := later } } := by
  refine ⟨⟨h.takes, h.directory⟩, Nat.le_of_succ_le_succ (Nat.le_trans ?_ h.budget)⟩
  rw [Resolution.budget, Resolution.budget, hwaiting]
  exact Nat.le_refl _

theorem Within.waiting_eq_nil (h : Within w p root 0 r) : r.run.waiting = [] := by
  have hnone := Nat.le_zero.1 h.budget
  rw [Resolution.budget] at hnone
  exact List.length_eq_zero_iff.1 (by omega)

end Resolution

end ScriptBuild
