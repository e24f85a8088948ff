import ScriptBuild.Proofs.Resolution.Recheck

namespace ScriptBuild

namespace Resolution

variable {w : World} {offered : Definition → Prop} {r r₀ s : Resolution} {id other : Nat}
  {name n : String} {t target : Target} {slots globals names : List String} {u : BuildUnit}
  {span : Span} {summary : Summary} {body : Body} {events : List Event}

/-- The body of a unit is being read, which defines some slots. -/
structure Opened (w : World) (offered : Definition → Prop) (id : Nat) (slots : List String)
    (r₀ r : Resolution) : Prop where
  underway : Underway w offered r
  works : r₀.Works id r
  readings : r.run.readings = r₀.run.readings + 1
  unit : ∃ u, r.program.units.get? id = some u ∧ u.kind.isSharedTable = false ∧
    u.slots = slots.foldl Summary.Progress.addName []
  targets : ∀ other n, r.program.Takes id (.unit other) n → other < r.program.units.size

/-- The table of global variables. -/
def GlobalTable (r : Resolution) (table : Nat) : Prop :=
  r.program.units.findMatch globalsName .globals 0 = some table

/-- How far the body of a unit has been read: the global variables and the names on the lists have
been imported. -/
structure Reading (w : World) (offered : Definition → Prop) (id : Nat) (slots : List String)
    (r₀ r : Resolution) (globals names : List String) : Prop extends Opened w offered id slots r₀ r where
  sound : ∀ t n, r.program.Takes id t n → ¬ r.program.IsGlobal t → n ∈ names ∧ Means w r id n t
  complete : ∀ n ∈ names, ∃ t, Means w r id n t ∧ (t ≠ .unit id → r.program.Takes id t n)
  declares : ∀ n ∈ globals, ∃ table, r.program.Takes id (.unit table) n ∧ r.GlobalTable table
  declared : ∀ t n, r.program.Takes id t n → r.program.IsGlobal t →
    (n ∈ globals ∧ ∃ table, t = .unit table ∧ r.GlobalTable table) ∨ (n ∈ names ∧ Means w r id n t)

/-- A unit whose body is being read is in the catalog. -/
theorem Opened.lt_size (h : Opened w offered id slots r₀ r) : id < r.program.units.size := by
  obtain ⟨u, hu, _⟩ := h.unit
  exact Catalog.lt_size_of_get? hu

/-- A unit whose body is being read is no shared table. -/
theorem Opened.not_isTable (h : Opened w offered id slots r₀ r) : ¬ r.IsTable id := by
  obtain ⟨u, hu, htable, _⟩ := h.unit
  exact not_isTable_of_get? hu htable

theorem GlobalTable.mono {table : Nat} (h : r.GlobalTable table)
    (hgrows : r.program.units.Grows s.program.units) : s.GlobalTable table := hgrows.findMatch h

/-- What is taken from the table of global variables is a global variable. -/
theorem GlobalTable.isGlobal {table : Nat} (h : r.GlobalTable table) :
    r.program.IsGlobal (.unit table) := by
  obtain ⟨u, hu, _, hid⟩ := Catalog.describes_of_findMatch h
  refine ⟨table, u, rfl, hu, ?_⟩
  have htag : u.kind.tag = .globals := congrArg Identity.tag hid
  cases hkind : u.kind <;> simp_all [UnitKind.tag]

/-- Global variables are taken from a shared table. -/
theorem IsGlobal.isTable {table : Nat} (h : r.program.IsGlobal (.unit table)) : r.IsTable table := by
  obtain ⟨_, u, heq, hu, hkind⟩ := h
  cases heq
  exact ⟨u, hu, by rw [hkind]; rfl⟩

/-- A target of an import holds global variables before a growth exactly if it does afterwards. -/
theorem isGlobal_iff_of_takes {p q : Program} (hgrows : p.units.Grows q.units)
    (htargets : ∀ other n, p.Takes id (.unit other) n → other < p.units.size)
    (htakes : p.Takes id t n) : q.IsGlobal t ↔ p.IsGlobal t := by
  constructor
  · rintro ⟨other, v, rfl, hv, hkind⟩
    obtain ⟨u, hu⟩ := Catalog.exists_get? (htargets other n htakes)
    exact ⟨other, u, rfl, hu, (hgrows.becomes hu hv).kind.symm.trans hkind⟩
  · rintro ⟨other, u, rfl, hu, hkind⟩
    obtain ⟨v, hv, huv⟩ := hgrows other u hu
    exact ⟨other, v, rfl, hv, huv.kind.trans hkind⟩

/-- A body may be read on after names were looked up. -/
theorem Opened.looked (h : Opened w offered id slots r₀ r) (hs : Underway w offered s)
    (hlooked : r.Looked s) : Opened w offered id slots r₀ s where
  underway := hs
  works := h.works.trans hlooked.works
  readings := hlooked.readings.trans h.readings
  unit := by
    obtain ⟨u, hu, htable, hslots⟩ := h.unit
    obtain ⟨v, hv, huv⟩ := hlooked.before.units id u hu
    refine ⟨v, hv, by rw [huv.kind, htable], ?_⟩
    rw [hlooked.program.touches.slots id u v not_false hu hv htable, hslots]
  targets other n htakes := by
    rw [Program.Takes, hlooked.program.touches.imports id not_false] at htakes
    exact Nat.lt_of_lt_of_le (h.targets other n htakes) hlooked.before.units.size_le

/-- Looking up changes nothing about what has been read. -/
theorem Reading.looked (h : Reading w offered id slots r₀ r globals names)
    (hs : Underway w offered s) (hlooked : r.Looked s) :
    Reading w offered id slots r₀ s globals names := by
  have hunits := hlooked.before.units
  have htakes (t : Target) (n : String) : s.program.Takes id t n ↔ r.program.Takes id t n := by
    rw [Program.Takes, hlooked.program.touches.imports id not_false, Program.Takes]
  have hmeans {t : Target} {n : String} (hold : Means w r id n t) : Means w s id n t :=
    hold.mono hlooked.before h.lt_size (hlooked.exports_iff h.lt_size h.not_isTable)
  have hglobal {t : Target} {n : String} (ht : r.program.Takes id t n) :
      s.program.IsGlobal t ↔ r.program.IsGlobal t := isGlobal_iff_of_takes hunits h.targets ht
  refine ⟨h.toOpened.looked hs hlooked, fun t n ht hnot => ?_, fun n hn => ?_, fun n hn => ?_,
    fun t n ht hyes => ?_⟩
  · have hold := (htakes t n).1 ht
    exact (h.sound t n hold fun hyes => hnot ((hglobal hold).2 hyes)).imp_right hmeans
  · obtain ⟨t, hold, himp⟩ := h.complete n hn
    exact ⟨t, hmeans hold, fun hne => (htakes t n).2 (himp hne)⟩
  · obtain ⟨table, ht, hmatch⟩ := h.declares n hn
    exact ⟨table, (htakes _ n).2 ht, hmatch.mono hunits⟩
  · have hold := (htakes t n).1 ht
    refine (h.declared t n hold ((hglobal hold).1 hyes)).imp ?_ (And.imp_right hmeans)
    rintro ⟨hn, table, heq, hmatch⟩
    exact ⟨hn, table, heq, hmatch.mono hunits⟩

/-- A name has been recorded as imported by a unit, and nothing else has changed. -/
structure Recorded (id : Nat) (t : Target) (n : String) (r s : Resolution) : Prop where
  may : r.program.MayTake id t n
  program : s.program = r.program.recordImport id t n
  agrees : r.Agrees s
  readings : s.run.readings = r.run.readings

namespace Recorded

theorem units (h : Recorded id t n r s) : s.program.units = r.program.units := by
  rw [h.program, Program.units_recordImport]

/-- Recording an import is part of handling the unit. -/
theorem works (h : Recorded id t n r s) : r.Works id s :=
  h.agrees.works (by rw [h.program]; exact .single (.record t n h.may))

/-- After an import was recorded the unit takes that name, unless from itself, and what it took
before. -/
theorem takes_iff {t' : Target} {m : String} (h : Recorded id t n r s) : s.program.Takes id t' m ↔
    (t' = t ∧ m = n ∧ t ≠ .unit id) ∨ r.program.Takes id t' m := by
  rw [h.program, Program.takes_recordImport]
  simp

/-- Recording an import turns nothing into global variables. -/
theorem isGlobal_iff {t' : Target} (h : Recorded id t n r s) :
    s.program.IsGlobal t' ↔ r.program.IsGlobal t' := by
  rw [Program.IsGlobal, h.units, Program.IsGlobal]

/-- The table of global variables is the same after an import was recorded. -/
theorem globalTable_iff {table : Nat} (h : Recorded id t n r s) :
    s.GlobalTable table ↔ r.GlobalTable table := by
  rw [GlobalTable, h.units, GlobalTable]

end Recorded

/-- A body may be read on after an import was recorded. -/
theorem Opened.record (h : Opened w offered id slots r₀ r) (hrecorded : Recorded id t n r s) :
    Opened w offered id slots r₀ s where
  underway := h.underway.advance hrecorded.works.before hrecorded.agrees
  works := h.works.trans hrecorded.works
  readings := hrecorded.readings.trans h.readings
  unit := by rw [hrecorded.units]; exact h.unit
  targets other m htakes := by
    rw [hrecorded.units]
    rcases hrecorded.takes_iff.1 htakes with ⟨heq, _, _⟩ | hold
    · exact hrecorded.may.target other heq.symm
    · exact h.targets other m hold

/-- A name that the body refers to is imported from where it means something. -/
theorem Reading.reference (h : Reading w offered id slots r₀ r globals names)
    (hrecorded : Recorded id t n r s) (hmeans : Means w r id n t) :
    Reading w offered id slots r₀ s globals (names ++ [n]) := by
  have hkeep {t' : Target} {m : String} (hold : Means w r id m t') : Means w s id m t' :=
    hold.of_units hrecorded.works.before h.lt_size hrecorded.units
  have hlast : n ∈ names ++ [n] := List.mem_append_right _ (List.mem_singleton_self n)
  refine ⟨h.toOpened.record hrecorded, fun t' m ht hnot => ?_, fun m hm => ?_, fun m hm => ?_,
    fun t' m ht hyes => ?_⟩
  · rcases hrecorded.takes_iff.1 ht with ⟨rfl, rfl, _⟩ | hold
    · exact ⟨hlast, hkeep hmeans⟩
    · obtain ⟨hm, hold⟩ := h.sound t' m hold fun hyes => hnot (hrecorded.isGlobal_iff.2 hyes)
      exact ⟨List.mem_append_left _ hm, hkeep hold⟩
  · rcases List.mem_append.1 hm with hm | hm
    · obtain ⟨t', hold, himp⟩ := h.complete m hm
      exact ⟨t', hkeep hold, fun hne => hrecorded.takes_iff.2 (.inr (himp hne))⟩
    · rw [List.mem_singleton.1 hm]
      exact ⟨t, hkeep hmeans, fun hne => hrecorded.takes_iff.2 (.inl ⟨rfl, rfl, hne⟩)⟩
  · obtain ⟨table, ht, htable⟩ := h.declares m hm
    exact ⟨table, hrecorded.takes_iff.2 (.inr ht), hrecorded.globalTable_iff.2 htable⟩
  · simp only [hrecorded.globalTable_iff]
    rcases hrecorded.takes_iff.1 ht with ⟨rfl, rfl, _⟩ | hold
    · exact .inr ⟨hlast, hkeep hmeans⟩
    · refine (h.declared t' m hold (hrecorded.isGlobal_iff.1 hyes)).imp_right ?_
      exact fun ⟨hm, hold⟩ => ⟨List.mem_append_left _ hm, hkeep hold⟩

/-- A global variable that the body declares is imported from the table of global variables. -/
theorem Reading.global {table : Nat} (h : Reading w offered id slots r₀ r globals names)
    (hrecorded : Recorded id (.unit table) n r s) (htable : r.GlobalTable table) :
    Reading w offered id slots r₀ s (globals ++ [n]) names := by
  have hkeep {t' : Target} {m : String} (hold : Means w r id m t') : Means w s id m t' :=
    hold.of_units hrecorded.works.before h.lt_size hrecorded.units
  have hlast : n ∈ globals ++ [n] := List.mem_append_right _ (List.mem_singleton_self n)
  have hne : Target.unit table ≠ .unit id := by
    rintro heq
    cases heq
    exact h.not_isTable (IsGlobal.isTable htable.isGlobal)
  refine ⟨h.toOpened.record hrecorded, fun t' m ht hnot => ?_, fun m hm => ?_, fun m hm => ?_,
    fun t' m ht hyes => ?_⟩
  · rcases hrecorded.takes_iff.1 ht with ⟨rfl, rfl, _⟩ | hold
    · exact absurd (hrecorded.isGlobal_iff.2 htable.isGlobal) hnot
    · exact (h.sound t' m hold fun hyes => hnot (hrecorded.isGlobal_iff.2 hyes)).imp_right hkeep
  · obtain ⟨t', hold, himp⟩ := h.complete m hm
    exact ⟨t', hkeep hold, fun hne => hrecorded.takes_iff.2 (.inr (himp hne))⟩
  · simp only [hrecorded.globalTable_iff]
    rcases List.mem_append.1 hm with hm | hm
    · obtain ⟨table', ht, htable'⟩ := h.declares m hm
      exact ⟨table', hrecorded.takes_iff.2 (.inr ht), htable'⟩
    · rw [List.mem_singleton.1 hm]
      exact ⟨table, hrecorded.takes_iff.2 (.inl ⟨rfl, rfl, hne⟩), htable⟩
  · simp only [hrecorded.globalTable_iff]
    rcases hrecorded.takes_iff.1 ht with ⟨rfl, rfl, _⟩ | hold
    · exact .inl ⟨hlast, table, rfl, htable⟩
    · refine (h.declared t' m hold (hrecorded.isGlobal_iff.1 hyes)).imp ?_ (And.imp_right hkeep)
      exact fun ⟨hm, hdeclared⟩ => ⟨List.mem_append_left _ hm, hdeclared⟩

/-- A global variable is imported from the shared table, and the rest stays as it was. -/
theorem Reading.declareGlobal (h : Reading w offered id slots r₀ r globals names) :
    Reading w offered id slots r₀ (r.declareGlobal id n) (globals ++ [n]) names := by
  obtain ⟨hs, hlooked, hmatch, hlisted⟩ := h.underway.tableFor n
    (show UnitKind.globals.isSharedTable from rfl)
  have htable : (r.tableFor n .globals).1.GlobalTable (r.tableFor n .globals).2 := hmatch
  have h' := h.looked hs hlooked
  obtain ⟨u, hu, hunit, _⟩ := h'.unit
  rw [declareGlobal_eq]
  refine h'.global ⟨⟨⟨u, hu, hunit⟩, ?_, ?_, fun _ _ _ _ => htable.isGlobal⟩, rfl, .of_run rfl, rfl⟩
    htable
  · rintro other heq
    cases heq
    exact (Catalog.describes_of_findMatch hmatch).lt_size
  · rintro other v heq hv _
    cases heq
    rwa [Exports, hv, Option.any_some] at hlisted

/-- A reference is imported from where it means something, and the rest stays as it was. -/
theorem Reading.importReference (h : Reading w offered id slots r₀ r globals names)
    (hw : Steady w offered) :
    Reading w offered id slots r₀ (r.importReference w id (n, span)) globals (names ++ [n]) := by
  obtain ⟨hs, hlooked, hmeans⟩ := h.underway.lookupExternal hw n h.lt_size h.not_isTable
  have h' := h.looked hs hlooked
  obtain ⟨u, hu, hunit, _⟩ := h'.unit
  have hrun := importReference_run w r id (n, span)
  refine h'.reference ⟨hmeans.mayTake hu hunit, importReference_program w r id (n, span),
    .of_run hrun, ?_⟩ hmeans
  rw [hrun]

/-- All global variables on a list are imported, by induction on it. -/
theorem Reading.foldl_declareGlobal (list : List String)
    (h : Reading w offered id slots r₀ r globals names) :
    Reading w offered id slots r₀ (list.foldl (Resolution.declareGlobal id) r) (globals ++ list)
      names := by
  induction list generalizing r globals with
  | nil => rwa [List.append_nil]
  | cons n list ih =>
    rw [List.foldl_cons, List.append_cons]
    exact ih h.declareGlobal

/-- All references on a list are imported, by induction on it. -/
theorem Reading.foldl_importReference (list : List (String × Span))
    (h : Reading w offered id slots r₀ r globals names) (hw : Steady w offered) :
    Reading w offered id slots r₀ (list.foldl (Resolution.importReference w id) r) globals
      (names ++ list.map (·.1)) := by
  induction list generalizing r names with
  | nil => rwa [List.map_nil, List.append_nil]
  | cons x list ih =>
    rw [List.foldl_cons, List.map_cons, List.append_cons]
    exact ih (h.importReference hw)

/-- Slots are added to a unit as names are to a list without repetition. -/
theorem slots_foldl_addSlot (slots : List String) (u : BuildUnit) :
    (slots.foldl BuildUnit.addSlot u).slots = slots.foldl Summary.Progress.addName u.slots := by
  induction slots generalizing u with
  | nil => rfl
  | cons slot slots ih =>
    rw [List.foldl_cons, List.foldl_cons, ih]
    congr 1
    rw [BuildUnit.addSlot, BuildUnit.hasSlot, Summary.Progress.addName]
    split <;> rfl

/-- Changes of a run that no lookup depends on change nothing about what has been read. -/
theorem Reading.congr (h : Reading w offered id slots r₀ r globals names)
    (hprogram : s.program = r.program) (hagrees : r.Agrees s)
    (hreadings : s.run.readings = r.run.readings) :
    Reading w offered id slots r₀ s globals names := by
  have hworks : r.Works id s := hagrees.works (by rw [hprogram])
  have hunits : s.program.units = r.program.units := by rw [hprogram]
  have hkeep {t : Target} {n : String} (hold : Means w r id n t) : Means w s id n t :=
    hold.of_units hworks.before h.lt_size hunits
  refine ⟨⟨h.underway.advance hworks.before hagrees, h.works.trans hworks,
    hreadings.trans h.readings, by rw [hunits]; exact h.unit, by rw [hprogram]; exact h.targets⟩,
    ?_, ?_, ?_, ?_⟩ <;> simp only [hprogram, GlobalTable]
  · exact fun t n ht hnot => (h.sound t n ht hnot).imp_right hkeep
  · intro n hn
    obtain ⟨t, hold, himp⟩ := h.complete n hn
    exact ⟨t, hkeep hold, himp⟩
  · exact h.declares
  · exact fun t n ht hyes => (h.declared t n ht hyes).imp_right (And.imp_right hkeep)

/-- A unit whose body has been opened imports nothing and has the slots of the body. -/
theorem Underway.openBody (h : Underway w offered r) (slots : List String)
    (hget : r.program.units.get? id = some u)
    (hbody : u.kind.hasBody) : Reading w offered id slots r (r.openBody id slots) [] [] := by
  have hget' : (r.program.clearBody id).units.get? id = some { u with slots := [] } := by
    exact Catalog.get?_modify_of_get? hget rfl
  have hnone : (r.program.clearBody id).importsOf id = .empty := by
    rw [Program.importsOf_clearBody, if_pos rfl]
  have hchanges : r.program.Changes id (r.openBody id slots).program :=
    .tail (.single (.clear u hget hbody)) (.exports _ slots hget' hbody hnone)
  have hagrees : r.Agrees (r.openBody id slots) := ⟨fun _ => .rfl, rfl, rfl, rfl, rfl, rfl⟩
  have hworks := hagrees.works hchanges
  have htakes (t : Target) (n : String) : ¬ (r.openBody id slots).program.Takes id t n := by
    have himports : (r.openBody id slots).program.importsOf id = .empty := hnone
    rw [Program.Takes, himports]
    exact Imports.not_has_empty
  refine ⟨⟨h.advance hworks.before hagrees, hworks, rfl,
    ⟨slots.foldl BuildUnit.addSlot { u with slots := [] }, ?_, ?_, slots_foldl_addSlot _ _⟩,
    fun other n ht => absurd ht (htakes _ n)⟩, fun t n ht => absurd ht (htakes t n),
    fun n hn => absurd hn List.not_mem_nil, fun n hn => absurd hn List.not_mem_nil,
    fun t n ht => absurd ht (htakes t n)⟩
  · exact Catalog.get?_modify_of_get? hget' (BuildUnit.becomes_foldl_addSlot slots _).name
  · rw [(BuildUnit.becomes_foldl_addSlot slots { u with slots := [] }).kind]
    exact UnitKind.isSharedTable_of_hasBody hbody

/-- The body of a unit has been read, and its events say the summary. Afterwards the unit exports
    what the body defines, imports its global variables from the shared table, and every other name
    from where it means something. -/
abbrev Read (w : World) (offered : Definition → Prop) (id : Nat) (summary : Summary)
    (r₀ r : Resolution) : Prop :=
  Reading w offered id summary.slots r₀ r summary.globals (summary.references.map (·.1))

/-- The outcomes of reading the body of a unit: it has none, its events cannot be had, or all that
they say is recorded. -/
theorem Underway.readBody (h : Underway w offered r) (hw : Steady w offered)
    (hget : r.program.units.get? id = some u) :
    ((u.kind.hasBody = false ∨ u.body = none) ∧ r.readBody w id = (r, none)) ∨
    (∃ body fault, u.kind.hasBody ∧ u.body = some body ∧ w.events body = .error fault ∧
      r.readBody w id = (r.modifyProgram (·.clearBody id), some fault)) ∨
    ∃ body events, u.kind.hasBody ∧ u.body = some body ∧ w.events body = .ok events ∧
      (r.readBody w id).2 = none ∧
      Read w offered id (.ofEvents events) r (r.readBody w id).1 := by
  have hread := readOutcome w r id
  generalize r.readBody w id = k at hread ⊢
  cases hread with
  | bodiless hnone => exact .inl ⟨hnone u hget, rfl⟩
  | @faulty v body fault hv hhas hbody hevents =>
    obtain rfl := Option.some.inj (hget.symm.trans hv)
    exact .inr (.inl ⟨body, fault, hhas, hbody, hevents, rfl⟩)
  | @read v body events hv hhas hbody hevents =>
    obtain rfl := Option.some.inj (hget.symm.trans hv)
    refine .inr (.inr ⟨body, events, hhas, hbody, hevents, rfl, ?_⟩)
    have hopen := h.openBody (Summary.ofEvents events).slots hget hhas
    have hdeclared := hopen.foldl_declareGlobal (Summary.ofEvents events).globals
    have hread := hdeclared.foldl_importReference (Summary.ofEvents events).references hw
    exact hread.congr rfl ⟨fun _ => .rfl, rfl, rfl, rfl, rfl, rfl⟩ rfl

end Resolution

end ScriptBuild
