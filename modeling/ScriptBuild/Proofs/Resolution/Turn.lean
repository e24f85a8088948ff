import ScriptBuild.Proofs.Program.Intact
import ScriptBuild.Proofs.Resolution.Origin

namespace ScriptBuild

namespace Resolution

variable {p : Program} {named : String → Definition → Prop} {w : World}
  {offered : Definition → Prop} {r r₀ s s' : Resolution} {id other a b : Nat} {n : String}
  {t : Target} {u v : BuildUnit} {summary : Summary} {slots globals names globals' names' : List String}
  {body : Body} {events : List Event} {done todo : List (Target × String)} {x : Target × String}
  {changed changed' : Bool} {only : Nat → Prop}

/-- The body of a unit can be read and says a summary. -/
def Says (w : World) (r : Resolution) (id : Nat) (summary : Summary) : Prop :=
  ∃ u body events, r.program.units.get? id = some u ∧ u.kind.hasBody ∧ u.body = some body ∧
    w.events body = .ok events ∧ Summary.ofEvents events = summary

theorem Says.unique {summary' : Summary} (h : Says w r id summary) (h' : Says w r id summary') :
    summary = summary' := by
  obtain ⟨u, body, events, hu, _, hbody, hevents, rfl⟩ := h
  obtain ⟨u', body', events', hu', _, hbody', hevents', rfl⟩ := h'
  obtain rfl := Option.some.inj (hu.symm.trans hu')
  obtain rfl := Option.some.inj (hbody.symm.trans hbody')
  rw [Except.ok.inj (hevents.symm.trans hevents')]

/-- The body of a unit was read: it exports what the body defines, and takes its global variables from
the table that holds them and all other names from where they mean something. -/
structure Perused (w : World) (r : Resolution) (id : Nat) (summary : Summary) : Prop where
  slots : ∀ u, r.program.units.get? id = some u →
    u.slots = summary.slots.foldl Summary.Progress.addName []
  takes : ∀ t n, r.program.Takes id t n ↔
    (n ∈ summary.globals ∧ ∃ table, t = .unit table ∧ r.GlobalTable table) ∨
      (n ∈ summary.references.map (·.1) ∧ t ≠ .unit id ∧ Means w r id n t)
  answers : ∀ n ∈ summary.references.map (·.1), ∃ t, Means w r id n t
  lists : ∀ n ∈ summary.globals, ∃ table, r.GlobalTable table ∧ r.Exports table n
  tight : ∀ b, ¬ r.program.Loose id b

/-- A unit without code had its turn to be read: all that was recorded of it stays. -/
structure Passed (p : Program) (r : Resolution) (id : Nat) : Prop where
  code : ∀ u, r.program.units.get? id = some u → u.kind.hasBody = false
  slots : ∀ u v, p.units.get? id = some u → r.program.units.get? id = some v → v.slots = u.slots
  imports : r.program.importsOf id = p.importsOf id
  edge : ∀ b, r.program.graph.Edge id b ↔ p.graph.Edge id b

/-- What a unit imports was looked up again: global variables stay where they are, all other names
are taken from where they mean something now, and the unit is updated if one of them has moved. -/
structure Revisited (w : World) (p : Program) (r : Resolution) (id : Nat) : Prop where
  slots : ∀ u v, p.units.get? id = some u → r.program.units.get? id = some v → v.slots = u.slots
  takes : ∀ t n, r.program.Takes id t n ↔ (p.Takes id t n ∧ p.IsGlobal t) ∨
    ((∃ former, (former, n) ∈ lookedUpImports p id) ∧ t ≠ .unit id ∧ Means w r id n t)
  answers : ∀ x ∈ lookedUpImports p id, ∃ t, Means w r id x.2 t
  moved : r.freshness id = .dependencyUpdated ↔
    ∃ x ∈ lookedUpImports p id, ∃ t, Means w r id x.2 t ∧ t ≠ x.1
  loose : ∀ b, p.Loose id b → r.program.graph.Edge id b

/-- The turn of a unit is over. This is said without the way that led there: it follows from the
    program that the run started from, from what the body of the unit says, and from what names
    mean. -/
inductive Turn (w : World) (p : Program) (r : Resolution) (id : Nat) : Prop where
  | perused (summary : Summary) (hnew : r.Renewed id) (hsaid : Says w r id summary)
      (h : Perused w r id summary)
  | passed (hnew : r.Renewed id) (h : Passed p r id)
  | revisited (hold : ¬ r.Renewed id) (h : Revisited w p r id)

/-- A later part of a run leaves a unit alone. -/
structure LeavesAlone (id : Nat) (r s : Resolution) : Prop where
  before : r.Before s
  unit : s.program.units.get? id = r.program.units.get? id
  mark : s.mark id = r.mark id
  imports : s.program.importsOf id = r.program.importsOf id
  edge : ∀ b, s.program.graph.Edge id b ↔ r.program.graph.Edge id b

namespace LeavesAlone

/-- A unit that is left alone is as fresh as before. -/
theorem freshness (h : LeavesAlone id r s) : s.freshness id = r.freshness id := by
  rw [freshness_eq, freshness_eq, h.mark]

/-- A unit that is left alone is renewed exactly if it was. -/
theorem renewed_iff (h : LeavesAlone id r s) : s.Renewed id ↔ r.Renewed id := by
  rw [Renewed, Renewed, h.freshness]

/-- The body of a unit that is left alone says the same. -/
theorem says_iff (h : LeavesAlone id r s) : Says w s id summary ↔ Says w r id summary := by
  rw [Says, Says, h.unit]

/-- A unit that is left alone takes the same names. -/
theorem takes_iff (h : LeavesAlone id r s) : s.program.Takes id t n ↔ r.program.Takes id t n := by
  rw [Program.Takes, h.imports, Program.Takes]

/-- A unit that is left alone depends on the same units without a name. -/
theorem loose_iff (h : LeavesAlone id r s) : s.program.Loose id b ↔ r.program.Loose id b := by
  rw [Program.Loose, Program.Loose, h.edge]
  exact and_congr_right fun _ => forall_congr' fun n => not_congr h.takes_iff

/-- The names of a unit that is left alone mean the same. -/
theorem means (h : LeavesAlone id r s) (hunit : r.IsUnit id) (hmeans : Means w r id n t) :
    Means w s id n t := by
  obtain ⟨u, hu, _⟩ := hunit
  exact hmeans.mono h.before (Catalog.lt_size_of_get? hu) (by rw [Exports, h.unit, Exports])

/-- Names that meant something mean the same later. -/
theorem means_iff (h : LeavesAlone id r s) (hl : w.lookup.IgnoresSpelling) (hunit : r.IsUnit id)
    (hanswer : ∃ t, Means w r id n t) : Means w s id n t ↔ Means w r id n t := by
  refine ⟨fun hmeans => ?_, h.means hunit⟩
  obtain ⟨t', hold⟩ := hanswer
  rwa [hmeans.unique hl (h.means hunit hold)]

end LeavesAlone

theorem GlobalTable.unique {table table' : Nat} (h : r.GlobalTable table) (h' : r.GlobalTable table') :
    table = table' := Option.some.inj (h.symm.trans h')

theorem Perused.mono (h : Perused w r id summary) (halone : LeavesAlone id r s)
    (hl : w.lookup.IgnoresSpelling) (hunit : r.IsUnit id) : Perused w s id summary where
  slots u hu := h.slots u (by rwa [← halone.unit])
  takes t n := by
    rw [halone.takes_iff, h.takes]
    refine or_congr (and_congr_right fun hn => exists_congr fun table => and_congr_right fun _ => ?_)
      (and_congr_right fun hn => and_congr_right fun _ => ?_)
    · obtain ⟨table', htable, _⟩ := h.lists n hn
      have hlater := htable.mono halone.before.units
      refine ⟨fun hthis => hthis.mono halone.before.units, fun hthis => ?_⟩
      rwa [hthis.unique hlater]
    · exact (halone.means_iff hl hunit (h.answers n hn)).symm
  answers n hn := by
    obtain ⟨t, hmeans⟩ := h.answers n hn
    exact ⟨t, halone.means hunit hmeans⟩
  lists n hn := by
    obtain ⟨table, htable, hlisted⟩ := h.lists n hn
    exact ⟨table, htable.mono halone.before.units,
      hlisted.mono (IsGlobal.isTable htable.isGlobal) halone.before.units⟩
  tight b hloose := h.tight b (halone.loose_iff.1 hloose)

theorem Passed.mono (h : Passed p r id) (halone : LeavesAlone id r s) : Passed p s id where
  code u hu := h.code u (by rwa [← halone.unit])
  slots u v hu hv := h.slots u v hu (by rwa [← halone.unit])
  imports := halone.imports.trans h.imports
  edge b := (halone.edge b).trans (h.edge b)

theorem Revisited.mono (h : Revisited w p r id) (halone : LeavesAlone id r s)
    (hl : w.lookup.IgnoresSpelling) (hunit : r.IsUnit id) : Revisited w p s id where
  slots u v hu hv := h.slots u v hu (by rwa [← halone.unit])
  takes t n := by
    rw [halone.takes_iff, h.takes]
    refine or_congr_right (and_congr_right fun hasked => and_congr_right fun _ => ?_)
    obtain ⟨former, hx⟩ := hasked
    exact (halone.means_iff hl hunit (h.answers _ hx)).symm
  answers x hx := by
    obtain ⟨t, hmeans⟩ := h.answers x hx
    exact ⟨t, halone.means hunit hmeans⟩
  moved := by
    rw [halone.freshness, h.moved]
    refine exists_congr fun x => and_congr_right fun hx => exists_congr fun t => and_congr_left' ?_
    exact (halone.means_iff hl hunit (h.answers x hx)).symm
  loose b hb := (halone.edge b).2 (h.loose b hb)

theorem Turn.mono (h : Turn w p r id) (halone : LeavesAlone id r s) (hl : w.lookup.IgnoresSpelling)
    (hunit : r.IsUnit id) : Turn w p s id := by
  cases h with
  | perused summary hnew hsaid h =>
    exact .perused summary (halone.renewed_iff.2 hnew) (halone.says_iff.2 hsaid)
      (h.mono halone hl hunit)
  | passed hnew h => exact .passed (halone.renewed_iff.2 hnew) (h.mono halone)
  | revisited hold h =>
    exact .revisited (fun hnew => hold (halone.renewed_iff.1 hnew)) (h.mono halone hl hunit)

/-- Adding slots one by one changes nothing of a unit but its slots. -/
theorem foldl_addSlot (slots : List String) (u : BuildUnit) : slots.foldl BuildUnit.addSlot u =
    { u with slots := slots.foldl Summary.Progress.addName u.slots } := by
  obtain ⟨all, hall⟩ := foldl_addSlot_eq slots u
  rw [← slots_foldl_addSlot, hall]

/-- Opening a body changes the slots of its unit, and no other unit. -/
theorem get?_openBody : (r.openBody id slots).program.units.get? other = if id = other
    then (r.program.units.get? other).map fun u =>
      { u with slots := slots.foldl Summary.Progress.addName [] }
    else r.program.units.get? other := by
  simp only [openBody, Program.clearBody, Catalog.get?_modify_eq,
    Catalog.get?_modify fun _ => (BuildUnit.becomes_foldl_addSlot slots _).name]
  split
  · rw [Option.map_map]
    exact Option.map_congr fun u _ => foldl_addSlot slots { u with slots := [] }
  · rfl

/-- Opening a body happens to its unit only. -/
theorem sights_openBody (slots : List String) (hget : r.program.units.get? id = some u)
    (hbody : u.kind.hasBody) :
    Sights p named (· = id) r (r.openBody id slots) := by
  refine .touch id ?_ (fun other hne => ?_) (fun other _ => rfl) (fun h => h) (fun _ h v hv => ?_)
    fun _ _ => rfl
  · simp only [openBody, Program.clearBody, Catalog.size_modify]
    exact Nat.le_refl _
  · rw [get?_openBody, if_neg (Ne.symm hne)]
  · rw [get?_openBody, if_pos rfl, hget, Option.map_some] at hv
    obtain rfl := Option.some.inj hv
    exact (h id u hget).congr_slots hbody

/-- How far the body of a unit has been read, with all that was met on the way: what shared tables
got is what the unit took from them, and it depends on nothing else. -/
structure Perusing (w : World) (offered : Definition → Prop) (p : Program)
    (named : String → Definition → Prop) (id : Nat) (slots : List String) (r₀ r : Resolution)
    (globals names : List String) : Prop
    extends Reading w offered id slots r₀ r globals names where
  sights : Sights p named (fun _ => False) (r₀.openBody id slots) r
  listed : ∀ a n, a ≠ id → r.Exports a n → r₀.Exports a n ∨ r.program.Takes id (.unit a) n
  lists : ∀ n ∈ globals, ∃ table, r.GlobalTable table ∧ r.Exports table n
  tight : ∀ b, r.program.graph.Edge id b → ∃ n, r.program.Takes id (.unit b) n

/-- A name is looked up and recorded. -/
theorem Perusing.record (h : Perusing w offered p named id slots r₀ r globals names)
    (hlooked : r.Looked s) (hsights : Sights p named (fun _ => False) r s)
    (hexports : ∀ a m, s.Exports a m → r.Exports a m ∨ (t = .unit a ∧ m = n))
    (hprogram : s'.program = s.program.recordImport id t n)
    (hfreshness : s'.run.freshness = s.run.freshness)
    (hreading : Reading w offered id slots r₀ s' globals' names')
    (hlists : ∀ m ∈ globals', m ∈ globals ∨ ∃ table, s'.GlobalTable table ∧ s'.Exports table m) :
    Perusing w offered p named id slots r₀ s' globals' names' := by
  have hunits : s'.program.units = s.program.units := by rw [hprogram, Program.units_recordImport]
  have hgrows : r.program.units.Grows s'.program.units := hunits ▸ hlooked.before.units
  have htakes (t' : Target) (m : String) : s'.program.Takes id t' m ↔
      (t' = t ∧ m = n ∧ t ≠ .unit id) ∨ r.program.Takes id t' m := by
    rw [hprogram, Program.takes_recordImport, Program.Takes,
      hlooked.program.touches.imports id not_false, Program.Takes]
    simp
  refine ⟨hreading, (h.sights.trans hsights).trans (.of_eq hunits hfreshness), fun a m hne hm => ?_,
    fun m hm => ?_, fun b hedge => ?_⟩
  · rw [Exports, hunits] at hm
    rcases hexports a m hm with hold | ⟨rfl, rfl⟩
    · exact (h.listed a m hne hold).imp_right fun hn => (htakes _ m).2 (.inr hn)
    · exact .inr ((htakes _ m).2 (.inl ⟨rfl, rfl, by simpa using hne⟩))
  · rcases hlists m hm with hold | hnew
    · obtain ⟨table, htable, hlisted⟩ := h.lists m hold
      exact ⟨table, htable.mono hgrows, hlisted.mono (IsGlobal.isTable htable.isGlobal) hgrows⟩
    · exact hnew
  · simp only [htakes]
    rw [hprogram, Program.edge_recordImport, hlooked.program.touches.edge id b not_false] at hedge
    rcases hedge with hold | ⟨_, rfl, hne⟩
    · obtain ⟨m, hm⟩ := h.tight b hold
      exact ⟨m, .inr hm⟩
    · exact ⟨n, .inl ⟨rfl, rfl, by simpa using hne⟩⟩

/-- A global variable is taken from the shared table, which gets a slot for it. -/
theorem Perusing.declareGlobal (h : Perusing w offered p named id slots r₀ r globals names) :
    Perusing w offered p named id slots r₀ (r.declareGlobal id n) (globals ++ [n]) names := by
  obtain ⟨_, hlooked, hmatch, hlisted⟩ := h.underway.tableFor n
    (show UnitKind.globals.isSharedTable from rfl)
  have hunits : (r.declareGlobal id n).program.units = (r.tableFor n .globals).1.program.units :=
    Program.units_recordImport
  refine h.record (t := .unit (r.tableFor n .globals).2) hlooked (sights_tableFor r n rfl)
    (fun a m hm => ?_) rfl rfl h.toReading.declareGlobal fun m hm => ?_
  · rcases exports_tableFor hm with hold | ⟨rfl, rfl⟩
    · exact .inl hold
    · exact .inr ⟨rfl, rfl⟩
  · rcases List.mem_append.1 hm with hold | hlast
    · exact .inl hold
    · rw [List.mem_singleton.1 hlast]
      refine .inr ⟨(r.tableFor n .globals).2, ?_, ?_⟩
      · rw [GlobalTable, hunits]
        exact hmatch
      · rw [Exports, hunits]
        exact hlisted

/-- A reference is taken from where it means something, and shared tables get what is found in
them. -/
theorem Perusing.importReference {span : Span}
    (h : Perusing w offered p named id slots r₀ r globals names) (hw : Steady w offered)
    (hnamed : ∀ name directory d, w.lookup.find name directory = some d → named name d) :
    Perusing w offered p named id slots r₀ (r.importReference w id (n, span)) globals
      (names ++ [n]) := by
  have hread : Reading w offered id slots r₀ (r.importReference w id (n, span)) globals
      (names ++ [n]) := h.toReading.importReference hw
  obtain ⟨_, hlooked, _⟩ := h.underway.lookupExternal hw n h.lt_size h.not_isTable
  have hsights : Sights p named (fun _ => False) r (r.lookupExternal w id n).1 :=
    sights_lookupExternal r id (hnamed n)
  have hrun := importReference_run w r id (n, span)
  exact h.record hlooked hsights (fun a m hm => exports_lookupExternal hm)
    (importReference_program w r id (n, span)) (by rw [hrun]) hread fun m hm => .inl hm

/-- All global variables on a list are taken, by induction on it. -/
theorem Perusing.foldl_declareGlobal (list : List String)
    (h : Perusing w offered p named id slots r₀ r globals names) :
    Perusing w offered p named id slots r₀ (list.foldl (Resolution.declareGlobal id) r)
      (globals ++ list) names := by
  induction list generalizing r globals with
  | nil => rwa [List.append_nil]
  | cons n list ih =>
    rw [List.foldl_cons, List.append_cons]
    exact ih h.declareGlobal

/-- All references on a list are taken, by induction on it. -/
theorem Perusing.foldl_importReference (list : List (String × Span))
    (h : Perusing w offered p named id slots r₀ r globals names) (hw : Steady w offered)
    (hnamed : ∀ name directory d, w.lookup.find name directory = some d → named name d) :
    Perusing w offered p named id slots r₀ (list.foldl (Resolution.importReference w id) r) globals
      (names ++ list.map (·.1)) := by
  induction list generalizing r names with
  | nil => rwa [List.map_nil, List.append_nil]
  | cons x list ih =>
    rw [List.foldl_cons, List.map_cons, List.append_cons]
    exact ih (h.importReference hw hnamed)

/-- A unit whose body has been opened takes nothing yet. -/
theorem Underway.perusing (h : Underway w offered r) (hget : r.program.units.get? id = some u)
    (hbody : u.kind.hasBody) (slots : List String) :
    Perusing w offered p named id slots r (r.openBody id slots) [] [] := by
  refine ⟨h.openBody slots hget hbody, .refl _, fun a n hne hn => ?_,
    fun n hn => absurd hn List.not_mem_nil, fun b hedge => ?_⟩
  · rw [Exports, get?_openBody, if_neg (Ne.symm hne)] at hn
    exact .inl hn
  · exact absurd rfl (Digraph.edge_removeOut.1 hedge).2

/-- The body of a unit has been read. -/
theorem Underway.peruse (h : Underway w offered r) (hw : Steady w offered)
    (hnamed : ∀ name directory d, w.lookup.find name directory = some d → named name d)
    (hget : r.program.units.get? id = some u) (hbody : u.kind.hasBody)
    (hwhere : u.body = some body) (hevents : w.events body = .ok events) :
    Perusing w offered p named id (Summary.ofEvents events).slots r (r.readBody w id).1
      (Summary.ofEvents events).globals ((Summary.ofEvents events).references.map (·.1)) := by
  have hopen : Perusing w offered p named id (Summary.ofEvents events).slots r _ [] [] :=
    h.perusing hget hbody (Summary.ofEvents events).slots
  have hdeclared := hopen.foldl_declareGlobal (Summary.ofEvents events).globals
  have hread := hdeclared.foldl_importReference (Summary.ofEvents events).references hw hnamed
  rw [readBody_of_events hget hbody hwhere hevents]
  exact ⟨hread.toReading.congr rfl ⟨fun _ => .rfl, rfl, rfl, rfl, rfl, rfl⟩ rfl,
    hread.sights.trans (.of_eq rfl rfl), hread.listed, hread.lists, hread.tight⟩

/-- A body has been read when all its global variables and references have been taken. -/
theorem Perusing.perused (h : Perusing w offered p named id summary.slots r₀ r summary.globals
      (summary.references.map (·.1))) (hl : w.lookup.IgnoresSpelling) (hintact : r.program.Intact) :
    Perused w r id summary where
  slots u hu := by
    obtain ⟨v, hv, _, hslots⟩ := h.unit
    rwa [Option.some.inj (hu.symm.trans hv)]
  takes t n := by
    constructor
    · intro htakes
      have hne : t ≠ .unit id := by
        rintro rfl
        exact hintact.loop id n htakes
      by_cases hglobal : r.program.IsGlobal t
      · exact (h.declared t n htakes hglobal).imp_right fun hold => ⟨hold.1, hne, hold.2⟩
      · obtain ⟨hn, hmeans⟩ := h.sound t n htakes hglobal
        exact .inr ⟨hn, hne, hmeans⟩
    · rintro (⟨hn, table, rfl, htable⟩ | ⟨hn, hne, hmeans⟩)
      · obtain ⟨table', htakes, htable'⟩ := h.declares n hn
        rwa [htable.unique htable']
      · obtain ⟨t', hmeans', himp⟩ := h.complete n hn
        obtain rfl := hmeans.unique hl hmeans'
        exact himp hne
  answers n hn := by
    obtain ⟨t, hmeans, _⟩ := h.complete n hn
    exact ⟨t, hmeans⟩
  lists := h.lists
  tight b hloose := by
    obtain ⟨n, hn⟩ := h.tight b hloose.1
    exact hloose.2 n hn

/-- While the body of a unit is read, its unit gets other slots and stays the same apart from that. -/
theorem Perusing.get?_eq (h : Perusing w offered p named id slots r₀ r globals names)
    (hget : r₀.program.units.get? id = some u) (hunit : u.kind.isSharedTable = false)
    (hmet : r₀.Met id) : r.program.units.get? id =
      some { u with slots := slots.foldl Summary.Progress.addName [] } := by
  have hopen : (r₀.openBody id slots).program.units.get? id =
      some { u with slots := slots.foldl Summary.Progress.addName [] } := by
    rw [get?_openBody, if_pos rfl, hget, Option.map_some]
  have hopened : (r₀.openBody id slots).IsUnit id := ⟨_, hopen, hunit⟩
  have hmet' : (r₀.openBody id slots).Met id := hmet
  exact (h.sights.stays id hmet' hopened not_false).1.trans hopen

/-- How far the imports of a unit have been looked up again, with all that was met on the way: what
shared tables got is what a name means that was looked up, and a name has moved if one means
something else than what it stood under. -/
structure Revisiting (w : World) (offered : Definition → Prop) (p : Program)
    (named : String → Definition → Prop) (id : Nat) (r₀ r : Resolution)
    (done todo : List (Target × String)) (changed : Bool) : Prop
    extends Rechecking w offered id r₀ r todo where
  split : lookedUpImports r₀.program id = done ++ todo
  sights : Sights p named (fun _ => False) r₀ r
  listed : ∀ a n, r.Exports a n → r₀.Exports a n ∨ ∃ x ∈ done, x.2 = n ∧ Means w r id n (.unit a)
  moved : changed → ∃ x ∈ done, ∃ t, Means w r id x.2 t ∧ t ≠ x.1
  stayed : changed = false → ∀ x ∈ done, Means w r id x.2 x.1
  loose : ∀ b, r₀.program.Loose id b → r.program.graph.Edge id b

theorem Revisiting.start (h : Underway w offered r) (id : Nat) :
    Revisiting w offered p named id r r [] (lookedUpImports r.program id) false where
  toRechecking := .start h id
  split := rfl
  sights := .refl r
  listed _ _ hn := .inl hn
  moved hchanged := by cases hchanged
  stayed _ x hx := absurd hx List.not_mem_nil
  loose _ hb := hb.1

/-- A name was looked up, and moved if it was found somewhere else. -/
theorem Revisiting.next (h : Revisiting w offered p named id r₀ r done (x :: todo) changed)
    (hlt : id < r₀.program.units.size) (hlooked : r.Looked s)
    (hsights : Sights p named (fun _ => False) r s)
    (hexports : ∀ a m, s.Exports a m → r.Exports a m ∨ (t = .unit a ∧ m = x.2))
    (hmeans : Means w s id x.2 t) (hbefore : s.Before s')
    (hunits : s'.program.units = s.program.units) (hfreshness : s'.run.freshness = s.run.freshness)
    (hbase : Rechecking w offered id r₀ s' todo)
    (hedge : ∀ b, r₀.program.Loose id b → s.program.graph.Edge id b → s'.program.graph.Edge id b)
    (hchanged : changed' = true ↔ changed ∨ t ≠ x.1) :
    Revisiting w offered p named id r₀ s' (done ++ [x]) todo changed' := by
  have hlt' : id < r.program.units.size := Nat.lt_of_lt_of_le hlt h.works.before.units.size_le
  have hsame (m : String) : s'.Exports id m ↔ r.Exports id m :=
    (hbase.exports m).trans (h.exports m).symm
  have hkeep {t' : Target} {m : String} (hold : Means w r id m t') : Means w s' id m t' :=
    hold.mono (hlooked.before.trans hbefore) hlt' (hsame m)
  have hthis : Means w s' id x.2 t :=
    hmeans.of_units hbefore (Nat.lt_of_lt_of_le hlt' hlooked.before.units.size_le) hunits
  have hlast : x ∈ done ++ [x] := List.mem_append_right _ (List.mem_singleton_self x)
  refine ⟨hbase, by rw [h.split, List.append_cons], (h.sights.trans hsights).trans
    (.of_eq hunits hfreshness), fun a m hm => ?_, fun hyes => ?_, fun hno y hy => ?_, fun b hb => ?_⟩
  · rw [Exports, hunits] at hm
    rcases hexports a m hm with hold | ⟨rfl, rfl⟩
    · refine (h.listed a m hold).imp_right ?_
      rintro ⟨y, hy, heq, hold⟩
      exact ⟨y, List.mem_append_left _ hy, heq, hkeep hold⟩
    · exact .inr ⟨x, hlast, rfl, hthis⟩
  · rcases hchanged.1 hyes with hold | hne
    · obtain ⟨y, hy, t', hold, hne⟩ := h.moved hold
      exact ⟨y, List.mem_append_left _ hy, t', hkeep hold, hne⟩
    · exact ⟨x, hlast, t, hthis, hne⟩
  · have hnot : ¬ (changed = true ∨ t ≠ x.1) := fun hor => by rw [hchanged.2 hor] at hno; cases hno
    obtain ⟨hbefore, heq⟩ := not_or.1 hnot
    rcases List.mem_append.1 hy with hy | hy
    · exact hkeep (h.stayed (by simpa using hbefore) y hy)
    · rw [List.mem_singleton.1 hy]
      exact (not_not.1 heq) ▸ hthis
  · exact hedge b hb ((hlooked.program.touches.edge id b not_false).2 (h.loose b hb))

/-- The next import is taken from where its name means something now. -/
theorem Revisiting.step (h : Revisiting w offered p named id r₀ r done (x :: todo) changed)
    (hw : Steady w offered)
    (hnamed : ∀ name directory d, w.lookup.find name directory = some d → named name d)
    (hsound : r₀.program.Sound) (hlt : id < r₀.program.units.size) (hunit : ¬ r₀.IsTable id) :
    Revisiting w offered p named id r₀ (recheckImport w id (r, changed) x).1 (done ++ [x]) todo
      (recheckImport w id (r, changed) x).2 := by
  have hx : x ∈ lookedUpImports r₀.program id := by
    rw [h.split]
    exact List.mem_append_right _ List.mem_cons_self
  have hlt' : id < r.program.units.size := Nat.lt_of_lt_of_le hlt h.works.before.units.size_le
  have hunit' : ¬ r.IsTable id := by rwa [h.works.before.isTable_iff hlt]
  have hbase : Rechecking w offered id r₀ (recheckImport w id (r, changed) x).1 todo :=
    h.toRechecking.step hw hx hlt hunit
  obtain ⟨_, hlooked, hmeans⟩ := h.underway.lookupExternal hw x.2 hlt' hunit'
  have hsights : Sights p named (fun _ => False) r (r.lookupExternal w id x.2).1 :=
    sights_lookupExternal r id (hnamed x.2)
  have hexports (a : Nat) (m : String) (hm : (r.lookupExternal w id x.2).1.Exports a m) :
      r.Exports a m ∨ ((r.lookupExternal w id x.2).2 = .unit a ∧ m = x.2) :=
    exports_lookupExternal hm
  have hunits := recheckImport_units w r id changed x
  have hrun := recheckImport_run w r id changed x
  by_cases heq : (r.lookupExternal w id x.2).2 = x.1
  · rw [recheckImport_of_eq heq] at hbase ⊢
    exact h.next hlt hlooked hsights hexports hmeans (.refl _) rfl rfl hbase
      (fun _ _ hedge => hedge) (or_iff_left (not_not.2 heq)).symm
  · have hprogram := recheckImport_program_of_ne changed heq
    have hproper : (r.lookupExternal w id x.2).1.program.Proper :=
      (hsound.evolves (h.works.trans hlooked.works).program.evolves).proper
    have hbefore : (r.lookupExternal w id x.2).1.Before (recheckImport w id (r, changed) x).1 := by
      refine ⟨by rw [hunits]; exact .refl _, fun a ha => ?_, fun a ha => by rwa [Met, hrun]⟩
      rw [hprogram]
      exact Program.hasNode_recordImport.2 (.inl (Program.hasNode_removeImport.2 ha))
    refine h.next hlt hlooked hsights hexports hmeans hbefore hunits (by rw [hrun]) hbase
      (fun b hb hedge => ?_) (iff_of_true (recheckImport_snd_of_ne changed heq) (.inr heq))
    rw [hprogram]
    refine Program.edge_recordImport.2 (.inl ((Program.edge_removeImport hproper).2 ⟨hedge, ?_⟩))
    -- The name stood under a unit that it was imported from.
    rintro ⟨_, hunder, _⟩
    exact hb.2 x.2 (hunder ▸ (mem_lookedUpImports.1 hx).1)

/-- All imports are taken from where their names mean something now, by induction on the list. -/
theorem Revisiting.foldl (h : Revisiting w offered p named id r₀ r done todo changed)
    (hw : Steady w offered)
    (hnamed : ∀ name directory d, w.lookup.find name directory = some d → named name d)
    (hsound : r₀.program.Sound) (hlt : id < r₀.program.units.size) (hunit : ¬ r₀.IsTable id) :
    Revisiting w offered p named id r₀ (todo.foldl (recheckImport w id) (r, changed)).1
      (done ++ todo) [] (todo.foldl (recheckImport w id) (r, changed)).2 := by
  induction todo generalizing r done changed with
  | nil => rwa [List.append_nil]
  | cons x todo ih =>
    rw [List.foldl_cons, List.append_cons]
    exact ih (h.step hw hnamed hsound hlt hunit)

/-- What a unit imported before the run is what is looked up again in its turn. -/
theorem mem_lookedUpImports_iff (hp : p.Intact) (htouches : p.Touches only r.program)
    (hid : ¬ only id) : x ∈ lookedUpImports r.program id ↔ x ∈ lookedUpImports p id := by
  obtain ⟨t, n⟩ := x
  rw [mem_lookedUpImports, mem_lookedUpImports, Program.Takes, htouches.imports id hid]
  refine and_congr_right fun htakes => not_congr ?_
  exact isGlobal_iff_of_takes htouches.units (fun _ _ hn => hp.lt_of_takes hn) htakes

/-- What was looked up still means what it was found to mean where only marks were set since. -/
theorem Revisiting.answers (h : Revisiting w offered p named id r₀ r done [] changed)
    (hlt : id < r.program.units.size) (hprogram : s.program = r.program) (hbefore : r.Before s)
    (hx : x ∈ lookedUpImports r₀.program id) :
    ∃ t, Means w s id x.2 t ∧ (t ≠ .unit id → s.program.Takes id t x.2) := by
  rcases h.complete x hx with ⟨hnone, _⟩ | ⟨t, hold, htakes⟩
  · cases hnone
  · exact ⟨t, hold.of_units hbefore hlt (by rw [hprogram]), by rwa [hprogram]⟩

/-- After all has been looked up, the unit imports its global variables and what is found now. -/
theorem Revisiting.takes_iff (h : Revisiting w offered p named id r₀ r done [] changed)
    (hl : w.lookup.IgnoresSpelling) (hp : p.Intact) (htouches : p.Touches only r₀.program)
    (hid : ¬ only id) (hlt : id < r.program.units.size) (hprogram : s.program = r.program)
    (hbefore : r.Before s) (hintact : s.program.Intact) :
    s.program.Takes id t n ↔ (p.Takes id t n ∧ p.IsGlobal t) ∨
      ((∃ former, (former, n) ∈ lookedUpImports p id) ∧ t ≠ .unit id ∧ Means w s id n t) := by
  have hasked (x : Target × String) : x ∈ lookedUpImports r₀.program id ↔ x ∈ lookedUpImports p id :=
    mem_lookedUpImports_iff hp htouches hid
  have hgrows : p.units.Grows s.program.units := by
    rw [hprogram]
    exact htouches.units.trans h.works.before.units
  have hglobal {t : Target} {n : String} (htakes : p.Takes id t n) :
      s.program.IsGlobal t ↔ p.IsGlobal t :=
    isGlobal_iff_of_takes hgrows (fun _ _ hn => hp.lt_of_takes hn) htakes
  have hformer (t : Target) (n : String) : r₀.program.Takes id t n ↔ p.Takes id t n := by
    rw [Program.Takes, htouches.imports id hid, Program.Takes]
  have hmeans {n : String} {t : Target} (hold : Means w r id n t) : Means w s id n t :=
    hold.of_units hbefore hlt (by rw [hprogram])
  constructor
  · intro htakes
    have hne : t ≠ .unit id := fun heq => hintact.loop id n (heq ▸ htakes)
    rw [hprogram] at htakes
    -- A name stands where it stood or was put where it was found.
    by_cases hyes : s.program.IsGlobal t
    · rcases h.names t n htakes with hold | ⟨x, hx, rfl, hold⟩
      · have hold := (hformer t n).1 hold
        exact .inl ⟨hold, (hglobal hold).1 hyes⟩
      · exact .inr ⟨⟨x.1, (hasked x).1 hx⟩, hne, hmeans hold⟩
    · refine .inr ⟨?_, hne, hmeans ?_⟩
      · rcases h.names t n htakes with hold | ⟨x, hx, rfl, _⟩
        · have hold := (hformer t n).1 hold
          exact ⟨t, mem_lookedUpImports.2 ⟨hold, fun hnot => hyes ((hglobal hold).2 hnot)⟩⟩
        · exact ⟨x.1, (hasked x).1 hx⟩
      · refine (h.sound t n htakes fun hnot => hyes ?_).resolve_left List.not_mem_nil
        rwa [Program.IsGlobal, hprogram]
  · rintro (⟨hold, hyes⟩ | ⟨⟨former, hx⟩, hne, hthis⟩)
    · rw [hprogram]
      refine h.kept t n ((hformer t n).2 hold) fun hx => ?_
      exact (mem_lookedUpImports.1 ((hasked _).1 hx)).2 hyes
    · obtain ⟨t', hthis', htakes⟩ := h.answers hlt hprogram hbefore ((hasked _).2 hx)
      obtain rfl := hthis.unique hl hthis'
      exact htakes hne

/-- All has been looked up again, and the unit is marked as updated if a name has moved. -/
theorem Revisiting.revisited (h : Revisiting w offered p named id r₀ r done [] changed)
    (hl : w.lookup.IgnoresSpelling) (hp : p.Intact) (htouches : p.Touches only r₀.program)
    (hid : ¬ only id) (hmet : r₀.Met id) (hunit : r₀.IsUnit id) (hprogram : s.program = r.program)
    (hbefore : r.Before s)
    (hfreshness : s.freshness id = .dependencyUpdated ↔ changed = true)
    (hintact : s.program.Intact) : Revisited w p s id := by
  have hasked (x : Target × String) : x ∈ lookedUpImports p id ↔ x ∈ done := by
    rw [← mem_lookedUpImports_iff hp htouches hid, h.split, List.append_nil]
  have hlt : id < r.program.units.size := by
    obtain ⟨u, hu, _⟩ := hunit
    exact Nat.lt_of_lt_of_le (Catalog.lt_size_of_get? hu) h.works.before.units.size_le
  have hmeans {n : String} {t : Target} (hold : Means w r id n t) : Means w s id n t :=
    hold.of_units hbefore hlt (by rw [hprogram])
  refine ⟨fun u v hu hv => ?_, fun t n => h.takes_iff hl hp htouches hid hlt hprogram hbefore hintact,
    fun x hx => ?_, ?_, fun b hb => ?_⟩
  · obtain ⟨v₀, hv₀, htable⟩ := hunit
    obtain ⟨hget, _⟩ := h.sights.stays id hmet ⟨v₀, hv₀, htable⟩ not_false
    rw [hprogram, hget] at hv
    refine htouches.slots id u v hid hu hv ?_
    rwa [← (htouches.units.becomes hu hv).kind, Option.some.inj (hv.symm.trans hv₀)]
  · obtain ⟨t, hthis, _⟩ := h.answers hlt hprogram hbefore
      ((mem_lookedUpImports_iff hp htouches hid).2 hx)
    exact ⟨t, hthis⟩
  · rw [hfreshness]
    constructor
    · intro hchanged
      obtain ⟨x, hx, t, hold, hne⟩ := h.moved hchanged
      exact ⟨x, (hasked x).2 hx, t, hmeans hold, hne⟩
    · rintro ⟨x, hx, t, hthis, hne⟩
      by_contra hno
      have hstayed := h.stayed (by simpa using hno) x ((hasked x).1 hx)
      exact hne (hthis.unique hl (hmeans hstayed))
  · rw [hprogram]
    exact h.loose b ((htouches.loose_iff hid).2 hb)

/-- What happens to a unit that is marked as updated because a name has moved. -/
theorem sights_moved (hold : r.mark id = some .old) :
    Sights p named (· = id) r (r.setFreshness id .dependencyUpdated) where
  size := Nat.le_refl _
  documented _ h other v hv := by
    rw [mark_setFreshness]
    split
    · next heq =>
      subst heq
      exact (hold ▸ h other v hv).moved
    · exact h other v hv
  stays other _ _ hne := ⟨rfl, by rw [mark_setFreshness, if_neg hne]⟩
  moved other hmoved := by
    rw [mark_setFreshness] at hmoved
    split at hmoved
    · next heq => exact .inr heq
    · exact .inl hmoved

/-- All that a unit imports has been looked up again. -/
theorem Underway.revisit (h : Underway w offered r) (hw : Steady w offered)
    (hnamed : ∀ name directory d, w.lookup.find name directory = some d → named name d)
    (hintact : r.program.Intact) (hunit : r.IsUnit id) (hold : r.mark id = some .old)
    (hp : p.Intact) (htouches : p.Touches only r.program) (hid : ¬ only id) :
    Revisited w p (r.recheck w id).1 id ∧ Sights p named (· = id) r (r.recheck w id).1 ∧
      ∀ a n, (r.recheck w id).1.Exports a n → r.Exports a n ∨
        ∃ x ∈ lookedUpImports p id, x.2 = n ∧ Means w (r.recheck w id).1 id n (.unit a) := by
  have hmet : r.Met id := met_iff.2 (by rw [hold]; exact Option.some_ne_none _)
  have hlt : id < r.program.units.size := (h.ready id hmet).lt_size
  have htable : ¬ r.IsTable id := by
    obtain ⟨u, hu, hnot⟩ := hunit
    exact not_isTable_of_get? hu hnot
  have hall : Revisiting w offered p named id r _ _ [] _ :=
    (Revisiting.start h id).foldl hw hnamed hintact.toSound hlt htable
  have hmarked := (hall.sights.stays id hmet hunit not_false).2.trans hold
  have hmoved : Sights p named (· = id) r _ := hall.sights.mono fun _ => False.elim
  have hafter := hintact.evolves hall.works.program.evolves
  have hasked (x : Target × String) : x ∈ lookedUpImports r.program id ↔ x ∈ lookedUpImports p id :=
    mem_lookedUpImports_iff hp htouches hid
  rw [List.nil_append] at hall
  have hrecheck := recheckOutcome w r id
  generalize r.recheck w id = k at hrecheck ⊢
  cases hrecheck with
  | @kept s changed hfold hnot =>
    rw [hfold] at hall hmarked hmoved hafter
    have hfreshness : s.freshness id = .old := by rw [freshness_eq, hmarked]; rfl
    have hstays : s.freshness id = .dependencyUpdated ↔ changed = true := by
      refine iff_of_false ?_ fun hchanged => hnot hchanged hfreshness
      rw [hfreshness]
      exact Freshness.noConfusion
    refine ⟨hall.revisited hw.spelling hp htouches hid hmet hunit rfl (.refl s) hstays hafter, hmoved,
      fun a n hn => ?_⟩
    refine (hall.listed a n hn).imp_right ?_
    rintro ⟨x, hx, heq, hmeans⟩
    exact ⟨x, (hasked x).1 hx, heq, hmeans⟩
  | @marked s hfold =>
    rw [hfold] at hall hmarked hmoved hafter
    have hbefore : s.Before (s.setFreshness id .dependencyUpdated) :=
      ⟨.refl _, fun _ hnode => hnode, fun _ hother => met_setFreshness.2 (.inl hother)⟩
    refine ⟨hall.revisited hw.spelling hp htouches hid hmet hunit rfl hbefore ?_ hafter,
      hmoved.trans (sights_moved hmarked), fun a n hn => ?_⟩
    · simp [freshness_setFreshness]
    · refine (hall.listed a n hn).imp_right ?_
      rintro ⟨x, hx, heq, hmeans⟩
      exact ⟨x, (hasked x).1 hx, heq, hmeans.of_units hbefore
        (Nat.lt_of_lt_of_le hlt hall.works.before.units.size_le) rfl⟩

end Resolution

end ScriptBuild
