import ScriptBuild.Proofs.Program.Intact
import ScriptBuild.Proofs.Resolution.Resettling
import ScriptBuild.Proofs.Resolution.Termination

namespace ScriptBuild

namespace Resolution

variable {w : World} {p : Program} {r r₀ s : Resolution} {id other : Nat} {n name : String}
  {target : Target} {span : Option Span} {names : List String} {done todo : List (Target × String)}
  {x : Target × String} {changed : Bool} {work : Work} {later : List Work}

/-- The names of a unit that were reported as unresolved in a run, in the order of the reports. -/
def told (r : Resolution) (id : Nat) : List String :=
  (r.run.unresolved.filter (·.unit == id)).map (·.name)

/-- A name that is found nowhere is reported, which is told of the unit that refers to it. -/
theorem told_ite_reportUnresolved (s : Resolution) (target : Target) (name : String)
    (span : Option Span) (other : Nat) :
    (if target == .unresolved then s.reportUnresolved ⟨id, name, span⟩ else s).told other =
      s.told other ++ if target = .unresolved ∧ other = id then [name] else [] := by
  by_cases hnone : target = .unresolved
  · rw [if_pos (beq_iff_eq.2 hnone), told, reportUnresolved, List.filter_append, List.map_append]
    by_cases heq : other = id
    · simp [told, hnone, heq]
    · simp [told, heq, Ne.symm heq]
  · simp [hnone]

theorem told_importReference (w : World) (r : Resolution) (id : Nat) (reference : String × Span)
    (other : Nat) : (r.importReference w id reference).told other =
      (r.lookupExternal w id reference.1).1.told other ++
        if (r.lookupExternal w id reference.1).2 = .unresolved ∧ other = id
          then [reference.1] else [] := by
  simp only [importReference]
  exact told_ite_reportUnresolved _ _ _ _ _

theorem told_recheckImport_of_ne (changed : Bool) (hne : (r.lookupExternal w id x.2).2 ≠ x.1)
    (other : Nat) : (recheckImport w id (r, changed) x).1.told other =
      (r.lookupExternal w id x.2).1.told other ++
        if (r.lookupExternal w id x.2).2 = .unresolved ∧ other = id then [x.2] else [] := by
  simp only [recheckImport, beq_eq_false_iff_ne.2 hne, Bool.false_eq_true, if_false]
  exact told_ite_reportUnresolved _ _ _ _ _

/-- What is told of a unit is the same as long as there is no report. -/
theorem told_of_run (hrun : s.run.unresolved = r.run.unresolved) : s.told id = r.told id := by
  rw [told, hrun, told]

/-- The unresolved names of a unit are those that it takes from nowhere. -/
theorem mem_unresolvedNames : n ∈ p.unresolvedNames id ↔ p.Takes id .unresolved n :=
  Std.ExtTreeSet.mem_toList

/-- The unresolved names of a unit are told apart. -/
theorem nodup_unresolvedNames : (p.unresolvedNames id).Nodup :=
  Std.ExtTreeSet.distinct_toList.imp fun hne heq => hne (by simp [heq])

/-- Nothing is reported, and no body is read. -/
structure Silent (r s : Resolution) : Prop where
  unresolved : s.run.unresolved = r.run.unresolved
  scopes : s.run.scopes = r.run.scopes

theorem silent_unitFor (r : Resolution) (name : String) (d : Definition) :
    Silent r (r.unitFor name d).1 := by
  obtain ⟨freshness, waiting, hrun⟩ := run_unitFor r name d
  exact ⟨by rw [hrun], by rw [hrun]⟩

theorem silent_lookupExternal (w : World) (r : Resolution) (id : Nat) (name : String) :
    Silent r (r.lookupExternal w id name).1 := by
  have hlookup := lookupOutcome w r id name
  generalize r.lookupExternal w id name = k at hlookup ⊢
  cases hlookup with
  | own | recalled | missing => exact ⟨rfl, rfl⟩
  | @found names namesIn d =>
    have hmet := silent_unitFor (r.learn names namesIn) name d
    exact ⟨hmet.unresolved, hmet.scopes⟩

/-- How far the references of a body have been reported: those that are unresolved are, each once. -/
structure Reports (id : Nat) (r₀ r : Resolution) (names : List String) : Prop where
  sane : r.Sane
  unit : r.IsUnit id
  scopes : r.run.scopes = r₀.run.scopes
  others : ∀ other, other ≠ id → r.told other = r₀.told other
  nodup : (r.told id).Nodup
  told_iff : ∀ n, n ∈ r.told id ↔ r.program.Takes id .unresolved n
  told_mem : ∀ n ∈ r.told id, n ∈ names

/-- Some names that are unresolved were recorded and reported. -/
theorem Reports.next (h : Reports id r₀ r names) (new added : List String) (hsane : s.Sane)
    (hunit : s.IsUnit id) (hscopes : s.run.scopes = r.run.scopes)
    (hothers : ∀ other, other ≠ id → s.told other = r.told other)
    (htold : s.told id = r.told id ++ new)
    (htakes : ∀ m, s.program.Takes id .unresolved m ↔ r.program.Takes id .unresolved m ∨ m ∈ new)
    (hnodup : new.Nodup) (hnew : ∀ m ∈ new, m ∉ names ∧ m ∈ added) :
    Reports id r₀ s (names ++ added) where
  sane := hsane
  unit := hunit
  scopes := hscopes.trans h.scopes
  others other hne := (hothers other hne).trans (h.others other hne)
  nodup := by
    rw [htold]
    exact h.nodup.append hnodup fun m hm hmem => (hnew m hmem).1 (h.told_mem m hm)
  told_iff m := by rw [htold, htakes, List.mem_append, h.told_iff]
  told_mem m hm := by
    rw [htold] at hm
    rcases List.mem_append.1 hm with hm | hm
    · exact List.mem_append_left _ (h.told_mem m hm)
    · exact List.mem_append_right _ (hnew m hm).2

theorem Reports.declareGlobal (h : Reports id r₀ r names) (n : String) :
    Reports id r₀ (r.declareGlobal id n) names := by
  obtain ⟨hsane, hchanges⟩ := h.sane.declareGlobal n h.unit
  have hunit := h.unit.mono hchanges.touches.units
  have hsilent : Silent r (r.tableFor n .globals).1 := silent_unitFor r n ⟨.globals, 0, .table⟩
  have hgrows := grows_tableFor r n (show UnitKind.globals.isSharedTable from rfl)
  rw [declareGlobal_eq] at hsane hunit ⊢
  generalize r.tableFor n .globals = k at hsane hunit hsilent hgrows ⊢
  obtain ⟨s, table⟩ := k
  have hnext := h.next [] [] hsane hunit hsilent.scopes
    (fun _ _ => told_of_run hsilent.unresolved)
    ((told_of_run hsilent.unresolved).trans (List.append_nil _).symm) (fun m => ?_) .nil (by simp)
  · rwa [List.append_nil] at hnext
  · rw [modifyProgram, Program.takes_recordImport, or_iff_right (by simp), Program.Takes,
      hgrows.touches.imports id not_false, Program.Takes]
    simp

/-- A reference that does not occur yet is reported if it is found nowhere. -/
theorem Reports.importReference (h : Reports id r₀ r names) (w : World) (reference : String × Span)
    (hnew : reference.1 ∉ names) :
    Reports id r₀ (r.importReference w id reference) (names ++ [reference.1]) := by
  obtain ⟨hsane, hchanges⟩ := h.sane.importReference w reference h.unit
  have hunit := h.unit.mono hchanges.touches.units
  have hsilent := silent_lookupExternal w r id reference.1
  have hscopes : (r.importReference w id reference).run.scopes = r.run.scopes := by
    rw [importReference_run]
    exact hsilent.scopes
  have htold (other : Nat) := told_importReference w r id reference other
  simp only [told_of_run hsilent.unresolved] at htold
  obtain ⟨-, hgrows, -⟩ := h.sane.looked w id reference.1
  have htakes (m : String) : (r.importReference w id reference).program.Takes id .unresolved m ↔
      r.program.Takes id .unresolved m ∨
        ((r.lookupExternal w id reference.1).2 = .unresolved ∧ m = reference.1) := by
    rw [importReference_program, Program.takes_recordImport, Program.Takes,
      hgrows.touches.imports id not_false, Program.Takes]
    grind
  by_cases hnone : (r.lookupExternal w id reference.1).2 = .unresolved
  · refine h.next [reference.1] [reference.1] hsane hunit hscopes (fun other hne => ?_) ?_
      (fun m => ?_) (List.nodup_singleton _) (by simpa using hnew)
    · rw [htold, if_neg fun hboth => hne hboth.2, List.append_nil]
    · rw [htold, if_pos ⟨hnone, rfl⟩]
    · rw [htakes, and_iff_right hnone, List.mem_singleton]
  · refine h.next [] [reference.1] hsane hunit hscopes (fun other _ => ?_) ?_ (fun m => ?_) .nil
      (by simp)
    · rw [htold, if_neg fun hboth => hnone hboth.1, List.append_nil]
    · rw [htold, if_neg fun hboth => hnone hboth.1]
    · rw [htakes, or_iff_left fun hboth => hnone hboth.1, or_iff_left List.not_mem_nil]

/-- Global variables on a list are never reported. -/
theorem Reports.foldl_declareGlobal (list : List String) (h : Reports id r₀ r names) :
    Reports id r₀ (list.foldl (Resolution.declareGlobal id) r) names := by
  induction list generalizing r with
  | nil => exact h
  | cons n list ih => exact ih (h.declareGlobal n)

/-- The references on a list that are found nowhere are reported once, by induction on it. -/
theorem Reports.foldl_importReference (list : List (String × Span)) (h : Reports id r₀ r names)
    (w : World) (hnodup : (names ++ list.map (·.1)).Nodup) :
    Reports id r₀ (list.foldl (Resolution.importReference w id) r) (names ++ list.map (·.1)) := by
  induction list generalizing r names with
  | nil => rwa [List.map_nil, List.append_nil]
  | cons x list ih =>
    have hnew : x.1 ∉ names := fun hmem =>
      (List.nodup_append.1 hnodup).2.2 x.1 hmem x.1 List.mem_cons_self rfl
    rw [List.map_cons, List.append_cons] at hnodup ⊢
    exact ih (h.importReference w x hnew) hnodup

/-- What handling a unit leaves of the reports about the others. -/
structure Elsewhere (id : Nat) (r s : Resolution) : Prop where
  told : ∀ other, other ≠ id → s.told other = r.told other
  scopes : ∀ other, other ≠ id → (other ∈ s.run.scopes ↔ other ∈ r.run.scopes)

/-- A unit about which nothing was reported has its unresolved names reported when its body is read,
each once. -/
theorem perm_told_readBody (h : r.Sane) (hnone : r.told id = []) (hread : r.readBody w id = (s, none)) :
    Elsewhere id r s ∧ (s = r ∨
      id ∈ s.run.scopes ∧ (s.told id).Perm (s.program.unresolvedNames id)) := by
  have houtcome := readOutcome w r id
  rw [hread] at houtcome
  cases houtcome with
  | bodiless => exact ⟨⟨fun _ _ => rfl, fun _ _ => .rfl⟩, .inl rfl⟩
  | @read u body events hget hhas =>
    have hopen := changes_openBody (Summary.ofEvents events).slots hget hhas
    have hunit : r.IsUnit id := ⟨u, hget, UnitKind.isSharedTable_of_hasBody hhas⟩
    have hnothing : (r.openBody id (Summary.ofEvents events).slots).told id = [] := hnone
    have hfirst : Reports id r (r.openBody id (Summary.ofEvents events).slots) [] := by
      refine ⟨h.changes hopen rfl rfl, hunit.mono hopen.touches.units, rfl, fun _ _ => rfl, ?_,
        fun n => ?_, fun n hn => ?_⟩
      · rw [hnothing]
        exact .nil
      · rw [hnothing]
        exact iff_of_false List.not_mem_nil fun hn => (Program.takes_clearBody.1 hn).1 rfl
      · rwa [hnothing] at hn
    have hlast := (hfirst.foldl_declareGlobal (Summary.ofEvents events).globals).foldl_importReference
      (Summary.ofEvents events).references w (Summary.nodup_firstOccurrences _ _)
    refine ⟨⟨hlast.others, fun other hne => ?_⟩, .inr ⟨?_, ?_⟩⟩
    · exact Std.ExtTreeMap.mem_insert.trans ((or_iff_right fun heq =>
        hne (Std.LawfulEqCmp.compare_eq_iff_eq.1 heq).symm).trans
        (iff_of_eq (congrArg (other ∈ ·) hlast.scopes)))
    · exact Std.ExtTreeMap.mem_insert_self
    · exact (List.perm_ext_iff_of_nodup hlast.nodup nodup_unresolvedNames).2 fun n =>
        (hlast.told_iff n).trans mem_unresolvedNames.symm

/-- The names of a unit that were imported from elsewhere in the first program, and are unresolved in
the second one; those from the global variables are not looked at. -/
def lost (p q : Program) (id : Nat) : List String :=
  ((lookedUpImports p id).filter fun x =>
    x.1 != .unresolved && (q.unresolvedNames id).contains x.2).map (·.2)

/-- How far the imports of a unit have been looked up again: those on the list are done. A name among
them that is not found is unresolved, which was reported unless it stood there before. -/
structure Retells (w : World) (id : Nat) (r₀ r : Resolution) (done : List (Target × String)) :
    Prop where
  sane : r.Sane
  unit : r.IsUnit id
  scopes : r.run.scopes = r₀.run.scopes
  others : ∀ other, other ≠ id → r.told other = r₀.told other
  answered : ∀ former n, (former, n) ∈ done → ∃ t, Answered w r id n t
  takes_iff : ∀ n, r.program.Takes id .unresolved n ↔
    r₀.program.Takes id .unresolved n ∧ (.unresolved, n) ∉ done ∨
      (∃ former, (former, n) ∈ done) ∧ Answered w r id n .unresolved
  told_eq : r.told id = r₀.told id ++ (done.filter fun x =>
    x.1 != .unresolved && (r.lookupExternal w id x.2).2 == .unresolved).map (·.2)

/-- As long as lookups answer alike, the same names of a list are found nowhere. -/
theorem filter_lookupExternal_congr (p : Target × String → Bool)
    (hsame : ∀ former n, (former, n) ∈ done →
      (s.lookupExternal w id n).2 = (r.lookupExternal w id n).2) :
    (done.filter fun x => p x && (s.lookupExternal w id x.2).2 == .unresolved) =
      done.filter fun x => p x && (r.lookupExternal w id x.2).2 == .unresolved :=
  List.filter_congr fun x hx => by rw [hsame x.1 x.2 hx]

/-- What is settled stays, and nothing is imported or reported. -/
theorem Retells.keep (h : Retells w id r₀ r done) (hsane : s.Sane) (hunit : s.IsUnit id)
    (hsilent : Silent r s)
    (htakes : ∀ n, s.program.Takes id .unresolved n ↔ r.program.Takes id .unresolved n)
    (habides : ∀ former n, (former, n) ∈ done → Abides id n r s) : Retells w id r₀ s done where
  sane := hsane
  unit := hunit
  scopes := hsilent.scopes.trans h.scopes
  others other hne := (told_of_run hsilent.unresolved).trans (h.others other hne)
  answered former n hmem := by
    obtain ⟨t, ht⟩ := h.answered former n hmem
    exact ⟨t, ht.abides (habides former n hmem)⟩
  takes_iff n := by
    rw [htakes, h.takes_iff]
    refine or_congr_right (and_congr_right ?_)
    rintro ⟨former, hmem⟩
    obtain ⟨t, ht⟩ := h.answered former n hmem
    exact (ht.iff_of_abides (habides former n hmem)).symm
  told_eq := by
    rw [told_of_run hsilent.unresolved, h.told_eq, filter_lookupExternal_congr (r := r) (s := s)]
    intro former n hmem
    obtain ⟨t, ht⟩ := h.answered former n hmem
    rw [ht.lookupExternal, (ht.abides (habides former n hmem)).lookupExternal]

/-- Another lookup changes nothing about what was reported. -/
theorem Retells.look (h : Retells w id r₀ r done) (name : String) :
    Retells w id r₀ (r.lookupExternal w id name).1 done := by
  by_cases hdone : ∃ former, (former, name) ∈ done
  · obtain ⟨former, hmem⟩ := hdone
    obtain ⟨t, hanswered⟩ := h.answered former name hmem
    rw [hanswered.lookupExternal_eq]
    exact h
  · obtain ⟨hsane, hgrows, -⟩ := h.sane.looked w id name
    obtain ⟨u, hu, -⟩ := h.unit
    obtain ⟨-, habides⟩ := h.sane.answered_lookupExternal w name (Catalog.lt_size_of_get? hu)
    refine h.keep hsane (h.unit.mono hgrows.touches.units) (silent_lookupExternal w r id name)
      (fun n => ?_) fun former n hmem => habides n fun heq => hdone ⟨former, heq ▸ hmem⟩
    rw [Program.Takes, hgrows.touches.imports id not_false, Program.Takes]

/-- A name is put where it was found, which may be where it stood. -/
theorem Retells.place {former : Target} (h : Retells w id r₀ r done)
    (hanswered : Answered w r id name target) (hsane : s.Sane) (hunit : s.IsUnit id)
    (hscopes : s.run.scopes = r.run.scopes)
    (hothers : ∀ other, other ≠ id → s.told other = r.told other)
    (habides : ∀ n, Abides id n r s)
    (htakes : ∀ n, s.program.Takes id .unresolved n ↔ (target = .unresolved ∧ n = name) ∨
      r.program.Takes id .unresolved n ∧ ¬ (former = .unresolved ∧ n = name))
    (htold : s.told id =
      r.told id ++ if former != .unresolved && target == .unresolved then [name] else []) :
    Retells w id r₀ s (done ++ [(former, name)]) where
  sane := hsane
  unit := hunit
  scopes := hscopes.trans h.scopes
  others other hne := (hothers other hne).trans (h.others other hne)
  answered former' n hmem := by
    rcases List.mem_append.1 hmem with hmem | hmem
    · obtain ⟨t, ht⟩ := h.answered former' n hmem
      exact ⟨t, ht.abides (habides n)⟩
    · obtain ⟨rfl, rfl⟩ := Prod.mk.inj (List.mem_singleton.1 hmem)
      exact ⟨target, hanswered.abides (habides n)⟩
  takes_iff n := by
    have hsettled {t : Target} {m : String} (hold : Answered w r id m t) :
        Answered w s id m .unresolved ↔ t = .unresolved :=
      ⟨fun hs => (hold.abides (habides m)).unique hs, fun heq => heq ▸ hold.abides (habides m)⟩
    have hdone : (∃ former, (former, n) ∈ done) →
        (Answered w s id n .unresolved ↔ Answered w r id n .unresolved) := by
      rintro ⟨former', hmem⟩
      obtain ⟨t, ht⟩ := h.answered former' n hmem
      exact ht.iff_of_abides (habides n)
    rw [htakes, h.takes_iff]
    by_cases hname : n = name
    · subst hname
      have hhere := hsettled hanswered
      grind
    · grind
  told_eq := by
    rw [htold, h.told_eq, List.filter_append, List.map_append, List.append_assoc,
      filter_lookupExternal_congr (r := r) (s := s)]
    · rw [List.filter_singleton, (hanswered.abides (habides name)).lookupExternal]
      grind
    · intro former' n hmem
      obtain ⟨t, ht⟩ := h.answered former' n hmem
      rw [ht.lookupExternal, (ht.abides (habides n)).lookupExternal]

/-- One name is looked up again. -/
theorem Retells.step (h : Retells w id r₀ r done) (hold : r₀.program.Takes id x.1 x.2)
    (hnew : x ∉ done) :
    Retells w id r₀ (recheckImport w id (r, changed) x).1 (done ++ [x]) := by
  obtain ⟨hsane, hchanges⟩ := h.sane.recheckImport w x changed h.unit
  have hunit := h.unit.mono hchanges.touches.units
  have hlooked := h.look x.2
  obtain ⟨u, hu, -⟩ := h.unit
  obtain ⟨hanswered, -⟩ := h.sane.answered_lookupExternal w x.2 (Catalog.lt_size_of_get? hu)
  by_cases heq : (r.lookupExternal w id x.2).2 = x.1
  · rw [recheckImport_of_eq heq]
    rw [heq] at hanswered
    refine hlooked.place hanswered hlooked.sane hlooked.unit rfl (fun _ _ => rfl)
      (fun n => .of_units rfl rfl rfl rfl) (fun n => ?_) (by simp)
    have hthere : x.1 = .unresolved →
        (r.lookupExternal w id x.2).1.program.Takes id .unresolved x.2 := by
      intro hnone
      exact (hlooked.takes_iff x.2).2 (.inl ⟨hnone ▸ hold, by rwa [← hnone]⟩)
    grind
  · have hprogram := recheckImport_program_of_ne changed heq
    have hrun := recheckImport_run w r id changed x
    have hunits := recheckImport_units w r id changed x
    have htold := told_recheckImport_of_ne changed heq
    refine hlooked.place hanswered hsane hunit (by rw [hrun]) (fun other hother => ?_)
      (fun n => .of_units hunits (by rw [hrun]) (by rw [hrun]) (by rw [hrun])) (fun n => ?_) ?_
    · rw [htold, if_neg fun hboth => hother hboth.2, List.append_nil]
    · rw [hprogram, Program.takes_recordImport, Program.takes_removeImport]
      grind
    · rw [htold]
      by_cases hnone : (r.lookupExternal w id x.2).2 = .unresolved
      · have hformer : x.1 ≠ .unresolved := fun hformer => heq (hnone.trans hformer.symm)
        simp [hnone, hformer]
      · simp [hnone]

/-- After all imports on a list were looked up those that were lost are reported, by induction on
the list. -/
theorem Retells.foldl (h : Retells w id r₀ r done) (changed : Bool)
    (htodo : ∀ x ∈ todo, r₀.program.Takes id x.1 x.2) (hnodup : (done ++ todo).Nodup) :
    Retells w id r₀ (todo.foldl (recheckImport w id) (r, changed)).1 (done ++ todo) := by
  induction todo generalizing r done changed with
  | nil => rwa [List.append_nil]
  | cons x todo ih =>
    have hnew : x ∉ done := fun hdone =>
      (List.nodup_append.1 hnodup).2.2 x hdone x List.mem_cons_self rfl
    rw [List.append_cons] at hnodup ⊢
    exact ih (h.step (htodo x List.mem_cons_self) hnew) _
      (fun y hy => htodo y (List.mem_cons_of_mem x hy)) hnodup

/-- A fix-up reports the names that were lost. -/
theorem retells_recheck (h : r.Sane) (w : World) (hunit : r.IsUnit id) :
    Retells w id r (r.recheck w id).1 (lookedUpImports r.program id) := by
  have hstart : Retells w id r r [] :=
    ⟨h, hunit, rfl, fun _ _ => rfl, fun _ _ hmem => absurd hmem List.not_mem_nil, by simp, by simp⟩
  have hfold := hstart.foldl false
    (fun x (hx : x ∈ lookedUpImports r.program id) => (mem_lookedUpImports.1 hx).1)
    (nodup_lookedUpImports _ _)
  rw [List.nil_append] at hfold
  have hrecheck := recheckOutcome w r id
  generalize r.recheck w id = k at hrecheck ⊢
  cases hrecheck with
  | kept hall => rwa [hall] at hfold
  | marked hall =>
    rw [hall] at hfold
    exact hfold.keep ⟨hfold.sane.waiting, hfold.sane.found⟩ hfold.unit ⟨rfl, rfl⟩ (fun _ => .rfl)
      fun _ _ _ => .of_units rfl rfl rfl rfl

/-- When the imports of a unit were looked up again, the names that were lost are reported, and what
else is unresolved was so before. -/
theorem told_recheck (h : r.Sane) (w : World) (hunit : r.IsUnit id) (hnone : r.told id = []) :
    Elsewhere id r (r.recheck w id).1 ∧ (r.recheck w id).1.run.scopes = r.run.scopes ∧
      (r.recheck w id).1.told id = lost r.program (r.recheck w id).1.program id ∧
      ∀ n ∈ (r.recheck w id).1.program.unresolvedNames id,
        n ∈ (r.recheck w id).1.told id ∨ n ∈ r.program.unresolvedNames id := by
  have hall := retells_recheck h w hunit
  generalize (r.recheck w id).1 = s at hall ⊢
  have htakes (n : String) : n ∈ s.program.unresolvedNames id ↔
      (∃ former, (former, n) ∈ lookedUpImports r.program id) ∧ Answered w s id n .unresolved := by
    rw [mem_unresolvedNames, hall.takes_iff, or_iff_right]
    -- What is unresolved is looked up again, since it does not come from the global variables.
    rintro ⟨hold, hnot⟩
    refine hnot (mem_lookedUpImports.2 ⟨hold, ?_⟩)
    rintro ⟨_, _, heq, -⟩
    cases heq
  have htold : s.told id = lost r.program s.program id := by
    rw [hall.told_eq, hnone, List.nil_append, lost]
    congr 1
    refine List.filter_congr fun x hx => ?_
    obtain ⟨t, ht⟩ := hall.answered x.1 x.2 hx
    rw [ht.lookupExternal]
    congr 1
    rw [Bool.eq_iff_iff, beq_iff_eq, List.contains_iff_mem, htakes]
    constructor
    · rintro rfl
      exact ⟨⟨x.1, hx⟩, ht⟩
    · exact fun hn => ht.unique hn.2
  refine ⟨⟨hall.others, fun other _ => by rw [hall.scopes]⟩, hall.scopes, htold, fun n hn => ?_⟩
  obtain ⟨⟨former, hmem⟩, -⟩ := (htakes n).1 hn
  by_cases hformer : former = .unresolved
  · subst hformer
    exact .inr (mem_unresolvedNames.2 (mem_lookedUpImports.1 hmem).1)
  · rw [htold]
    refine .inl (List.mem_map.2 ⟨(former, n), List.mem_filter.2 ⟨hmem, ?_⟩, rfl⟩)
    simp [hformer, hn]

/-- What was reported about a unit in a run, compared with what the unit has unresolved then. A body
    that is read has each of its unresolved names reported once. Where imports are looked up again,
    a name is reported when it is lost, once for each unit that it was imported from, but not if it
    was unresolved before. -/
structure Accounts (p : Program) (r : Resolution) (id : Nat) : Prop where
  /-- If its body was read, all that is unresolved was reported, each name once. -/
  read : id ∈ r.run.scopes → (r.told id).Perm (r.program.unresolvedNames id)
  /-- If not, the names were reported that were lost in the run, unless nothing was looked up again. -/
  unread : id ∉ r.run.scopes → (r.told id).Perm (lost p r.program id) ∨
    r.told id = [] ∧ r.program.importsOf id = p.importsOf id
  /-- What was not reported was unresolved before the run, and the body was not read. -/
  untold : ∀ n ∈ r.program.unresolvedNames id, n ∈ r.told id ∨
    id ∉ r.run.scopes ∧ n ∈ p.unresolvedNames id

/-- A unit has not had its turn yet. -/
structure Pending (p : Program) (r : Resolution) (id : Nat) : Prop where
  told : r.told id = []
  scopes : id ∉ r.run.scopes
  imports : r.program.importsOf id = p.importsOf id

/-- Nothing was reported about a unit that had no turn yet. -/
theorem Pending.accounts (h : Pending p r id) : Accounts p r id where
  read hread := absurd hread h.scopes
  unread _ := .inr ⟨h.told, h.imports⟩
  untold n hn := .inr ⟨h.scopes, by rwa [Program.unresolvedNames, ← h.imports]⟩

/-- What was reported between two pieces of work. -/
structure Telling (p : Program) (r : Resolution) : Prop where
  sane : r.Sane
  grows : p.units.Grows r.program.units
  pending : ∀ id, id ∉ r.run.handled → Pending p r id
  accounts : ∀ id, Accounts p r id

theorem telling_start (p : Program) : Telling p (start p) := by
  have hpending (id : Nat) : Pending p (start p) id := ⟨rfl, Std.ExtTreeMap.not_mem_empty, rfl⟩
  exact ⟨sane_start p, .refl _, fun id _ => hpending id, fun id => (hpending id).accounts⟩

theorem Accounts.congr (h : Accounts p r id) (htold : s.told id = r.told id)
    (hscopes : id ∈ s.run.scopes ↔ id ∈ r.run.scopes)
    (himports : s.program.importsOf id = r.program.importsOf id) : Accounts p s id := by
  have hnames : s.program.unresolvedNames id = r.program.unresolvedNames id := by
    rw [Program.unresolvedNames, himports, Program.unresolvedNames]
  have hlost : lost p s.program id = lost p r.program id := by rw [lost, hnames, lost]
  refine ⟨?_, ?_, ?_⟩
  · rw [hscopes, htold, hnames]
    exact h.read
  · rw [hscopes, htold, hlost, himports]
    exact h.unread
  · rw [hscopes, htold, hnames]
    exact h.untold

theorem Pending.congr (h : Pending p r id) (htold : s.told id = r.told id)
    (hscopes : id ∈ s.run.scopes ↔ id ∈ r.run.scopes)
    (himports : s.program.importsOf id = r.program.importsOf id) : Pending p s id :=
  ⟨htold.trans h.told, mt hscopes.1 h.scopes, himports.trans h.imports⟩

theorem Telling.unitFor (h : Telling p r) (name : String) (d : Definition) :
    Telling p (r.unitFor name d).1 := by
  obtain ⟨hsane, hgrows, -⟩ := h.sane.unitFor name d
  have hsilent := silent_unitFor r name d
  have himports (id : Nat) := hgrows.touches.imports id not_false
  refine ⟨hsane, h.grows.trans hgrows.touches.units, fun id hid => ?_, fun id => ?_⟩
  · rw [handled_unitFor] at hid
    exact (h.pending id hid).congr (told_of_run hsilent.unresolved) (by rw [hsilent.scopes])
      (himports id)
  · exact (h.accounts id).congr (told_of_run hsilent.unresolved) (by rw [hsilent.scopes])
      (himports id)

/-- Passing over a piece of work reports nothing. -/
theorem Telling.drop (h : Telling p r) (hlater : ∀ work ∈ later, work ∈ r.run.waiting) :
    Telling p { r with run := { r.run with waiting := later } } :=
  ⟨⟨fun work hwork => h.sane.waiting work (hlater work hwork), h.sane.found⟩, h.grows,
    fun id hid => (h.pending id hid).congr rfl .rfl rfl,
    fun id => (h.accounts id).congr rfl .rfl rfl⟩

/-- The unit whose turn it is, from which the others are left alone. -/
theorem Telling.next (h : Telling p r) (hsane : s.Sane)
    (hchanges : r.program.Changes id s.program) (helsewhere : Elsewhere id r s)
    (hhandled : s.run.handled = r.run.handled.insert id) (haccounts : Accounts p s id) :
    Telling p s := by
  refine ⟨hsane, h.grows.trans hchanges.touches.units, fun other hother => ?_, fun other => ?_⟩
  · rw [hhandled, Std.ExtTreeSet.mem_insert, Std.LawfulEqCmp.compare_eq_iff_eq, not_or] at hother
    have hne : other ≠ id := fun heq => hother.1 heq.symm
    exact (h.pending other hother.2).congr (helsewhere.told other hne) (helsewhere.scopes other hne)
      (hchanges.touches.imports other hne)
  · by_cases hne : other = id
    · exact hne ▸ haccounts
    · exact (h.accounts other).congr (helsewhere.told other hne) (helsewhere.scopes other hne)
        (hchanges.touches.imports other hne)

/-- A unit without a body to read is left as it is. -/
theorem Telling.read (h : Telling p r) (hwaiting : r.run.waiting = .read id :: later)
    (hfresh : id ∉ r.run.handled)
    (hhandle : ({ r with run := { r.run with waiting := later } } : Resolution).handle w (.read id) =
      (s, none)) : Telling p s := by
  have hpending := h.pending id hfresh
  have hbegin := h.sane.begin hwaiting
  have hhandled : s.run.handled = r.run.handled.insert id :=
    (congrArg (·.1.run.handled) hhandle).symm.trans (handled_handle hfresh)
  rw [handle_read id hfresh] at hhandle
  obtain ⟨hsane, hchanges⟩ := hbegin.readBody w id
  rw [hhandle] at hsane hchanges
  obtain ⟨helsewhere, hread⟩ := perm_told_readBody hbegin hpending.told hhandle
  refine h.next hsane hchanges ⟨helsewhere.told, helsewhere.scopes⟩ hhandled ?_
  rcases hread with rfl | ⟨hmem, hperm⟩
  · exact (hpending.congr (s := r.begin (.read id) later) rfl .rfl rfl).accounts
  · exact ⟨fun _ => hperm, fun hnot => absurd hmem hnot, fun n hn => .inl (hperm.mem_iff.2 hn)⟩

/-- Names that were found again, or still are not, are not reported. -/
theorem Telling.recheck (h : Telling p r) (hp : p.Intact)
    (hwaiting : r.run.waiting = .recheck id :: later) (hfresh : id ∉ r.run.handled)
    (hhandle : ({ r with run := { r.run with waiting := later } } : Resolution).handle w (.recheck id) =
      (s, none)) : Telling p s := by
  have hpending := h.pending id hfresh
  have hbegin := h.sane.begin hwaiting
  have hunit : (r.begin (.recheck id) later).IsUnit id :=
    h.sane.waiting (.recheck id) (hwaiting ▸ List.mem_cons_self)
  have hhandled : s.run.handled = r.run.handled.insert id :=
    (congrArg (·.1.run.handled) hhandle).symm.trans (handled_handle hfresh)
  rw [handle_recheck id hfresh] at hhandle
  obtain ⟨hsane, hchanges⟩ := hbegin.recheck w hunit
  obtain ⟨helsewhere, hscopes, htold, huntold⟩ := told_recheck hbegin w hunit hpending.told
  obtain rfl := (Prod.mk.inj hhandle).1
  have hnot : id ∉ ((r.begin (.recheck id) later).recheck w id).1.run.scopes := by
    rw [hscopes]
    exact hpending.scopes
  refine h.next hsane hchanges ⟨helsewhere.told, helsewhere.scopes⟩ hhandled
    ⟨fun hmem => absurd hmem hnot, fun _ => .inl ?_, fun n hn => (huntold n hn).imp_right fun hold =>
      ⟨hnot, ?_⟩⟩
  · rw [htold, lost, lost]
    refine List.Perm.map _ (List.Perm.filter _ ?_)
    refine (List.perm_ext_iff_of_nodup (nodup_lookedUpImports _ _) (nodup_lookedUpImports _ _)).2
      fun x => ?_
    have htakes : r.program.Takes id x.1 x.2 ↔ p.Takes id x.1 x.2 := by
      rw [Program.Takes, hpending.imports, Program.Takes]
    rw [mem_lookedUpImports, mem_lookedUpImports]
    exact (and_congr_left' htakes).trans (and_congr_right fun ht => not_congr
      (isGlobal_iff_of_takes h.grows (fun _ _ => hp.lt_of_takes) ht))
  · rwa [Program.unresolvedNames, ← hpending.imports]

/-- What was reported at the end of an analysis that succeeds is what the turns of its units say, by
induction on the work. -/
theorem Telling.drains {out : Resolution × Option Fault} (h : Telling p r) (hp : p.Intact)
    {done : List Work} (hdrains : Drains w r done out) (hok : out.2 = none) : Telling p out.1 := by
  induction hdrains with
  | finished r => exact h
  | passed r work later done out hwaiting _ _ ih =>
    exact ih (h.drop fun x hx => hwaiting ▸ List.mem_cons_of_mem _ hx) hok
  | failed => cases hok
  | handled r s work later done out hwaiting hfresh hhandle _ ih =>
    refine ih ?_ hok
    cases work with
    | read id => exact h.read hwaiting hfresh hhandle
    | recheck id => exact h.recheck hp hwaiting hfresh hhandle

/-- What the reports of a new run say about a unit, if the analysis finds a unit for its entry point.
All that is unresolved is reported for a unit whose body was read. For one whose imports were looked up
again only what was lost is; a name that was unresolved before and still is goes unreported. The
program at the start is intact as all programs are that come about (`Arises.intact`). -/
theorem accounts_of_analyze {entry : String} {definition : Option Definition} {root : Nat}
    (hp : p.Intact) (hanalyze : (start p).analyze w entry definition = (r, .ok (some root)))
    (id : Nat) : Accounts p r id := by
  obtain ⟨d, -, -, -, -, hdrain⟩ := analyze_ok hanalyze
  obtain ⟨done, hdrains⟩ := drains_of_drain hdrain (by simp)
  exact (((telling_start p).unitFor entry d).drains hp hdrains rfl).accounts id

/-- A script that calls two functions, of which one is there at first and the other one never. -/
def fadingWorld (later : Bool) : World where
  lookup := if later then twoFiles ("f", .script ⟨"f.m"⟩) ("k", .script ⟨"k.m"⟩)
    else twoFiles ("f", .script ⟨"f.m"⟩) ("g", .script ⟨"g.m"⟩)
  events
    | .file ⟨"f.m"⟩ => .ok [.reference "g" ⟨0, 1⟩, .reference "h" ⟨2, 3⟩]
    | _ => .ok []

/-- The outcome of an analysis after the function is gone, when the script was analyzed before. -/
def fadingRun : Resolution × Except Fault (Option Nat) :=
  (start ((start .empty).analyze (fadingWorld false) "f" none).1.program).analyze
    (fadingWorld true) "f" none

/-- The name that is lost is reported, and the one that was not found before either is not. -/
theorem accounts_fadingRun :
    ((start .empty).analyze (fadingWorld false) "f" none).1.program.Intact ∧
      ∃ r, fadingRun = (r, .ok (some 0)) ∧ r.told 0 = ["g"] ∧
        r.program.unresolvedNames 0 = ["g", "h"] ∧
        Accounts ((start .empty).analyze (fadingWorld false) "f" none).1.program r 0 := by
  have hp : ((start .empty).analyze (fadingWorld false) "f" none).1.program.Intact :=
    Program.intact_empty.evolves ((sane_start .empty).analyze (fadingWorld false) "f" none).2
  have hall : (fadingRun.2, fadingRun.1.told 0, fadingRun.1.program.unresolvedNames 0) =
      (.ok (some 0), ["g"], ["g", "h"]) := by cbv
  obtain ⟨hroot, hreports⟩ := Prod.mk.inj hall
  obtain ⟨htold, hnames⟩ := Prod.mk.inj hreports
  obtain ⟨r, hr⟩ := exists_of_snd fadingRun hroot
  rw [hr] at htold hnames
  exact ⟨hp, r, hr, htold, hnames, accounts_of_analyze hp hr 0⟩

end Resolution

end ScriptBuild
