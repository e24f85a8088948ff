import ScriptBuild.Proofs.Resolution.Lookup

namespace ScriptBuild

namespace Resolution

variable {w : World} {offered : Definition → Prop} {r r₀ s : Resolution} {id other : Nat}
  {name n : String} {t target : Target} {todo : List (Target × String)} {x : Target × String}
  {p : Program} {changed : Bool}

/-- All imports of a unit are looked up again but those of global variables. -/
theorem mem_lookedUpImports :
    (t, n) ∈ lookedUpImports p id ↔ p.Takes id t n ∧ ¬ p.IsGlobal t := by
  rw [lookedUpImports, List.mem_flatMap, Program.Takes, ← Imports.exists_mem_toList]
  constructor
  · rintro ⟨⟨t', names⟩, hmem, hn⟩
    obtain ⟨hlisted, hkept⟩ := List.mem_filter.1 hmem
    obtain ⟨n', hn', heq⟩ := List.mem_map.1 hn
    cases heq
    refine ⟨⟨names, hlisted, hn'⟩, ?_⟩
    rintro ⟨other, u, rfl, hu, hkind⟩
    simp [hu, hkind] at hkept
  · rintro ⟨⟨names, hlisted, hn⟩, hnot⟩
    refine ⟨(t, names), List.mem_filter.2 ⟨hlisted, ?_⟩, List.mem_map.2 ⟨n, hn, rfl⟩⟩
    cases t with
    | unit other =>
      rw [Bool.not_eq_true', ← Bool.not_eq_true, Option.any_eq_true]
      rintro ⟨u, hu, hkind⟩
      exact hnot ⟨other, u, rfl, hu, beq_iff_eq.1 hkind⟩
    | unresolved => rfl

/-- What holds no global variables in a grown program did not hold any before. -/
theorem not_isGlobal_of_grows {q : Program} (hgrows : p.units.Grows q.units)
    (hnot : ¬ q.IsGlobal t) : ¬ p.IsGlobal t := by
  rintro ⟨other, u, rfl, hu, hkind⟩
  obtain ⟨v, hv, huv⟩ := hgrows other u hu
  exact hnot ⟨other, v, rfl, hv, huv.kind.trans hkind⟩

/-- How far the imports of a unit have been looked up again: those on the list are left. In the end
    every name stands under what it means now; no name is lost unless it means the unit itself, and
    none is added. -/
structure Rechecking (w : World) (offered : Definition → Prop) (id : Nat) (r₀ r : Resolution)
    (todo : List (Target × String)) : Prop where
  underway : Underway w offered r
  works : r₀.Works id r
  readings : r.run.readings = r₀.run.readings
  exports : ∀ n, r.Exports id n ↔ r₀.Exports id n
  sound : ∀ t n, r.program.Takes id t n → ¬ r.program.IsGlobal t →
    (t, n) ∈ todo ∨ Means w r id n t
  complete : ∀ x ∈ lookedUpImports r₀.program id, (x ∈ todo ∧ r.program.Takes id x.1 x.2) ∨
    ∃ t, Means w r id x.2 t ∧ (t ≠ .unit id → r.program.Takes id t x.2)
  names : ∀ t n, r.program.Takes id t n → r₀.program.Takes id t n ∨
    ∃ x ∈ lookedUpImports r₀.program id, x.2 = n ∧ Means w r id n t
  kept : ∀ t n, r₀.program.Takes id t n → (t, n) ∉ lookedUpImports r₀.program id →
    r.program.Takes id t n

theorem Rechecking.start (h : Underway w offered r) (id : Nat) :
    Rechecking w offered id r r (lookedUpImports r.program id) where
  underway := h
  works := .refl id r
  readings := rfl
  exports _ := .rfl
  sound _ _ htakes hglobal := .inl (mem_lookedUpImports.2 ⟨htakes, hglobal⟩)
  complete _ hx := .inl ⟨hx, (mem_lookedUpImports.1 hx).1⟩
  names _ _ htakes := .inl htakes
  kept _ _ htakes _ := htakes

/-- Looking up changes nothing about what the unit imports. -/
theorem Rechecking.looked (h : Rechecking w offered id r₀ r todo) (hs : Underway w offered s)
    (hlooked : r.Looked s) (hlt : id < r₀.program.units.size) (hunit : ¬ r₀.IsTable id) :
    Rechecking w offered id r₀ s todo := by
  have hlt' : id < r.program.units.size := Nat.lt_of_lt_of_le hlt h.works.before.units.size_le
  have hexports (n : String) : s.Exports id n ↔ r.Exports id n :=
    hlooked.exports_iff hlt' (by rwa [h.works.before.isTable_iff hlt])
  have htakes (t : Target) (n : String) : s.program.Takes id t n ↔ r.program.Takes id t n := by
    rw [Program.Takes, hlooked.program.touches.imports id not_false, Program.Takes]
  have hmeans {t : Target} {n : String} (hold : Means w r id n t) : Means w s id n t :=
    hold.mono hlooked.before hlt' (hexports n)
  refine ⟨hs, h.works.trans hlooked.works, hlooked.readings.trans h.readings,
    fun n => (hexports n).trans (h.exports n), fun t n ht hnot => ?_, fun x hx => ?_,
    fun t n ht => ?_, fun t n ht hnot => ?_⟩
  · exact (h.sound t n ((htakes t n).1 ht)
      (not_isGlobal_of_grows hlooked.before.units hnot)).imp_right hmeans
  · refine (h.complete x hx).imp (And.imp_right (htakes x.1 x.2).2) ?_
    rintro ⟨t, hold, himp⟩
    exact ⟨t, hmeans hold, fun hne => (htakes t x.2).2 (himp hne)⟩
  · refine (h.names t n ((htakes t n).1 ht)).imp_right ?_
    rintro ⟨x, hx, heq, hold⟩
    exact ⟨x, hx, heq, hmeans hold⟩
  · exact (htakes t n).2 (h.kept t n ht hnot)

/-- A name that means what it stands under stays there. -/
theorem Rechecking.keep (h : Rechecking w offered id r₀ r (x :: todo))
    (hmeans : Means w r id x.2 x.1) : Rechecking w offered id r₀ r todo where
  underway := h.underway
  works := h.works
  readings := h.readings
  exports := h.exports
  sound t n htakes hglobal := by
    rcases h.sound t n htakes hglobal with hmem | hold
    · rcases List.mem_cons.1 hmem with rfl | hmem
      · exact .inr hmeans
      · exact .inl hmem
    · exact .inr hold
  complete y hy := by
    rcases h.complete y hy with ⟨hmem, htakes⟩ | hold
    · rcases List.mem_cons.1 hmem with rfl | hmem
      · exact .inr ⟨y.1, hmeans, fun _ => htakes⟩
      · exact .inl ⟨hmem, htakes⟩
    · exact .inr hold
  names := h.names
  kept := h.kept

/-- Moving an import to what it means changes the program about the unit that imports. -/
theorem changes_moveImport {u : BuildUnit} (hmeans : Means w r id x.2 t)
    (hget : r.program.units.get? id = some u) (htable : u.kind.isSharedTable = false) :
    r.program.Changes id ((r.program.removeImport id x.1 x.2).recordImport id t x.2) := by
  have hmay := hmeans.mayTake hget htable
  refine .tail (.single (.remove x.1 x.2)) (.record t x.2 ?_)
  obtain ⟨htaker, htarget, hlisted, hforeign⟩ := hmay
  constructor <;> simp only [Program.IsGlobal, Program.units_removeImport]
  exacts [htaker, htarget, hlisted, hforeign]

/-- A name that means something else is moved there. -/
theorem Rechecking.move {u : BuildUnit} (h : Rechecking w offered id r₀ r (x :: todo))
    (hw : Steady w offered) (hx : x ∈ lookedUpImports r₀.program id)
    (hget : r.program.units.get? id = some u) (htable : u.kind.isSharedTable = false)
    (hmeans : Means w r id x.2 t) (hne : t ≠ x.1)
    (hprogram : s.program = (r.program.removeImport id x.1 x.2).recordImport id t x.2)
    (hagrees : r.Agrees s) (hreadings : s.run.readings = r.run.readings) :
    Rechecking w offered id r₀ s todo := by
  have hlt := Catalog.lt_size_of_get? hget
  have hchanges : r.program.Changes id s.program := by
    rw [hprogram]
    exact changes_moveImport hmeans hget htable
  have hworks : r.Works id s := hagrees.works hchanges
  have hbefore := hworks.before
  have hunits : s.program.units = r.program.units := by
    rw [hprogram, Program.units_recordImport, Program.units_removeImport]
  have htakes (t' : Target) (n : String) : s.program.Takes id t' n ↔
      (t' = t ∧ n = x.2 ∧ t ≠ .unit id) ∨
        (r.program.Takes id t' n ∧ ¬ (t' = x.1 ∧ n = x.2)) := by
    rw [hprogram, Program.takes_recordImport, Program.takes_removeImport]
    simp
  have hkeep {t' : Target} {n : String} (hold : Means w r id n t') : Means w s id n t' :=
    hold.of_units hbefore hlt hunits
  refine ⟨h.underway.advance hbefore hagrees, h.works.trans hworks, hreadings.trans h.readings,
    fun n => ?_, fun t' n ht hnot => ?_, fun y hy => ?_, fun t' n ht => ?_, fun t' n ht hnot => ?_⟩
  · rw [← h.exports, Exports, Exports, hunits]
  · rcases (htakes t' n).1 ht with ⟨rfl, rfl, _⟩ | ⟨hold, hother⟩
    · exact .inr (hkeep hmeans)
    · rw [Program.IsGlobal, hunits] at hnot
      rcases h.sound t' n hold hnot with hmem | hsound
      · rcases List.mem_cons.1 hmem with heq | hmem
        · exact absurd (Prod.mk.inj heq) hother
        · exact .inl hmem
      · exact .inr (hkeep hsound)
  · rcases h.complete y hy with ⟨hmem, hold⟩ | ⟨t', hold, himp⟩
    · by_cases heq : y = x
      · exact .inr ⟨t, heq ▸ hkeep hmeans, fun hself => (htakes t y.2).2 (.inl ⟨rfl, by rw [heq], hself⟩)⟩
      · refine .inl ⟨(List.mem_cons.1 hmem).resolve_left heq, (htakes y.1 y.2).2 (.inr ⟨hold, ?_⟩)⟩
        exact fun hsame => heq (Prod.ext hsame.1 hsame.2)
    · refine .inr ⟨t', hkeep hold, fun hself => (htakes t' y.2).2 (.inr ⟨himp hself, ?_⟩)⟩
      rintro ⟨rfl, hname⟩
      exact hne (hmeans.unique hw.spelling (hname ▸ hold))
  · rcases (htakes t' n).1 ht with ⟨rfl, rfl, _⟩ | ⟨hold, _⟩
    · exact .inr ⟨x, hx, rfl, hkeep hmeans⟩
    · refine (h.names t' n hold).imp_right ?_
      rintro ⟨y, hy, heq, hold⟩
      exact ⟨y, hy, heq, hkeep hold⟩
  · refine (htakes t' n).2 (.inr ⟨h.kept t' n ht hnot, ?_⟩)
    rintro ⟨rfl, rfl⟩
    exact hnot hx

/-- Looking up the next import again moves it to what it means now. -/
theorem Rechecking.step (h : Rechecking w offered id r₀ r (x :: todo)) (hw : Steady w offered)
    (hx : x ∈ lookedUpImports r₀.program id) (hlt : id < r₀.program.units.size)
    (hunit : ¬ r₀.IsTable id) :
    Rechecking w offered id r₀ (recheckImport w id (r, changed) x).1 todo := by
  have hlt' : id < r.program.units.size := Nat.lt_of_lt_of_le hlt h.works.before.units.size_le
  have hunit' : ¬ r.IsTable id := by rwa [h.works.before.isTable_iff hlt]
  obtain ⟨hs, hlooked, hmeans⟩ := h.underway.lookupExternal hw x.2 hlt' hunit'
  have hlooked' := h.looked hs hlooked hlt hunit
  by_cases heq : (r.lookupExternal w id x.2).2 = x.1
  · rw [recheckImport_of_eq heq]
    exact hlooked'.keep (heq ▸ hmeans)
  · have hlts := Nat.lt_of_lt_of_le hlt' hlooked.before.units.size_le
    obtain ⟨u, hu⟩ := Catalog.exists_get? hlts
    have htable : u.kind.isSharedTable = false := by
      rw [← hlooked.before.isTable_iff hlt'] at hunit'
      rw [← Bool.not_eq_true]
      exact fun hshared => hunit' ⟨u, hu, hshared⟩
    have hrun := recheckImport_run w r id changed x
    refine hlooked'.move hw hx hu htable hmeans heq (recheckImport_program_of_ne _ heq)
      (.of_run hrun) ?_
    rw [hrun]

/-- After all imports on the list were looked up none is left, by induction on the list. -/
theorem Rechecking.foldl (h : Rechecking w offered id r₀ r todo) (changed : Bool) (hw : Steady w offered)
    (htodo : ∀ x ∈ todo, x ∈ lookedUpImports r₀.program id) (hlt : id < r₀.program.units.size)
    (hunit : ¬ r₀.IsTable id) :
    Rechecking w offered id r₀ (todo.foldl (recheckImport w id) (r, changed)).1 [] := by
  induction todo generalizing r changed with
  | nil => exact h
  | cons x todo ih =>
    rw [List.foldl_cons]
    exact ih (h.step hw (htodo x List.mem_cons_self) hlt hunit) _
      fun y hy => htodo y (List.mem_cons_of_mem _ hy)

/-- What a unit imports has been looked up again. -/
theorem Underway.recheck (h : Underway w offered r) (hw : Steady w offered) (id : Nat) (hmet : r.Met id)
    (hunit : ¬ r.IsTable id) : Rechecking w offered id r (r.recheck w id).1 [] := by
  have hlt := (h.ready id hmet).lt_size
  have hall := (Rechecking.start h id).foldl false hw (fun _ hx => hx) hlt hunit
  have hrecheck := recheckOutcome w r id
  generalize r.recheck w id = k at hrecheck ⊢
  cases hrecheck with
  | kept hfold => rwa [hfold] at hall
  | @marked s hfold hold =>
    rw [hfold] at hall
    have hmet' (other : Nat) : (s.setFreshness id .dependencyUpdated).Met other ↔ s.Met other := by
      rw [met_setFreshness, or_iff_left_iff_imp]
      rintro rfl
      exact hall.works.met other hmet
    have hagrees : s.Agrees (s.setFreshness id .dependencyUpdated) :=
      ⟨hmet', rfl, rfl, rfl, rfl, rfl⟩
    have hworks : s.Works id (s.setFreshness id .dependencyUpdated) := hagrees.works .refl
    have hlt' := Nat.lt_of_lt_of_le hlt hall.works.before.units.size_le
    have hkeep {t : Target} {n : String} (hmeans : Means w s id n t) :
        Means w (s.setFreshness id .dependencyUpdated) id n t :=
      hmeans.of_units hworks.before hlt' rfl
    refine ⟨hall.underway.advance hworks.before hagrees, hall.works.trans hworks, hall.readings,
      hall.exports, fun t n ht hnot => ?_, fun x hx => ?_, fun t n ht => ?_, hall.kept⟩
    · exact (hall.sound t n ht hnot).imp_right hkeep
    · refine (hall.complete x hx).imp_right ?_
      rintro ⟨t, hmeans, himp⟩
      exact ⟨t, hkeep hmeans, himp⟩
    · refine (hall.names t n ht).imp_right ?_
      rintro ⟨x, hx, heq, hmeans⟩
      exact ⟨x, hx, heq, hkeep hmeans⟩

end Resolution

end ScriptBuild
