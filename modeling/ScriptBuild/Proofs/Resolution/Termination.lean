import ScriptBuild.Proofs.Resolution.Budget
import ScriptBuild.Proofs.Resolution.Idempotence

namespace ScriptBuild

namespace Resolution

variable {w : World} {p : Program} {root : Option Definition} {r s : Resolution} {id : Nat}
  {entry : String} {definition : Option Definition} {d : Definition} {work : Work}
  {later done more : List Work} {limit fuel : Nat} {fault : Option Fault}
  {out : Resolution × Option Fault}

/-- Takes the work that waits up piece by piece until none is left or something fails, and lists the
pieces that were not passed over. -/
inductive Drains (w : World) : Resolution → List Work → Resolution × Option Fault → Prop where
  | finished (r : Resolution) (hwaiting : r.run.waiting = []) : Drains w r [] (r, none)
  | passed (r : Resolution) (work : Work) (later done : List Work) (out : Resolution × Option Fault)
      (hwaiting : r.run.waiting = work :: later) (hhandled : work.unit ∈ r.run.handled)
      (hrest : Drains w { r with run := { r.run with waiting := later } } done out) :
      Drains w r done out
  | failed (r s : Resolution) (work : Work) (later : List Work) (fault : Fault)
      (hwaiting : r.run.waiting = work :: later) (hfresh : work.unit ∉ r.run.handled)
      (hhandle : ({ r with run := { r.run with waiting := later } } : Resolution).handle w work =
        (s, some fault)) : Drains w r [work] (s, some fault)
  | handled (r s : Resolution) (work : Work) (later done : List Work)
      (out : Resolution × Option Fault)
      (hwaiting : r.run.waiting = work :: later) (hfresh : work.unit ∉ r.run.handled)
      (hhandle : ({ r with run := { r.run with waiting := later } } : Resolution).handle w work =
        (s, none)) (hrest : Drains w s done out) : Drains w r (work :: done) out

/-- The loop ends. It takes up no more pieces of work than the budget allows, because each one uses
some of it and none adds to it. -/
theorem Within.drains (h : Within w p root limit r) (hfinite : (Findable w p root).Finite) :
    ∃ done out, Drains w r done out ∧ ∀ fuel, limit ≤ fuel → r.drain w fuel = out := by
  induction limit generalizing r with
  | zero =>
    have hwaiting := h.waiting_eq_nil
    exact ⟨[], (r, none), .finished r hwaiting, fun fuel _ => drain_of_nil hwaiting fuel⟩
  | succ limit ih =>
    cases hwaiting : r.run.waiting with
    | nil => exact ⟨[], (r, none), .finished r hwaiting, fun fuel _ => drain_of_nil hwaiting fuel⟩
    | cons work later =>
      have hlater := h.take hwaiting
      have hnext := hlater.handle hfinite work
      by_cases hfresh : work.unit ∈ r.run.handled
      · obtain ⟨done, out, hrest, hfuel⟩ := ih hlater
        refine ⟨done, out, .passed r work later done out hwaiting hfresh hrest, fun fuel hle => ?_⟩
        obtain ⟨fuel, rfl⟩ := Nat.exists_eq_add_of_le' (Nat.le_trans (Nat.le_add_left 1 limit) hle)
        rw [drain_of_handled hwaiting (handle_handled hfresh), hfuel fuel (by omega)]
      · generalize hhandle :
          ({ r with run := { r.run with waiting := later } } : Resolution).handle w work = k at hnext
        obtain ⟨s, fault⟩ := k
        cases fault with
        | some fault =>
          refine ⟨[work], (s, some fault), .failed r s work later fault hwaiting hfresh hhandle,
            fun fuel hle => ?_⟩
          obtain ⟨fuel, rfl⟩ := Nat.exists_eq_add_of_le' (Nat.le_trans (Nat.le_add_left 1 limit) hle)
          exact drain_of_failed hwaiting hhandle fuel
        | none =>
          obtain ⟨done, out, hrest, hfuel⟩ := ih hnext
          refine ⟨work :: done, out, .handled r s work later done out hwaiting hfresh hhandle hrest,
            fun fuel hle => ?_⟩
          obtain ⟨fuel, rfl⟩ := Nat.exists_eq_add_of_le' (Nat.le_trans (Nat.le_add_left 1 limit) hle)
          rw [drain_of_handled hwaiting hhandle, hfuel fuel (by omega)]

/-- What the loop does without reaching its limit is what it does without one. -/
theorem drains_of_drain (hdrain : r.drain w fuel = (s, fault)) (hlimit : fault ≠ some .tooManyUnits) :
    ∃ done, Drains w r done (s, fault) := by
  induction fuel generalizing r with
  | zero =>
    rw [drain] at hdrain
    split at hdrain
    · next hempty =>
      obtain ⟨rfl, rfl⟩ := Prod.mk.inj hdrain
      exact ⟨[], .finished r (List.isEmpty_iff.1 hempty)⟩
    · exact absurd (Prod.mk.inj hdrain).2.symm hlimit
  | succ fuel ih =>
    cases hwaiting : r.run.waiting with
    | nil =>
      rw [drain_of_nil hwaiting] at hdrain
      obtain ⟨rfl, rfl⟩ := Prod.mk.inj hdrain
      exact ⟨[], .finished r hwaiting⟩
    | cons work later =>
      by_cases hfresh : work.unit ∈ r.run.handled
      · rw [drain_of_handled hwaiting (handle_handled hfresh)] at hdrain
        obtain ⟨done, hdone⟩ := ih hdrain
        exact ⟨done, .passed r work later done _ hwaiting hfresh hdone⟩
      · cases hhandle :
          ({ r with run := { r.run with waiting := later } } : Resolution).handle w work with
        | mk s' first =>
          cases first with
          | some first =>
            rw [drain_of_failed hwaiting hhandle] at hdrain
            obtain ⟨rfl, rfl⟩ := Prod.mk.inj hdrain
            exact ⟨[work], .failed r s' work later first hwaiting hfresh hhandle⟩
          | none =>
            rw [drain_of_handled hwaiting hhandle] at hdrain
            obtain ⟨done, hdone⟩ := ih hdrain
            exact ⟨work :: done, .handled r s' work later done _ hwaiting hfresh hhandle hdone⟩

/-- Units were handled that were not handled before, each once, and no others. -/
structure Once (r : Resolution) (done : List Work) (s : Resolution) : Prop where
  nodup : (done.map Work.unit).Nodup
  fresh : ∀ work ∈ done, work.unit ∉ r.run.handled
  handled : ∀ id, id ∈ s.run.handled ↔ id ∈ r.run.handled ∨ id ∈ done.map Work.unit

theorem once_of_eq (hhandled : s.run.handled = r.run.handled) : Once r [] s where
  nodup := List.nodup_nil
  fresh _ hwork := absurd hwork List.not_mem_nil
  handled id := by
    rw [hhandled, List.map_nil]
    exact (or_iff_left List.not_mem_nil).symm

theorem Once.congr {s' : Resolution} (h : Once r done s) (hhandled : s'.run.handled = s.run.handled) :
    Once r done s' :=
  ⟨h.nodup, h.fresh, by rw [hhandled]; exact h.handled⟩

/-- A unit that was not handled before is handled once. -/
theorem once_of_insert (hfresh : work.unit ∉ r.run.handled)
    (hhandled : s.run.handled = r.run.handled.insert work.unit) : Once r [work] s where
  nodup := List.nodup_singleton _
  fresh x hx := by rwa [List.mem_singleton.1 hx]
  handled id := by
    rw [hhandled, Std.ExtTreeSet.mem_insert, Std.LawfulEqCmp.compare_eq_iff_eq, List.map_singleton,
      List.mem_singleton, or_comm, eq_comm]

theorem Once.trans {r₁ r₂ r₃ : Resolution} (h : Once r₁ done r₂) (h' : Once r₂ more r₃) :
    Once r₁ (done ++ more) r₃ where
  nodup := by
    rw [List.map_append, List.nodup_append]
    refine ⟨h.nodup, h'.nodup, fun id hid other hother heq => ?_⟩
    obtain ⟨work, hwork, rfl⟩ := List.mem_map.1 hother
    exact h'.fresh work hwork ((h.handled _).2 (.inr (heq ▸ hid)))
  fresh work hwork := by
    rcases List.mem_append.1 hwork with hmem | hmem
    · exact h.fresh work hmem
    · exact fun hhandled => h'.fresh work hmem ((h.handled _).2 (.inl hhandled))
  handled id := by rw [h'.handled, h.handled, List.map_append, List.mem_append, or_assoc]

/-- The turn of a unit handles that unit only, whether it succeeds or fails. -/
theorem once_of_handle {fault : Option Fault} (hfresh : work.unit ∉ r.run.handled)
    (hhandle : ({ r with run := { r.run with waiting := later } } : Resolution).handle w work =
      (s, fault)) : Once r [work] s :=
  once_of_insert hfresh
    ((congrArg (·.1.run.handled) hhandle).symm.trans (handled_handle hfresh))

/-- Taking up the work that waits handles each unit once, by induction on the work. -/
theorem Drains.once (h : Drains w r done out) : Once r done out.1 := by
  induction h with
  | finished r => exact once_of_eq rfl
  | passed r work later done out _ _ _ ih => exact ⟨ih.nodup, ih.fresh, ih.handled⟩
  | failed r s work later fault _ hfresh hhandle => exact once_of_handle hfresh hhandle
  | handled r s work later done out _ hfresh hhandle _ ih =>
    exact (once_of_handle hfresh hhandle).trans ih

/-- What comes of an analysis when its work is done or has failed. -/
def outcome (root : Nat) : Resolution × Option Fault → Resolution × Except Fault (Option Nat)
  | (r, none) => (r, .ok (some root))
  | (r, some fault) => ({ r with run := { r.run with waiting := [] } }, .error fault)

/-- The analysis of an entry point without a limit, with the pieces of work that were not passed
    over. The limit is never reached unless more definitions can be found than it allows for. -/
inductive Analyzes (w : World) (r : Resolution) (entry : String) (definition : Option Definition) :
    List Work → Resolution × Except Fault (Option Nat) → Prop where
  | unknown (hnone : definition.or (w.lookup.find entry none) = none) :
      Analyzes w r entry definition [] (r, .ok none)
  | table (d : Definition) (hd : definition.or (w.lookup.find entry none) = some d)
      (htable : d.kind.isSharedTable) : Analyzes w r entry definition [] (r, .ok none)
  | drained (d : Definition) (done : List Work) (out : Resolution × Option Fault)
      (hd : definition.or (w.lookup.find entry none) = some d) (hunit : d.kind.isSharedTable = false)
      (hdrains : Drains w (r.unitFor entry d).1 done out) :
      Analyzes w r entry definition done (outcome (r.unitFor entry d).2 out)

/-- An analysis of a definition makes its unit wait and works the queue off. -/
theorem analyze_of_drain (hd : definition.or (w.lookup.find entry none) = some d)
    (hunit : d.kind.isSharedTable = false) : r.analyze w entry definition =
      outcome (r.unitFor entry d).2 ((r.unitFor entry d).1.drain w workLimit) := by
  simp only [analyze, hd, hunit, Bool.false_eq_true, if_false]
  generalize (r.unitFor entry d).1.drain w workLimit = out
  obtain ⟨s, _ | fault⟩ := out <;> rfl

/-- What an analysis finds without reaching its limit is what it finds without one. -/
theorem analyzes_of_analyze (hlimit : (r.analyze w entry definition).2 ≠ .error .tooManyUnits) :
    ∃ done, Analyzes w r entry definition done (r.analyze w entry definition) := by
  cases hd : definition.or (w.lookup.find entry none) with
  | none =>
    rw [analyze, hd]
    exact ⟨[], .unknown hd⟩
  | some d =>
    cases hunit : d.kind.isSharedTable with
    | true =>
      simp only [analyze, hd, hunit, if_true]
      exact ⟨[], .table d hd hunit⟩
    | false =>
      rw [analyze_of_drain hd hunit] at hlimit ⊢
      generalize hout : (r.unitFor entry d).1.drain w workLimit = out at hlimit ⊢
      obtain ⟨s, fault⟩ := out
      obtain ⟨done, hdone⟩ := drains_of_drain hout (by rintro rfl; exact hlimit rfl)
      exact ⟨done, .drained d done _ hd hunit hdone⟩

/-- An analysis ends if only finitely many definitions can be found. -/
theorem exists_analyzes
    (hfinite : (Findable w r.program (definition.or (w.lookup.find entry none))).Finite) :
    ∃ done out, Analyzes w r entry definition done out ∧
      ((Findable w r.program (definition.or (w.lookup.find entry none))).ncard +
        r.program.units.size + r.run.waiting.length < workLimit →
          r.analyze w entry definition = out) := by
  cases hd : definition.or (w.lookup.find entry none) with
  | none => exact ⟨[], (r, .ok none), .unknown hd, fun _ => by rw [analyze, hd]⟩
  | some d =>
    cases hunit : d.kind.isSharedTable with
    | true =>
      exact ⟨[], (r, .ok none), .table d hd hunit, fun _ => by simp only [analyze, hd, hunit, if_true]⟩
    | false =>
      rw [hd] at hfinite
      obtain ⟨done, out, hdrains, hfuel⟩ := (within_entry hfinite entry).drains hfinite
      exact ⟨done, _, .drained d done out hd hunit hdrains, fun hlt => by
        rw [analyze_of_drain hd hunit, hfuel workLimit hlt]⟩

/-- An analysis handles each unit once. -/
theorem Analyzes.once {out : Resolution × Except Fault (Option Nat)}
    (h : Analyzes w r entry definition done out) : Once r done out.1 := by
  cases h with
  | unknown | table => exact once_of_eq rfl
  | drained d done out hd hunit hdrains =>
    have honce := (once_of_eq (handled_unitFor r entry d)).trans hdrains.once
    obtain ⟨s, _ | fault⟩ := out
    · exact honce
    · exact honce.congr rfl

/-- What is done in one run, by any number of analyses in any worlds, with the pieces of work that they
took up. Between them the imports of a unit may be looked up again, and a unit may be built. -/
inductive Performs : Resolution → List Work → Resolution → Prop where
  | begun (r : Resolution) : Performs r [] r
  | analyzed (w : World) (entry : String) (definition : Option Definition) {r s s' : Resolution}
      {done more : List Work} {result : Except Fault (Option Nat)} (h : Performs r done s)
      (hanalyzes : Analyzes w s entry definition more (s', result)) : Performs r (done ++ more) s'
  | rechecked (w : World) (id : Nat) {r s : Resolution} {done : List Work} (h : Performs r done s) :
      Performs r done (s.recheck w id).1
  | markBuilt (id : Nat) {r s : Resolution} {done : List Work} (h : Performs r done s) :
      Performs r done (s.markBuilt id)

/-- However many analyses one run has, each unit is handled once in it. -/
theorem Performs.once (h : Performs r done s) : Once r done s := by
  induction h with
  | begun r => exact once_of_eq rfl
  | analyzed w entry definition _ hanalyzes ih => exact ih.trans hanalyzes.once
  | rechecked w id _ ih => exact ih.congr (handled_recheck _ w id)
  | markBuilt id _ ih => exact ih.congr rfl

/-- An analysis ends if only finitely many definitions can be found, and its limit is not reached if
these are no more than it allows for, with the known units and the work that waits. Whatever was done
before in the same run, each unit is handled once: its body is read, or its imports are looked up
again, but never both. -/
theorem analyzes_of_performs (hrun : Performs r done s)
    (hfinite : (Findable w s.program (definition.or (w.lookup.find entry none))).Finite) :
    ∃ more out, Analyzes w s entry definition more out ∧
      ((Findable w s.program (definition.or (w.lookup.find entry none))).ncard +
        s.program.units.size + s.run.waiting.length < workLimit →
          s.analyze w entry definition = out) ∧
      ((done ++ more).map Work.unit).Nodup ∧
      ∀ work ∈ done ++ more, work.unit ∉ r.run.handled := by
  obtain ⟨more, out, hanalyzes, hlimit⟩ := exists_analyzes hfinite
  have honce := hrun.once.trans hanalyzes.once
  exact ⟨more, out, hanalyzes, hlimit, honce.nodup, honce.fresh⟩

/-- The definitions of two files are all that can be found in them. -/
theorem findable_twoFiles {first second : String × UnitKind} (hlookup : w.lookup = twoFiles first second)
    (p : Program) (root : Option Definition) : Findable w p root ⊆
      ({(first.1, first.2.identity 1), (second.1, second.2.identity 1)} :
        Finset (String × Identity)) := by
  rintro ⟨name, identity⟩ ⟨_, directory, d, _, hfind, rfl⟩
  rw [hlookup] at hfind
  obtain ⟨⟨name', kind⟩, hmem, hpath⟩ := Option.bind_eq_some_iff.1 hfind
  obtain ⟨path, _, rfl⟩ := Option.map_eq_some_iff.1 hpath
  obtain rfl : name' = name := by simpa using List.find?_some hmem
  rcases List.mem_pair.1 (List.mem_of_find?_eq_some hmem) with rfl | rfl
  · exact Finset.mem_coe.2 (Finset.mem_insert_self _ _)
  · exact Finset.mem_coe.2 (Finset.mem_insert_of_mem (Finset.mem_singleton_self _))

/-- The state after the analysis of one of two scripts that call each other. -/
def firstOfTwo : Resolution := ((start .empty).analyze mutualWorld "f" none).1

/-- The first analysis handles both scripts, so that the second one has nothing left to do. -/
theorem analyzes_of_performs_mutualWorld : ∃ done, Performs (start .empty) done firstOfTwo ∧
    (∀ id, id ∈ done.map Work.unit ↔ id ∈ [0, 1]) ∧
    (Findable mutualWorld firstOfTwo.program
      ((none : Option Definition).or (mutualWorld.lookup.find "g" none))).Finite ∧
    ∃ more, Analyzes mutualWorld firstOfTwo "g" none more (firstOfTwo.analyze mutualWorld "g" none) ∧
      ((done ++ more).map Work.unit).Nodup := by
  have hresult : ((start .empty).analyze mutualWorld "f" none).2 = .ok (some 0) := by decide
  have hhandled : firstOfTwo.run.handled.toList = [0, 1] := by decide
  have hsize : firstOfTwo.program.units.size = 2 := by decide
  have hwaiting : firstOfTwo.run.waiting = [] := by decide
  have hfirst : ∃ done, Analyzes mutualWorld (start .empty) "f" none done
      ((start .empty).analyze mutualWorld "f" none) :=
    analyzes_of_analyze (by rw [hresult]; rintro ⟨⟩)
  obtain ⟨done, hdone⟩ := hfirst
  have hrun : Performs (start .empty) done firstOfTwo := .analyzed mutualWorld "f" none (.begun _) hdone
  have hsubset := findable_twoFiles (w := mutualWorld) rfl firstOfTwo.program
    ((none : Option Definition).or (mutualWorld.lookup.find "g" none))
  have hfinite := (Finset.finite_toSet _).subset hsubset
  have hcard := (Set.ncard_le_ncard hsubset (Finset.finite_toSet _)).trans
    ((Set.ncard_coe_finset _).le.trans Finset.card_le_two)
  obtain ⟨more, out, hanalyzes, hlimit, hnodup, _⟩ := analyzes_of_performs hrun hfinite
  refine ⟨done, hrun, fun id => ?_, hfinite, more, ?_, hnodup⟩
  · rw [← hhandled, Std.ExtTreeSet.mem_toList, hrun.once.handled]
    exact (or_iff_right Std.ExtTreeSet.not_mem_empty).symm
  · rw [hlimit (by rw [hsize, hwaiting, workLimit, List.length_nil]; omega)]
    exact hanalyzes

end Resolution

end ScriptBuild
