import ScriptBuild.Proofs.Resolution.References

namespace ScriptBuild

namespace Resolution

variable {w : World} {r r₀ s s' : Resolution} {id other : Nat} {name n former : String}
  {t t' target : Target} {done todo items : List (Target × String)} {changed changed' : Bool}

/-- What looking up again what a unit imports comes to. -/
structure Resettled (w : World) (id : Nat) (r s : Resolution) : Prop where
  /-- A name that was imported from elsewhere than the global variables is imported from where the
  lookup finds it now, and but for the global variables from nowhere else. It is imported from nowhere
  if it is found in the unit itself. -/
  moved : ∀ n, (∃ t, r.program.Takes id t n ∧ ¬ r.program.IsGlobal t) → ∀ t,
    s.program.Takes id t n ∧ ¬ s.program.IsGlobal t ↔
      t = (s.lookupExternal w id n).2 ∧ t ≠ .unit id
  globals : ∀ t n, s.program.IsGlobal t → (s.program.Takes id t n ↔ r.program.Takes id t n)
  /-- No name is added, neither from the global variables nor from elsewhere. -/
  former : ∀ t n, s.program.Takes id t n →
    ∃ t', r.program.Takes id t' n ∧ (r.program.IsGlobal t' ↔ s.program.IsGlobal t)
  edge : ∀ b, s.program.graph.Edge id b ↔ ∃ n, s.program.Takes id (.unit b) n
  importsOf : ∀ other, other ≠ id → s.program.importsOf other = r.program.importsOf other
  edge_other : ∀ other b, other ≠ id →
    (s.program.graph.Edge other b ↔ r.program.graph.Edge other b)

/-- How far the imports of a unit have been looked up again: those on the list are done, and a name
    among them stands where it was found. A lookup may make units and tables on the way, in any
    world that finds no global variables; but what a name was found to mean is settled from then on,
    so that a second look finds nothing to move. -/
structure Resettling (w : World) (id : Nat) (r₀ r : Resolution) (done : List (Target × String))
    (changed : Bool) : Prop where
  apart : r.Apart
  matched : r.program.Matched
  touches : r₀.program.Touches (· = id) r.program
  takes_iff : ∀ t n, r.program.Takes id t n ↔ r₀.program.Takes id t n ∧ (t, n) ∉ done ∨
    t ≠ .unit id ∧ (∃ former, (former, n) ∈ done) ∧ Answered w r id n t
  answered : ∀ former n, (former, n) ∈ done → ∃ t, Answered w r id n t ∧
    ∀ other, t = .unit other → other ≠ id → r.IsApart other
  changed_iff : changed = true ↔ ∃ x ∈ done, ¬ r.program.Takes id x.1 x.2

theorem resettling_start (hr : r.Apart) (hcoherent : r.program.Coherent) (w : World) (id : Nat) :
    Resettling w id r r [] false where
  apart := hr
  matched := hcoherent.matched
  touches := .refl _ _
  takes_iff t n := by simp
  answered former n hmem := absurd hmem List.not_mem_nil
  changed_iff := by simp

/-- Once a name is settled it means the same before and after every part of a run in which the
answer abides. -/
theorem Answered.iff_of_abides (h : Answered w r id n t') (habides : Abides id n r s) :
    Answered w s id n t ↔ Answered w r id n t :=
  ⟨fun hs => (h.abides habides).unique hs ▸ h, fun hr => hr.abides habides⟩

/-- Looking a name up moves nothing, and what is settled about the names that are done stays. -/
theorem Resettling.look (h : Resettling w id r₀ r done changed) (hw : w.lookup.FindsNoGlobals)
    (hid : id < r₀.program.units.size) (name : String) :
    Resettling w id r₀ (r.lookupExternal w id name).1 done changed := by
  by_cases hdone : ∃ former, (former, name) ∈ done
  · obtain ⟨former, hmem⟩ := hdone
    obtain ⟨t, hanswered, -⟩ := h.answered former name hmem
    rw [hanswered.lookupExternal_eq]
    exact h
  · have hlt : id < r.program.units.size := Nat.lt_of_lt_of_le hid h.touches.units.size_le
    obtain ⟨-, hgrows, -⟩ := h.apart.toSane.looked w id name
    have habides {former : Target} {n : String} (hmem : (former, n) ∈ done) :
        Abides id n r (r.lookupExternal w id name).1 :=
      (h.apart.toSane.answered_lookupExternal w name hlt).2 n fun heq => hdone ⟨former, heq ▸ hmem⟩
    have htakes (t : Target) (n : String) :
        (r.lookupExternal w id name).1.program.Takes id t n ↔ r.program.Takes id t n := by
      rw [Program.Takes, hgrows.touches.imports id not_false, Program.Takes]
    refine ⟨(h.apart.looked hw id name).1, h.matched.grows hgrows,
      h.touches.trans (hgrows.touches.mono fun _ => False.elim), fun t n => ?_, fun former n hmem => ?_,
      by simpa only [htakes] using h.changed_iff⟩
    · rw [htakes, h.takes_iff]
      refine or_congr_right (and_congr_right fun _ => and_congr_right ?_)
      rintro ⟨former, hmem⟩
      obtain ⟨t', hanswered, -⟩ := h.answered former n hmem
      exact (hanswered.iff_of_abides (habides hmem)).symm
    · obtain ⟨t, hanswered, hapart⟩ := h.answered former n hmem
      exact ⟨t, hanswered.abides (habides hmem), fun other heq hne =>
        (hapart other heq hne).mono hgrows.touches.units⟩

/-- What the unit imports once one more name was put where it was found. -/
theorem Resettling.takes_iff_of_place {former : Target} (h : Resettling w id r₀ s done changed)
    (hanswered : Answered w s id name target) (hkept : ∀ n, Abides id n s s')
    (hback : ∀ n, Abides id n s' s)
    (htakes : ∀ t n, s'.program.Takes id t n ↔ (t = target ∧ n = name ∧ target ≠ .unit id) ∨
      (s.program.Takes id t n ∧ ¬ (t = former ∧ n = name))) (t : Target) (n : String) :
    s'.program.Takes id t n ↔ r₀.program.Takes id t n ∧ (t, n) ∉ done ++ [(former, name)] ∨
      t ≠ .unit id ∧ (∃ former', (former', n) ∈ done ++ [(former, name)]) ∧
        Answered w s' id n t := by
  have hmem {x : Target × String} :
      x ∈ done ++ [(former, name)] ↔ x ∈ done ∨ x = (former, name) := by simp
  rw [htakes, h.takes_iff]
  constructor
  · rintro (⟨rfl, rfl, hne⟩ | ⟨⟨ht, hleft⟩ | ⟨hne, ⟨former', hdone⟩, ht⟩, hother⟩)
    · exact .inr ⟨hne, ⟨former, hmem.2 (.inr rfl)⟩, hanswered.abides (hkept _)⟩
    · refine .inl ⟨ht, fun hdone => ?_⟩
      exact (hmem.1 hdone).elim hleft fun heq => hother (Prod.mk.inj heq)
    · exact .inr ⟨hne, ⟨former', hmem.2 (.inl hdone)⟩, ht.abides (hkept _)⟩
  · rintro (⟨ht, hleft⟩ | ⟨hne, ⟨former', hdone⟩, ht⟩)
    · refine .inr ⟨.inl ⟨ht, fun hdone => hleft (hmem.2 (.inl hdone))⟩, ?_⟩
      rintro ⟨rfl, rfl⟩
      exact hleft (hmem.2 (.inr rfl))
    · have ht := ht.abides (hback n)
      by_cases hname : n = name
      · obtain rfl : t = target := ht.unique (hname ▸ hanswered)
        exact .inl ⟨rfl, hname, hne⟩
      · have hdone := (hmem.1 hdone).resolve_right fun heq => hname (Prod.mk.inj heq).2
        exact .inr ⟨.inr ⟨hne, ⟨former', hdone⟩, ht⟩, fun heq => hname heq.2⟩

/-- A name has moved if one had moved before or this one was found elsewhere. -/
theorem Resettling.changed_iff_of_place {former : Target} (h : Resettling w id r₀ s done changed)
    (hnew : (former, name) ∉ done) (hforeign : former ≠ .unit id)
    (htakes : ∀ t n, s'.program.Takes id t n ↔ (t = target ∧ n = name ∧ target ≠ .unit id) ∨
      (s.program.Takes id t n ∧ ¬ (t = former ∧ n = name))) :
    (changed = true ∨ target ≠ former) ↔
      ∃ x ∈ done ++ [(former, name)], ¬ s'.program.Takes id x.1 x.2 := by
  have hmem {x : Target × String} :
      x ∈ done ++ [(former, name)] ↔ x ∈ done ∨ x = (former, name) := by simp
  rw [h.changed_iff]
  by_cases heq : target = former
  · subst heq
    have hstays : s'.program.Takes id target name := (htakes _ _).2 (.inl ⟨rfl, rfl, hforeign⟩)
    have hsame {x : Target × String} (hx : x ∈ done) :
        s'.program.Takes id x.1 x.2 ↔ s.program.Takes id x.1 x.2 := by
      have hne : ¬ (x.1 = target ∧ x.2 = name) := fun heq =>
        hnew ((Prod.ext heq.1 heq.2 : x = (target, name)) ▸ hx)
      rw [htakes, and_iff_left hne, or_iff_right fun heq => hne ⟨heq.1, heq.2.1⟩]
    constructor
    · rintro (⟨x, hx, hgone⟩ | hne)
      · exact ⟨x, hmem.2 (.inl hx), fun ht => hgone ((hsame hx).1 ht)⟩
      · exact absurd rfl hne
    · rintro ⟨x, hx, hgone⟩
      rcases hmem.1 hx with hx | rfl
      · exact .inl ⟨x, hx, fun ht => hgone ((hsame hx).2 ht)⟩
      · exact absurd hstays hgone
  · refine iff_of_true (.inr heq) ⟨(former, name), hmem.2 (.inr rfl), fun ht => ?_⟩
    rcases (htakes _ _).1 ht with ⟨hsame, -⟩ | ⟨-, hother⟩
    · exact heq hsame.symm
    · exact hother ⟨rfl, rfl⟩

/-- A name is put where it was found, which may be where it stood. -/
theorem Resettling.place {former : Target} (h : Resettling w id r₀ s done changed)
    (hnew : (former, name) ∉ done) (hforeign : former ≠ .unit id)
    (hanswered : Answered w s id name target)
    (hapart : ∀ other, target = .unit other → other ≠ id → s.IsApart other) (hs' : s'.Apart)
    (hmatched : s'.program.Matched) (htouches : r₀.program.Touches (· = id) s'.program)
    (hunits : s'.program.units = s.program.units) (hfound : s'.run.found = s.run.found)
    (hnames : s'.run.names = s.run.names) (hnamesIn : s'.run.namesIn = s.run.namesIn)
    (htakes : ∀ t n, s'.program.Takes id t n ↔ (t = target ∧ n = name ∧ target ≠ .unit id) ∨
      (s.program.Takes id t n ∧ ¬ (t = former ∧ n = name)))
    (hchanged : changed' = true ↔ changed = true ∨ target ≠ former) :
    Resettling w id r₀ s' (done ++ [(former, name)]) changed' := by
  have hkept (n : String) : Abides id n s s' := .of_units hunits hfound hnames hnamesIn
  have hback (n : String) : Abides id n s' s :=
    .of_units hunits.symm hfound.symm hnames.symm hnamesIn.symm
  have hmono {other : Nat} (hother : s.IsApart other) : s'.IsApart other :=
    hother.mono (by rw [hunits]; exact .refl _)
  refine ⟨hs', hmatched, htouches, h.takes_iff_of_place hanswered hkept hback htakes,
    fun former' n hdone => ?_, hchanged.trans (h.changed_iff_of_place hnew hforeign htakes)⟩
  rcases List.mem_append.1 hdone with hdone | hlast
  · obtain ⟨t, ht, hthere⟩ := h.answered former' n hdone
    exact ⟨t, ht.abides (hkept n), fun other heq hne => hmono (hthere other heq hne)⟩
  · obtain ⟨rfl, rfl⟩ := Prod.mk.inj (List.mem_singleton.1 hlast)
    exact ⟨target, hanswered.abides (hkept n), fun other heq hne => hmono (hapart other heq hne)⟩

/-- A name that is found where it stood is left there. -/
theorem Resettling.stay {x : Target × String} (h : Resettling w id r₀ r done changed)
    (hw : w.lookup.FindsNoGlobals) (hid : id < r₀.program.units.size)
    (hold : r₀.program.Takes id x.1 x.2) (hnew : x ∉ done) (hforeign : x.1 ≠ .unit id)
    (heq : (r.lookupExternal w id x.2).2 = x.1) :
    Resettling w id r₀ (r.lookupExternal w id x.2).1 (done ++ [x]) changed := by
  have hlt : id < r.program.units.size := Nat.lt_of_lt_of_le hid h.touches.units.size_le
  have hlooked := h.look hw hid x.2
  obtain ⟨hanswered, -⟩ := h.apart.toSane.answered_lookupExternal w x.2 hlt
  obtain ⟨-, hapart⟩ := h.apart.looked hw id x.2
  rw [heq] at hanswered hapart
  have hthere : (r.lookupExternal w id x.2).1.program.Takes id x.1 x.2 :=
    (hlooked.takes_iff _ _).2 (.inl ⟨hold, hnew⟩)
  refine hlooked.place hnew hforeign hanswered hapart hlooked.apart hlooked.matched
    hlooked.touches rfl rfl rfl rfl (fun t n => ?_) (or_iff_left (not_not.2 rfl)).symm
  by_cases hx : t = x.1 ∧ n = x.2
  · rw [hx.1, hx.2]
    exact iff_of_true hthere (.inl ⟨rfl, rfl, hforeign⟩)
  · rw [and_iff_left hx, or_iff_right fun hall => hx ⟨hall.1, hall.2.1⟩]

/-- A name that is found elsewhere is moved there. -/
theorem Resettling.move {x : Target × String} (h : Resettling w id r₀ r done changed)
    (hw : w.lookup.FindsNoGlobals) (hid : id < r₀.program.units.size) (hnew : x ∉ done)
    (hforeign : x.1 ≠ .unit id) (heq : (r.lookupExternal w id x.2).2 ≠ x.1) :
    Resettling w id r₀ (recheckImport w id (r, changed) x).1 (done ++ [x])
      (recheckImport w id (r, changed) x).2 := by
  have hlt : id < r.program.units.size := Nat.lt_of_lt_of_le hid h.touches.units.size_le
  have hlooked := h.look hw hid x.2
  obtain ⟨hanswered, -⟩ := h.apart.toSane.answered_lookupExternal w x.2 hlt
  obtain ⟨-, hapart⟩ := h.apart.looked hw id x.2
  have hprogram := recheckImport_program_of_ne changed heq
  have hunits := recheckImport_units w r id changed x
  have hrun := recheckImport_run w r id changed x
  have hchanged := recheckImport_snd_of_ne changed heq
  generalize recheckImport w id (r, changed) x = k at hprogram hunits hrun hchanged ⊢
  obtain ⟨s', changed'⟩ := k
  generalize r.lookupExternal w id x.2 = k at hlooked hanswered hapart heq hprogram hunits hrun
  obtain ⟨s, target⟩ := k
  dsimp only at hlooked hanswered hapart heq hprogram hunits hrun hchanged ⊢
  have htouches : s.program.Touches (· = id) s'.program :=
    Program.touches_of_units_eq hunits
      (fun other hother => by
        rw [hprogram, Program.importsOf_recordImport, if_neg fun h => hother h.1,
          Program.importsOf_removeImport, if_neg fun h => hother h.1])
      (fun a b ha => by
        rw [hprogram, Program.edge_recordImport, or_iff_left fun h => ha h.1,
          Program.edge_removeImport_of_ne ha])
      fun a ha => by
        rw [hprogram, Program.hasNode_recordImport, Program.hasNode_removeImport]
        exact .inl ha
  have hs' : s'.Apart :=
    hlooked.apart.mono (hlooked.apart.toSane.mono htouches.units
      (fun work hwork => .inl (by rwa [hrun] at hwork)) (by rw [hrun]))
      htouches.units (by rw [hrun])
  refine hlooked.place hnew hforeign hanswered hapart hs' ?_
    (hlooked.touches.trans htouches) hunits (by rw [hrun]) (by rw [hrun]) (by rw [hrun])
    (fun t n => ?_) (iff_of_true hchanged (.inr heq))
  · rw [hprogram]
    exact hlooked.matched.removeImport.recordImport
  · rw [hprogram, Program.takes_recordImport, Program.takes_removeImport]
    simp

theorem Resettling.step {x : Target × String} (h : Resettling w id r₀ r done changed)
    (hw : w.lookup.FindsNoGlobals) (hid : id < r₀.program.units.size)
    (hold : r₀.program.Takes id x.1 x.2) (hnew : x ∉ done) (hforeign : x.1 ≠ .unit id) :
    Resettling w id r₀ (recheckImport w id (r, changed) x).1 (done ++ [x])
      (recheckImport w id (r, changed) x).2 := by
  by_cases heq : (r.lookupExternal w id x.2).2 = x.1
  · rw [recheckImport_of_eq heq]
    exact h.stay hw hid hold hnew hforeign heq
  · exact h.move hw hid hnew hforeign heq

/-- After all imports on a list were looked up, they are done, by induction on the list. -/
theorem Resettling.foldl (h : Resettling w id r₀ r done changed) (hw : w.lookup.FindsNoGlobals)
    (hid : id < r₀.program.units.size)
    (htodo : ∀ x ∈ todo, r₀.program.Takes id x.1 x.2 ∧ x.1 ≠ .unit id)
    (hnodup : (done ++ todo).Nodup) :
    Resettling w id r₀ (todo.foldl (recheckImport w id) (r, changed)).1 (done ++ todo)
      (todo.foldl (recheckImport w id) (r, changed)).2 := by
  induction todo generalizing r done changed with
  | nil => rwa [List.append_nil]
  | cons x todo ih =>
    rw [List.append_cons] at hnodup ⊢
    obtain ⟨hold, hforeign⟩ := htodo x List.mem_cons_self
    have hnew : x ∉ done := fun hdone =>
      (List.nodup_append.1 (List.nodup_append.1 hnodup).1).2.2 x hdone x (List.mem_singleton_self x) rfl
    exact ih (h.step hw hid hold hnew hforeign)
      (fun y hy => htodo y (List.mem_cons_of_mem x hy)) hnodup

/-- Names that stand where they are found are left there. -/
theorem foldl_recheckImport_of_answered (hanswered : ∀ x ∈ items, Answered w r id x.2 x.1)
    (changed : Bool) : items.foldl (recheckImport w id) (r, changed) = (r, changed) := by
  induction items with
  | nil => rfl
  | cons x items ih =>
    have hfound := (hanswered x List.mem_cons_self).lookupExternal_eq
    have heq : (r.lookupExternal w id x.2).2 = x.1 := by rw [hfound]
    rw [List.foldl_cons, recheckImport_of_eq heq, hfound]
    exact ih fun y hy => hanswered y (List.mem_cons_of_mem x hy)

/-- All that a unit imports has been looked up again. -/
theorem resettling_recheck (hw : w.lookup.FindsNoGlobals) (hr : r.Apart)
    (hcoherent : r.program.Coherent) (hid : id < r.program.units.size) :
    Resettling w id r (r.recheck w id).1 (lookedUpImports r.program id) (r.recheck w id).2 := by
  have hfold := (resettling_start hr hcoherent w id).foldl hw hid
    (fun x (hx : x ∈ lookedUpImports r.program id) => ⟨(mem_lookedUpImports.1 hx).1, fun heq =>
      hcoherent.not_takes_self (heq ▸ (mem_lookedUpImports.1 hx).1)⟩) (nodup_lookedUpImports _ _)
  rw [List.nil_append] at hfold
  have hrecheck := recheckOutcome w r id
  generalize r.recheck w id = k at hrecheck ⊢
  cases hrecheck with
  | kept hfold' => rwa [hfold'] at hfold
  | @marked s hfold' =>
    rw [hfold'] at hfold
    have hkept (n : String) : Abides id n s (s.setFreshness id .dependencyUpdated) :=
      .of_units rfl rfl rfl rfl
    have hback (n : String) : Abides id n (s.setFreshness id .dependencyUpdated) s :=
      .of_units rfl rfl rfl rfl
    refine ⟨⟨⟨hfold.apart.waiting, hfold.apart.found⟩, hfold.apart.found_apart⟩, hfold.matched,
      hfold.touches, fun t n => ?_, fun former n hdone => ?_, hfold.changed_iff⟩
    · refine (hfold.takes_iff t n).trans ?_
      refine or_congr_right (and_congr_right fun _ => and_congr_right fun _ => ?_)
      exact ⟨fun h => h.abides (hkept n), fun h => h.abides (hback n)⟩
    · obtain ⟨t, ht, hapart⟩ := hfold.answered former n hdone
      exact ⟨t, ht.abides (hkept n), hapart⟩

/-- What is not on the list of lookups comes from the global variables. -/
theorem notMem_lookedUpImports {p : Program} (h : p.Takes id t n) :
    (t, n) ∉ lookedUpImports p id ↔ p.IsGlobal t := by
  rw [mem_lookedUpImports, not_and, not_not, forall_prop_of_true h]

/-- No name that is done was found in the global variables. -/
theorem Resettling.not_isGlobal (h : Resettling w id r₀ s done changed)
    (hdone : ∃ former, (former, n) ∈ done) (ht : Answered w s id n t) (hne : t ≠ .unit id) :
    ¬ s.program.IsGlobal t := by
  rintro ⟨other, v, rfl, hv, hkind⟩
  obtain ⟨former, hmem⟩ := hdone
  obtain ⟨t', ht', hthere⟩ := h.answered former n hmem
  obtain ⟨u, hu, hnot⟩ := hthere other (ht'.unique ht) fun heq => hne (congrArg Target.unit heq)
  exact hnot (Option.some.inj (hu.symm.trans hv) ▸ hkind)

/-- After a unit has been looked at again, each name that it imports from elsewhere than the global
variables is imported from where it is found and from nowhere else, its names from the global
variables are still there, no name is new, and it depends on exactly those it imports from. The other
units are left alone. The result tells whether some name has moved. A second look changes nothing.
The assumptions about the state hold wherever resolutions lead (`Resolving.apart`,
`coherent_of_reached`). -/
theorem resettled_recheck (w : World) (hw : w.lookup.FindsNoGlobals) (r : Resolution) (hr : r.Apart)
    (hcoherent : r.program.Coherent) (id : Nat) (hid : id < r.program.units.size) :
    Resettled w id r (r.recheck w id).1 ∧
      ((r.recheck w id).2 = true ↔
        ∃ t n, r.program.Takes id t n ∧ ¬ (r.recheck w id).1.program.Takes id t n) ∧
      (r.recheck w id).1.recheck w id = ((r.recheck w id).1, false) := by
  have h := resettling_recheck hw hr hcoherent hid
  generalize r.recheck w id = k at h ⊢
  obtain ⟨s, changed⟩ := k
  dsimp only at h ⊢
  have hglobal {t : Target} {n : String} (ht : r.program.Takes id t n) :
      s.program.IsGlobal t ↔ r.program.IsGlobal t :=
    isGlobal_iff_of_takes h.touches.units (fun _ _ => hcoherent.lt_of_takes) ht
  have hleft {t : Target} {n : String} (ht : r.program.Takes id t n) :
      (t, n) ∉ lookedUpImports r.program id ↔ r.program.IsGlobal t := notMem_lookedUpImports ht
  have hapart {t : Target} {n : String} (hdone : ∃ former, (former, n) ∈ lookedUpImports r.program id)
      (ht : Answered w s id n t) (hne : t ≠ .unit id) : ¬ s.program.IsGlobal t :=
    h.not_isGlobal hdone ht hne
  have hsettled {t : Target} {n : String} (ht : s.program.Takes id t n)
      (hnot : ¬ s.program.IsGlobal t) : t ≠ .unit id ∧ Answered w s id n t := by
    rcases (h.takes_iff t n).1 ht with ⟨hold, hmem⟩ | ⟨hne, -, hanswered⟩
    · exact absurd ((hglobal hold).2 ((hleft hold).1 hmem)) hnot
    · exact ⟨hne, hanswered⟩
  refine ⟨⟨fun n hn t => ?_, fun t n hyes => ?_, fun t n ht => ?_, h.matched.edge_iff id,
    fun other hne => h.touches.imports other hne, fun other b hne => h.touches.edge other b hne⟩,
    ?_, ?_⟩
  · obtain ⟨former, hold, hnot⟩ := hn
    have hmem : (former, n) ∈ lookedUpImports r.program id := mem_lookedUpImports.2 ⟨hold, hnot⟩
    obtain ⟨found, hfound, -⟩ := h.answered former n hmem
    rw [hfound.lookupExternal]
    constructor
    · rintro ⟨ht, hnot⟩
      obtain ⟨hne, hanswered⟩ := hsettled ht hnot
      exact ⟨hanswered.unique hfound, hne⟩
    · rintro ⟨rfl, hne⟩
      exact ⟨(h.takes_iff t n).2 (.inr ⟨hne, ⟨former, hmem⟩, hfound⟩), hapart ⟨former, hmem⟩ hfound hne⟩
  · constructor
    · intro ht
      rcases (h.takes_iff t n).1 ht with ⟨hold, -⟩ | ⟨hne, hdone, hanswered⟩
      · exact hold
      · exact absurd hyes (hapart hdone hanswered hne)
    · intro hold
      exact (h.takes_iff t n).2 (.inl ⟨hold, (hleft hold).2 ((hglobal hold).1 hyes)⟩)
  · rcases (h.takes_iff t n).1 ht with ⟨hold, -⟩ | ⟨hne, ⟨former, hdone⟩, hanswered⟩
    · exact ⟨t, hold, (hglobal hold).symm⟩
    · obtain ⟨hold, hnot⟩ := mem_lookedUpImports.1 hdone
      exact ⟨former, hold, iff_of_false hnot (hapart ⟨former, hdone⟩ hanswered hne)⟩
  · rw [h.changed_iff]
    constructor
    · rintro ⟨x, hx, hgone⟩
      exact ⟨x.1, x.2, (mem_lookedUpImports.1 hx).1, hgone⟩
    · rintro ⟨t, n, hold, hgone⟩
      refine ⟨(t, n), ?_, hgone⟩
      by_contra hmem
      exact hgone ((h.takes_iff t n).2 (.inl ⟨hold, hmem⟩))
  · have hall : ∀ x ∈ lookedUpImports s.program id, Answered w s id x.2 x.1 := by
      intro x hx
      obtain ⟨ht, hnot⟩ := mem_lookedUpImports.1 hx
      exact (hsettled ht hnot).2
    rw [recheck, foldl_recheckImport_of_answered hall]
    rfl

/-- A script with a global variable that calls three functions. Later the first one is gone, the
second one is there, and the third one is no longer built in. -/
def shuffledWorld (later : Bool) : World where
  lookup :=
    { find := fun name _ =>
        if name = "f" then some ⟨.script ⟨"f.m"⟩, 1, .file ⟨"f.m"⟩⟩
        else if name = "g" ∧ !later then some ⟨.script ⟨"g.m"⟩, 1, .file ⟨"g.m"⟩⟩
        else if name = "h" ∧ later then some ⟨.script ⟨"h.m"⟩, 1, .file ⟨"h.m"⟩⟩
        else if name = "k" then
          some (if later then ⟨.script ⟨"k.m"⟩, 1, .file ⟨"k.m"⟩⟩ else ⟨.builtins, 0, .table⟩)
        else none
      names := {"f", "g", "h", "k"}
      namesIn := fun _ => ∅ }
  events
    | .file ⟨"f.m"⟩ => .ok [.declare .global "x" ⟨0, 1⟩, .reference "g" ⟨2, 3⟩,
        .reference "h" ⟨4, 5⟩, .reference "k" ⟨6, 7⟩]
    | _ => .ok []

theorem findsNoGlobals_shuffledWorld (later : Bool) : (shuffledWorld later).lookup.FindsNoGlobals := by
  intro name directory d hfind
  simp only [shuffledWorld] at hfind
  split at hfind
  · cases hfind
    simp
  · split at hfind
    · cases hfind
      simp
    · split at hfind
      · cases hfind
        simp
      · split at hfind
        · cases hfind
          cases later <;> simp
        · cases hfind

/-- The state when the script was analyzed before, and a new run begins. -/
def shuffledStart : Resolution := ((start .empty).analyze (shuffledWorld false) "f" none).1.reset

/-- One name is lost, one is found, and one moves; the global variable stays. -/
theorem resettled_recheck_shuffledWorld :
    (shuffledWorld true).lookup.FindsNoGlobals ∧ shuffledStart.Apart ∧
      shuffledStart.program.Coherent ∧ 0 < shuffledStart.program.units.size ∧
      (shuffledStart.program.importsOf 0).toList =
        [(.unit 1, ["x"]), (.unit 2, ["g"]), (.unit 3, ["k"]), (.unresolved, ["h"])] ∧
      ((shuffledStart.recheck (shuffledWorld true) 0).1.program.importsOf 0).toList =
        [(.unit 1, ["x"]), (.unit 4, ["k"]), (.unit 5, ["h"]), (.unresolved, ["g"])] ∧
      Resettled (shuffledWorld true) 0 shuffledStart
        (shuffledStart.recheck (shuffledWorld true) 0).1 ∧
      (shuffledStart.recheck (shuffledWorld true) 0).1.recheck (shuffledWorld true) 0 =
        ((shuffledStart.recheck (shuffledWorld true) 0).1, false) := by
  have hapart : shuffledStart.Apart := apart_start _
  have hcoherent : shuffledStart.program.Coherent :=
    coherent_of_reached (.reset (.analyzed _ _ _ .start))
  have hid : 0 < shuffledStart.program.units.size := by decide
  obtain ⟨hresettled, -, hagain⟩ := resettled_recheck (shuffledWorld true)
    (findsNoGlobals_shuffledWorld true) shuffledStart hapart hcoherent 0 hid
  exact ⟨findsNoGlobals_shuffledWorld true, hapart, hcoherent, hid, by decide,
    by decide, hresettled, hagain⟩

end Resolution

end ScriptBuild
