import Mathlib.Data.List.Nodup
import ScriptBuild.Proofs.Resolution.Notes

namespace ScriptBuild

namespace Imports

variable {i : Imports} {t : Target} {names : List String}

/-- The list of all imports has each target once, and under it each name once. -/
theorem pairwise_toList (i : Imports) : i.toList.Pairwise fun a b => a.1 ≠ b.1 := by
  rw [toList, List.pairwise_append]
  refine ⟨?_, by split <;> simp, fun a ha b hb heq => ?_⟩
  · rw [List.pairwise_map]
    exact Std.ExtTreeMap.distinct_keys_toList.imp fun hne heq => hne (by simpa using heq)
  · obtain ⟨entry, _, rfl⟩ := List.mem_map.1 ha
    split at hb
    · cases hb
    · rw [List.mem_singleton.1 hb] at heq
      cases heq

/-- The names that are imported from one unit are told apart. -/
theorem nodup_of_mem_toList (hmem : (t, names) ∈ i.toList) : names.Nodup := by
  have hset (set : NameSet) : set.toList.Nodup :=
    Std.ExtTreeSet.distinct_toList.imp fun hne heq => hne (by simp [heq])
  rw [toList, List.mem_append] at hmem
  rcases hmem with hmem | hmem
  · obtain ⟨⟨other, set⟩, _, heq⟩ := List.mem_map.1 hmem
    cases heq
    exact hset set
  · split at hmem
    · cases hmem
    · cases List.mem_singleton.1 hmem
      exact hset i.unresolved

end Imports

namespace Resolution

variable {w : World} {r r₀ s : Resolution} {id other : Nat} {name n : String} {t : Target}
  {d : Definition} {work : Work} {near : Nat → Prop} {todo : List (Target × String)}
  {x : Target × String}

/-- A unit that is handled, or one that it takes a name from. -/
def Near (s : Resolution) (id other : Nat) : Prop :=
  other = id ∨ ∃ n, s.program.Takes id (.unit other) n

/-- While a body is read, its unit takes more and more names, and what that changes is near. -/
structure Gathers (id : Nat) (r s : Resolution) : Prop where
  notes : Notes (s.Near id) r s
  takes : ∀ t n, r.program.Takes id t n → s.program.Takes id t n

theorem Gathers.refl (id : Nat) (r : Resolution) : Gathers id r r := ⟨.refl _ r, fun _ _ h => h⟩

theorem Gathers.trans {r₁ r₂ r₃ : Resolution} (h : Gathers id r₁ r₂) (h' : Gathers id r₂ r₃) :
    Gathers id r₁ r₃ where
  notes := by
    refine (h.notes.mono fun other hnear => ?_).trans h'.notes
    exact hnear.imp_right fun ⟨n, hn⟩ => ⟨n, h'.takes _ n hn⟩
  takes t n htakes := h'.takes t n (h.takes t n htakes)

/-- Names are looked up, and one is recorded as imported from where it was found. -/
theorem Gathers.record (hnotes : Notes (fun other => t = .unit other) r r₀)
    (himports : r₀.program.importsOf id = r.program.importsOf id)
    (hprogram : s.program = r₀.program.recordImport id t n)
    (hrun : s.run = { r₀.run with unresolved := s.run.unresolved }) : Gathers id r s where
  notes := by
    have hlast : Notes (s.Near id) r₀ s := by
      refine .of_run (by rw [hrun]) fun _ _ => .of_eq ?_
      rw [hprogram, Program.units_recordImport]
    refine (hnotes.mono ?_).trans hlast
    rintro other rfl
    by_cases heq : other = id
    · exact .inl heq
    · refine .inr ⟨n, ?_⟩
      rw [hprogram, Program.takes_recordImport]
      exact .inl ⟨rfl, rfl, rfl, by simpa using heq⟩
  takes t' m htakes := by
    rw [hprogram, Program.takes_recordImport, Program.Takes, himports]
    exact .inr htakes

/-- A global variable is a name more, taken from the shared table. -/
theorem gathers_declareGlobal (h : r.Sane) (name : String) :
    Gathers id r (r.declareGlobal id name) := by
  have hgrows := (h.tableFor name (show UnitKind.globals.isSharedTable from rfl)).2.1
  have hnotes := notes_tableFor r name .globals
  rw [declareGlobal_eq]
  exact .record (hnotes.mono fun _ heq => congrArg Target.unit heq.symm)
    (hgrows.touches.imports id not_false) rfl rfl

/-- A reference is a name more, taken from a unit that is near from then on. -/
theorem gathers_importReference (h : r.Sane) (w : World) (reference : String × Span)
    (hunit : r.IsUnit id) : Gathers id r (r.importReference w id reference) := by
  have hgrows := (h.lookupExternal w reference.1 hunit).2.1
  have hnotes := (notes_lookupExternal h w reference.1 hunit).1
  exact .record hnotes (hgrows.touches.imports id not_false)
    (importReference_program w r id reference) (importReference_run w r id reference)

/-- Opening a body changes its unit, which is due. -/
theorem notes_openBody (slots : List String) (hdue : r.Due id) :
    Notes near r (r.openBody id slots) := by
  refine .of_run rfl fun other hother => .of_eq ?_
  have hne : id ≠ other := fun heq => hother (heq ▸ hdue)
  exact (Catalog.get?_modify_of_ne hne).trans (Catalog.get?_modify_of_ne hne)

/-- A body that is read is that of a unit that is due, and what the reading changes is near. -/
theorem notes_readBody (h : r.Sane) (w : World) (hdue : r.Due id)
    (hread : r.readBody w id = (s, none)) : Notes (s.Near id) r s := by
  have hcases := readOutcome w r id
  rw [hread] at hcases
  cases hcases with
  | bodiless => exact .refl _ _
  | @read u _ events hget hhas =>
    obtain ⟨-, -, hgathers⟩ := h.importBody_induction
      (P := Gathers id (r.openBody id (Summary.ofEvents events).slots)) w hget hhas
      (.ofEvents events) (.refl id _)
      (fun _ hs _ hp name _ => hp.trans (gathers_declareGlobal hs name))
      fun _ hs hunit hp reference _ => hp.trans (gathers_importReference hs w reference hunit)
    refine (notes_openBody _ hdue).trans (hgathers.notes.trans ?_)
    exact .of_run rfl fun _ _ => .of_eq rfl

/-- How far the imports of a unit have been looked up again: those on the list are left, and a unit
near which something changed keeps the name for which it was met. -/
structure Rehoming (id : Nat) (r₀ r : Resolution) (todo : List (Target × String)) (changed : Bool) :
    Prop where
  notes : Notes (fun other => other = id ∨ ∃ n, r.program.Takes id (.unit other) n ∧
    ((.unit other, n) ∉ todo ∨ r.Pinned id n other)) r₀ r
  takes : ∀ x ∈ todo, r.program.Takes id x.1 x.2
  imports : changed = false → r.program.importsOf id = r₀.program.importsOf id

/-- A pinned name is found again without asking the lookup. -/
theorem Pinned.lookupExternal (h : r.Pinned id n other) (hne : other ≠ id) (w : World) :
    r.lookupExternal w id n = (r, .unit other) := by
  obtain ⟨hown, hfound⟩ := h.resolve_left hne
  have hlookup := lookupOutcome w r id n
  generalize r.lookupExternal w id n = k at hlookup ⊢
  cases hlookup with
  | own hexports => exact absurd hexports hown
  | recalled _ hrecalled => rw [Option.some.inj (hfound.symm.trans hrecalled)]
  | missing _ hnone | found _ hnone => rw [hfound] at hnone; cases hnone

theorem Pinned.mono (h : r.Pinned id n other) (hunit : r.IsUnit id)
    (hgrows : r.program.Grows s.program) (hnotes : Notes near r s) : s.Pinned id n other := by
  refine h.imp_right fun ⟨hown, hfound⟩ => ?_
  rw [hunit.exports_iff hgrows, directoryOf_of_grows hgrows.touches.units hunit.lt_size]
  exact ⟨hown, hnotes.found _ _ _ hfound⟩

theorem Rehoming.start (r : Resolution) (id : Nat) :
    Rehoming id r r (lookedUpImports r.program id) false where
  notes := .refl _ r
  takes _ hx := (mem_lookedUpImports.1 hx).1
  imports _ := rfl

variable {changed : Bool}

/-- A name is looked up again, and nothing is moved yet. -/
theorem Rehoming.looked (h : Rehoming id r₀ r todo changed)
    (himports : s.program.importsOf id = r.program.importsOf id)
    (hnotes : Notes (fun other => t = .unit other) r s) :
    Notes (fun other => t = .unit other ∨ other = id ∨ ∃ n, s.program.Takes id (.unit other) n ∧
      ((.unit other, n) ∉ todo ∨ r.Pinned id n other)) r₀ s := by
  refine (h.notes.mono ?_).trans (hnotes.mono fun _ => .inl)
  rintro other (heq | ⟨n, htakes, hpinned⟩)
  · exact .inr (.inl heq)
  · exact .inr (.inr ⟨n, by rwa [Program.Takes, himports], hpinned⟩)

/-- A pinned name stays so as long as units and memory are the same. -/
theorem pinned_of_units_eq (h : r.Pinned id n other)
    (hunits : s.program.units = r.program.units) (hfound : s.run.found = r.run.found) :
    s.Pinned id n other := by
  rwa [Pinned, Exports, directoryOf, foundFrom, hunits, hfound]

/-- A name that is found where it stood is left there. -/
theorem Rehoming.stay (h : Rehoming id r₀ r (x :: todo) changed) (hsane : r.Sane)
    (hunit : r.IsUnit id) (w : World) (hfresh : x ∉ todo)
    (heq : (r.lookupExternal w id x.2).2 = x.1) :
    Rehoming id r₀ (r.lookupExternal w id x.2).1 todo changed := by
  have hgrows := (hsane.lookupExternal w x.2 hunit).2.1
  obtain ⟨hnotes, -⟩ := notes_lookupExternal hsane w x.2 hunit
  have himports : (r.lookupExternal w id x.2).1.program.importsOf id = r.program.importsOf id :=
    hgrows.touches.imports id not_false
  have htakes (y : Target × String) (hy : y ∈ x :: todo) :
      (r.lookupExternal w id x.2).1.program.Takes id y.1 y.2 := by
    rw [Program.Takes, himports]
    exact h.takes y hy
  refine ⟨(h.looked himports hnotes).mono ?_, fun y hy => htakes y (List.mem_cons_of_mem _ hy),
    fun hchanged => himports.trans (h.imports hchanged)⟩
  rintro other (hother | hself | ⟨n, hn, hpinned⟩)
  · refine .inr ⟨x.2, ?_, .inl ?_⟩ <;> rw [← hother, heq]
    · exact htakes x List.mem_cons_self
    · exact hfresh
  · exact .inl hself
  · exact .inr ⟨n, hn, hpinned.imp (fun hnot hmem => hnot (List.mem_cons_of_mem _ hmem))
      fun hp => hp.mono hunit hgrows hnotes⟩

/-- A name that is found elsewhere is moved there. -/
theorem Rehoming.move (h : Rehoming id r₀ r (x :: todo) changed) (hsane : r.Sane)
    (hunit : r.IsUnit id) (w : World) (hfresh : x ∉ todo)
    (heq : (r.lookupExternal w id x.2).2 ≠ x.1) :
    Rehoming id r₀ (recheckImport w id (r, changed) x).1 todo true := by
  have hgrows := (hsane.lookupExternal w x.2 hunit).2.1
  obtain ⟨hnotes, hpin⟩ := notes_lookupExternal hsane w x.2 hunit
  have hstays {other : Nat} (hpinned : r.Pinned id x.2 other) (hne : other ≠ id) :
      (r.lookupExternal w id x.2).2 = .unit other := by rw [hpinned.lookupExternal hne w]
  have himports : (r.lookupExternal w id x.2).1.program.importsOf id = r.program.importsOf id :=
    hgrows.touches.imports id not_false
  have hlooked := h.looked himports hnotes
  have hprogram := recheckImport_program_of_ne changed heq
  have hunits := recheckImport_units w r id changed x
  have hrun := recheckImport_run w r id changed x
  generalize (recheckImport w id (r, changed) x).1 = s at hprogram hunits hrun ⊢
  generalize r.lookupExternal w id x.2 = k at *
  obtain ⟨s₁, target⟩ := k
  have hafter (t : Target) (n : String) : s.program.Takes id t n ↔
      (t = target ∧ n = x.2 ∧ target ≠ .unit id) ∨
        (s₁.program.Takes id t n ∧ ¬ (t = x.1 ∧ n = x.2)) := by
    rw [hprogram, Program.takes_recordImport, Program.takes_removeImport]
    simp
  have hpinned {n : String} {other : Nat} (hp : s₁.Pinned id n other) : s.Pinned id n other :=
    pinned_of_units_eq hp hunits (by rw [hrun])
  refine ⟨(hlooked.mono ?_).trans (.of_run (by rw [hrun]) fun _ _ => .of_eq (by rw [hunits])),
    fun y hy => (hafter _ _).2 (.inr ⟨?_, ?_⟩), by simp⟩
  · rintro other (hother | hself | ⟨n, hn, hp⟩)
    · obtain rfl : target = .unit other := hother
      by_cases hself : other = id
      · exact .inl hself
      · exact .inr ⟨x.2, (hafter _ _).2 (.inl ⟨rfl, rfl, by simpa using hself⟩),
          .inr (hpinned (hpin other rfl))⟩
    · exact .inl hself
    · by_cases hself : other = id
      · exact .inl hself
      · refine .inr ⟨n, (hafter _ _).2 (.inr ⟨hn, ?_⟩),
          hp.imp (fun hnot hmem => hnot (List.mem_cons_of_mem _ hmem))
            fun hp => hpinned (hp.mono hunit hgrows hnotes)⟩
        -- What was met for this name before is where the name is found again.
        rintro ⟨hsame, rfl⟩
        have hthere := hstays (hp.resolve_left fun hnot => hnot (hsame ▸ List.mem_cons_self)) hself
        exact heq (hthere.trans hsame)
  · rw [Program.Takes, himports]
    exact h.takes y (List.mem_cons_of_mem _ hy)
  · rintro ⟨hsame, hname⟩
    exact hfresh (Prod.ext hsame hname ▸ hy)

/-- Looking up the next import again leaves it or moves it to where it is found, which is near. -/
theorem Rehoming.step (h : Rehoming id r₀ r (x :: todo) changed) (hsane : r.Sane)
    (hunit : r.IsUnit id) (w : World) (hfresh : x ∉ todo) :
    Rehoming id r₀ (recheckImport w id (r, changed) x).1 todo
      (recheckImport w id (r, changed) x).2 := by
  by_cases heq : (r.lookupExternal w id x.2).2 = x.1
  · rw [recheckImport_of_eq heq]
    exact h.stay hsane hunit w hfresh heq
  · rw [recheckImport_snd_of_ne changed heq]
    exact h.move hsane hunit w hfresh heq

/-- After all imports were looked up none is left, by induction on the list. -/
theorem Rehoming.foldl (h : Rehoming id r₀ r todo changed) (hsane : r.Sane) (hunit : r.IsUnit id)
    (w : World) (hnodup : todo.Nodup) :
    Rehoming id r₀ (todo.foldl (recheckImport w id) (r, changed)).1 []
      (todo.foldl (recheckImport w id) (r, changed)).2 := by
  induction todo generalizing r changed with
  | nil => exact h
  | cons x todo ih =>
    obtain ⟨hfresh, hnodup⟩ := List.nodup_cons.1 hnodup
    obtain ⟨hsane', hchanges⟩ := hsane.recheckImport w x changed hunit
    exact ih (h.step hsane hunit w hfresh) hsane' (hunit.mono hchanges.touches.units) hnodup

theorem nodup_lookedUpImports (p : Program) (id : Nat) : (lookedUpImports p id).Nodup := by
  rw [lookedUpImports, List.nodup_flatMap]
  refine ⟨fun x hx => ?_, ((p.importsOf id).pairwise_toList.filter _).imp fun hne => ?_⟩
  · have hnames : x.2.Nodup := Imports.nodup_of_mem_toList (List.mem_filter.1 hx).1
    exact hnames.map fun _ _ heq => (Prod.mk.inj heq).2
  · rintro y hy hy'
    obtain ⟨_, _, rfl⟩ := List.mem_map.1 hy
    obtain ⟨_, _, heq⟩ := List.mem_map.1 hy'
    exact hne (Prod.mk.inj heq).1.symm

/-- What is looked up again changes nothing but what is near, and if the unit is not due afterwards
it still imports the same. -/
theorem notes_recheck (h : r.Sane) (w : World) (hunit : r.IsUnit id) :
    Notes ((r.recheck w id).1.Near id) r (r.recheck w id).1 ∧
      (¬ (r.recheck w id).1.Due id →
        (r.recheck w id).1.program.importsOf id = r.program.importsOf id) := by
  have hall := (Rehoming.start r id).foldl h hunit w (nodup_lookedUpImports _ _)
  have hnear {s : Resolution} {changed : Bool} (hs : Rehoming id r s [] changed) :
      Notes (s.Near id) r s := hs.notes.mono fun other hother =>
    hother.imp_right fun hnames => hnames.imp fun _ => And.left
  have hrecheck := recheckOutcome w r id
  generalize r.recheck w id = k at hrecheck ⊢
  cases hrecheck with
  | @kept s changed hfold hnot =>
    rw [hfold] at hall
    refine ⟨hnear hall, fun hdue => hall.imports ?_⟩
    by_contra hchanged
    exact hnot (by simpa using hchanged) (not_due_iff.1 hdue)
  | @marked s hfold hold =>
    rw [hfold] at hall
    have hmeet : Notes (· = id) s ⟨s.program, { s.run with
        freshness := s.run.freshness.insert id .dependencyUpdated
        waiting := s.run.waiting ++ [] }⟩ :=
      .meet (.inl rfl) (fun _ hmem => absurd hmem List.not_mem_nil)
        (fun hmem => absurd hmem List.not_mem_nil) fun _ _ => .of_eq rfl
    rw [List.append_nil] at hmeet
    refine ⟨(hnear hall).trans (hmeet.mono fun _ => .inl), fun hdue => absurd ?_ hdue⟩
    rw [Due, freshness_setFreshness, if_pos rfl]
    rfl

/-- The entry point leads to a unit by way of units that were handled. -/
def Anchored (r : Resolution) (root id : Nat) : Prop :=
  Relation.ReflTransGen (fun a b => a ∈ r.run.handled ∧ r.program.graph.Edge a b) root id

/-- What the entry point leads to by handled units is reached in the graph. -/
theorem Anchored.reaches {root : Nat} (h : r.Anchored root id) : r.program.graph.Reaches root id :=
  Relation.ReflTransGen.mono (fun _ _ => And.right) _ _ h

/-- What holds between two pieces of work of an analysis that started from a program without units
    that were due: the entry point leads to all that is due or waits, and the rest is as it was.
    This is because a unit is only met where another one takes a name from it, and the one that
    takes it is handled once. -/
structure Tracked (p : Program) (root : Nat) (r : Resolution) : Prop where
  sane : r.Sane
  sound : r.program.Sound
  due : ∀ id, r.Due id → r.Anchored root id
  waiting : ∀ work ∈ r.run.waiting, r.Anchored root work.unit
  reads : ∀ id, .read id ∈ r.run.waiting → r.Due id
  same : ∀ id, ¬ r.Due id →
    p.SameUnit r.program id ∧ r.program.importsOf id = p.importsOf id

variable {p : Program} {root fuel : Nat} {later : List Work}

/-- A unit that was not handled before is handled. -/
theorem Tracked.works (h : Tracked p root r) (hwaiting : r.run.waiting = work :: later)
    (hfresh : work.unit ∉ r.run.handled) (hsane : s.Sane)
    (hchanges : (r.begin work later).program.Changes work.unit s.program)
    (hnotes : Notes (s.Near work.unit) (r.begin work later) s)
    (himports : ¬ s.Due work.unit →
      s.program.importsOf work.unit = r.program.importsOf work.unit) : Tracked p root s := by
  have htouches := hchanges.touches
  have hsound : s.program.Sound := h.sound.evolves hchanges.evolves
  have hhandled (id : Nat) : id ∈ s.run.handled ↔ id = work.unit ∨ id ∈ r.run.handled := by
    rw [hnotes.handled, mem_begin]
  have hkeeps {id : Nat} (hanchored : r.Anchored root id) : s.Anchored root id := by
    refine Relation.ReflTransGen.mono (fun a b ⟨ha, hedge⟩ => ⟨(hhandled a).2 (.inr ha), ?_⟩) _ _
      hanchored
    have hne : a ≠ work.unit := fun heq => hfresh (heq ▸ ha)
    exact (htouches.edge a b hne).2 hedge
  have hunit := hkeeps (h.waiting work (hwaiting ▸ List.mem_cons_self))
  have hnear {id : Nat} (hid : s.Near work.unit id) : s.Anchored root id := by
    rcases hid with rfl | ⟨n, htakes⟩
    · exact hunit
    · exact hunit.tail ⟨(hhandled _).2 (.inl rfl), hsound.edge _ _ n htakes⟩
  have hlater {x : Work} (hx : x ∈ later) : x ∈ r.run.waiting :=
    hwaiting ▸ List.mem_cons_of_mem _ hx
  refine ⟨hsane, hsound, fun id hid => ?_, fun x hx => ?_, fun id hid => ?_, fun id hid => ?_⟩
  · exact (hnotes.due id hid).elim (fun hold => hkeeps (h.due id hold)) hnear
  · exact (hnotes.waiting x hx).elim (fun hold => hkeeps (h.waiting x (hlater hold))) hnear
  · exact (hnotes.reads id hid).elim (fun hold => hnotes.stays id (h.reads id (hlater hold)))
      fun hdue => hdue
  · obtain ⟨hunits, hof⟩ := h.same id fun hold => hid (hnotes.stays id hold)
    refine ⟨hunits.trans (hnotes.same id hid), ?_⟩
    rw [← hof]
    by_cases heq : id = work.unit
    · subst heq
      exact himports hid
    · exact htouches.imports id heq

/-- The turn of a unit keeps track of all that becomes due. -/
theorem Tracked.handle (h : Tracked p root r) (hwaiting : r.run.waiting = work :: later)
    (hhandle : ({ r with run := { r.run with waiting := later } } : Resolution).handle w work =
      (s, none)) : Tracked p root s := by
  have hmem : work ∈ r.run.waiting := hwaiting ▸ List.mem_cons_self
  have hbegin := h.sane.begin hwaiting
  by_cases hfresh : work.unit ∈ r.run.handled
  · rw [handle_handled hfresh] at hhandle
    cases hhandle
    have hlater {x : Work} (hx : x ∈ later) : x ∈ r.run.waiting :=
      hwaiting ▸ List.mem_cons_of_mem _ hx
    exact ⟨⟨hbegin.waiting, hbegin.found⟩, h.sound, h.due, fun x hx => h.waiting x (hlater hx),
      fun id hid => h.reads id (hlater hid), h.same⟩
  · cases work with
    | read id =>
      rw [handle_read id hfresh] at hhandle
      have hdue : (r.begin (.read id) later).Due id := h.reads id hmem
      have hnotes := notes_readBody hbegin w hdue hhandle
      obtain ⟨hsane, hchanges⟩ := hbegin.readBody w id
      rw [hhandle] at hsane hchanges
      exact h.works hwaiting hfresh hsane hchanges hnotes fun hnot =>
        absurd (hnotes.stays id hdue) hnot
    | recheck id =>
      rw [handle_recheck id hfresh] at hhandle
      have hunit : (r.begin (.recheck id) later).IsUnit id := h.sane.waiting _ hmem
      obtain ⟨hnotes, himports⟩ := notes_recheck hbegin w hunit
      obtain ⟨hsane, hchanges⟩ := hbegin.recheck w hunit
      cases hhandle
      exact h.works hwaiting hfresh hsane hchanges hnotes himports

/-- When nothing waits any more the entry point leads to all that is due, by induction on the
work. -/
theorem Tracked.drain (h : Tracked p root r) (hdrain : r.drain w fuel = (s, none)) :
    Tracked p root s ∧ s.run.waiting = [] :=
  drain_induction Tracked.handle h hdrain

/-- Units are not lost, whatever becomes of a program. -/
theorem grows_of_evolves {q : Program} (h : p.Evolves q) : p.units.Grows q.units := by
  induction h with
  | refl => exact .refl _
  | tail _ hchange ih =>
    obtain ⟨id, hchange⟩ := hchange
    exact ih.trans hchange.touches.units

/-- Nothing waits and no unit is due, as at the start of a run and after every entry point that was
built. -/
structure Calm (r : Resolution) : Prop where
  waiting : r.run.waiting = []
  due : ∀ id, ¬ r.Due id

/-- What an analysis has noted when it succeeds: the entry point leads to every unit that is due,
and all others are as they were. -/
structure Noted (p : Program) (root : Nat) (s : Resolution) : Prop where
  waiting : s.run.waiting = []
  known : root < s.program.units.size
  due : ∀ id, s.Due id → s.program.graph.Reaches root id
  same : ∀ id, ¬ s.Due id → p.SameUnit s.program id ∧ s.program.importsOf id = p.importsOf id

variable {entry : String} {definition : Option Definition}

/-- At the start of an analysis of a calm program only the entry point may be due. -/
theorem Tracked.start (hsane : r.Sane) (hsound : r.program.Sound) (hcalm : r.Calm) (name : String)
    (d : Definition) : Tracked r.program (r.unitFor name d).2 (r.unitFor name d).1 := by
  obtain ⟨hunit, hgrows, _⟩ := hsane.unitFor name d
  have hchanges : r.program.Changes 0 (r.unitFor name d).1.program := hgrows.changes
  have hnotes := notes_unitFor r name d
  have hroot {id : Nat} (heq : id = (r.unitFor name d).2) :
      (r.unitFor name d).1.Anchored (r.unitFor name d).2 id := heq ▸ .refl
  have hnone {work : Work} : work ∉ r.run.waiting := hcalm.waiting ▸ List.not_mem_nil
  refine ⟨hunit, hsound.evolves hchanges.evolves, fun id hid => ?_,
    fun work hwork => ?_, fun id hid => ?_, fun id hid => ⟨hnotes.same id hid, ?_⟩⟩
  · exact hroot ((hnotes.due id hid).resolve_left (hcalm.due id))
  · exact hroot ((hnotes.waiting work hwork).resolve_left hnone)
  · exact (hnotes.reads id hid).resolve_left hnone
  · exact hgrows.touches.imports id not_false

/-- An analysis that succeeds notes all that it changes. -/
theorem noted_analyze (hsane : r.Sane) (hsound : r.program.Sound) (hcalm : r.Calm)
    (hanalyze : r.analyze w entry definition = (s, .ok (some root))) : Noted r.program root s := by
  have hcases := analyzeOutcome w r entry definition
  rw [hanalyze] at hcases
  cases hcases with
  | @done d _ _ _ hdrain =>
    have htracked := Tracked.start hsane hsound hcalm entry d
    obtain ⟨u, hu, _⟩ := (hsane.unitFor entry d).2.2
    obtain ⟨hlast, hwaiting⟩ := htracked.drain hdrain
    have hevolves := (htracked.sane.drain workLimit w).2
    rw [hdrain] at hevolves
    obtain ⟨v, hv, _⟩ := grows_of_evolves hevolves _ u hu
    exact ⟨hwaiting, Catalog.lt_size_of_get? hv, fun id hid => (hlast.due id hid).reaches,
      hlast.same⟩

/-- An analysis that finds nothing to build changes nothing. -/
theorem eq_of_analyze_none (hanalyze : r.analyze w entry definition = (s, .ok none)) : s = r := by
  have hcases := analyzeOutcome w r entry definition
  rw [hanalyze] at hcases
  cases hcases <;> rfl

variable {fault : Fault}

/-- All units but those that are due are as they were, whether their bodies are kept or not. -/
def Spared (p : Program) (s : Resolution) : Prop :=
  ∀ id, ¬ s.Due id → p.SameUnit s.program id ∧ s.program.importsOf id = p.importsOf id

/-- A body that cannot be read leaves its unit without imports, and nothing else is changed. -/
theorem readBody_eq_error (h : r.readBody w id = (s, some fault)) :
    s = r.modifyProgram (·.clearBody id) := by
  have hcases := readOutcome w r id
  rw [h] at hcases
  cases hcases
  rfl

/-- Reading fails for a unit that is due, and nothing but this unit has changed by then. -/
theorem Tracked.spared_of_handle (h : Tracked p root r) (hwaiting : r.run.waiting = work :: later)
    (hhandle : ({ r with run := { r.run with waiting := later } } : Resolution).handle w work =
      (s, some fault)) : Spared p s := by
  by_cases hfresh : work.unit ∈ r.run.handled
  · rw [handle_handled hfresh] at hhandle
    cases hhandle
  · cases work with
    | recheck id =>
      rw [handle_recheck id hfresh] at hhandle
      cases hhandle
    | read id =>
      rw [handle_read id hfresh] at hhandle
      obtain rfl := readBody_eq_error hhandle
      have hdue : r.Due id := h.reads id (hwaiting ▸ List.mem_cons_self)
      intro other hother
      have hne : id ≠ other := fun heq => hother (heq ▸ hdue)
      obtain ⟨hunit, himports⟩ := h.same other hother
      refine ⟨hunit.trans (.of_eq (Catalog.get?_modify_of_ne hne)), ?_⟩
      exact (Program.importsOf_clearBody.trans (if_neg (Ne.symm hne))).trans himports

/-- An analysis that fails on the way has changed no unit that is not due. -/
theorem Tracked.spared_of_drain (h : Tracked p root r) (hdrain : r.drain w fuel = (s, some fault)) :
    Spared p s := by
  have hlast := drainOutcome (w := w) Tracked.handle h fuel
  rw [hdrain] at hlast
  cases hlast with
  | stopped hs => exact hs.same
  | failed hr hwaiting hhandle => exact hr.spared_of_handle hwaiting hhandle

/-- An analysis that fails has changed no unit but those that are due. -/
theorem spared_of_analyze (hsane : r.Sane) (hsound : r.program.Sound) (hcalm : r.Calm)
    (hanalyze : r.analyze w entry definition = (s, .error fault)) : Spared r.program s := by
  have hcases := analyzeOutcome w r entry definition
  rw [hanalyze] at hcases
  cases hcases with
  | @failed d s _ _ _ hdrain =>
    have hspared : Spared r.program s :=
      (Tracked.start hsane hsound hcalm entry d).spared_of_drain hdrain
    exact hspared

/-- Whatever comes of an analysis, it has changed no unit but those that are due. -/
theorem spared_analyze (hsane : r.Sane) (hsound : r.program.Sound) (hcalm : r.Calm) (w : World)
    (entry : String) (definition : Option Definition) :
    Spared r.program (r.analyze w entry definition).1 := by
  generalize hanalyze : r.analyze w entry definition = k
  obtain ⟨s, result⟩ := k
  cases result with
  | error fault => exact spared_of_analyze hsane hsound hcalm hanalyze
  | ok found =>
    cases found with
    | none =>
      obtain rfl := eq_of_analyze_none hanalyze
      exact fun _ _ => ⟨.of_eq rfl, rfl⟩
    | some root => exact (noted_analyze hsane hsound hcalm hanalyze).same

end Resolution

end ScriptBuild
