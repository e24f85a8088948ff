import ScriptBuild.Proofs.Resolution.Read

namespace ScriptBuild

namespace Resolution

variable {w : World} {offered : Definition → Prop} {r s : Resolution} {id other : Nat}
  {n : String} {t : Target} {u : BuildUnit} {work : Work} {later : List Work} {fuel : Nat}

/-- A run is underway when a piece of work is taken up. -/
theorem Underway.begin (h : Underway w offered r) (hwaiting : r.run.waiting = work :: later) :
    Underway w offered (r.begin work later) := by
  have hnodup := h.agenda.nodup
  rw [hwaiting, List.map_cons, List.nodup_cons] at hnodup
  have hmem {x : Work} (hx : x ∈ later) : x ∈ r.run.waiting := hwaiting ▸ List.mem_cons_of_mem _ hx
  have hhead : work ∈ r.run.waiting := hwaiting ▸ List.mem_cons_self
  have hhandled (id : Nat) :
      id ∈ (r.begin work later).run.handled ↔ id = work.unit ∨ id ∈ r.run.handled := by
    rw [Resolution.begin, Std.ExtTreeSet.mem_insert, Std.LawfulEqCmp.compare_eq_iff_eq, eq_comm]
  refine ⟨h.remembers.mono (before_of_eq rfl rfl) rfl rfl rfl, ?_, fun id hmet =>
    (h.ready id hmet).mono (before_of_eq rfl rfl)⟩
  constructor
  · exact hnodup.2
  · exact fun x hx => h.agenda.waiting_met x (hmem hx)
  · intro x hx hin
    rcases (hhandled _).1 hin with heq | hin
    · exact hnodup.1 (heq ▸ List.mem_map_of_mem hx)
    · exact h.agenda.waiting_fresh x (hmem hx) hin
  · exact fun x hx => h.agenda.waiting_unit x (hmem hx)
  · intro id hin
    rcases (hhandled id).1 hin with rfl | hin
    · exact h.agenda.waiting_met work hhead
    · exact h.agenda.handled_met id hin
  · intro id hin
    rcases (hhandled id).1 hin with rfl | hin
    · exact h.agenda.waiting_unit work hhead
    · exact h.agenda.handled_unit id hin
  · intro id hmet
    rcases h.agenda.covered id hmet with htable | hin | ⟨x, hx, heq⟩
    · exact .inl htable
    · exact .inr (.inl ((hhandled id).2 (.inr hin)))
    · rw [hwaiting] at hx
      rcases List.mem_cons.1 hx with rfl | hx
      · exact .inr (.inl ((hhandled id).2 (.inl heq.symm)))
      · exact .inr (.inr ⟨x, hx, heq⟩)

/-- All that a unit imports, but for global variables, stands under what it means. -/
def Settled (w : World) (r : Resolution) (id : Nat) : Prop :=
  ∀ t n, r.program.Takes id t n → ¬ r.program.IsGlobal t → Means w r id n t

/-- Handling another unit does not change what a unit exports. -/
theorem Works.exports_iff (h : r.Works id s) (hne : other ≠ id) (hlt : other < r.program.units.size)
    (hunit : ¬ r.IsTable other) : s.Exports other n ↔ r.Exports other n := by
  obtain ⟨u, hu⟩ := Catalog.exists_get? hlt
  obtain ⟨v, hv, _⟩ := h.before.units other u hu
  have htable : u.kind.isSharedTable = false := by
    rw [← Bool.not_eq_true]
    exact fun hshared => hunit ⟨u, hu, hshared⟩
  have hslots := h.program.touches.slots other u v hne hu hv htable
  simp only [Exports, hu, hv, Option.any_some, BuildUnit.hasSlot, hslots]

/-- Handling one unit changes what no other unit takes. -/
theorem Works.takes_iff (h : r.Works id s) (hne : other ≠ id) :
    s.program.Takes other t n ↔ r.program.Takes other t n := by
  rw [Program.Takes, h.program.touches.imports other hne, Program.Takes]

/-- What a unit imports stays settled while another one is handled. -/
theorem Settled.works (hsettled : Settled w r other) (h : r.Works id s) (hne : other ≠ id)
    (hlt : other < r.program.units.size) (hunit : ¬ r.IsTable other) : Settled w s other := by
  intro t n htakes hnot
  have hold := hsettled t n ((h.takes_iff hne).1 htakes) (not_isGlobal_of_grows h.before.units hnot)
  exact hold.mono h.before hlt (h.exports_iff hne hlt hunit)

/-- A unit imports nothing. -/
def Idle (p : Program) (id : Nat) : Prop := ∀ t n, ¬ p.Takes id t n

/-- What is no unit, and a file without code, imports nothing; nor does a unit without code that
waits to be read. -/
structure Bodiless (r : Resolution) : Prop where
  beyond : ∀ id, r.program.units.size ≤ id → Idle r.program id
  file : ∀ id u, r.program.units.get? id = some u → u.kind.isFile → u.kind.hasBody = false →
    Idle r.program id
  waiting : ∀ id u, Work.read id ∈ r.run.waiting → r.program.units.get? id = some u →
    u.kind.hasBody = false → Idle r.program id

/-- A unit that imports nothing imports nothing while another one is handled. -/
theorem Idle.works (h : Idle r.program other) (hworks : r.Works id s) (hne : other ≠ id) :
    Idle s.program other := fun t n htakes => h t n ((hworks.takes_iff hne).1 htakes)

theorem Bodiless.mono (h : Bodiless r) (hbefore : r.Before s)
    (hwaiting : ∃ new, s.run.waiting = r.run.waiting ++ new ∧ NewWork r s new)
    (hidle : ∀ id, (∀ u, r.program.units.get? id = some u → u.kind.hasBody = false) →
      Idle r.program id → Idle s.program id) : Bodiless s := by
  have hsize := hbefore.units.size_le
  have hbeyond (id : Nat) (hle : r.program.units.size ≤ id) : Idle s.program id := by
    refine hidle id (fun u hu => ?_) (h.beyond id hle)
    exact absurd (Catalog.lt_size_of_get? hu) (Nat.not_lt_of_le hle)
  have hcode {id : Nat} {u v : BuildUnit} (hu : r.program.units.get? id = some u)
      (hv : s.program.units.get? id = some v) (hbody : v.kind.hasBody = false) :
      ∀ u, r.program.units.get? id = some u → u.kind.hasBody = false := by
    intro u' hu'
    rwa [Option.some.inj (hu'.symm.trans hu), ← (hbefore.units.becomes hu hv).kind]
  have hfile (id : Nat) (v : BuildUnit) (hv : s.program.units.get? id = some v)
      (hisFile : v.kind.isFile) (hbody : v.kind.hasBody = false) : Idle s.program id := by
    by_cases hold : id < r.program.units.size
    · obtain ⟨u, hu⟩ := Catalog.exists_get? hold
      refine hidle id (hcode hu hv hbody) (h.file id u hu ?_ (hcode hu hv hbody u hu))
      rwa [← (hbefore.units.becomes hu hv).kind]
    · exact hbeyond id (Nat.le_of_not_lt hold)
  refine ⟨fun id hle => hbeyond id (Nat.le_trans hsize hle), hfile, fun id v hmem hv hbody => ?_⟩
  obtain ⟨new, hwaiting, hnew⟩ := hwaiting
  rw [hwaiting] at hmem
  rcases List.mem_append.1 hmem with hmem | hmem
  · by_cases hold : id < r.program.units.size
    · obtain ⟨u, hu⟩ := Catalog.exists_get? hold
      exact hidle id (hcode hu hv hbody) (h.waiting id u hmem hu (hcode hu hv hbody u hu))
    · exact hbeyond id (Nat.le_of_not_lt hold)
  · rcases hnew id hmem with hle | ⟨v', hv', hisFile⟩
    · exact hbeyond id hle
    · obtain rfl := Option.some.inj (hv.symm.trans hv')
      exact hfile id v hv hisFile hbody

theorem Bodiless.looked (h : Bodiless r) (hlooked : r.Looked s) : Bodiless s := by
  refine h.mono hlooked.before hlooked.waiting fun id _ hidle t n htakes => hidle t n ?_
  rwa [Program.Takes, ← hlooked.program.touches.imports id not_false]

/-- What holds between two pieces of work, if files without code import nothing at the start. Each
    unit is handled once, and when its turn is over every name that it imports stands under what it
    means; this stays so until the end of the run. -/
structure Sweep (w : World) (offered : Definition → Prop) (r : Resolution) : Prop where
  underway : Underway w offered r
  bodiless : Bodiless r
  settled : ∀ id ∈ r.run.handled, Settled w r id

/-- The unit whose turn it is counts as handled. -/
theorem mem_begin {work : Work} : id ∈ (r.begin work later).run.handled ↔
    id = work.unit ∨ id ∈ r.run.handled := by
  rw [begin, Std.ExtTreeSet.mem_insert, Std.LawfulEqCmp.compare_eq_iff_eq, eq_comm]

/-- A unit that was handled on top of what was settled before. -/
theorem Sweep.of_works (h : Sweep w offered r) (hwaiting : r.run.waiting = work :: later)
    (hs : Underway w offered s) (hworks : (r.begin work later).Works work.unit s)
    (hsettled : Settled w s work.unit)
    (hidle : (∀ u, r.program.units.get? work.unit = some u → u.kind.hasBody = false) →
      Idle r.program work.unit → Idle s.program work.unit) : Sweep w offered s := by
  have hbegin := h.underway.begin hwaiting
  have hbodiless : Bodiless (r.begin work later) := by
    refine ⟨h.bodiless.beyond, h.bodiless.file, fun id u hmem => ?_⟩
    exact h.bodiless.waiting id u (hwaiting ▸ List.mem_cons_of_mem _ hmem)
  refine ⟨hs, hbodiless.mono hworks.before hworks.waiting fun id hbody hold => ?_, fun id hin => ?_⟩
  · by_cases heq : id = work.unit
    · subst heq
      exact hidle hbody hold
    · exact hold.works hworks heq
  · by_cases heq : id = work.unit
    · rwa [heq]
    · rw [hworks.handled] at hin
      have hold : id ∈ r.run.handled := (mem_begin.1 hin).resolve_left heq
      have hready := hbegin.ready id (hbegin.agenda.handled_met id hin)
      have hsame : Settled w (r.begin work later) id := fun t n htakes hnot =>
        Means.of_units (r := r) (h.settled id hold t n htakes hnot) (before_of_eq rfl rfl)
          hready.lt_size rfl
      exact hsame.works hworks heq hready.lt_size (hbegin.agenda.handled_unit id hin)

/-- The turn of a unit settles what it imports. -/
theorem Sweep.handle (h : Sweep w offered r) (hw : Steady w offered)
    (hwaiting : r.run.waiting = work :: later)
    (hhandle : ({ r with run := { r.run with waiting := later } } : Resolution).handle w work =
      (s, none)) :
    Sweep w offered s ∧ r.Before s ∧ s.run.handled = r.run.handled.insert work.unit := by
  have hbegin := h.underway.begin hwaiting
  have hmem : work ∈ r.run.waiting := hwaiting ▸ List.mem_cons_self
  have hmet := h.underway.agenda.waiting_met work hmem
  have hfresh := h.underway.agenda.waiting_fresh work hmem
  have hunit := h.underway.agenda.waiting_unit work hmem
  have hbefore : r.Before (r.begin work later) := before_of_eq rfl rfl
  cases work with
  | read id =>
    rw [handle_read id hfresh] at hhandle
    obtain ⟨u, hu, hready⟩ := (h.underway.ready id hmet).unit
    have htable : u.kind.isSharedTable = false := by
      rw [← Bool.not_eq_true]
      exact fun hshared => hunit ⟨u, hu, hshared⟩
    rcases hbegin.readBody hw (u := u) hu with ⟨hnone, heq⟩ | ⟨_, fault, _, _, _, heq⟩ |
      ⟨body, events, hbody, _, _, _, hread⟩
    · rw [hhandle] at heq
      obtain rfl := (Prod.mk.inj heq).1
      have hbody : u.kind.hasBody = false := by
        refine hnone.resolve_right fun hnone => ?_
        have hsome := (hready htable).1
        rw [hnone] at hsome
        cases hsome
      have hidle : Idle r.program id := h.bodiless.waiting id u hmem hu hbody
      exact ⟨h.of_works hwaiting hbegin (.refl _ _) (fun t n htakes => absurd htakes (hidle t n))
        fun _ _ => hidle, hbefore, rfl⟩
    · rw [hhandle] at heq
      cases (Prod.mk.inj heq).2
    · rw [hhandle] at hread
      refine ⟨h.of_works hwaiting hread.underway hread.works
        (fun t n htakes hnot => (hread.sound t n htakes hnot).2) fun hnot => ?_,
        hbefore.trans hread.works.before, hread.works.handled⟩
      have hnot := hnot u hu
      rw [hbody] at hnot
      cases hnot
  | recheck id =>
    rw [handle_recheck id hfresh] at hhandle
    obtain rfl := (Prod.mk.inj hhandle).1
    have hrecheck := hbegin.recheck hw id hmet hunit
    refine ⟨h.of_works hwaiting hrecheck.underway hrecheck.works
      (fun t n htakes hnot => (hrecheck.sound t n htakes hnot).resolve_left List.not_mem_nil)
      fun _ hidle t n htakes => ?_, hbefore.trans hrecheck.works.before,
      hrecheck.works.handled⟩
    rcases hrecheck.names t n htakes with hold | ⟨x, hx, _, _⟩
    · exact hidle t n hold
    · exact hidle x.1 x.2 (mem_lookedUpImports.1 hx).1

/-- A unit that is added to a set is one more. -/
theorem size_insert_of_not_mem {s : NodeSet} (hnot : id ∉ s) : (s.insert id).size = s.size + 1 := by
  rw [Std.ExtTreeSet.size_insert, if_neg (by rwa [Std.ExtTreeSet.contains_iff_mem])]

/-- When no work is left, all units that were handled are settled, and they are no more than the
fuel allows. -/
theorem Sweep.drain (h : Sweep w offered r) (hw : Steady w offered)
    (hdrain : r.drain w fuel = (s, none)) :
    Sweep w offered s ∧ r.Before s ∧ s.run.waiting = [] ∧
      s.run.handled.size ≤ r.run.handled.size + fuel := by
  induction fuel generalizing r with
  | zero =>
    rw [Resolution.drain] at hdrain
    split at hdrain
    · next hempty =>
      obtain rfl := (Prod.mk.inj hdrain).1
      exact ⟨h, .refl r, List.isEmpty_iff.1 hempty, Nat.le_refl _⟩
    · cases (Prod.mk.inj hdrain).2
  | succ fuel ih =>
    rw [Resolution.drain] at hdrain
    split at hdrain
    · next hempty =>
      obtain rfl := (Prod.mk.inj hdrain).1
      exact ⟨h, .refl r, hempty, Nat.le_add_right _ _⟩
    · next work later hwaiting =>
      split at hdrain
      · cases (Prod.mk.inj hdrain).2
      · next s' hhandle =>
        obtain ⟨hs', hbefore, hhandled⟩ := h.handle hw hwaiting hhandle
        obtain ⟨hs, hbefore', hempty, hsize⟩ := ih hs' hdrain
        refine ⟨hs, hbefore.trans hbefore', hempty, ?_⟩
        rw [hhandled, size_insert_of_not_mem (h.underway.agenda.waiting_fresh work
          (hwaiting ▸ List.mem_cons_self))] at hsize
        omega

theorem Underway.start (w : World) (offered : Definition → Prop) (p : Program) :
    Underway w offered (Resolution.start p) := by
  have hmet (id : Nat) : ¬ (Resolution.start p).Met id := Std.ExtTreeMap.not_mem_empty
  refine ⟨⟨fun names heq => (by cases heq), fun directory names heq => ?_, fun directory n id heq => ?_⟩,
    ⟨List.nodup_nil, ?_, ?_, ?_, fun id hin => ?_, fun id hin => ?_, fun id hid => ?_⟩,
    fun id hid => absurd hid (hmet id)⟩
  · simp [Resolution.start, Run.start] at heq
  · simp [Resolution.start, Run.start, foundFrom] at heq
  · exact fun work hwork => absurd hwork List.not_mem_nil
  · exact fun work hwork => absurd hwork List.not_mem_nil
  · exact fun work hwork => absurd hwork List.not_mem_nil
  · exact absurd hin Std.ExtTreeSet.not_mem_empty
  · exact absurd hin Std.ExtTreeSet.not_mem_empty
  · exact absurd hid (hmet id)

/-- Looking names up, before anything is handled, settles nothing and unsettles nothing. -/
theorem Sweep.looked (h : Sweep w offered r) (hs : Underway w offered s) (hlooked : r.Looked s)
    (hnone : r.run.handled = ∅) : Sweep w offered s := by
  refine ⟨hs, h.bodiless.looked hlooked, fun id hin => ?_⟩
  rw [hlooked.handled, hnone] at hin
  exact absurd hin Std.ExtTreeSet.not_mem_empty

end Resolution

end ScriptBuild
