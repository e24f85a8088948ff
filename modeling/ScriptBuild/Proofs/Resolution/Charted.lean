import ScriptBuild.Proofs.Resolution.Turn

namespace ScriptBuild

namespace Resolution

variable {p : Program} {named : String → Definition → Prop} {only : Nat → Prop} {w : World}
  {calls rest : List Call} {call : Call} {r r₀ s : Resolution} {id other a c : Nat} {name n : String}
  {d : Definition} {u : BuildUnit} {work : Work} {later : List Work} {fuel : Nat}

/-- A definition is on offer under a name: the lookup gives it for the name, or it comes with an
entry point of that name. -/
def OfferedAs (w : World) (calls : List Call) (name : String) (d : Definition) : Prop :=
  (∃ directory, w.lookup.find name directory = some d) ∨ (name, some d) ∈ calls

/-- The definition of an entry point is on offer under its name. -/
theorem offeredAs_of_call (hcall : call ∈ calls)
    (hd : call.2.or (w.lookup.find call.1 none) = some d) : OfferedAs w calls call.1 d := by
  obtain ⟨entry, definition⟩ := call
  rcases Option.or_eq_some_iff.1 hd with hthis | ⟨_, hfind⟩
  · obtain rfl : definition = some d := hthis
    exact .inr hcall
  · exact .inl ⟨none, hfind⟩

/-- What is on offer under a name is on offer. -/
theorem OfferedAs.offeredTo (h : OfferedAs w calls name d) : OfferedTo w calls d := by
  rcases h with ⟨directory, hfind⟩ | hcall
  · exact .inl ⟨name, directory, hfind⟩
  · exact .inr ⟨_, hcall, rfl⟩

/-- The turn of a unit leads to another one under a name: its body refers to the name or declares it
as a global variable, or the name was imported before and is looked up again. -/
inductive Leads (w : World) (p : Program) (r : Resolution) (c : Nat) (n : String) (a : Nat) : Prop where
  | reference (summary : Summary) (hnew : r.Renewed c) (hsaid : Says w r c summary)
      (hn : n ∈ summary.references.map (·.1)) (hmeans : Means w r c n (.unit a))
  | declaration (summary : Summary) (hnew : r.Renewed c) (hsaid : Says w r c summary)
      (hn : n ∈ summary.globals) (htable : r.GlobalTable a)
  | import_ (former : Target) (hold : ¬ r.Renewed c) (hx : (former, n) ∈ lookedUpImports p c)
      (hmeans : Means w r c n (.unit a))

/-- What the turn of a unit led to stays so as the run goes on, as nobody else changes what is
recorded of the unit. -/
theorem Leads.mono (h : Leads w p r c n a) (halone : LeavesAlone c r s) (hunit : r.IsUnit c) :
    Leads w p s c n a := by
  cases h with
  | reference summary hnew hsaid hn hmeans =>
    exact .reference summary (halone.renewed_iff.2 hnew) (halone.says_iff.2 hsaid) hn
      (halone.means hunit hmeans)
  | declaration summary hnew hsaid hn htable =>
    exact .declaration summary (halone.renewed_iff.2 hnew) (halone.says_iff.2 hsaid) hn
      (htable.mono halone.before.units)
  | import_ former hold hx hmeans =>
    exact .import_ former (fun hnew => hold (halone.renewed_iff.1 hnew)) hx
      (halone.means hunit hmeans)

/-- A chain of turns leads from an entry point to a unit. -/
inductive Summoned (w : World) (p : Program) (calls : List Call) (r : Resolution) : Nat → Prop where
  | entry {call : Call} {d : Definition} {id : Nat} (hcall : call ∈ calls)
      (hd : call.2.or (w.lookup.find call.1 none) = some d) (htable : d.kind.isSharedTable = false)
      (hdenotes : r.Denotes call.1 d id) : Summoned w p calls r id
  | led {c : Nat} {n : String} {id : Nat} (hc : Summoned w p calls r c) (hhandled : c ∈ r.run.handled)
      (hleads : Leads w p r c n id) : Summoned w p calls r id

theorem Summoned.mono (h : Summoned w p calls r id) (hbefore : r.Before s)
    (hhandled : ∀ c ∈ r.run.handled, r.IsUnit c ∧ c ∈ s.run.handled ∧ LeavesAlone c r s) :
    Summoned w p calls s id := by
  induction h with
  | entry hcall hd htable hdenotes => exact .entry hcall hd htable (hdenotes.mono hbefore)
  | led _ hc hleads ih =>
    obtain ⟨hunit, hc', halone⟩ := hhandled _ hc
    exact .led ih hc' (hleads.mono halone hunit)

/-- The turn of a unit that was read leads to all that it imports from. -/
theorem Perused.leads {summary : Summary} (h : Perused w r c summary) (hnew : r.Renewed c)
    (hsaid : Says w r c summary) (htakes : r.program.Takes c (.unit a) n) : Leads w p r c n a := by
  rcases (h.takes _ n).1 htakes with ⟨hn, table, heq, htable⟩ | ⟨hn, _, hmeans⟩
  · obtain rfl := Target.unit.inj heq
    exact .declaration summary hnew hsaid hn htable
  · exact .reference summary hnew hsaid hn hmeans

/-- The turn of a unit that was not read leads to all that it imports from, but for tables of global
variables. -/
theorem Revisited.leads (h : Revisited w p r c) (hold : ¬ r.Renewed c)
    (htakes : r.program.Takes c (.unit a) n) (hglobal : ¬ p.IsGlobal (.unit a)) :
    Leads w p r c n a := by
  rcases (h.takes _ n).1 htakes with ⟨_, hyes⟩ | ⟨⟨former, hx⟩, _, hmeans⟩
  · exact absurd hyes hglobal
  · exact .import_ former hold hx hmeans

/-- A stretch of a run in which some units have their turns, each for the first time. -/
structure Stretch (p : Program) (named : String → Definition → Prop) (only : Nat → Prop)
    (r s : Resolution) : Prop where
  before : r.Before s
  touches : r.program.Touches only s.program
  evolves : r.program.Evolves s.program
  sights : Sights p named only r s
  handled : ∀ c, c ∈ s.run.handled ↔ c ∈ r.run.handled ∨ only c
  waits : ∀ x ∈ r.run.waiting, x ∈ s.run.waiting ∨ only x.unit
  stays : ∀ id, r.Renewed id → s.Renewed id
  reads : ∀ id, s.Awaits id → r.Awaits id ∨ s.Renewed id
  renewed : ∀ id, s.Renewed id → r.Renewed id ∨ s.Awaits id ∨ s.IsTable id

/-- Looking names up is a stretch in which no unit has its turn. -/
theorem Stretch.of_looked (hlooked : r.Looked s) (hsights : Sights p named (fun _ => False) r s)
    (hmarks : Marks r s) : Stretch p named (fun _ => False) r s where
  before := hlooked.before
  touches := hlooked.program.touches
  evolves := .mono (fun _ _ hgrow => ⟨0, .grow hgrow⟩) _ _ hlooked.program
  sights := hsights
  handled c := by rw [hlooked.handled, or_false]
  waits x hx := by
    obtain ⟨new, hwaiting, _⟩ := hlooked.waiting
    exact .inl (hwaiting ▸ List.mem_append_left _ hx)
  stays := hmarks.stays
  reads := hmarks.reads
  renewed := hmarks.renewed

/-- One piece of work is done. What it marks can be seen in any state that differs from the outcome in
what is remembered of scopes only. -/
theorem Stretch.of_works {m : Resolution} (hwaiting : r.run.waiting = work :: later)
    (hworks : (r.begin work later).Works work.unit s)
    (hsights : Sights p named (· = work.unit) (r.begin work later) s)
    (hmarks : Marks (r.begin work later) m) (hprogram : s.program = m.program)
    (hfreshness : s.run.freshness = m.run.freshness) (hawaits : s.run.waiting = m.run.waiting) :
    Stretch p named (· = work.unit) r s := by
  have hrenewed (id : Nat) : s.Renewed id ↔ m.Renewed id := by
    rw [Renewed, Renewed, freshness, freshness, hfreshness]
  have hsame : Sights p named (· = work.unit) r (r.begin work later) := .of_eq rfl rfl
  have hbefore : r.Before (r.begin work later) := before_of_eq rfl rfl
  refine ⟨hbefore.trans hworks.before, hworks.program.touches, hworks.program.evolves,
    hsame.trans hsights, fun c => ?_, fun x hx => ?_, fun id hid => ?_, fun id hid => ?_,
    fun id hid => ?_⟩
  · rw [hworks.handled, mem_begin, or_comm]
  · obtain ⟨new, heq, _⟩ := hworks.waiting
    rw [hwaiting] at hx
    rcases List.mem_cons.1 hx with rfl | hx
    · exact .inr rfl
    · exact .inl (heq ▸ List.mem_append_left _ hx)
  · exact (hrenewed id).2 (hmarks.stays id hid)
  · rw [Awaits, hawaits] at hid
    rcases hmarks.reads id hid with hold | hnew
    · exact .inl (by rw [Awaits, hwaiting]; exact List.mem_cons_of_mem _ hold)
    · exact .inr ((hrenewed id).2 hnew)
  · rw [Awaits, hawaits, IsTable, hprogram]
    exact hmarks.renewed id ((hrenewed id).1 hid)

/-- What holds between two pieces of work of a run, all of whose analyses have succeeded so far: how
what is recorded of each unit comes from the program at the start, and why each unit was met. -/
structure Charted (w : World) (p : Program) (calls : List Call) (r : Resolution) : Prop where
  sane : r.Sane
  underway : Underway w (OfferedTo w calls) r
  evolves : p.Evolves r.program
  touches : p.Touches (· ∈ r.run.handled) r.program
  documented : Documented p (OfferedAs w calls) r
  reads : ∀ id, r.Awaits id → r.Renewed id
  rechecks : ∀ id, .recheck id ∈ r.run.waiting → ¬ r.Renewed id
  moved : ∀ id, r.mark id = some .dependencyUpdated → id ∈ r.run.handled
  turn : ∀ c ∈ r.run.handled, Turn w p r c
  summoned : ∀ id, r.Met id → ¬ r.IsTable id → Summoned w p calls r id
  listed : ∀ a n, r.IsTable a → r.Exports a n →
    (start p).Exports a n ∨ ∃ c ∈ r.run.handled, Leads w p r c n a

/-- What was met and is no table can be handled. -/
theorem Underway.isUnit {offered : Definition → Prop} (h : Underway w offered r) (hmet : r.Met id)
    (htable : ¬ r.IsTable id) : r.IsUnit id := by
  obtain ⟨u, hu, _⟩ := (h.ready id hmet).unit
  refine ⟨u, hu, ?_⟩
  rw [← Bool.not_eq_true]
  exact fun hshared => htable ⟨u, hu, hshared⟩

theorem Charted.isUnit (h : Charted w p calls r) (hc : c ∈ r.run.handled) : r.IsUnit c :=
  h.underway.isUnit (h.underway.agenda.handled_met c hc) (h.underway.agenda.handled_unit c hc)

/-- Units whose turns are over are left alone. -/
theorem Charted.alone (h : Charted w p calls r) (hstretch : Stretch p named only r s)
    (hfresh : ∀ c, only c → c ∉ r.run.handled) :
    ∀ c ∈ r.run.handled, r.IsUnit c ∧ c ∈ s.run.handled ∧ LeavesAlone c r s := by
  intro c hc
  have hunit := h.isUnit hc
  have hnot : ¬ only c := fun hin => hfresh c hin hc
  obtain ⟨hget, hmark⟩ := hstretch.sights.stays c (h.underway.agenda.handled_met c hc) hunit hnot
  exact ⟨hunit, (hstretch.handled c).2 (.inl hc), hstretch.before, hget, hmark,
    hstretch.touches.imports c hnot, fun b => hstretch.touches.edge c b hnot⟩

/-- A unit whose imports are to be looked up again was found as it was recorded. -/
theorem Charted.recheck_old (h : Charted w p calls r)
    (hmem : .recheck id ∈ r.run.waiting) : r.mark id = some .old := by
  have hmet : r.Met id := h.underway.agenda.waiting_met _ hmem
  obtain ⟨v, hv, htable⟩ := h.underway.isUnit hmet (h.underway.agenda.waiting_unit _ hmem)
  have hnot := h.rechecks id hmem
  rw [Renewed, freshness_eq] at hnot
  cases h.documented id v hv with
  | created d _ hmark => exact absurd (.inl (by rw [hmark]; rfl)) hnot
  | renewed u d _ hmark => exact absurd (.inr (by rw [hmark]; rfl)) hnot
  | known u d _ hmark =>
    refine hmark.resolve_right fun hmoved => ?_
    exact h.underway.agenda.waiting_fresh _ hmem (h.moved id hmoved)
  | unmet u _ hmark => exact absurd hmark (met_iff.1 hmet)
  | table u added _ _ hshared hkind =>
    rw [hkind, hshared] at htable
    cases htable
  | newTable kind _ _ hshared hkind =>
    rw [hkind, hshared] at htable
    cases htable

/-- What waits to be looked up again later was not renewed on the way. -/
theorem Charted.rechecks_stretch (h : Charted w p calls r) (hstretch : Stretch p named only r s)
    (hs : Underway w (OfferedTo w calls) s) (hmem : .recheck id ∈ s.run.waiting) :
    ¬ s.Renewed id := by
  intro hnew
  have hagenda := hs.agenda
  have hfresh : id ∉ s.run.handled := hagenda.waiting_fresh _ hmem
  have honly {x : Work} (hx : x ∈ s.run.waiting) (heq : x.unit = id) : x = .recheck id :=
    List.inj_on_of_nodup_map hagenda.nodup hx hmem heq
  rcases hstretch.renewed id hnew with hold | hawaits | htable
  · rcases h.underway.agenda.covered id hold.met with htable | hin | ⟨x, hx, rfl⟩
    · exact hagenda.waiting_unit _ hmem (htable.mono hstretch.before.units)
    · exact hfresh ((hstretch.handled id).2 (.inl hin))
    · rcases hstretch.waits x hx with hlater | hthis
      · rw [honly hlater rfl] at hx
        exact h.rechecks _ hx hold
      · exact hfresh ((hstretch.handled _).2 (.inr hthis))
  · cases honly hawaits rfl
  · exact hagenda.waiting_unit _ hmem htable

/-- After a stretch of a run all is charted if what is new about it is. -/
theorem Charted.stretch (h : Charted w p calls r) (hl : w.lookup.IgnoresSpelling)
    (hstretch : Stretch p (OfferedAs w calls) only r s) (hfresh : ∀ c, only c → c ∉ r.run.handled)
    (hsane : s.Sane) (hs : Underway w (OfferedTo w calls) s) (hturn : ∀ c, only c → Turn w p s c)
    (hmet : ∀ id, s.Met id → ¬ s.IsTable id → r.Met id ∨ Summoned w p calls s id)
    (hlisted : ∀ a n, s.IsTable a → s.Exports a n →
      r.Exports a n ∨ ∃ c ∈ s.run.handled, Leads w p s c n a) : Charted w p calls s := by
  have halone := h.alone hstretch hfresh
  have hunits := hstretch.before.units
  refine ⟨hsane, hs, h.evolves.trans hstretch.evolves, ?_,
    hstretch.sights.documented h.touches.units.size_le h.documented, fun id hid => ?_,
    fun id hid => h.rechecks_stretch hstretch hs hid, fun id hid => ?_, fun c hc => ?_,
    fun id hid htable => ?_, fun a n htable hn => ?_⟩
  · refine (h.touches.mono fun c hc => ?_).trans (hstretch.touches.mono fun c hc => ?_)
    · exact (hstretch.handled c).2 (.inl hc)
    · exact (hstretch.handled c).2 (.inr hc)
  · rcases hstretch.reads id hid with hold | hnew
    · exact hstretch.stays id (h.reads id hold)
    · exact hnew
  · rw [hstretch.handled]
    exact (hstretch.sights.moved id hid).imp_left (h.moved id)
  · rcases (hstretch.handled c).1 hc with hold | hnew
    · obtain ⟨hunit, _, hthis⟩ := halone c hold
      exact (h.turn c hold).mono hthis hl hunit
    · exact hturn c hnew
  · rcases hmet id hid htable with hold | hnew
    · refine (h.summoned id hold fun hshared => htable (hshared.mono hunits)).mono hstretch.before halone
    · exact hnew
  · rcases hlisted a n htable hn with hold | hnew
    · have hlt : a < r.program.units.size := by
        by_contra hnot
        rw [Exports, Catalog.get?_eq_none (Nat.le_of_not_lt hnot)] at hold
        cases hold
      refine (h.listed a n ((hstretch.before.isTable_iff hlt).1 htable) hold).imp_right ?_
      rintro ⟨c, hc, hleads⟩
      obtain ⟨hunit, hc', hthis⟩ := halone c hc
      exact ⟨c, hc', hleads.mono hthis hunit⟩
    · exact .inr hnew

/-- While a unit has its turn, the units that are met are those that it takes names from. -/
theorem Charted.met_or_takes (h : Charted w p calls r) (hs : Underway w (OfferedTo w calls) s)
    (hwaiting : r.run.waiting = work :: later)
    (hnotes : Notes (s.Near work.unit) (r.begin work later) s) (hmet : s.Met id)
    (htable : ¬ s.IsTable id) : r.Met id ∨ ∃ n, s.program.Takes work.unit (.unit id) n := by
  have hagenda := h.underway.agenda
  have hthis : r.Met work.unit := hagenda.waiting_met work (hwaiting ▸ List.mem_cons_self)
  rcases hs.agenda.covered id hmet with hshared | hin | ⟨x, hx, rfl⟩
  · exact absurd hshared htable
  · rw [hnotes.handled] at hin
    rcases mem_begin.1 hin with rfl | hold
    · exact .inl hthis
    · exact .inl (hagenda.handled_met id hold)
  · rcases hnotes.waiting x hx with hold | heq | htakes
    · exact .inl (hagenda.waiting_met x (hwaiting ▸ List.mem_cons_of_mem _ hold))
    · exact .inl (heq ▸ hthis)
    · exact .inr htakes

/-- The turn of a unit is over, and it led to all that was met in it. -/
theorem Charted.works (h : Charted w p calls r) (hl : w.lookup.IgnoresSpelling)
    (hwaiting : r.run.waiting = work :: later)
    (hstretch : Stretch p (OfferedAs w calls) (· = work.unit) r s) (hsane : s.Sane)
    (hs : Underway w (OfferedTo w calls) s)
    (hnotes : Notes (s.Near work.unit) (r.begin work later) s) (hturn : Turn w p s work.unit)
    (hleads : ∀ a n, s.program.Takes work.unit (.unit a) n → ¬ s.IsTable a →
      Leads w p s work.unit n a)
    (hlisted : ∀ a n, s.IsTable a → s.Exports a n → r.Exports a n ∨ Leads w p s work.unit n a) :
    Charted w p calls s := by
  have hmem : work ∈ r.run.waiting := hwaiting ▸ List.mem_cons_self
  have hagenda := h.underway.agenda
  have hfresh : ∀ c, c = work.unit → c ∉ r.run.handled := by
    rintro c rfl
    exact hagenda.waiting_fresh work hmem
  have hdone : work.unit ∈ s.run.handled := (hstretch.handled _).2 (.inr rfl)
  refine h.stretch hl hstretch hfresh hsane hs ?_ (fun id hid htable => ?_) fun a n htable hn => ?_
  · rintro c rfl
    exact hturn
  · refine (h.met_or_takes hs hwaiting hnotes hid htable).imp_right ?_
    rintro ⟨n, htakes⟩
    have hsummoned := h.summoned _ (hagenda.waiting_met work hmem) (hagenda.waiting_unit work hmem)
    exact .led (hsummoned.mono hstretch.before (h.alone hstretch hfresh)) hdone
      (hleads id n htakes htable)
  · exact (hlisted a n htable hn).imp_right fun hthis => ⟨_, hdone, hthis⟩

/-- What was found new or newer is due. -/
theorem Renewed.due (h : r.Renewed id) : r.Due id := by
  rcases h with heq | heq <;> rw [Due, heq] <;> rfl

/-- What the lookup finds is on offer under the name. -/
theorem offeredAs_of_find (name : String) (directory : Option FilePath) (d : Definition)
    (hfind : w.lookup.find name directory = some d) : OfferedAs w calls name d :=
  .inl ⟨directory, hfind⟩

/-- The turn of a unit without code that is to be read. -/
theorem Charted.pass (h : Charted w p calls r) (hl : w.lookup.IgnoresSpelling)
    (hwaiting : r.run.waiting = .read id :: later) (hu : r.program.units.get? id = some u)
    (htable : u.kind.isSharedTable = false) (hcode : u.kind.hasBody = false) :
    Charted w p calls (r.begin (.read id) later) := by
  have hmem : .read id ∈ r.run.waiting := hwaiting ▸ List.mem_cons_self
  have hfresh : id ∉ r.run.handled := h.underway.agenda.waiting_fresh _ hmem
  have hstretch : Stretch p (OfferedAs w calls) (· = id) r (r.begin (.read id) later) :=
    .of_works hwaiting (.refl _ _) (.refl _) (.refl _) rfl rfl rfl
  have hpassed : Passed p (r.begin (.read id) later) id := by
    refine ⟨fun v hv => ?_, fun u₀ v hu₀ hv => ?_, h.touches.imports id hfresh,
      fun b => h.touches.edge id b hfresh⟩
    · obtain rfl := Option.some.inj (hu.symm.trans hv)
      exact hcode
    · obtain rfl := Option.some.inj (hu.symm.trans hv)
      refine h.touches.slots id u₀ u hfresh hu₀ hu ?_
      rwa [← (h.touches.units.becomes hu₀ hu).kind]
  refine h.stretch hl hstretch ?_ (h.sane.begin hwaiting) (h.underway.begin hwaiting) ?_
    (fun _ hid _ => .inl hid) fun _ _ _ hn => .inl hn
  · rintro c rfl
    exact hfresh
  · rintro c rfl
    exact .passed (h.reads c hmem) hpassed

/-- The turn of a unit whose body is read leads to what the body says. -/
theorem Charted.read (h : Charted w p calls r) (hw : Steady w (OfferedTo w calls)) (hp : p.Intact)
    (hwaiting : r.run.waiting = .read id :: later)
    (hread : (r.begin (.read id) later).readBody w id = (s, none)) :
    Charted w p calls s ∧ r.Before s := by
  have hmem : .read id ∈ r.run.waiting := hwaiting ▸ List.mem_cons_self
  have hfresh : id ∉ r.run.handled := h.underway.agenda.waiting_fresh _ hmem
  have hmet : r.Met id := h.underway.agenda.waiting_met _ hmem
  have hnew : r.Renewed id := h.reads id hmem
  have hbegin := h.underway.begin hwaiting
  have hsane := h.sane.begin hwaiting
  obtain ⟨u, hu, htable⟩ : r.IsUnit id := h.sane.waiting _ hmem
  rcases hbegin.readBody hw (u := u) hu with ⟨hnone, heq⟩ | ⟨_, fault, _, _, _, heq⟩ |
    ⟨body, events, hbody, hwhere, hevents, _, _⟩
  · -- A unit that was met has a body, so it is one without code.
    rw [hread] at heq
    obtain rfl := (Prod.mk.inj heq).1
    obtain ⟨u', hu', hready⟩ := (h.underway.ready id hmet).unit
    obtain rfl := Option.some.inj (hu.symm.trans hu')
    refine ⟨h.pass hw.spelling hwaiting hu htable (hnone.resolve_right fun hnone => ?_),
      before_of_eq rfl rfl⟩
    have hsome := (hready htable).1
    rw [hnone] at hsome
    cases hsome
  · rw [hread] at heq
    cases (Prod.mk.inj heq).2
  · obtain ⟨m, hmarks, hm⟩ := marks_handle hsane hu htable hfresh
      (show ({ r with run := { r.run with waiting := later } } : Resolution).handle w (.read id) =
        (s, none) by rw [handle_read id hfresh, hread])
    have hrenewed : (r.begin (.read id) later).Renewed id := hnew
    have hnotes := notes_readBody hsane w hrenewed.due hread
    have hperusing : Perusing w (OfferedTo w calls) p (OfferedAs w calls) id _ _ _ _ _ :=
      hbegin.peruse hw offeredAs_of_find hu hbody hwhere hevents
    have hsane' := (hsane.readBody w id).1
    rw [hread] at hperusing hsane'
    have hopened : Sights p (OfferedAs w calls) (· = id) (r.begin (.read id) later) _ :=
      sights_openBody (Summary.ofEvents events).slots hu hbody
    have hsights := hopened.trans (hperusing.sights.mono fun _ => False.elim)
    have hstretch : Stretch p (OfferedAs w calls) (· = id) r s := by
      refine .of_works hwaiting hperusing.works hsights hmarks ?_ ?_ ?_ <;>
        obtain ⟨rfl, _⟩ | ⟨_, _, rfl⟩ := hm <;> rfl
    have hintact : s.program.Intact := hp.evolves (h.evolves.trans hstretch.evolves)
    have hsaid : Says w s id (.ofEvents events) :=
      ⟨_, body, events, hperusing.get?_eq hu htable hmet, hbody, hwhere, hevents, rfl⟩
    have hperused := hperusing.perused hw.spelling hintact
    have hnew' : s.Renewed id := hstretch.stays id hnew
    refine ⟨h.works hw.spelling hwaiting hstretch hsane' hperusing.underway hnotes
      (.perused _ hnew' hsaid hperused) (fun a n htakes _ => hperused.leads hnew' hsaid htakes)
      fun a n hshared hn => ?_, hstretch.before⟩
    have hne : a ≠ id := by
      rintro rfl
      exact hperusing.not_isTable hshared
    exact (hperusing.listed a n hne hn).imp_right fun htakes => hperused.leads hnew' hsaid htakes

/-- The turn of a unit that is looked up again leads to what it imported. -/
theorem Charted.recheck (h : Charted w p calls r) (hw : Steady w (OfferedTo w calls)) (hp : p.Intact)
    (hwaiting : r.run.waiting = .recheck id :: later) :
    Charted w p calls ((r.begin (.recheck id) later).recheck w id).1 ∧
      r.Before ((r.begin (.recheck id) later).recheck w id).1 := by
  have hmem : .recheck id ∈ r.run.waiting := hwaiting ▸ List.mem_cons_self
  have hagenda := h.underway.agenda
  have hfresh : id ∉ r.run.handled := hagenda.waiting_fresh _ hmem
  have hbegin := h.underway.begin hwaiting
  have hsane := h.sane.begin hwaiting
  have hunit : (r.begin (.recheck id) later).IsUnit id := h.sane.waiting _ hmem
  have hmet : (r.begin (.recheck id) later).Met id := hagenda.waiting_met _ hmem
  have hintact : (r.begin (.recheck id) later).program.Intact := hp.evolves h.evolves
  obtain ⟨hrevisited, hsights, hlisted⟩ :
      Revisited w p _ id ∧ Sights p (OfferedAs w calls) (· = id) _ _ ∧ _ :=
    hbegin.revisit hw offeredAs_of_find hintact hunit (h.recheck_old hmem) hp h.touches hfresh
  have hrechecked := hbegin.recheck hw id hmet (hagenda.waiting_unit _ hmem)
  have hstretch : Stretch p (OfferedAs w calls) (· = id) r _ :=
    .of_works hwaiting hrechecked.works hsights (marks_recheck hsane w hunit) rfl rfl rfl
  have htable := hrechecked.underway.agenda.handled_unit id ((hstretch.handled id).2 (.inr rfl))
  have hold : ¬ ((r.begin (.recheck id) later).recheck w id).1.Renewed id := by
    intro hnew
    rcases hstretch.renewed id hnew with hbefore | hawaits | hshared
    · exact h.rechecks id hmem hbefore
    · exact hrechecked.underway.agenda.waiting_fresh _ hawaits ((hstretch.handled id).2 (.inr rfl))
    · exact htable hshared
  refine ⟨h.works hw.spelling hwaiting hstretch (hsane.recheck w hunit).1 hrechecked.underway
    (notes_recheck hsane w hunit).1 (.revisited hold hrevisited) (fun a n htakes hnot => ?_)
    fun a n _ hn => (hlisted a n hn).imp_right ?_, hstretch.before⟩
  · refine hrevisited.leads hold htakes fun hglobal => hnot ?_
    exact (IsGlobal.isTable (r := start p) hglobal).mono (h.touches.units.trans hstretch.before.units)
  · rintro ⟨⟨former, _⟩, hx, rfl, hmeans⟩
    exact .import_ former hold hx hmeans

/-- A piece of work that succeeds keeps what holds between two pieces of work. -/
theorem Charted.handle (h : Charted w p calls r) (hw : Steady w (OfferedTo w calls)) (hp : p.Intact)
    (hwaiting : r.run.waiting = work :: later)
    (hhandle : ({ r with run := { r.run with waiting := later } } : Resolution).handle w work =
      (s, none)) : Charted w p calls s ∧ r.Before s := by
  have hfresh := h.underway.agenda.waiting_fresh work (hwaiting ▸ List.mem_cons_self)
  cases work with
  | read id =>
    rw [handle_read id hfresh] at hhandle
    exact h.read hw hp hwaiting hhandle
  | recheck id =>
    rw [handle_recheck id hfresh] at hhandle
    obtain rfl := (Prod.mk.inj hhandle).1
    exact h.recheck hw hp hwaiting

/-- All work that succeeds leaves nothing waiting, with reasons for all that was met. -/
theorem Charted.drain (h : Charted w p calls r) (hw : Steady w (OfferedTo w calls)) (hp : p.Intact)
    (hdrain : r.drain w fuel = (s, none)) :
    Charted w p calls s ∧ r.Before s ∧ s.run.waiting = [] := by
  have hall := drain_induction (P := fun s => Charted w p calls s ∧ r.Before s)
    (fun ⟨hs, hbefore⟩ hwaiting hhandle =>
      (hs.handle hw hp hwaiting hhandle).imp_right hbefore.trans) ⟨h, .refl r⟩ hdrain
  exact and_assoc.1 hall

/-- The unit of an entry point is met. -/
theorem Charted.enter (h : Charted w p calls r) (hw : Steady w (OfferedTo w calls))
    (hcall : call ∈ calls) (hd : call.2.or (w.lookup.find call.1 none) = some d)
    (htable : d.kind.isSharedTable = false) : Charted w p calls (r.unitFor call.1 d).1 := by
  have hoffered := offeredAs_of_call hcall hd
  have hsane := (h.sane.unitFor call.1 d).1
  have hnotes := notes_unitFor r call.1 d
  have hstretch : Stretch p (OfferedAs w calls) (fun _ => False) r (r.unitFor call.1 d).1 :=
    .of_looked (h.underway.unitFor hw.times call.1 hoffered.offeredTo).2.1
      (sights_unitFor r hoffered) (marks_unitFor h.sane call.1 d)
  obtain ⟨hs, _, hdenotes⟩ := h.underway.unitFor hw.times call.1 hoffered.offeredTo
  refine h.stretch hw.spelling hstretch (fun _ => False.elim) hsane hs (fun _ => False.elim)
    (fun id hid hnot => ?_) fun a n hshared hn => ?_
  · rcases hs.agenda.covered id hid with hshared | hin | ⟨x, hx, rfl⟩
    · exact absurd hshared hnot
    · rw [hnotes.handled] at hin
      exact .inl (h.underway.agenda.handled_met id hin)
    · rcases hnotes.waiting x hx with hold | heq
      · exact .inl (h.underway.agenda.waiting_met x hold)
      · exact .inr (heq ▸ .entry hcall hd htable hdenotes)
  · refine (exports_unitFor hn).imp_right ?_
    rintro ⟨rfl, _⟩
    obtain ⟨u, hu, htag⟩ := hdenotes.exists_unit
    refine absurd hshared (not_isTable_of_get? hu ?_)
    rw [UnitKind.isSharedTable_eq_of_tag htag, htable]

/-- An analysis that succeeds leaves nothing waiting, and returns the unit that its entry point denotes
if it is one that can be built. -/
theorem Charted.analyze {found : Option Nat} (h : Charted w p calls r)
    (hw : Steady w (OfferedTo w calls)) (hp : p.Intact) (hempty : r.run.waiting = [])
    (hcall : call ∈ calls) (hanalyze : r.analyze w call.1 call.2 = (s, .ok found)) :
    Charted w p calls s ∧ r.Before s ∧ s.run.waiting = [] ∧
      ∀ d, call.2.or (w.lookup.find call.1 none) = some d → d.kind.isSharedTable = false →
        ∃ root, found = some root ∧ s.Denotes call.1 d root := by
  cases found with
  | none =>
    obtain rfl := eq_of_analyze_none hanalyze
    refine ⟨h, .refl _, hempty, fun d hd htable => ?_⟩
    have hcases := analyzeOutcome w s call.1 call.2
    rw [hanalyze] at hcases
    cases hcases with
    | undefined hnone => rw [hd] at hnone; cases hnone
    | table hd' hshared =>
      rw [Option.some.inj (hd.symm.trans hd'), hshared] at htable
      cases htable
  | some root =>
    obtain ⟨d, hd, _, htable, rfl, hdrain⟩ := analyze_ok hanalyze
    obtain ⟨_, hlooked, hdenotes⟩ :=
      h.underway.unitFor hw.times call.1 (offeredAs_of_call hcall hd).offeredTo
    obtain ⟨hs, hbefore, hnone⟩ := (h.enter hw hcall hd htable).drain hw hp hdrain
    refine ⟨hs, hlooked.before.trans hbefore, hnone, fun d' hd' _ => ?_⟩
    obtain rfl := Option.some.inj (hd.symm.trans hd')
    exact ⟨_, rfl, hdenotes.mono hbefore⟩

/-- The rest of the calls of a run that succeeds. -/
theorem Charted.analyzeAll (h : Charted w p calls r) (hw : Steady w (OfferedTo w calls))
    (hp : p.Intact) (hempty : r.run.waiting = []) (hrest : ∀ call ∈ rest, call ∈ calls)
    (hcalls : r.analyzeAll w rest = (s, true)) :
    Charted w p calls s ∧ r.Before s ∧ s.run.waiting = [] ∧
      ∀ call ∈ rest, ∀ d, call.2.or (w.lookup.find call.1 none) = some d →
        d.kind.isSharedTable = false → ∃ id, s.Denotes call.1 d id := by
  induction rest generalizing r with
  | nil =>
    obtain rfl := (Prod.mk.inj hcalls).1
    exact ⟨h, .refl r, hempty, fun _ hcall => absurd hcall List.not_mem_nil⟩
  | cons call rest ih =>
    rw [analyzeAll_cons] at hcalls
    obtain ⟨hs, hfine⟩ := Prod.mk.inj hcalls
    obtain ⟨hok, hfine⟩ := Bool.and_eq_true_iff.1 hfine
    cases hanalyze : (r.analyze w call.1 call.2).2 with
    | error fault =>
      rw [hanalyze] at hok
      cases hok
    | ok found =>
      obtain ⟨hthis, hbefore, hnone, hentered⟩ :=
        h.analyze hw hp hempty (hrest call List.mem_cons_self) (Prod.ext rfl hanalyze)
      obtain ⟨hlast, hafter, hdone, hlater⟩ :=
        ih hthis hnone (fun x hx => hrest x (List.mem_cons_of_mem _ hx)) (Prod.ext hs hfine)
      refine ⟨hlast, hbefore.trans hafter, hdone, fun x hx d hd htable => ?_⟩
      rcases List.mem_cons.1 hx with rfl | hx
      · obtain ⟨id, _, hdenotes⟩ := hentered d hd htable
        exact ⟨id, hdenotes.mono hafter⟩
      · exact hlater x hx d hd htable

end Resolution

end ScriptBuild
