import Mathlib.Data.Set.Function
import ScriptBuild.Proofs.Resolution.Counterpart

namespace ScriptBuild

/-- Two units are the same but for their overload numbers, for the spelling of paths and, if they are
shared tables, for the order in which they list names. -/
structure BuildUnit.Alike (u v : BuildUnit) : Prop where
  name : u.name = v.name
  kind : u.kind.same v.kind
  timestamp : u.timestamp = v.timestamp
  body : Option.Rel (fun a b => a.same b) u.body v.body
  slots : u.slots.Perm v.slots
  order : u.kind.isSharedTable = false → u.slots = v.slots

/-- The target that takes the place of another one when units get other numbers. -/
def Target.rename (number : Nat → Nat) : Target → Target
  | .unit id => .unit (number id)
  | .unresolved => .unresolved

namespace Resolution

variable {p : Program} {named : String → Definition → Prop} {w : World}
  {calls calls' : List Call} {r s : Resolution} {id a b x : Nat} {n : String} {t : Target}
  {u v : BuildUnit} {seen : Option Freshness}

/-- A shared table of a run was known and got more slots, or was made. -/
theorem Origin.of_table (h : Origin p named seen id v) (htable : v.kind.isSharedTable) :
    (∃ u added, p.units.get? id = some u ∧ seen = (if added = [] then none else some .updated) ∧
      v.timestamp = u.timestamp ∧ v.body = u.body ∧ v.slots = u.slots ++ added ∧ added.Nodup ∧
      ∀ n ∈ added, n ∉ u.slots) ∨
    (p.units.size ≤ id ∧ seen = some .new ∧ v.timestamp = 0 ∧ v.body = some .table ∧
      v.slots.Nodup) := by
  have hnot {kind : UnitKind} (hkind : v.kind = kind) (hunit : kind.isSharedTable = false) : False := by
    rw [hkind, hunit] at htable
    cases htable
  cases h with
  | created d _ _ hunit _ hkind => exact (hnot hkind hunit).elim
  | renewed u d _ _ _ hkind _ hfile =>
    exact (hnot hkind (UnitKind.isSharedTable_of_isFile hfile)).elim
  | known u d _ _ hunit _ hkind => exact (hnot hkind hunit).elim
  | unmet u _ _ hunit hkind => exact (hnot hkind hunit).elim
  | table u added hu hmark _ _ htime hbody hslots hnodup hnew =>
    exact .inl ⟨u, added, hu, hmark, htime, hbody, hslots, hnodup, hnew⟩
  | newTable kind hid hmark _ _ htime hbody hnodup =>
    exact .inr ⟨hid, hmark, htime, hbody, hnodup⟩

/-- What a shared table lists, its counterpart lists. -/
theorem Counterpart.exports_table (h : Counterpart p r s a b) (hw : Impartial w calls)
    (hr : Finished w p calls r) (hs : Finished w p calls s) (htable : r.IsTable a)
    (hn : r.Exports a n) : s.Exports b n := by
  have htable' : s.IsTable b := (Twins.isTable_iff (h.twins hr.grows hs.grows)).1 htable
  rcases hr.listed a n htable hn with hold | ⟨c, hc, hleads⟩
  · have hlt : a < p.units.size := by
      by_contra hle
      rw [Exports, show (start p).program = p from rfl,
        Catalog.get?_eq_none (Nat.le_of_not_lt hle)] at hold
      cases hold
    obtain rfl := h.eq_of_lt hlt
    obtain ⟨u₀, hu₀⟩ := Catalog.exists_get? hlt
    obtain ⟨u, hu, hshared⟩ := htable
    have hbecomes := hr.grows.becomes hu₀ hu
    have hstart : (start p).IsTable b := ⟨u₀, hu₀, by rwa [← hbecomes.kind]⟩
    exact hold.mono hstart hs.grows
  · obtain ⟨c', hc', y, hleads', hay⟩ := Finished.exists_counterpart_of_leads hw hr hs hc hleads
    obtain rfl := h.unique hay
    exact hs.listed_of_leads hc' hleads' htable'

/-- A known unit exports the names of its slots. -/
theorem exports_iff_mem (hu : r.program.units.get? a = some u) : r.Exports a n ↔ n ∈ u.slots := by
  rw [Exports, hu, Option.any_some, BuildUnit.hasSlot, List.contains_iff_mem]

/-- Shared tables that are counterparts list the same, in any order, and are equally fresh. -/
theorem Counterpart.table (h : Counterpart p r s a b) (hw : Impartial w calls)
    (hr : Finished w p calls r) (hs : Finished w p calls s)
    (hu : r.program.units.get? a = some u) (hv : s.program.units.get? b = some v)
    (htable : u.kind.isSharedTable) : u.timestamp = v.timestamp ∧ u.body = v.body ∧
      u.slots.Perm v.slots ∧ r.mark a = s.mark b := by
  have htwins := h.twins hr.grows hs.grows
  have hshared : r.IsTable a := ⟨u, hu, htable⟩
  have hshared' : s.IsTable b := (Twins.isTable_iff htwins).1 hshared
  obtain ⟨v', hv', htable'⟩ := hshared'
  obtain rfl := Option.some.inj (hv.symm.trans hv')
  have hiff (n : String) : n ∈ u.slots ↔ n ∈ v.slots := by
    rw [← exports_iff_mem hu, ← exports_iff_mem hv]
    exact ⟨h.exports_table hw hr hs hshared, h.symm.exports_table hw hs hr ⟨v, hv, htable'⟩⟩
  rcases (hr.documented a u hu).of_table htable with ⟨u₀, added, hu₀, hmark, htime, hbody, hslots,
    hnodup, hnew⟩ | ⟨hle, hmark, htime, hbody, hnodup⟩
  · obtain rfl := h.eq_of_lt (Catalog.lt_size_of_get? hu₀)
    rcases (hs.documented b v hv).of_table htable' with ⟨v₀, added', hv₀, hmark', htime', hbody',
      hslots', hnodup', hnew'⟩ | ⟨hle, _⟩
    · obtain rfl := Option.some.inj (hu₀.symm.trans hv₀)
      have hadded : added.Perm added' := by
        refine (List.perm_ext_iff_of_nodup hnodup hnodup').2 fun n => ?_
        have hn := hiff n
        rw [hslots, hslots', List.mem_append, List.mem_append] at hn
        exact ⟨fun hin => (hn.1 (.inr hin)).resolve_left (hnew n hin),
          fun hin => (hn.2 (.inr hin)).resolve_left (hnew' n hin)⟩
      have hempty : added = [] ↔ added' = [] := by
        rw [← List.length_eq_zero_iff, hadded.length_eq, List.length_eq_zero_iff]
      refine ⟨htime.trans htime'.symm, hbody.trans hbody'.symm, ?_, ?_⟩
      · rw [hslots, hslots']
        exact hadded.append_left u₀.slots
      · simp only [hmark, hmark', hempty]
    · exact absurd (Catalog.lt_size_of_get? hu₀) (Nat.not_lt_of_le hle)
  · rcases (hs.documented b v hv).of_table htable' with ⟨v₀, _, hv₀, _⟩ | ⟨_, hmark', htime', hbody',
      hnodup'⟩
    · have hlt := Catalog.lt_size_of_get? hv₀
      rw [h.symm.eq_of_lt hlt] at hle
      exact absurd hlt (Nat.not_lt_of_le hle)
    · exact ⟨htime.trans htime'.symm, hbody.trans hbody'.symm,
        (List.perm_ext_iff_of_nodup hnodup hnodup').2 hiff, hmark.trans hmark'.symm⟩

/-- A unit that had no turn, and is not a shared table, is as it was at the start. -/
theorem Finished.unmet (hr : Finished w p calls r) (ha : a ∉ r.run.handled)
    (hu : r.program.units.get? a = some u) (htable : u.kind.isSharedTable = false) :
    ∃ u₀, p.units.get? a = some u₀ ∧ r.mark a = none ∧ u.timestamp = u₀.timestamp ∧
      u.body = u₀.body ∧ u.slots = u₀.slots := by
  have hnone : r.mark a = none := by
    by_contra hmet
    exact ha (hr.mem_handled (met_iff.2 hmet) (not_isTable_of_get? hu htable))
  have horigin := hr.documented a u hu
  rw [hnone] at horigin
  cases horigin with
  | created d _ hmark => cases hmark
  | renewed u₀ d _ hmark => cases hmark
  | known u₀ d _ hmark => rcases hmark with heq | heq <;> cases heq
  | unmet u₀ hu₀ _ _ hkind htime hbody =>
    exact ⟨u₀, hu₀, hnone, htime, hbody, hr.touches.slots a u₀ u ha hu₀ hu (by rwa [← hkind])⟩
  | table u₀ added _ _ hshared hkind =>
    rw [hkind, hshared] at htable
    cases htable
  | newTable kind _ hmark => cases hmark

theorem Counterpart.alike (h : Counterpart p r s a b) (hw : Impartial w calls)
    (hr : Finished w p calls r) (hs : Finished w p calls s)
    (hu : r.program.units.get? a = some u) (hv : s.program.units.get? b = some v) : u.Alike v := by
  obtain ⟨u', v', hu', hv', hname, hidentity⟩ := h.twins hr.grows hs.grows
  obtain rfl := Option.some.inj (hu.symm.trans hu')
  obtain rfl := Option.some.inj (hv.symm.trans hv')
  have hkind : u.kind.same v.kind :=
    UnitKind.same_iff.2 ⟨congrArg Identity.tag hidentity, congrArg Identity.path hidentity⟩
  have hbody {x y : Option Body} (heq : x = y) : Option.Rel (fun a b => a.same b) x y := by
    subst heq
    cases x with
    | none => exact .none
    | some body => exact .some (Body.same_refl body)
  cases htable : u.kind.isSharedTable with
  | true =>
    obtain ⟨htime, hsame, hslots, _⟩ := h.table hw hr hs hu hv htable
    exact ⟨hname, hkind, htime, hbody hsame, hslots, fun hunit => by rw [htable] at hunit; cases hunit⟩
  | false =>
    by_cases ha : a ∈ r.run.handled
    · have hpaired := h.paired hw hr hs ha
      have hakin := hpaired.akin hw hr hs hu hv
      have hslots := hpaired.slots_eq hw hr hs hu hv
      exact ⟨hname, hkind, hakin.timestamp, hakin.body, hslots ▸ .refl _, fun _ => hslots⟩
    · have hb : b ∉ s.run.handled := by rwa [← h.mem_handled_iff hw hr hs]
      have htable' : v.kind.isSharedTable = false := by
        rwa [← UnitKind.isSharedTable_eq_of_tag (congrArg Identity.tag hidentity)]
      obtain ⟨u₀, hu₀, _, htime, hwhere, hslots⟩ := hr.unmet ha hu htable
      obtain ⟨v₀, hv₀, _, htime', hwhere', hslots'⟩ := hs.unmet hb hv htable'
      obtain rfl := h.eq_of_lt (Catalog.lt_size_of_get? hu₀)
      obtain rfl := Option.some.inj (hu₀.symm.trans hv₀)
      have hsame : u.slots = v.slots := hslots.trans hslots'.symm
      exact ⟨hname, hkind, htime.trans htime'.symm, hbody (hwhere.trans hwhere'.symm), hsame ▸ .refl _,
        fun _ => hsame⟩

/-- What a unit takes a name from, its counterpart takes from the counterpart of the target. -/
theorem Counterpart.takes (h : Counterpart p r s a b) (hw : Impartial w calls) (hp : p.Intact)
    (hr : Finished w p calls r) (hs : Finished w p calls s) (htakes : r.program.Takes a t n) :
    ∃ t', s.program.Takes b t' n ∧ Corresponds p r s t t' := by
  -- What was imported at the start and still is was imported from a unit that was known.
  have hkept {b : Nat} (hb : b = a) (hold : p.Takes a t n)
      (hboth : p.Takes b t n → s.program.Takes b t n) :
      ∃ t', s.program.Takes b t' n ∧ Corresponds p r s t t' := by
    refine ⟨t, hboth (hb ▸ hold), .of_known fun other heq => ?_⟩
    exact hp.lt_of_takes (heq ▸ hold)
  by_cases ha : a ∈ r.run.handled
  · have hpaired := h.paired hw hr hs ha
    -- A name that is looked up is recorded unless it means the unit itself.
    have hlooked (hmeans : Means w r a n t) (hne : t ≠ .unit a) (hanswer : ∃ t', Means w s b n t')
        (hrecorded : ∀ t', t' ≠ .unit b → Means w s b n t' → s.program.Takes b t' n) :
        ∃ t', s.program.Takes b t' n ∧ Corresponds p r s t t' := by
      obtain ⟨t', hmeans'⟩ := hanswer
      have hsame := hpaired.means hw hr hs hmeans hmeans'
      refine ⟨t', hrecorded t' (fun heq => hne ?_) hmeans', hsame⟩
      rw [heq] at hsame
      cases hsame with
      | unit hab => rw [hab.unique_left h]
    cases hpaired.turns hw hr hs with
    | perused summary _ _ _ hperused hperused' =>
      rcases (hperused.takes t n).1 htakes with ⟨hn, x, rfl, htable⟩ | ⟨hn, hne, hmeans⟩
      · obtain ⟨y, htable', _⟩ := hperused'.lists n hn
        exact ⟨.unit y, (hperused'.takes _ n).2 (.inl ⟨hn, y, rfl, htable'⟩),
          .unit (htable.counterpart htable' hr hs)⟩
      · exact hlooked hmeans hne (hperused'.answers n hn) fun t' hne' hmeans' =>
          (hperused'.takes t' n).2 (.inr ⟨hn, hne', hmeans'⟩)
    | passed _ hpassed hpassed' =>
      have hold : p.Takes a t n := by rwa [Program.Takes, ← hpassed.imports]
      refine hkept (h.eq_of_lt (hp.taker a t n hold)) hold fun hboth => ?_
      rwa [Program.Takes, hpassed'.imports]
    | revisited _ hlt heq hrevisited hrevisited' =>
      rcases (hrevisited.takes t n).1 htakes with ⟨hold, hglobal⟩ | ⟨⟨former, hx⟩, hne, hmeans⟩
      · exact hkept heq hold fun hboth => (hrevisited'.takes t n).2 (.inl ⟨hboth, hglobal⟩)
      · have hx' : (former, n) ∈ lookedUpImports p b := heq ▸ hx
        exact hlooked hmeans hne (hrevisited'.answers _ hx') fun t' hne' hmeans' =>
          (hrevisited'.takes t' n).2 (.inr ⟨⟨former, hx'⟩, hne', hmeans'⟩)
  · have hb : b ∉ s.run.handled := by rwa [← h.mem_handled_iff hw hr hs]
    have hold : p.Takes a t n := by rwa [Program.Takes, ← hr.touches.imports a ha]
    refine hkept (h.eq_of_lt (hp.taker a t n hold)) hold fun hboth => ?_
    rwa [Program.Takes, hs.touches.imports b hb]

/-- What a unit depends on, the counterpart of the one depends on the counterpart of the other. -/
theorem Counterpart.edge (h : Counterpart p r s a b) (hw : Impartial w calls) (hp : p.Intact)
    (hr : Finished w p calls r) (hs : Finished w p calls s) (hedge : r.program.graph.Edge a x) :
    ∃ y, s.program.graph.Edge b y ∧ Counterpart p r s x y := by
  have hr' : r.program.Intact := hp.evolves hr.evolves
  have hs' : s.program.Intact := hp.evolves hs.evolves
  rcases hr'.edge_iff.1 hedge with ⟨n, htakes⟩ | hloose
  · obtain ⟨t', htakes', hsame⟩ := h.takes hw hp hr hs htakes
    cases hsame with
    | unit hxy => exact ⟨_, hs'.edge _ _ n htakes', hxy⟩
  · -- A dependency without an import was there at the start.
    have hold : p.Loose a x := hloose.of_evolves hp.toSound hr.evolves
    obtain rfl := h.eq_of_lt (hp.node a hold.1.hasNode_left)
    refine ⟨x, ?_, .known (hp.lt_of_edge hold.1)⟩
    by_cases ha : b ∈ r.run.handled
    · have hpaired := h.paired hw hr hs ha
      cases hpaired.turns hw hr hs with
      | perused _ _ _ _ hperused => exact absurd hloose (hperused.tight x)
      | passed _ _ hpassed => exact (hpassed.edge x).2 hold.1
      | revisited _ _ _ _ hrevisited => exact hrevisited.loose x hold
    · have hb : b ∉ s.run.handled := by rwa [← h.mem_handled_iff hw hr hs]
      exact (hs.touches.edge b x hb).2 hold.1

/-- A name has moved for a unit if it has moved for its counterpart. -/
theorem Paired.moved (h : Paired p r s a b) (hw : Impartial w calls) (hp : p.Intact)
    (hr : Finished w p calls r) (hs : Finished w p calls s)
    (hmoved : r.freshness a = .dependencyUpdated) : s.freshness b = .dependencyUpdated := by
  cases h.turns hw hr hs with
  | perused _ hnew => rcases hnew with heq | heq <;> rw [heq] at hmoved <;> cases hmoved
  | passed hnew => rcases hnew with heq | heq <;> rw [heq] at hmoved <;> cases hmoved
  | revisited _ _ heq hrevisited hrevisited' =>
    obtain ⟨⟨former, n⟩, hx, t, hmeans, hne⟩ := hrevisited.moved.1 hmoved
    have hx' : (former, n) ∈ lookedUpImports p b := heq ▸ hx
    obtain ⟨t', hmeans'⟩ := hrevisited'.answers _ hx'
    refine hrevisited'.moved.2 ⟨_, hx', t', hmeans', fun hstayed => hne ?_⟩
    have hsame := h.means hw hr hs hmeans hmeans'
    rw [hstayed] at hsame
    refine hsame.eq_of_known fun other heq => ?_
    obtain rfl : former = .unit other := heq
    exact hp.lt_of_takes (mem_lookedUpImports.1 hx).1

/-- A unit that is not old is as fresh as it was marked. -/
theorem freshness_eq_iff {freshness : Freshness} (hne : freshness ≠ .old) :
    r.freshness a = freshness ↔ r.mark a = some freshness := by
  rw [freshness_eq]
  cases r.mark a with
  | none => simpa using Ne.symm hne
  | some other => simp

theorem Counterpart.freshness (h : Counterpart p r s a b) (hw : Impartial w calls) (hp : p.Intact)
    (hr : Finished w p calls r) (hs : Finished w p calls s) : r.freshness a = s.freshness b := by
  obtain ⟨u, v, hu, hv, _, hidentity⟩ := h.twins hr.grows hs.grows
  have htag : u.kind.tag = v.kind.tag := congrArg Identity.tag hidentity
  cases htable : u.kind.isSharedTable with
  | true =>
    obtain ⟨_, _, _, hmark⟩ := h.table hw hr hs hu hv htable
    rw [freshness_eq, hmark, freshness_eq]
  | false =>
    have htable' : v.kind.isSharedTable = false := by rwa [← UnitKind.isSharedTable_eq_of_tag htag]
    by_cases ha : a ∈ r.run.handled
    · have hpaired := h.paired hw hr hs ha
      have hakin := hpaired.akin hw hr hs hu hv
      have hnew : r.freshness a = .new ↔ s.freshness b = .new := by
        rw [freshness_eq_iff (by decide), hakin.new, freshness_eq_iff (by decide)]
      have hupdated : r.freshness a = .updated ↔ s.freshness b = .updated := by
        rw [freshness_eq_iff (by decide), hakin.updated, freshness_eq_iff (by decide)]
      have hmoved : r.freshness a = .dependencyUpdated ↔ s.freshness b = .dependencyUpdated :=
        ⟨hpaired.moved hw hp hr hs, hpaired.symm.moved hw hp hs hr⟩
      -- What is neither of these is old.
      cases hthis : r.freshness a <;> cases hother : s.freshness b <;> simp_all
    · have hb : b ∉ s.run.handled := by rwa [← h.mem_handled_iff hw hr hs]
      obtain ⟨_, _, hmark, _⟩ := hr.unmet ha hu htable
      obtain ⟨_, _, hmark', _⟩ := hs.unmet hb hv htable'
      rw [freshness_eq, hmark, freshness_eq, hmark']

theorem Counterpart.lt_size (h : Counterpart p r s a b) (hr : Finished w p calls r)
    (hs : Finished w p calls s) : a < r.program.units.size ∧ b < s.program.units.size := by
  obtain ⟨u, v, hu, hv, _⟩ := h.twins hr.grows hs.grows
  exact ⟨Catalog.lt_size_of_get? hu, Catalog.lt_size_of_get? hv⟩

/-- Targets that correspond are renamed into each other by every numbering that follows
counterparts. -/
theorem Corresponds.rename {number : Nat → Nat} {t' : Target} (h : Corresponds p r s t t')
    (hnumber : ∀ a b, Counterpart p r s a b → number a = b) : t.rename number = t' := by
  cases h with
  | unit h => rw [Target.rename, hnumber _ _ h]
  | unresolved => rfl

end Resolution

end ScriptBuild
