import ScriptBuild.Proofs.Resolution.Faithful
import ScriptBuild.Proofs.Resolution.Idempotence
import ScriptBuild.Proofs.Resolution.Tracking

namespace ScriptBuild

namespace Program

variable {p q : Program} {a b a' b' root root' : Nat} {u v : BuildUnit} {name : String}
  {kind : UnitKind} {timestamp : Nat}

/-- Two units of two programs have the same name, and the same identifies them. -/
def Twins (p q : Program) (a b : Nat) : Prop :=
  ∃ u v, p.units.get? a = some u ∧ q.units.get? b = some v ∧ u.name = v.name ∧
    u.identity = v.identity

/-- A unit is the one that is found for its name and for what identifies it. -/
def Placed (p : Program) (a : Nat) : Prop :=
  ∃ u, p.units.get? a = some u ∧ p.units.findMatch u.name u.kind u.timestamp = some a

theorem Twins.symm (h : p.Twins q a b) : q.Twins p b a := by
  obtain ⟨u, v, hu, hv, hname, hidentity⟩ := h
  exact ⟨v, u, hv, hu, hname.symm, hidentity.symm⟩

theorem Twins.mono {p' q' : Program} (h : p.Twins q a b) (hp : p.units.Grows p'.units)
    (hq : q.units.Grows q'.units) : p'.Twins q' a b := by
  obtain ⟨u, v, hu, hv, hname, hidentity⟩ := h
  obtain ⟨u', hu', huu'⟩ := hp a u hu
  obtain ⟨v', hv', hvv'⟩ := hq b v hv
  exact ⟨u', v', hu', hv', by rw [huu'.name, hvv'.name, hname],
    by rw [huu'.identity, hvv'.identity, hidentity]⟩

theorem Placed.mono (h : p.Placed a) (hgrows : p.units.Grows q.units) : q.Placed a := by
  obtain ⟨u, hu, hmatch⟩ := h
  obtain ⟨v, hv, huv⟩ := hgrows a u hu
  refine ⟨v, hv, ?_⟩
  rw [huv.name, Catalog.findMatch_of_identity (show v.kind.identity v.timestamp = _ from huv.identity)]
  exact hgrows.findMatch hmatch

/-- What is found for a name and a kind is placed. -/
theorem placed_of_findMatch (h : p.units.findMatch name kind timestamp = some a) : p.Placed a := by
  obtain ⟨u, hu, hname, hidentity⟩ := Catalog.describes_of_findMatch h
  refine ⟨u, hu, ?_⟩
  rw [hname, Catalog.findMatch_of_identity (show u.kind.identity u.timestamp = _ from hidentity), h]

theorem Twins.unique (h : p.Twins q a b) (h' : p.Twins q a b') (hb : q.Placed b) (hb' : q.Placed b') :
    b = b' := by
  obtain ⟨u, v, hu, hv, hname, hidentity⟩ := h
  obtain ⟨u', v', hu', hv', hname', hidentity'⟩ := h'
  obtain ⟨w, hw, hmatch⟩ := hb
  obtain ⟨w', hw', hmatch'⟩ := hb'
  obtain rfl := Option.some.inj (hu.symm.trans hu')
  obtain rfl := Option.some.inj (hv.symm.trans hw)
  obtain rfl := Option.some.inj (hv'.symm.trans hw')
  have hsame : v.kind.identity v.timestamp = v'.kind.identity v'.timestamp :=
    hidentity.symm.trans hidentity'
  rw [← hname.symm.trans hname', Catalog.findMatch_of_identity hsame.symm, hmatch] at hmatch'
  exact Option.some.inj hmatch'

end Program

/-- A set of numbers that are told apart by partners in another set is no larger than that one. -/
theorem NodeSet.size_le_of_partners {x y : NodeSet} (partner : Nat → Nat → Prop)
    (hexists : ∀ id ∈ x, ∃ other ∈ y, partner id other)
    (hunique : ∀ id ∈ x, ∀ id' ∈ x, ∀ other, partner id other → partner id' other → id = id') :
    x.size ≤ y.size := by
  choose! f hf using hexists
  rw [← Std.ExtTreeSet.length_toList, ← Std.ExtTreeSet.length_toList, ← List.length_map f]
  have hnodup : x.toList.Nodup := by
    refine Std.ExtTreeSet.distinct_toList.imp fun hne heq => hne ?_
    rw [heq]
    exact Std.ReflCmp.compare_self
  have hmapped : (x.toList.map f).Nodup := by
    refine hnodup.map_on fun id hid id' hid' heq => ?_
    rw [Std.ExtTreeSet.mem_toList] at hid hid'
    exact hunique id hid id' hid' (f id) (hf id hid).2 (heq ▸ (hf id' hid').2)
  refine (hmapped.subperm fun other hother => ?_).length_le
  obtain ⟨id, hid, rfl⟩ := List.mem_map.1 hother
  exact Std.ExtTreeSet.mem_toList.2 (hf id (Std.ExtTreeSet.mem_toList.1 hid)).1

namespace Resolution

variable {B : Library} {past past' offered : Definition → Prop} {w : World} {r s : Resolution}
  {a b root root' : Nat} {name n : String} {t t' : Target} {d d' : Definition} {u v : BuildUnit}
  {directory directory' : Option FilePath}

/-- A unit was found for a definition on offer, or is the table of global variables. -/
structure Live (offered : Definition → Prop) (r : Resolution) (a : Nat) : Prop where
  placed : r.program.Placed a
  met : ¬ r.IsTable a → r.Met a
  sought : ∀ u, r.program.units.get? a = some u → u.kind.isSharedTable = false →
    ∃ d, offered d ∧ d.identity = u.identity

theorem Live.mono (h : Live offered r a) (hbefore : r.Before s) : Live offered s a := by
  obtain ⟨u, hu, _⟩ := h.placed
  have hlt := Catalog.lt_size_of_get? hu
  refine ⟨h.placed.mono hbefore.units, fun hunit => hbefore.met a (h.met ?_), fun v hv htable => ?_⟩
  · rwa [← hbefore.isTable_iff hlt]
  · have huv := hbefore.units.becomes hu hv
    rw [huv.identity]
    exact h.sought u hu (by rw [← huv.kind, htable])

/-- What a definition on offer denotes is live. -/
theorem Denotes.live (h : r.Denotes name d a) (hoffered : offered d) : Live offered r a := by
  cases htable : d.kind.isSharedTable with
  | false =>
    obtain ⟨u, hu, _, hidentity⟩ := Catalog.describes_of_findMatch (h.unit htable)
    refine ⟨Program.placed_of_findMatch (h.unit htable), fun _ => h.met htable, fun v hv _ => ?_⟩
    rw [Option.some.inj (hv.symm.trans hu)]
    exact ⟨d, hoffered, hidentity.symm⟩
  | true =>
    obtain ⟨u, hu, htag⟩ := h.exists_unit
    have hshared : u.kind.isSharedTable := by rw [UnitKind.isSharedTable_eq_of_tag htag, htable]
    refine ⟨Program.placed_of_findMatch (h.table htable), fun hnot => absurd ⟨u, hu, hshared⟩ hnot,
      fun v hv hunit => ?_⟩
    rw [Option.some.inj (hv.symm.trans hu), hshared] at hunit
    cases hunit

theorem GlobalTable.live (h : r.GlobalTable a) : Live offered r a := by
  have htable := IsGlobal.isTable h.isGlobal
  refine ⟨Program.placed_of_findMatch h, fun hnot => absurd htable hnot, fun u hu hunit => ?_⟩
  exact absurd htable (not_isTable_of_get? hu hunit)

/-- Units that are found for one name and one identity are twins. -/
theorem twins_of_findMatch {kind kind' : UnitKind} {timestamp timestamp' : Nat}
    (ha : r.program.units.findMatch name kind timestamp = some a)
    (hb : s.program.units.findMatch name kind' timestamp' = some b)
    (heq : kind.identity timestamp = kind'.identity timestamp') :
    r.program.Twins s.program a b := by
  obtain ⟨u, hu, hname, hidentity⟩ := Catalog.describes_of_findMatch ha
  obtain ⟨v, hv, hname', hidentity'⟩ := Catalog.describes_of_findMatch hb
  exact ⟨u, v, hu, hv, hname.trans hname'.symm, by rw [hidentity, hidentity', heq]⟩

theorem Denotes.twins (h : r.Denotes name d a) (h' : s.Denotes name d' b)
    (heq : d.identity = d'.identity) : r.program.Twins s.program a b := by
  have htag : d.kind.tag = d'.kind.tag := congrArg Identity.tag heq
  cases htable : d.kind.isSharedTable with
  | false =>
    exact twins_of_findMatch (h.unit htable)
      (h'.unit (by rw [← UnitKind.isSharedTable_eq_of_tag htag, htable])) heq
  | true =>
    have htable' : d'.kind.isSharedTable := by rw [← UnitKind.isSharedTable_eq_of_tag htag, htable]
    have hkind : d.kind = d'.kind := by
      generalize d.kind = k at htag htable
      generalize d'.kind = k' at htag
      cases k <;> cases k' <;> simp_all [UnitKind.tag, UnitKind.isSharedTable]
    have hmatch' := h'.table htable'
    rw [← hkind] at hmatch'
    exact twins_of_findMatch (h.table htable) hmatch' rfl

/-- Two targets are counterparts that are in use, or there is none. -/
inductive Matches (offered : Definition → Prop) (r s : Resolution) : Target → Target → Prop where
  | unit {a b : Nat} (ha : Live offered r a) (hb : Live offered s b)
      (htwins : r.program.Twins s.program a b) : Matches offered r s (.unit a) (.unit b)
  | unresolved : Matches offered r s .unresolved .unresolved

/-- A name stands for counterparts in two runs over the same world. -/
theorem Stands.matches (hw : Steady w offered)
    (hkey : directory.map FilePath.key = directory'.map FilePath.key)
    (h : Stands w r directory name t) (h' : Stands w s directory' name t') :
    Matches offered r s t t' := by
  have hfind := hw.spelling.find_eq name hkey
  have hknows := hw.spelling.knows_iff name hkey
  cases h with
  | unknown hunknown =>
    cases h' with
    | unknown => exact .unresolved
    | undefined => exact .unresolved
    | defined hknown => exact absurd (hknows.2 hknown) hunknown
  | undefined hnone =>
    cases h' with
    | unknown => exact .unresolved
    | undefined => exact .unresolved
    | defined hknown hfind' => rw [hnone, hfind'] at hfind; cases hfind
  | defined hknown hfound hdenotes =>
    cases h' with
    | unknown hunknown => exact absurd (hknows.1 hknown) hunknown
    | undefined hnone => rw [hnone, hfound] at hfind; cases hfind
    | defined _ hfound' hdenotes' =>
      rw [hfound, hfound'] at hfind
      exact .unit (hdenotes.live (hw.offers _ ⟨_, _, hfound⟩))
        (hdenotes'.live (hw.offers _ ⟨_, _, hfound'⟩)) (hdenotes.twins hdenotes' (Option.some.inj hfind))

/-- A run that records what the bodies of its units say. -/
structure Course (B : Library) (past : Definition → Prop) (w : World) (offered : Definition → Prop)
    (r : Resolution) : Prop where
  sweep : Sweep w offered r
  attentive : Attentive B w (Seen past offered) r

/-- What is known of a unit whose turn is over. -/
theorem Course.handled (h : Course B past w offered r) (ha : a ∈ r.run.handled) :
    ∃ u, r.program.units.get? a = some u ∧ u.kind.isSharedTable = false ∧ u.Current offered ∧
      (u.kind.hasBody → r.program.Told B a u) ∧ Settled w r a := by
  have hagenda := h.sweep.underway.agenda
  obtain ⟨u, hu, hready⟩ := (h.sweep.underway.ready a (hagenda.handled_met a ha)).unit
  have htable : u.kind.isSharedTable = false := by
    rw [← Bool.not_eq_true]
    exact fun hshared => hagenda.handled_unit a ha ⟨u, hu, hshared⟩
  refine ⟨u, hu, htable, (hready htable).2, fun hbody => ?_, h.sweep.settled a ha⟩
  refine h.attentive.faithful.told a u hu hbody fun hawaits => ?_
  exact hagenda.waiting_fresh _ hawaits ha

/-- Counterparts that are in use have the same time, so the library has the same for both. -/
theorem Course.timestamp_eq (h : Course B past w offered r) (h' : Course B past' w offered s)
    (hw : Dependable B past w offered) (hw' : Dependable B past' w offered)
    (hlive : Live offered r a) (hu : r.program.units.get? a = some u)
    (hv : s.program.units.get? b = some v) (htable : u.kind.isSharedTable = false)
    (hidentity : u.identity = v.identity) (hcurrent : u.Current offered)
    (hcurrent' : v.Current offered) : u.timestamp = v.timestamp := by
  obtain ⟨d, hoffered, heq⟩ := hlive.sought u hu htable
  have hunit : d.kind.isSharedTable = false := by
    rw [UnitKind.isSharedTable_eq_of_tag (congrArg Identity.tag heq), htable]
  rw [← hw.timestamp_eq (h.attentive.faithful.stems a u hu) hcurrent hoffered heq hunit]
  exact hw'.timestamp_eq (h'.attentive.faithful.stems b v hv) hcurrent' hoffered
    (heq.trans hidentity) hunit

/-- The bodies of counterparts whose turns are over say the same, and that is what is recorded. -/
theorem Course.tells (h : Course B past w offered r) (h' : Course B past' w offered s)
    (hw : Dependable B past w offered) (hw' : Dependable B past' w offered)
    (ha : a ∈ r.run.handled) (hb : b ∈ s.run.handled) (hlive : Live offered r a)
    (htwins : r.program.Twins s.program a b) (hu : r.program.units.get? a = some u)
    (hv : s.program.units.get? b = some v) (hbody : u.kind.hasBody) :
    ∃ events, r.program.Tells a u (.ofEvents events) ∧ s.program.Tells b v (.ofEvents events) := by
  obtain ⟨u', hu', htable, hcurrent, htold, _⟩ := h.handled ha
  obtain ⟨v', hv', htable', hcurrent', htold', _⟩ := h'.handled hb
  obtain rfl := Option.some.inj (hu.symm.trans hu')
  obtain rfl := Option.some.inj (hv.symm.trans hv')
  obtain ⟨u', v', hu', hv', hname, hidentity⟩ := htwins
  obtain rfl := Option.some.inj (hu.symm.trans hu')
  obtain rfl := Option.some.inj (hv.symm.trans hv')
  have htime := h.timestamp_eq h' hw hw' hlive hu hv htable hidentity hcurrent hcurrent'
  obtain ⟨events, hevents, htells⟩ := htold hbody
  obtain ⟨events', hevents', htells'⟩ := htold'
    (by rwa [← UnitKind.hasBody_eq_of_tag (congrArg Identity.tag hidentity)])
  rw [hname, hidentity, htime, hevents'] at hevents
  obtain rfl := Except.ok.inj hevents
  exact ⟨events', htells, htells'⟩

/-- The names of twins are looked up from one directory, however it is spelled. -/
theorem directoryOf_key (htwins : r.program.Twins s.program a b) :
    (r.directoryOf a).map FilePath.key = (s.directoryOf b).map FilePath.key := by
  obtain ⟨u, v, hu, hv, _, hidentity⟩ := htwins
  rw [directoryOf, hu, Option.bind_some, directoryOf, hv, Option.bind_some]
  have hsame : u.identity = (⟨v.kind, v.timestamp, .table⟩ : Definition).identity := hidentity
  exact directory?_key hsame

/-- What a unit takes a name from whose turn is over, its counterpart takes from the counterpart of
the target. -/
theorem Course.step (h : Course B past w offered r) (h' : Course B past' w offered s)
    (hw : Dependable B past w offered) (hw' : Dependable B past' w offered)
    (ha : a ∈ r.run.handled) (hb : b ∈ s.run.handled) (hlive : Live offered r a)
    (htwins : r.program.Twins s.program a b) (htakes : r.program.Takes a t n) :
    ∃ t', s.program.Takes b t' n ∧ Matches offered r s t t' := by
  obtain ⟨u, hu, _, _, _, hsettled⟩ := h.handled ha
  obtain ⟨v, hv, _, _, _, hsettled'⟩ := h'.handled hb
  have hbody : u.kind.hasBody := by
    by_contra hnone
    exact h.attentive.faithful.idle a u hu (by simpa using hnone) t n htakes
  obtain ⟨events, htells, htells'⟩ := h.tells h' hw hw' ha hb hlive htwins hu hv hbody
  by_cases hglobal : r.program.IsGlobal t
  · obtain ⟨t', ht', hglobal'⟩ := (htells'.globals n).1 ((htells.globals n).2 ⟨t, htakes, hglobal⟩)
    obtain ⟨table, rfl, htable⟩ := htells.table t n htakes hglobal
    obtain ⟨table', rfl, htable'⟩ := htells'.table t' n ht' hglobal'
    exact ⟨_, ht', .unit (GlobalTable.live htable) (GlobalTable.live htable')
      (twins_of_findMatch htable htable' rfl)⟩
  · have hslots : u.slots = v.slots := htells.slots.trans htells'.slots.symm
    obtain ⟨hreference, hown⟩ := (htells.names n).2 ⟨t, htakes, hglobal⟩
    rw [BuildUnit.hasSlot, hslots, ← BuildUnit.hasSlot] at hown
    obtain ⟨t', ht', hglobal'⟩ := (htells'.names n).1 ⟨hreference, hown⟩
    refine ⟨t', ht', ?_⟩
    cases hsettled t n htakes hglobal with
    | own => exact absurd htakes (h.attentive.faithful.linked.loop a n)
    | foreign _ hstands =>
      cases hsettled' t' n ht' hglobal' with
      | own => exact absurd ht' (h'.attentive.faithful.linked.loop b n)
      | foreign _ hstands' => exact hstands.matches hw.toSteady (directoryOf_key htwins) hstands'

/-- Counterparts whose turns are over export the same. -/
theorem Course.slots_eq (h : Course B past w offered r) (h' : Course B past' w offered s)
    (hw : Dependable B past w offered) (hw' : Dependable B past' w offered)
    (ha : a ∈ r.run.handled) (hb : b ∈ s.run.handled) (hlive : Live offered r a)
    (htwins : r.program.Twins s.program a b) (hu : r.program.units.get? a = some u)
    (hv : s.program.units.get? b = some v) : u.slots = v.slots := by
  cases hbody : u.kind.hasBody with
  | true =>
    obtain ⟨events, htells, htells'⟩ := h.tells h' hw hw' ha hb hlive htwins hu hv hbody
    rw [htells.slots, htells'.slots]
  | false =>
    obtain ⟨u', v', hu', hv', _, hidentity⟩ := htwins
    obtain rfl := Option.some.inj (hu.symm.trans hu')
    obtain rfl := Option.some.inj (hv.symm.trans hv')
    have htag : u.kind.tag = v.kind.tag := congrArg Identity.tag hidentity
    obtain ⟨u', hu', htable, _⟩ := h.handled ha
    obtain rfl := Option.some.inj (hu.symm.trans hu')
    rw [h.attentive.faithful.bare a u hu hbody htable, h'.attentive.faithful.bare b v hv]
    · rw [← UnitKind.hasBody_eq_of_tag htag, hbody]
    · rw [← UnitKind.isSharedTable_eq_of_tag htag, htable]

theorem Twins.refl (hplaced : r.program.Placed a) : r.program.Twins r.program a a := by
  obtain ⟨u, hu, _⟩ := hplaced
  exact ⟨u, u, hu, hu, rfl, rfl⟩

/-- Where a unit in use takes a name from is in use. -/
theorem Course.live (h : Course B past w offered r) (hw : Dependable B past w offered)
    (ha : a ∈ r.run.handled) (hlive : Live offered r a) (htakes : r.program.Takes a (.unit b) n) :
    Live offered r b := by
  obtain ⟨_, _, hmatches⟩ := h.step h hw hw ha ha hlive (Twins.refl hlive.placed) htakes
  cases hmatches with
  | unit hb => exact hb

/-- Units in use have been handled when nothing waits. -/
theorem Course.mem_handled (h : Course B past w offered r) (hempty : r.run.waiting = [])
    (hlive : Live offered r a) (hunit : ¬ r.IsTable a) : a ∈ r.run.handled := by
  rcases h.sweep.underway.agenda.covered a (hlive.met hunit) with htable | hin | ⟨work, hwork, _⟩
  · exact absurd htable hunit
  · exact hin
  · rw [hempty] at hwork
    cases hwork

/-- Of two twins, both are shared tables or neither is. -/
theorem Twins.isTable_iff (h : r.program.Twins s.program a b) : r.IsTable a ↔ s.IsTable b := by
  obtain ⟨u, v, hu, hv, _, hidentity⟩ := h
  have htag : u.kind.tag = v.kind.tag := congrArg Identity.tag hidentity
  simp only [IsTable, hu, hv, Option.some.injEq, exists_eq_left', UnitKind.isSharedTable_eq_of_tag htag]

/-- Where handled units lead from the root of one run, their counterparts lead from the root of
another one that has ended. -/
theorem Course.path (h : Course B past w offered r) (h' : Course B past' w offered s)
    (hw : Dependable B past w offered) (hw' : Dependable B past' w offered)
    (hempty : s.run.waiting = []) (hroot : Live offered r root) (hroot' : Live offered s root')
    (htwins : r.program.Twins s.program root root') (hpath : r.Anchored root a) :
    Live offered r a ∧ ∃ b, s.program.graph.Reaches root' b ∧ Live offered s b ∧
      r.program.Twins s.program a b := by
  induction hpath with
  | refl => exact ⟨hroot, root', .refl, hroot', htwins⟩
  | @tail x y _ hstep ih =>
    obtain ⟨hx, hedge⟩ := hstep
    obtain ⟨hlive, x', hreaches, hlive', htwins'⟩ := ih
    have hunit : ¬ s.IsTable x' := by
      rw [← Twins.isTable_iff htwins']
      exact h.sweep.underway.agenda.handled_unit x hx
    have hx' := h'.mem_handled hempty hlive' hunit
    obtain ⟨n, hn⟩ := h.attentive.faithful.linked.takes x y hedge
    obtain ⟨t', ht', hmatches⟩ := h.step h' hw hw' hx hx' hlive htwins' hn
    cases hmatches with
    | unit hy hy' htwins =>
      exact ⟨hy, _, hreaches.tail (h'.attentive.faithful.linked.edge _ _ n ht'), hy', htwins⟩

/-- A run begins over a program that records what the bodies of its units say. -/
theorem Course.start {p : Program} (h : p.Faithful B past fun _ => False)
    (hw : Dependable B past w offered) (hoffered : offered d)
    (hbody : d.kind.hasBody → w.events d.body = B name d.identity d.timestamp) :
    Course B past w offered ((start p).unitFor name d).1 ∧
      ((start p).unitFor name d).1.Denotes name d ((start p).unitFor name d).2 := by
  have hstart : Sweep w offered (Resolution.start p) := by
    refine ⟨.start w offered p, ⟨fun id hle t n htakes => ?_, fun id u hu _ => h.idle id u hu,
      fun id u hmem => absurd hmem List.not_mem_nil⟩, fun id hin => absurd hin Std.ExtTreeSet.not_mem_empty⟩
    exact absurd (h.linked.taker id t n htakes) (Nat.not_lt_of_le hle)
  have hattentive : Attentive B w (Seen past offered) (Resolution.start p) := by
    refine ⟨⟨h.linked, h.permitted, h.bare, h.idle, fun id u hu hfile => ?_, fun id u hu hcode _ => ?_⟩,
      fun id u hawaits => absurd hawaits List.not_mem_nil⟩
    · obtain ⟨d, hd, heq⟩ := h.stems id u hu hfile
      exact ⟨d, .inl hd, heq⟩
    · exact h.told id u hu hcode not_false
  obtain ⟨hs, hlooked, hdenotes⟩ := hstart.underway.unitFor hw.times name hoffered
  refine ⟨⟨hstart.looked hs hlooked rfl, hattentive.looked hlooked ?_⟩, hdenotes⟩
  exact hstart.underway.meets_unitFor hw.times name hoffered (.inr hoffered) hbody

/-- Working off the queue without a fault keeps on recording what bodies say. -/
theorem Course.drain {fuel : Nat} (h : Course B past w offered r) (hw : Dependable B past w offered)
    (hdrain : r.drain w fuel = (s, none)) : Course B past w offered s :=
  ⟨(h.sweep.drain hw.toSteady hdrain).1, h.attentive.drain hw h.sweep hdrain⟩

variable {r₁ : Resolution} {work : Work} {later : List Work} {fuel : Nat}

/-- A run from nothing mirrors one that has ended: all that it has handled has a counterpart there. -/
structure Mirrors (B : Library) (w : World) (offered : Definition → Prop) (r₁ : Resolution)
    (root : Nat) (r : Resolution) : Prop where
  course : Course B (fun _ => False) w offered r
  tracked : Tracked .empty root r
  root : Live offered r root
  handled : ∀ a ∈ r.run.handled, Live offered r a ∧
    ∃ b ∈ r₁.run.handled, r.program.Twins r₁.program a b

/-- What waits in a run from nothing has a counterpart too. -/
theorem Mirrors.next (h : Mirrors B w offered r₁ root r) (h₁ : Course B past w offered r₁)
    (hw : Dependable B past w offered) (hw' : Dependable B (fun _ => False) w offered)
    (hempty : r₁.run.waiting = []) (hroot : Live offered r₁ root')
    (htwins : r.program.Twins r₁.program root root') (hmem : work ∈ r.run.waiting) :
    Live offered r work.unit ∧ ∃ b ∈ r₁.run.handled, r.program.Twins r₁.program work.unit b := by
  obtain ⟨hlive, b, _, hlive', hpair⟩ := h.course.path h₁ hw' hw hempty h.root hroot htwins
    (h.tracked.waiting work hmem)
  have hunit := h.course.sweep.underway.agenda.waiting_unit work hmem
  exact ⟨hlive, b, h₁.mem_handled hempty hlive' (by rwa [← Twins.isTable_iff hpair]), hpair⟩

/-- A body that waits to be read can be read, because that of its counterpart was. -/
theorem Mirrors.handle (h : Mirrors B w offered r₁ root r) (h₁ : Course B past w offered r₁)
    (hw : Dependable B past w offered) (hw' : Dependable B (fun _ => False) w offered)
    (hwaiting : r.run.waiting = work :: later) (hlive : Live offered r work.unit)
    (hb : b ∈ r₁.run.handled) (hpair : r.program.Twins r₁.program work.unit b) :
    ∃ s, ({ r with run := { r.run with waiting := later } } : Resolution).handle w work =
      (s, none) := by
  have hmem : work ∈ r.run.waiting := hwaiting ▸ List.mem_cons_self
  have hfresh := h.course.sweep.underway.agenda.waiting_fresh work hmem
  cases work with
  | recheck id => exact ⟨_, handle_recheck id hfresh⟩
  | read id =>
    rw [handle_read id hfresh]
    obtain ⟨u, hu, hready⟩ := (h.course.sweep.underway.ready id
      (h.course.sweep.underway.agenda.waiting_met _ hmem)).unit
    rcases (h.course.sweep.underway.begin hwaiting).readBody hw.toSteady hu with
      ⟨_, heq⟩ | ⟨body, fault, hbody, hwhere, hfault, _⟩ | ⟨_, _, _, _, _, hnone, _⟩
    · exact ⟨_, heq⟩
    · obtain ⟨u', v, hu', hv, hname, hidentity⟩ := hpair
      obtain rfl := Option.some.inj (hu.symm.trans hu')
      obtain ⟨v', hv', _, hcurrent', htold, _⟩ := h₁.handled hb
      obtain rfl := Option.some.inj (hv.symm.trans hv')
      have htable := UnitKind.isSharedTable_of_hasBody hbody
      have htime := h.course.timestamp_eq h₁ hw' hw hlive hu hv htable hidentity (hready htable).2
        hcurrent'
      obtain ⟨events, hevents, _⟩ := htold
        (by rwa [← UnitKind.hasBody_eq_of_tag (congrArg Identity.tag hidentity)])
      obtain ⟨body', hwhere', hread⟩ := h.course.attentive.legible id u hmem hu hbody
      obtain rfl := Option.some.inj (hwhere.symm.trans hwhere')
      rw [hname, hidentity, htime, hevents, hfault] at hread
      cases hread
    · exact ⟨_, Prod.ext rfl hnone⟩

/-- Every piece of work of a run from nothing succeeds, and what it handles has a counterpart. -/
theorem Mirrors.step (h : Mirrors B w offered r₁ root r) (h₁ : Course B past w offered r₁)
    (hw : Dependable B past w offered) (hw' : Dependable B (fun _ => False) w offered)
    (hempty : r₁.run.waiting = []) (hroot : Live offered r₁ root')
    (htwins : r.program.Twins r₁.program root root') (hwaiting : r.run.waiting = work :: later) :
    ∃ s, ({ r with run := { r.run with waiting := later } } : Resolution).handle w work =
      (s, none) ∧ (Mirrors B w offered r₁ root s ∧ s.program.Twins r₁.program root root') ∧
        s.run.handled.size = r.run.handled.size + 1 := by
  have hmem : work ∈ r.run.waiting := hwaiting ▸ List.mem_cons_self
  have hfresh := h.course.sweep.underway.agenda.waiting_fresh work hmem
  obtain ⟨hlive, b, hb, hpair⟩ := h.next h₁ hw hw' hempty hroot htwins hmem
  obtain ⟨s, hhandle⟩ := h.handle h₁ hw hw' hwaiting hlive hb hpair
  obtain ⟨hsweep, hbefore, hhandled⟩ := h.course.sweep.handle hw.toSteady hwaiting hhandle
  have hkeep {a b : Nat} (hpair : r.program.Twins r₁.program a b) :
      s.program.Twins r₁.program a b := hpair.mono hbefore.units (.refl _)
  refine ⟨s, hhandle, ⟨⟨?_, h.tracked.handle hwaiting hhandle, h.root.mono hbefore, fun a ha => ?_⟩,
    hkeep htwins⟩, ?_⟩
  · exact ⟨hsweep, h.course.attentive.handle hw' h.course.sweep.underway hwaiting hhandle⟩
  · rw [hhandled] at ha
    rcases Std.ExtTreeSet.mem_insert.1 ha with heq | hin
    · rw [← Std.LawfulEqCmp.compare_eq_iff_eq.1 heq]
      exact ⟨hlive.mono hbefore, b, hb, hkeep hpair⟩
    · obtain ⟨hlive, b, hb, hpair⟩ := h.handled a hin
      exact ⟨hlive.mono hbefore, b, hb, hkeep hpair⟩
  · rw [hhandled, size_insert_of_not_mem hfresh]

/-- A run from nothing ends, and has no more to do than the one that it mirrors. -/
theorem Mirrors.drain (h : Mirrors B w offered r₁ root r) (h₁ : Course B past w offered r₁)
    (hw : Dependable B past w offered) (hw' : Dependable B (fun _ => False) w offered)
    (hempty : r₁.run.waiting = []) (hroot : Live offered r₁ root')
    (htwins : r.program.Twins r₁.program root root')
    (hfuel : r₁.run.handled.size ≤ r.run.handled.size + fuel) :
    ∃ s, r.drain w fuel = (s, none) := by
  have hbound {r : Resolution}
      (hr : Mirrors B w offered r₁ root r ∧ r.program.Twins r₁.program root root') :
      r.run.handled.size ≤ r₁.run.handled.size := by
    refine NodeSet.size_le_of_partners (r.program.Twins r₁.program)
      (fun a ha => (hr.1.handled a ha).2) fun a ha a' ha' b hpair hpair' => ?_
    exact hpair.symm.unique hpair'.symm (hr.1.handled a ha).1.placed (hr.1.handled a' ha').1.placed
  obtain ⟨s, hdrain, -⟩ := drain_ends hbound
    (fun hr hwaiting => hr.1.step h₁ hw hw' hempty hroot hr.2 hwaiting) ⟨h, htwins⟩ hfuel
  exact ⟨s, hdrain⟩

variable {p : Program} {entry : String} {definition : Option Definition}

/-- An analysis in a world that goes on from the past: in addition, the body of a given entry point
is that of the library. -/
structure Admissible (B : Library) (past : Definition → Prop) (w : World) (entry : String)
    (definition : Option Definition) : Prop
    extends Dependable B past w (OnOffer w definition) where
  entry : ∀ d, definition = some d → d.kind.hasBody → w.events d.body = B entry d.identity d.timestamp

/-- The programs that successful analyses lead to, one after the other and each in its own world, and
the definitions that were on offer on the way. In between a program may be saved and restored. -/
inductive History (B : Library) : (Definition → Prop) → Program → Prop where
  | empty : History B (fun _ => False) .empty
  | analyzed {past : Definition → Prop} {p : Program} {w : World} {entry : String}
      {definition : Option Definition} {r : Resolution} {found : Option Nat} (h : History B past p)
      (hw : Admissible B past w entry definition)
      (hanalyze : (start p).analyze w entry definition = (r, .ok found)) :
      History B (Seen past (OnOffer w definition)) r.program
  | restored {past : Definition → Prop} {p : Program} (h : History B past p) :
      History B past (.restore p.save)

/-- The body of the entry point is that of the library. -/
theorem Admissible.bodies_entry (hw : Admissible B past w entry definition)
    (hd : definition.or (w.lookup.find entry none) = some d) (hbody : d.kind.hasBody) :
    w.events d.body = B entry d.identity d.timestamp := by
  rcases Option.or_eq_some_iff.1 hd with hthis | ⟨_, hfind⟩
  · exact hw.entry d hthis hbody
  · exact hw.bodies entry none d hfind hbody

/-- An analysis that may go on from the past may begin from nothing as well. -/
theorem Admissible.forget (hw : Admissible B past w entry definition) :
    Admissible B (fun _ => False) w entry definition :=
  ⟨⟨hw.toSteady, fun _ _ => False.elim, hw.bodies, hw.globals, hw.foreign⟩, hw.entry⟩

/-- What a successful analysis leaves behind. -/
theorem course_of_analyze (h : p.Faithful B past fun _ => False)
    (hw : Admissible B past w entry definition)
    (hanalyze : (start p).analyze w entry definition = (r, .ok (some root))) :
    Course B past w (OnOffer w definition) r ∧ r.run.waiting = [] ∧
      r.run.handled.size ≤ workLimit ∧ ∃ d, definition.or (w.lookup.find entry none) = some d ∧
        OnOffer w definition d ∧ d.kind.isSharedTable = false ∧ r.Denotes entry d root := by
  obtain ⟨d, hd, hoffered, htable, hroot, hdrain⟩ := analyze_ok hanalyze
  obtain ⟨hcourse, hdenotes⟩ := Course.start h hw.toDependable hoffered (hw.bodies_entry hd)
  obtain ⟨_, hbefore, hempty, hsize⟩ := hcourse.sweep.drain hw.toSteady hdrain
  have hnone : ((start p).unitFor entry d).1.run.handled = ∅ :=
    ((Underway.start w (OnOffer w definition) p).unitFor hw.times entry hoffered).2.1.handled
  rw [hnone] at hsize
  rw [hroot] at hdenotes
  refine ⟨hcourse.drain hw.toDependable hdrain, hempty, ?_, d, hd, hoffered, htable,
    hdenotes.mono hbefore⟩
  simpa using hsize

/-- After any history a program records what the bodies of its units say. -/
theorem History.faithful (h : History B past p) : p.Faithful B past fun _ => False := by
  induction h with
  | empty => exact Program.faithful_empty
  | restored _ ih => exact ih.restore_save
  | @analyzed past p w entry definition r found _ hw hanalyze ih =>
    cases found with
    | none =>
      rw [eq_of_analyze_none hanalyze]
      exact ih.mono fun _ => .inl
    | some root =>
      obtain ⟨hcourse, hempty, _⟩ := course_of_analyze ih hw hanalyze
      have hfaithful := hcourse.attentive.faithful
      refine ⟨hfaithful.linked, hfaithful.permitted, hfaithful.bare, hfaithful.idle, hfaithful.stems,
        fun id u hu hbody _ => hfaithful.told id u hu hbody fun hawaits => ?_⟩
      rw [Awaits, hempty] at hawaits
      cases hawaits

end Resolution

end ScriptBuild
