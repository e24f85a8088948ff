import ScriptBuild.Proofs.Resolution.Charted
import ScriptBuild.Proofs.Resolution.Incremental

namespace ScriptBuild

theorem Body.same_refl (b : Body) : b.same b := by
  cases b <;> simp [Body.same, FilePath.same_iff]

/-- A unit that was known before denotes the same as long as there is a unit of its name and identity
before it, however many are added after it. -/
theorem Catalog.Grows.findMatch_iff {c d : Catalog} {id : Nat} {name : String} {kind : UnitKind}
    {timestamp : Nat} (h : c.Grows d) (hlt : id < c.size) :
    d.findMatch name kind timestamp = some id ↔ c.findMatch name kind timestamp = some id := by
  rw [findMatch_eq_some_iff, findMatch_eq_some_iff, h.describes_iff hlt]
  refine and_congr_right fun _ => forall_congr' fun other => imp_congr_right fun hother => ?_
  rw [h.describes_iff (Nat.lt_trans hother hlt)]

namespace Resolution

variable {p : Program} {named : String → Definition → Prop} {offered : Definition → Prop}
  {w : World} {calls : List Call} {r s : Resolution} {id a b a' b' x y : Nat} {n : String}
  {t t' : Target} {d d' : Definition} {u v u₀ : BuildUnit} {seen : Option Freshness}
  {summary : Summary}

/-- A world in which the order of entry points cannot matter: a lookup does not depend on how the path
of a directory is spelled, the definitions of one file agree on the time at which it was changed, and
the definitions of one thing at one time, under one name, carry the same body, which says the same. -/
structure Impartial (w : World) (calls : List Call) : Prop where
  spelling : w.lookup.IgnoresSpelling
  times : SameTimes (OfferedTo w calls)
  bodies : ∀ name d d', OfferedAs w calls name d → OfferedAs w calls name d' →
    d.identity = d'.identity → d.timestamp = d'.timestamp → d.body.same d'.body ∧
      ∀ events, w.events d.body = .ok events → w.events d'.body = .ok events

/-- What an impartial world offers, it offers for the whole run. -/
theorem Impartial.steady (h : Impartial w calls) : Steady w (OfferedTo w calls) :=
  ⟨h.spelling, h.times, fun _ => .inl⟩

/-- Only a file can have two times, and the definitions on offer agree on that of a file. -/
theorem Impartial.timestamp_eq (h : Impartial w calls) (hd : OfferedTo w calls d)
    (hd' : OfferedTo w calls d') (htable : d.kind.isSharedTable = false)
    (hidentity : d.identity = d'.identity) : d.timestamp = d'.timestamp := by
  have htag : d.kind.tag = d'.kind.tag := congrArg Identity.tag hidentity
  cases hephemeral : d.kind.isEphemeral with
  | true =>
    have htime := congrArg Identity.time hidentity
    simpa [Definition.identity, UnitKind.identity, hephemeral,
      ← UnitKind.isEphemeral_eq_of_tag htag] using htime
  | false => exact h.times d d' hd hd' (UnitKind.isFile_of_not htable hephemeral) hidentity

/-- A run that is over and all of whose analyses have succeeded. -/
structure Finished (w : World) (p : Program) (calls : List Call) (r : Resolution) : Prop
    extends Charted w p calls r where
  done : r.run.waiting = []
  entered : ∀ call ∈ calls, ∀ d, call.2.or (w.lookup.find call.1 none) = some d →
    d.kind.isSharedTable = false → ∃ id, r.Denotes call.1 d id

/-- In a finished run every unit that was met has been handled, shared tables apart. -/
theorem Finished.mem_handled (h : Finished w p calls r) (hmet : r.Met a) (htable : ¬ r.IsTable a) :
    a ∈ r.run.handled := by
  rcases h.underway.agenda.covered a hmet with hshared | hin | ⟨work, hwork, _⟩
  · exact absurd hshared htable
  · exact hin
  · rw [h.done] at hwork
    cases hwork

/-- A finished run has only added units to the program it started from. -/
theorem Finished.grows (h : Finished w p calls r) : p.units.Grows r.program.units := h.touches.units

/-- A unit of a run and the one of another run that stands for the same thing. Two runs start from
    one program and analyze the same entry points, each in its own order. A unit that was known at
    the start is its own counterpart; one that was made has the counterpart that was made for the
    same definition. -/
inductive Counterpart (p : Program) (r s : Resolution) : Nat → Nat → Prop where
  | known {a : Nat} (ha : a < p.units.size) : Counterpart p r s a a
  | made {a b : Nat} (ha : p.units.size ≤ a) (hb : p.units.size ≤ b)
      (htwins : r.program.Twins s.program a b) (hplaced : r.program.Placed a)
      (hplaced' : s.program.Placed b) : Counterpart p r s a b

namespace Counterpart

theorem symm (h : Counterpart p r s a b) : Counterpart p s r b a := by
  cases h with
  | known ha => exact .known ha
  | made ha hb htwins hplaced hplaced' => exact .made hb ha htwins.symm hplaced' hplaced

/-- A unit has at most one counterpart in the other run. -/
theorem unique (h : Counterpart p r s a b) (h' : Counterpart p r s a b') : b = b' := by
  cases h with
  | known ha =>
    cases h' with
    | known => rfl
    | made ha' => exact absurd ha (Nat.not_lt_of_le ha')
  | made ha _ htwins _ hplaced =>
    cases h' with
    | known ha' => exact absurd ha' (Nat.not_lt_of_le ha)
    | made _ _ htwins' _ hplaced' => exact htwins.unique htwins' hplaced hplaced'

/-- A unit is the counterpart of at most one unit of the first run. -/
theorem unique_left (h : Counterpart p r s a b) (h' : Counterpart p r s a' b) : a = a' :=
  h.symm.unique h'.symm

/-- The counterpart of a unit that was known at the start is that unit. -/
theorem eq_of_lt (h : Counterpart p r s a b) (ha : a < p.units.size) : b = a := h.unique (.known ha)

/-- Counterparts are told apart from other units by the same things. -/
theorem twins (h : Counterpart p r s a b) (hr : p.units.Grows r.program.units)
    (hs : p.units.Grows s.program.units) : r.program.Twins s.program a b := by
  cases h with
  | known ha =>
    obtain ⟨u₀, hu₀⟩ := Catalog.exists_get? ha
    obtain ⟨u, hu, hbecomes⟩ := hr a u₀ hu₀
    obtain ⟨v, hv, hbecomes'⟩ := hs a u₀ hu₀
    exact ⟨u, v, hu, hv, hbecomes.name.trans hbecomes'.name.symm,
      hbecomes.identity.trans hbecomes'.identity.symm⟩
  | made _ _ htwins => exact htwins

/-- A unit that was known keeps its number in both runs. -/
theorem eq_of_twins (hr : p.units.Grows r.program.units) (hs : p.units.Grows s.program.units)
    (htwins : r.program.Twins s.program a b) (hplaced : r.program.Placed a)
    (hplaced' : s.program.Placed b) (ha : a < p.units.size) : a = b := by
  obtain ⟨u, v, hu, hv, hname, hidentity⟩ := htwins
  obtain ⟨u', hu', hmatch⟩ := hplaced
  obtain ⟨v', hv', hmatch'⟩ := hplaced'
  obtain rfl := Option.some.inj (hu.symm.trans hu')
  obtain rfl := Option.some.inj (hv.symm.trans hv')
  have hsame : u.kind.identity u.timestamp = v.kind.identity v.timestamp := hidentity
  rw [hr.findMatch_iff ha, ← hs.findMatch_iff ha, hname, Catalog.findMatch_of_identity hsame,
    hmatch'] at hmatch
  exact (Option.some.inj hmatch).symm

/-- Units that nothing tells apart are counterparts, provided both are known or both are placed. -/
theorem of_twins (hr : p.units.Grows r.program.units) (hs : p.units.Grows s.program.units)
    (htwins : r.program.Twins s.program a b) (hplaced : r.program.Placed a)
    (hplaced' : s.program.Placed b) : Counterpart p r s a b := by
  by_cases ha : a < p.units.size
  · obtain rfl := eq_of_twins hr hs htwins hplaced hplaced' ha
    exact .known ha
  · by_cases hb : b < p.units.size
    · exact absurd (eq_of_twins hs hr htwins.symm hplaced' hplaced hb ▸ hb) ha
    · exact .made (Nat.le_of_not_lt ha) (Nat.le_of_not_lt hb) htwins hplaced hplaced'

end Counterpart

/-- Two targets are counterparts, or a name is found nowhere in both runs. -/
inductive Corresponds (p : Program) (r s : Resolution) : Target → Target → Prop where
  | unit {a b : Nat} (h : Counterpart p r s a b) : Corresponds p r s (.unit a) (.unit b)
  | unresolved : Corresponds p r s .unresolved .unresolved

namespace Corresponds

theorem symm (h : Corresponds p r s t t') : Corresponds p s r t' t := by
  cases h with
  | unit h => exact .unit h.symm
  | unresolved => exact .unresolved

/-- A target that was known at the start corresponds to itself only. -/
theorem eq_of_known (h : Corresponds p r s t t')
    (hknown : ∀ b, t' = .unit b → b < p.units.size) : t = t' := by
  cases h with
  | unit h => rw [h.symm.eq_of_lt (hknown _ rfl)]
  | unresolved => rfl

/-- A target that was known at the start corresponds to itself. -/
theorem of_known (hknown : ∀ b, t = .unit b → b < p.units.size) : Corresponds p r s t t := by
  cases t with
  | unit b => exact .unit (.known (hknown b rfl))
  | unresolved => exact .unresolved

/-- Targets that match for the lookup correspond to each other. -/
theorem of_matches (hr : p.units.Grows r.program.units) (hs : p.units.Grows s.program.units)
    (h : Matches offered r s t t') : Corresponds p r s t t' := by
  cases h with
  | unit ha hb htwins => exact .unit (.of_twins hr hs htwins ha.placed hb.placed)
  | unresolved => exact .unresolved

end Corresponds

/-- A unit that was made for a definition, and is not a shared table. -/
theorem Origin.made_for (h : Origin p named seen id v) (hid : p.units.size ≤ id)
    (htable : v.kind.isSharedTable = false) :
    ∃ d, seen = some .new ∧ named v.name d ∧ d.identity = v.identity ∧ v.timestamp = d.timestamp ∧
      v.body = some d.body ∧ (v.kind.hasBody = false → v.slots = []) := by
  have hnone {u₀ : BuildUnit} (hu₀ : p.units.get? id = some u₀) : False :=
    Nat.not_lt_of_le hid (Catalog.lt_size_of_get? hu₀)
  cases h with
  | created d _ hmark _ hnamed hkind htime hbody hslots =>
    refine ⟨d, hmark, hnamed, ?_, htime, hbody, hslots⟩
    rw [BuildUnit.identity, hkind, htime, Definition.identity]
  | renewed u₀ d hu₀ => exact (hnone hu₀).elim
  | known u₀ d hu₀ => exact (hnone hu₀).elim
  | unmet u₀ hu₀ => exact (hnone hu₀).elim
  | table u₀ added hu₀ => exact (hnone hu₀).elim
  | newTable kind _ _ hshared hkind =>
    rw [hkind, hshared] at htable
    cases htable

/-- A unit that was known and met, and is not a shared table: either its file is newer, or it is as it
was. -/
theorem Origin.found_for (h : Origin p named seen id v) (hu₀ : p.units.get? id = some u₀)
    (htable : v.kind.isSharedTable = false) (hmet : seen ≠ none) :
    ∃ d, named v.name d ∧ d.identity = v.identity ∧
      ((seen = some .updated ∧ u₀.kind.isFile ∧ u₀.timestamp < d.timestamp ∧
          v.timestamp = d.timestamp ∧ v.body = some d.body) ∨
        ((seen = some .old ∨ seen = some .dependencyUpdated) ∧
          (u₀.kind.isFile → d.timestamp ≤ u₀.timestamp) ∧ v.timestamp = u₀.timestamp ∧
          v.body = u₀.body.or (some d.body))) := by
  have hlt := Catalog.lt_size_of_get? hu₀
  cases h with
  | created d hid => exact absurd hlt (Nat.not_lt_of_le hid)
  | renewed u d hu hmark hnamed hkind hidentity hfile hnewer htime hbody =>
    obtain rfl := Option.some.inj (hu₀.symm.trans hu)
    refine ⟨d, hnamed, ?_, .inl ⟨hmark, hfile, hnewer, htime, hbody⟩⟩
    have hephemeral := UnitKind.isEphemeral_of_isFile hfile
    rw [hidentity, BuildUnit.identity, BuildUnit.identity, hkind, UnitKind.identity,
      UnitKind.identity, hephemeral]
    rfl
  | known u d hu hmark _ hnamed hkind hidentity hcurrent htime hbody =>
    obtain rfl := Option.some.inj (hu₀.symm.trans hu)
    refine ⟨d, hnamed, ?_, .inr ⟨hmark, hcurrent, htime, hbody⟩⟩
    rw [hidentity, BuildUnit.identity, BuildUnit.identity, hkind, htime]
  | unmet u _ hmark => exact absurd hmark hmet
  | table u added _ _ hshared hkind =>
    rw [hkind, hshared] at htable
    cases htable
  | newTable kind hid => exact absurd hlt (Nat.not_lt_of_le hid)

/-- Two units have the same time and the same body, are equally fresh but for dependencies that have
moved, and if they were renewed their bodies say the same. -/
structure Akin (w : World) (seen seen' : Option Freshness) (u v : BuildUnit) : Prop where
  timestamp : u.timestamp = v.timestamp
  body : Option.Rel (fun a b => a.same b) u.body v.body
  new : seen = some .new ↔ seen' = some .new
  updated : seen = some .updated ↔ seen' = some .updated
  events : seen = some .new ∨ seen = some .updated → ∀ body events, u.body = some body →
    w.events body = .ok events → ∃ body', v.body = some body' ∧ w.events body' = .ok events

/-- Units for definitions of one thing under one name that were both made, or both renewed. -/
theorem Impartial.akin (hw : Impartial w calls) (hd : OfferedAs w calls n d)
    (hd' : OfferedAs w calls n d') (hidentity : d.identity = d'.identity)
    (htable : d.kind.isSharedTable = false) (htime : u.timestamp = d.timestamp)
    (htime' : v.timestamp = d'.timestamp) (hbody : u.body = some d.body)
    (hbody' : v.body = some d'.body) : Akin w seen seen u v := by
  have htimes := hw.timestamp_eq hd.offeredTo hd'.offeredTo htable hidentity
  obtain ⟨hsame, hevents⟩ := hw.bodies n d d' hd hd' hidentity htimes
  refine ⟨htime.trans (htimes.trans htime'.symm), ?_, .rfl, .rfl, fun _ body events heq hok => ?_⟩
  · rw [hbody, hbody']
    exact .some hsame
  · obtain rfl := Option.some.inj (hbody.symm.trans heq)
    exact ⟨d'.body, hbody', hevents events hok⟩

/-- Counterparts that were made are akin: both were read with the one definition they have. -/
theorem Finished.akin_made (hw : Impartial w calls) (hr : Finished w p calls r)
    (hs : Finished w p calls s) (ha : p.units.size ≤ a) (hb : p.units.size ≤ b)
    (htwins : r.program.Twins s.program a b) (hu : r.program.units.get? a = some u)
    (hv : s.program.units.get? b = some v) (htable : u.kind.isSharedTable = false) :
    Akin w (r.mark a) (s.mark b) u v := by
  obtain ⟨u', v', hu', hv', hname, hidentity⟩ := htwins
  obtain rfl := Option.some.inj (hu.symm.trans hu')
  obtain rfl := Option.some.inj (hv.symm.trans hv')
  have htable' : v.kind.isSharedTable = false := by
    rwa [← UnitKind.isSharedTable_eq_of_tag (congrArg Identity.tag hidentity)]
  obtain ⟨d, hmark, hd, heq, htime, hbody, _⟩ := (hr.documented a u hu).made_for ha htable
  obtain ⟨d', hmark', hd', heq', htime', hbody', _⟩ := (hs.documented b v hv).made_for hb htable'
  rw [hmark, hmark']
  refine hw.akin hd (hname ▸ hd') (heq.trans (hidentity.trans heq'.symm)) ?_ htime htime' hbody hbody'
  rwa [UnitKind.isSharedTable_eq_of_tag (congrArg Identity.tag heq)]

/-- A known unit that both runs have met is akin to itself, since the files it may be found in agree
on their time and body. -/
theorem Finished.akin_known (hw : Impartial w calls) (hr : Finished w p calls r)
    (hs : Finished w p calls s) (ha : a < p.units.size) (hmet : r.Met a) (hmet' : s.Met a)
    (hu : r.program.units.get? a = some u) (hv : s.program.units.get? a = some v)
    (htable : u.kind.isSharedTable = false) : Akin w (r.mark a) (s.mark a) u v := by
  obtain ⟨u₀, hu₀⟩ := Catalog.exists_get? ha
  have hbecomes := hr.grows.becomes hu₀ hu
  have hbecomes' := hs.grows.becomes hu₀ hv
  have htable' : v.kind.isSharedTable = false := by rwa [hbecomes'.kind, ← hbecomes.kind]
  have hname : v.name = u.name := hbecomes'.name.trans hbecomes.name.symm
  obtain ⟨d, hd, heq, hcases⟩ := (hr.documented a u hu).found_for hu₀ htable (met_iff.1 hmet)
  obtain ⟨d', hd', heq', hcases'⟩ := (hs.documented a v hv).found_for hu₀ htable' (met_iff.1 hmet')
  rw [hname] at hd'
  have hsame : d.identity = d'.identity := by
    rw [heq, heq', hbecomes.identity, hbecomes'.identity]
  have hunit : d.kind.isSharedTable = false := by
    rwa [UnitKind.isSharedTable_eq_of_tag (congrArg Identity.tag heq)]
  have htimes := hw.timestamp_eq hd.offeredTo hd'.offeredTo hunit hsame
  rcases hcases with ⟨hmark, hfile, hnewer, htime, hbody⟩ | ⟨hmark, hcurrent, htime, hbody⟩
  · rcases hcases' with ⟨hmark', _, _, htime', hbody'⟩ | ⟨_, hcurrent', _, _⟩
    · rw [hmark, hmark']
      exact hw.akin hd hd' hsame hunit htime htime' hbody hbody'
    · have hle := hcurrent' hfile
      omega
  · rcases hcases' with ⟨_, hfile, hnewer, _, _⟩ | ⟨hmark', _, htime', hbody'⟩
    · have hle := hcurrent hfile
      omega
    · refine ⟨htime.trans htime'.symm, ?_, ?_, ?_, fun hnew => ?_⟩
      · rw [hbody, hbody']
        cases u₀.body with
        | some body => exact .some (Body.same_refl body)
        | none => exact .some (hw.bodies _ d d' hd hd' hsame htimes).1
      · rcases hmark with heq | heq <;> rcases hmark' with heq' | heq' <;> simp [heq, heq']
      · rcases hmark with heq | heq <;> rcases hmark' with heq' | heq' <;> simp [heq, heq']
      · rcases hmark with heq | heq <;> simp [heq] at hnew

/-- Two units that are counterparts and have both had their turns. -/
structure Paired (p : Program) (r s : Resolution) (a b : Nat) : Prop where
  counterpart : Counterpart p r s a b
  left : a ∈ r.run.handled
  right : b ∈ s.run.handled

theorem Paired.symm (h : Paired p r s a b) : Paired p s r b a := ⟨h.counterpart.symm, h.right, h.left⟩

/-- Paired units are akin, whether they were made or known before. -/
theorem Paired.akin (h : Paired p r s a b) (hw : Impartial w calls) (hr : Finished w p calls r)
    (hs : Finished w p calls s) (hu : r.program.units.get? a = some u)
    (hv : s.program.units.get? b = some v) : Akin w (r.mark a) (s.mark b) u v := by
  obtain ⟨hcounterpart, ha, hb⟩ := h
  obtain ⟨u', hu', htable⟩ := hr.isUnit ha
  obtain rfl := Option.some.inj (hu.symm.trans hu')
  cases hcounterpart with
  | known hlt =>
    exact hr.akin_known hw hs hlt (hr.underway.agenda.handled_met a ha)
      (hs.underway.agenda.handled_met a hb) hu hv htable
  | made hle hle' htwins => exact hr.akin_made hw hs hle hle' htwins hu hv htable

/-- A unit is renewed when its mark is new or updated. -/
theorem renewed_iff_mark : r.Renewed a ↔ r.mark a = some .new ∨ r.mark a = some .updated := by
  rw [Renewed, freshness_eq]
  cases r.mark a with
  | none => simp
  | some freshness => simp

/-- Of two paired units, both were renewed or neither was. -/
theorem Paired.renewed_iff (h : Paired p r s a b) (hw : Impartial w calls)
    (hr : Finished w p calls r) (hs : Finished w p calls s) : r.Renewed a ↔ s.Renewed b := by
  obtain ⟨u, hu, _⟩ := hr.isUnit h.left
  obtain ⟨v, hv, _⟩ := hs.isUnit h.right
  have hakin := h.akin hw hr hs hu hv
  rw [renewed_iff_mark, renewed_iff_mark, hakin.new, hakin.updated]

/-- What the body of a renewed unit says, that of its counterpart says. -/
theorem Paired.said (h : Paired p r s a b) (hw : Impartial w calls) (hr : Finished w p calls r)
    (hs : Finished w p calls s) (hnew : r.Renewed a) (hsaid : Says w r a summary) :
    Says w s b summary := by
  obtain ⟨u, body, events, hu, hcode, hbody, hevents, hsummary⟩ := hsaid
  obtain ⟨v, hv, _⟩ := hs.isUnit h.right
  obtain ⟨body', hbody', hevents'⟩ := (h.akin hw hr hs hu hv).events (renewed_iff_mark.1 hnew) body
    events hbody hevents
  obtain ⟨u', v', hu', hv', _, hidentity⟩ := h.counterpart.twins hr.grows hs.grows
  obtain rfl := Option.some.inj (hu.symm.trans hu')
  obtain rfl := Option.some.inj (hv.symm.trans hv')
  refine ⟨v, body', events, hv, ?_, hbody', hevents', hsummary⟩
  rwa [← UnitKind.hasBody_eq_of_tag (congrArg Identity.tag hidentity)]

/-- The turns of two counterparts had the same outcome. -/
inductive Turns (w : World) (p : Program) (r s : Resolution) (a b : Nat) : Prop where
  | perused (summary : Summary) (hnew : r.Renewed a) (hsaid : Says w r a summary)
      (hsaid' : Says w s b summary) (h : Perused w r a summary) (h' : Perused w s b summary)
  | passed (hnew : r.Renewed a) (h : Passed p r a) (h' : Passed p s b)
  | revisited (hold : ¬ r.Renewed a) (hknown : a < p.units.size) (heq : b = a)
      (h : Revisited w p r a) (h' : Revisited w p s b)

/-- A unit that was made is to be read. -/
theorem Finished.renewed_of_made (hr : Finished w p calls r) (ha : a ∈ r.run.handled)
    (hle : p.units.size ≤ a) : r.Renewed a := by
  obtain ⟨u, hu, htable⟩ := hr.isUnit ha
  obtain ⟨d, hmark, _⟩ := (hr.documented a u hu).made_for hle htable
  exact renewed_iff_mark.2 (.inl hmark)

/-- A unit that was passed over says nothing. -/
theorem Passed.silent (h : Passed p r a) : ¬ Says w r a summary := by
  rintro ⟨u, _, _, hu, hcode, _⟩
  rw [h.code u hu] at hcode
  cases hcode

/-- Turns of paired units have the same outcome: both are read and say the same, or both pass with
what was recorded. -/
theorem Paired.turns (h : Paired p r s a b) (hw : Impartial w calls) (hr : Finished w p calls r)
    (hs : Finished w p calls s) : Turns w p r s a b := by
  have hrenewed := h.renewed_iff hw hr hs
  cases hr.turn a h.left with
  | perused summary hnew hsaid hperused =>
    have hsaid' := h.said hw hr hs hnew hsaid
    cases hs.turn b h.right with
    | perused summary' _ hother hperused' =>
      obtain rfl := hother.unique hsaid'
      exact .perused _ hnew hsaid hsaid' hperused hperused'
    | passed _ hpassed => exact absurd hsaid' hpassed.silent
    | revisited hold => exact absurd (hrenewed.1 hnew) hold
  | passed hnew hpassed =>
    cases hs.turn b h.right with
    | perused summary hnew' hsaid' =>
      exact absurd (h.symm.said hw hs hr hnew' hsaid') hpassed.silent
    | passed _ hpassed' => exact .passed hnew hpassed hpassed'
    | revisited hold => exact absurd (hrenewed.1 hnew) hold
  | revisited hold hrevisited =>
    have hold' : ¬ s.Renewed b := fun hnew => hold (hrenewed.2 hnew)
    have hknown : a < p.units.size := by
      by_contra hle
      exact hold (hr.renewed_of_made h.left (Nat.le_of_not_lt hle))
    cases hs.turn b h.right with
    | perused summary hnew => exact absurd hnew hold'
    | passed hnew => exact absurd hnew hold'
    | revisited _ hrevisited' =>
      exact .revisited hold hknown (h.counterpart.eq_of_lt hknown) hrevisited hrevisited'

/-- Counterparts that have had their turns export the same. -/
theorem Paired.slots_eq (h : Paired p r s a b) (hw : Impartial w calls) (hr : Finished w p calls r)
    (hs : Finished w p calls s) (hu : r.program.units.get? a = some u)
    (hv : s.program.units.get? b = some v) : u.slots = v.slots := by
  cases h.turns hw hr hs with
  | perused summary _ _ _ hperused hperused' => rw [hperused.slots u hu, hperused'.slots v hv]
  | passed _ hpassed hpassed' =>
    obtain ⟨hcounterpart, ha, hb⟩ := h
    cases hcounterpart with
    | known hlt =>
      obtain ⟨u₀, hu₀⟩ := Catalog.exists_get? hlt
      rw [hpassed.slots u₀ u hu₀ hu, hpassed'.slots u₀ v hu₀ hv]
    | made hle hle' =>
      obtain ⟨u', hu', htable⟩ := hr.isUnit ha
      obtain rfl := Option.some.inj (hu.symm.trans hu')
      obtain ⟨v', hv', htable'⟩ := hs.isUnit hb
      obtain rfl := Option.some.inj (hv.symm.trans hv')
      obtain ⟨_, _, _, _, _, _, hnone⟩ := (hr.documented a u hu).made_for hle htable
      obtain ⟨_, _, _, _, _, _, hnone'⟩ := (hs.documented b v hv).made_for hle' htable'
      rw [hnone (hpassed.code u hu), hnone' (hpassed'.code v hv)]
  | revisited _ hlt heq hrevisited hrevisited' =>
    obtain ⟨u₀, hu₀⟩ := Catalog.exists_get? hlt
    rw [hrevisited.slots u₀ u hu₀ hu, hrevisited'.slots u₀ v (heq ▸ hu₀) hv]

theorem Paired.exports_iff (h : Paired p r s a b) (hw : Impartial w calls)
    (hr : Finished w p calls r) (hs : Finished w p calls s) : r.Exports a n ↔ s.Exports b n := by
  obtain ⟨u, hu, _⟩ := hr.isUnit h.left
  obtain ⟨v, hv, _⟩ := hs.isUnit h.right
  rw [Exports, hu, Exports, hv, Option.any_some, Option.any_some, BuildUnit.hasSlot,
    h.slots_eq hw hr hs hu hv, BuildUnit.hasSlot]

theorem Paired.means (h : Paired p r s a b) (hw : Impartial w calls) (hr : Finished w p calls r)
    (hs : Finished w p calls s) (hmeans : Means w r a n t) (hmeans' : Means w s b n t') :
    Corresponds p r s t t' := by
  cases hmeans with
  | own hown =>
    cases hmeans' with
    | own => exact .unit h.counterpart
    | foreign hnot => exact absurd ((h.exports_iff hw hr hs).1 hown) hnot
  | foreign hnot hstands =>
    cases hmeans' with
    | own hown => exact absurd ((h.exports_iff hw hr hs).2 hown) hnot
    | foreign _ hstands' =>
      have hkey := directoryOf_key (h.counterpart.twins hr.grows hs.grows)
      exact .of_matches hr.grows hs.grows (hstands.matches hw.steady hkey hstands')

/-- A name that means a unit for one of two counterparts means its counterpart for the other one, if it
means anything there. -/
theorem Paired.means_unit (h : Paired p r s a b) (hw : Impartial w calls)
    (hr : Finished w p calls r) (hs : Finished w p calls s) (hmeans : Means w r a n (.unit x))
    (hanswer : ∃ t, Means w s b n t) : ∃ y, Means w s b n (.unit y) ∧ Counterpart p r s x y := by
  obtain ⟨t, hmeans'⟩ := hanswer
  cases h.means hw hr hs hmeans hmeans' with
  | unit hxy => exact ⟨_, hmeans', hxy⟩

/-- The tables of global variables of the two runs are counterparts. -/
theorem GlobalTable.counterpart (h : r.GlobalTable x) (h' : s.GlobalTable y)
    (hr : Finished w p calls r) (hs : Finished w p calls s) : Counterpart p r s x y :=
  .of_twins hr.grows hs.grows (twins_of_findMatch h h' rfl) (Program.placed_of_findMatch h)
    (Program.placed_of_findMatch h')

/-- Where the turn of a unit leads, that of its counterpart leads to the counterpart. -/
theorem Paired.leads (h : Paired p r s a b) (hw : Impartial w calls) (hr : Finished w p calls r)
    (hs : Finished w p calls s) (hleads : Leads w p r a n x) :
    ∃ y, Leads w p s b n y ∧ Counterpart p r s x y := by
  have hrenewed := h.renewed_iff hw hr hs
  cases h.turns hw hr hs with
  | perused summary hnew hsaid hsaid' _ hperused =>
    cases hleads with
    | reference _ _ hother hn hmeans =>
      obtain rfl := hother.unique hsaid
      obtain ⟨y, hmeans', hxy⟩ := h.means_unit hw hr hs hmeans (hperused.answers n hn)
      exact ⟨y, .reference _ (hrenewed.1 hnew) hsaid' hn hmeans', hxy⟩
    | declaration _ _ hother hn htable =>
      obtain rfl := hother.unique hsaid
      obtain ⟨y, htable', _⟩ := hperused.lists n hn
      exact ⟨y, .declaration _ (hrenewed.1 hnew) hsaid' hn htable', htable.counterpart htable' hr hs⟩
    | import_ former hold => exact absurd hnew hold
  | passed hnew hpassed =>
    cases hleads with
    | reference _ _ hsaid => exact absurd hsaid hpassed.silent
    | declaration _ _ hsaid => exact absurd hsaid hpassed.silent
    | import_ former hold => exact absurd hnew hold
  | revisited hold hlt heq _ hrevisited =>
    cases hleads with
    | reference _ hnew => exact absurd hnew hold
    | declaration _ hnew => exact absurd hnew hold
    | import_ former _ hx hmeans =>
      have hx' : (former, n) ∈ lookedUpImports p b := heq ▸ hx
      obtain ⟨y, hmeans', hxy⟩ := h.means_unit hw hr hs hmeans (hrevisited.answers _ hx')
      exact ⟨y, .import_ former (fun hnew => hold (hrenewed.2 hnew)) hx' hmeans', hxy⟩

/-- A definition denotes a shared table exactly when its kind is that of one. -/
theorem Denotes.isTable_iff (h : r.Denotes n d x) : r.IsTable x ↔ d.kind.isSharedTable := by
  obtain ⟨u, hu, htag⟩ := h.exists_unit
  rw [← UnitKind.isSharedTable_eq_of_tag htag]
  constructor
  · rintro ⟨v, hv, hshared⟩
    rwa [Option.some.inj (hu.symm.trans hv)]
  · exact fun hshared => ⟨u, hu, hshared⟩

/-- The definition of a unit that is no shared table is not one of a shared table either. -/
theorem Denotes.isSharedTable_eq_false (h : r.Denotes n d x) (htable : ¬ r.IsTable x) :
    d.kind.isSharedTable = false := by
  rw [← Bool.not_eq_true, ← h.isTable_iff]
  exact htable

/-- A name means a unit that was met, a shared table apart. -/
theorem Means.met (h : Means w r a n (.unit x)) (hmet : r.Met a) (htable : ¬ r.IsTable x) :
    r.Met x := by
  cases h with
  | own => exact hmet
  | foreign _ hstands =>
    cases hstands with
    | defined _ _ hdenotes => exact hdenotes.met (hdenotes.isSharedTable_eq_false htable)

/-- A name that means a shared table is listed there. -/
theorem Means.listed (h : Means w r a n (.unit x)) (hunit : ¬ r.IsTable a) (htable : r.IsTable x) :
    r.Exports x n := by
  cases h with
  | own => exact absurd htable hunit
  | foreign _ hstands =>
    cases hstands with
    | defined _ _ hdenotes => exact hdenotes.listed (hdenotes.isTable_iff.1 htable)

/-- What a unit that was met leads to has been met. -/
theorem Leads.met (h : Leads w p r a n x) (hmet : r.Met a) (htable : ¬ r.IsTable x) : r.Met x := by
  cases h with
  | reference _ _ _ _ hmeans => exact hmeans.met hmet htable
  | declaration _ _ _ _ hglobal => exact absurd (IsGlobal.isTable hglobal.isGlobal) htable
  | import_ _ _ _ hmeans => exact hmeans.met hmet htable

/-- A shared table lists the names under which turns have led to it. -/
theorem Finished.listed_of_leads (hr : Finished w p calls r) (ha : a ∈ r.run.handled)
    (h : Leads w p r a n x) (htable : r.IsTable x) : r.Exports x n := by
  have hunit := hr.underway.agenda.handled_unit a ha
  cases h with
  | reference _ _ _ _ hmeans => exact hmeans.listed hunit htable
  | declaration summary hnew hsaid hn hglobal =>
    cases hr.turn a ha with
    | perused other _ hother hperused =>
      obtain rfl := hother.unique hsaid
      obtain ⟨table, hthis, hlisted⟩ := hperused.lists n hn
      rwa [hglobal.unique hthis]
    | passed _ hpassed => exact absurd hsaid hpassed.silent
    | revisited hold => exact absurd hnew hold
  | import_ _ _ _ hmeans => exact hmeans.listed hunit htable

/-- A unit that a chain of turns leads to has a counterpart that the same chain leads to. -/
theorem Finished.exists_paired_of_summoned (hw : Impartial w calls) (hr : Finished w p calls r)
    (hs : Finished w p calls s) (h : Summoned w p calls r x) (htable : ¬ r.IsTable x) :
    ∃ y ∈ s.run.handled, Counterpart p r s x y := by
  have hmember {x y : Nat} (htable : ¬ r.IsTable x) (hxy : Counterpart p r s x y) (hmet : s.Met y) :
      y ∈ s.run.handled := by
    refine hs.mem_handled hmet ?_
    rwa [← Twins.isTable_iff (hxy.twins hr.grows hs.grows)]
  induction h with
  | @entry call d x hcall hd hunit hdenotes =>
    obtain ⟨y, hdenotes'⟩ := hs.entered call hcall d hd hunit
    have hoffered := (offeredAs_of_call hcall hd).offeredTo
    have hxy : Counterpart p r s x y := .of_twins hr.grows hs.grows (hdenotes.twins hdenotes' rfl)
      (hdenotes.live hoffered).placed (hdenotes'.live hoffered).placed
    exact ⟨y, hmember htable hxy (hdenotes'.met hunit), hxy⟩
  | @led c n x _ hc hleads ih =>
    obtain ⟨c', hc', hcc'⟩ := ih (hr.underway.agenda.handled_unit c hc)
    obtain ⟨y, hleads', hxy⟩ := Paired.leads ⟨hcc', hc, hc'⟩ hw hr hs hleads
    have htable' : ¬ s.IsTable y := by rwa [← Twins.isTable_iff (hxy.twins hr.grows hs.grows)]
    exact ⟨y, hmember htable hxy (hleads'.met (hs.underway.agenda.handled_met c' hc') htable'), hxy⟩

/-- A unit that had its turn has a counterpart that had its turn. -/
theorem Finished.exists_paired (hw : Impartial w calls) (hr : Finished w p calls r)
    (hs : Finished w p calls s) (ha : a ∈ r.run.handled) : ∃ b, Paired p r s a b := by
  have htable := hr.underway.agenda.handled_unit a ha
  have hsummoned := hr.summoned a (hr.underway.agenda.handled_met a ha) htable
  obtain ⟨b, hb, hab⟩ := Finished.exists_paired_of_summoned hw hr hs hsummoned htable
  exact ⟨b, hab, ha, hb⟩

/-- The counterpart of a handled unit has been handled in the other run. By induction on how the
unit came to be met: from an entry point, or from a name of a unit that has a counterpart. -/
theorem Counterpart.paired (h : Counterpart p r s a b) (hw : Impartial w calls)
    (hr : Finished w p calls r) (hs : Finished w p calls s) (ha : a ∈ r.run.handled) :
    Paired p r s a b := by
  obtain ⟨b', hb'⟩ := Finished.exists_paired hw hr hs ha
  rwa [← h.unique hb'.counterpart] at hb'

/-- Counterparts are handled in both runs or in neither. -/
theorem Counterpart.mem_handled_iff (h : Counterpart p r s a b) (hw : Impartial w calls)
    (hr : Finished w p calls r) (hs : Finished w p calls s) :
    a ∈ r.run.handled ↔ b ∈ s.run.handled :=
  ⟨fun ha => (h.paired hw hr hs ha).right, fun hb => (h.symm.paired hw hs hr hb).right⟩

/-- What turns led to has a counterpart, also if it is a shared table. -/
theorem Finished.exists_counterpart_of_leads (hw : Impartial w calls) (hr : Finished w p calls r)
    (hs : Finished w p calls s) (ha : a ∈ r.run.handled) (hleads : Leads w p r a n x) :
    ∃ b ∈ s.run.handled, ∃ y, Leads w p s b n y ∧ Counterpart p r s x y := by
  obtain ⟨b, hab⟩ := Finished.exists_paired hw hr hs ha
  obtain ⟨y, hleads', hxy⟩ := hab.leads hw hr hs hleads
  exact ⟨b, hab.right, y, hleads', hxy⟩

end Resolution

end ScriptBuild
