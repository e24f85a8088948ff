import ScriptBuild.Proofs.Resolution.Reordering
import ScriptBuild.Proofs.Resolution.Schedule

namespace ScriptBuild

instance (l : NameLookup) (directory : Option FilePath) (name : String) :
    Decidable (l.Knows directory name) :=
  match directory with
  | none => decidable_of_iff (name ∈ l.names) (by simp [NameLookup.Knows])
  | some near =>
    decidable_of_iff (name ∈ l.names ∨ name ∈ l.namesIn near) (by simp [NameLookup.Knows])

namespace Resolution

variable {w : World} {p : Program} {calls : List Call} {r : Resolution} {id a b c root : Nat}
  {name n : String} {d d₀ : Definition} {t : Target}

instance (r : Resolution) (id : Nat) (name : String) : Decidable (r.Exports id name) :=
  inferInstanceAs (Decidable (_ = true))

/-- The unit that a definition of a name denotes. -/
def denoted (r : Resolution) (name : String) (d : Definition) : Option Nat :=
  if d.kind.isSharedTable then r.program.units.findMatch (tableName d.kind) d.kind 0
  else r.program.units.findMatch name d.kind d.timestamp

/-- The definition that is found for a name of a unit, unless the unit exports the name itself or the
name is not known. -/
def definitionFor (w : World) (r : Resolution) (id : Nat) (name : String) : Option Definition :=
  if r.Exports id name ∨ ¬ w.lookup.Knows (r.directoryOf id) name then none
  else w.lookup.find name (r.directoryOf id)

/-- Where a name of a unit comes from. -/
def meaning (w : World) (r : Resolution) (id : Nat) (name : String) : Target :=
  if r.Exports id name then .unit id
  else ((r.definitionFor w id name).bind (r.denoted name)).elim .unresolved .unit

/-- The names that a unit looks up once it is met with a definition: those that its body refers to if
the unit is new or its file is newer, and those that it imported before otherwise. -/
inductive LooksUp (w : World) (p : Program) (r : Resolution) (id : Nat) (d : Definition)
    (name : String) : Prop where
  | reference {summary : Summary} (hread : p.units.size ≤ id ∨ (start p).Outdated id d)
      (hsaid : Says w r id summary) (hname : name ∈ summary.references.map (·.1))
  | import_ {former : Target} (hkept : ¬ (start p).Outdated id d)
      (hformer : (former, name) ∈ lookedUpImports p id)

/-- A run over a program resolves an entry point, or a name that a unit looks up, to a unit by a
    definition. Of the outcome of the run only the program counts. It follows from the program at
    the start, from what the lookup defines and from what bodies say, without the steps of the
    run. -/
inductive ResolvedTo (w : World) (p : Program) (calls : List Call) (r : Resolution) :
    Nat → Definition → Prop where
  | entry {call : Call} {d : Definition} {id : Nat} (hcall : call ∈ calls)
      (hd : call.2.or (w.lookup.find call.1 none) = some d) (htable : d.kind.isSharedTable = false)
      (hid : r.denoted call.1 d = some id) : ResolvedTo w p calls r id d
  | lookup {c : Nat} {d₀ : Definition} {name : String} {d : Definition} {id : Nat}
      (hc : ResolvedTo w p calls r c d₀) (hname : LooksUp w p r c d₀ name)
      (hfound : r.definitionFor w c name = some d) (hid : r.denoted name d = some id) :
      ResolvedTo w p calls r id d

/-- The unit that a definition denotes is found by it. -/
theorem Denotes.denoted (h : r.Denotes name d id) : r.denoted name d = some id := by
  rw [Resolution.denoted]
  cases htable : d.kind.isSharedTable with
  | true => exact h.table htable
  | false => exact h.unit htable

/-- A definition is found for a name when the unit does not export the name, the name is known, and
the lookup finds it. -/
theorem definitionFor_eq_some : r.definitionFor w id name = some d ↔ ¬ r.Exports id name ∧
    w.lookup.Knows (r.directoryOf id) name ∧ w.lookup.find name (r.directoryOf id) = some d := by
  rw [definitionFor]
  split
  · next hnone =>
    refine iff_of_false (fun hfound => by cases hfound) fun hfound => ?_
    exact hnone.elim hfound.1 (not_not_intro hfound.2.1)
  · next hasked =>
    rw [not_or, not_not] at hasked
    exact ⟨fun hfound => ⟨hasked.1, hasked.2, hfound⟩, fun hfound => hfound.2.2⟩

/-- A unit is resolved to by definitions on offer. -/
theorem ResolvedTo.offered (h : ResolvedTo w p calls r id d) : OfferedTo w calls d := by
  cases h with
  | entry hcall hd => exact (offeredAs_of_call hcall hd).offeredTo
  | lookup _ _ hfound => exact .inl ⟨_, _, (definitionFor_eq_some.1 hfound).2.2⟩

/-- How a run marks a unit that a definition denotes: it is new, or its file is newer, or neither. -/
inductive MarkedFor (p : Program) (id : Nat) (d : Definition) (mark : Option Freshness) : Prop where
  | made (hid : p.units.size ≤ id) (hmark : mark = some .new)
  | newer (hid : (start p).Outdated id d) (hmark : mark = some .updated)
  | kept (hid : id < p.units.size) (hcurrent : ¬ (start p).Outdated id d)
      (hmark : mark = some .old ∨ mark = some .dependencyUpdated)

/-- A finished run marks a unit by what denotes it: new if it was made, updated if its file is
newer, old or moved otherwise. -/
theorem Finished.markedFor (hr : Finished w p calls r) (hw : Steady w (OfferedTo w calls))
    (hoffered : OfferedTo w calls d) (h : r.Denotes name d id) (htable : ¬ r.IsTable id) :
    MarkedFor p id d (r.mark id) := by
  have hunit := h.isSharedTable_eq_false htable
  obtain ⟨v, hv, _, hidentity⟩ := Catalog.describes_of_findMatch (h.unit hunit)
  have hidentity : d.identity = v.identity := hidentity.symm
  have hvtable : v.kind.isSharedTable = false := by
    rwa [← UnitKind.isSharedTable_eq_of_tag (congrArg Identity.tag hidentity)]
  by_cases hlt : id < p.units.size
  · obtain ⟨u, hu⟩ := Catalog.exists_get? hlt
    obtain ⟨d', hnamed, heq, hcases⟩ := (hr.documented id v hv).found_for hu hvtable
      (met_iff.1 (h.met hunit))
    -- The definition by which the unit was met first may be another one, of the same time.
    have htimes (hfile : u.kind.isFile) : d.timestamp = d'.timestamp := by
      refine hw.times d d' hoffered hnamed.offeredTo ?_ (hidentity.trans heq.symm)
      have htag : d.kind.tag = v.kind.tag := congrArg Identity.tag hidentity
      rw [UnitKind.isFile_eq_of_tag htag, (hr.grows.becomes hu hv).kind]
      exact hfile
    rcases hcases with ⟨hmark, hfile, hnewer, _⟩ | ⟨hmark, hcurrent, _⟩
    · exact .newer ⟨u, hu, hfile, by rwa [htimes hfile]⟩ hmark
    · refine .kept hlt ?_ hmark
      rintro ⟨u', hu', hfile, hnewer⟩
      obtain rfl := Option.some.inj (hu.symm.trans hu')
      have hle := hcurrent hfile
      rw [htimes hfile] at hnewer
      exact Nat.not_lt_of_le hle hnewer
  · have hle := Nat.le_of_not_lt hlt
    obtain ⟨_, hmark, _⟩ := (hr.documented id v hv).made_for hle hvtable
    exact .made hle hmark

/-- A unit was renewed when it was made, or when the definition is newer than what was recorded. -/
theorem MarkedFor.renewed_iff (h : MarkedFor p c d (r.mark c)) :
    r.Renewed c ↔ p.units.size ≤ c ∨ (start p).Outdated c d := by
  rw [renewed_iff_mark]
  cases h with
  | made hid hmark => exact iff_of_true (.inl hmark) (.inl hid)
  | newer hid hmark => exact iff_of_true (.inr hmark) (.inr hid)
  | kept hid hcurrent hmark =>
    refine iff_of_false (fun hnew => ?_) (not_or.2 ⟨Nat.not_le_of_lt hid, hcurrent⟩)
    rcases hmark with heq | heq <;> rw [heq] at hnew <;> rcases hnew with hnew | hnew <;> cases hnew

/-- The imports of a unit that is neither new nor newer were looked up again. -/
theorem Finished.revisited (hr : Finished w p calls r) (hc : c ∈ r.run.handled)
    (hmark : MarkedFor p c d (r.mark c)) (hlt : c < p.units.size)
    (hkept : ¬ (start p).Outdated c d) : Revisited w p r c := by
  have hold : ¬ r.Renewed c := by
    rw [hmark.renewed_iff, not_or]
    exact ⟨Nat.not_le_of_lt hlt, hkept⟩
  cases hr.turn c hc with
  | perused _ hnew => exact absurd hnew hold
  | passed hnew => exact absurd hnew hold
  | revisited _ hrevisited => exact hrevisited

/-- What took names at the start has code. -/
theorem Finished.hasBody_of_takes (hr : Finished w p calls r) (hcode : p.TakenByCode)
    (htakes : p.Takes c t n) : ∃ v, r.program.units.get? c = some v ∧ v.kind.hasBody := by
  obtain ⟨u, hu, hhas⟩ := hcode c t n htakes
  obtain ⟨v, hv, hbecomes⟩ := hr.grows c u hu
  exact ⟨v, hv, by rwa [hbecomes.kind]⟩

/-- A unit that looks up names is no shared table. -/
theorem LooksUp.not_isTable (h : LooksUp w p r c d n) (hr : Finished w p calls r)
    (hcode : p.TakenByCode) : ¬ r.IsTable c := by
  have hhas : ∃ v, r.program.units.get? c = some v ∧ v.kind.hasBody := by
    cases h with
    | reference _ hsaid =>
      obtain ⟨v, _, _, hv, hhas, _⟩ := hsaid
      exact ⟨v, hv, hhas⟩
    | import_ _ hformer => exact hr.hasBody_of_takes hcode (mem_lookedUpImports.1 hformer).1
  obtain ⟨v, hv, hhas⟩ := hhas
  exact not_isTable_of_get? hv (UnitKind.isSharedTable_of_hasBody hhas)

/-- A name that a unit looks up means something at the end. -/
theorem LooksUp.exists_means (h : LooksUp w p r c d n) (hr : Finished w p calls r)
    (hlinked : p.Linked) (hc : c ∈ r.run.handled) (hmark : MarkedFor p c d (r.mark c)) :
    ∃ t, Means w r c n t := by
  cases h with
  | reference hread hsaid hname =>
    cases hr.turn c hc with
    | perused summary _ hsaid' hperused =>
      obtain rfl := hsaid.unique hsaid'
      exact hperused.answers n hname
    | passed _ hpassed => exact absurd hsaid hpassed.silent
    | revisited hold => exact absurd (hmark.renewed_iff.2 hread) hold
  | import_ hkept hformer =>
    have hlt := hlinked.taker c _ n (mem_lookedUpImports.1 hformer).1
    exact (hr.revisited hc hmark hlt hkept).answers _ hformer

/-- A definition by which names are resolved to a unit denotes it in the end. -/
theorem ResolvedTo.denotes (h : ResolvedTo w p calls r id d) (hr : Finished w p calls r)
    (hw : Steady w (OfferedTo w calls)) (hlinked : p.Linked) (hcode : p.TakenByCode) :
    ∃ name, r.Denotes name d id := by
  induction h with
  | @entry call d id hcall hd htable hid =>
    obtain ⟨other, hdenotes⟩ := hr.entered call hcall d hd htable
    obtain rfl := Option.some.inj (hid.symm.trans hdenotes.denoted)
    exact ⟨call.1, hdenotes⟩
  | @lookup c d₀ name d id hc hname hfound hid ih =>
    obtain ⟨_, hdenotes⟩ := ih
    have htable := hname.not_isTable hr hcode
    have hmark := hr.markedFor hw hc.offered hdenotes htable
    have hmet : r.Met c := hdenotes.met (hdenotes.isSharedTable_eq_false htable)
    obtain ⟨t, hmeans⟩ := hname.exists_means hr hlinked (hr.mem_handled hmet htable) hmark
    obtain ⟨hown, hknown, hfind⟩ := definitionFor_eq_some.1 hfound
    obtain ⟨other, hthis⟩ := hmeans.denotes hown hknown hfind
    obtain rfl := Option.some.inj (hid.symm.trans hthis.denoted)
    exact ⟨name, hthis⟩

/-- A unit that was resolved to had its turn, and its mark is the one for the definition. -/
theorem ResolvedTo.handled (h : ResolvedTo w p calls r id d) (hr : Finished w p calls r)
    (hw : Steady w (OfferedTo w calls)) (hlinked : p.Linked) (hcode : p.TakenByCode)
    (htable : ¬ r.IsTable id) : id ∈ r.run.handled ∧ MarkedFor p id d (r.mark id) := by
  obtain ⟨name, hdenotes⟩ := h.denotes hr hw hlinked hcode
  have hmet : r.Met id := hdenotes.met (hdenotes.isSharedTable_eq_false htable)
  exact ⟨hr.mem_handled hmet htable, hr.markedFor hw h.offered hdenotes htable⟩

/-- A shared table that was known has got a slot. -/
def HasGrown (p : Program) (r : Resolution) (id : Nat) : Prop :=
  ∃ u v, p.units.get? id = some u ∧ r.program.units.get? id = some v ∧ u.kind.isSharedTable ∧
    ∃ n ∈ v.slots, n ∉ u.slots

/-- Shared tables are never older than a file. -/
theorem Outdated.not_isTable (h : (start p).Outdated id d) (hr : Finished w p calls r) :
    ¬ r.IsTable id := by
  obtain ⟨u, hu, hfile, _⟩ := h
  obtain ⟨v, hv, hbecomes⟩ := hr.grows id u hu
  exact not_isTable_of_get? hv (by rw [hbecomes.kind, UnitKind.isSharedTable_of_isFile hfile])

/-- Only shared tables get slots without being read. -/
theorem HasGrown.isTable (h : HasGrown p r id) (hr : Finished w p calls r) : r.IsTable id := by
  obtain ⟨u, v, hu, hv, hshared, _⟩ := h
  exact ⟨v, hv, by rwa [(hr.grows.becomes hu hv).kind]⟩

/-- An analysis among the calls of a run finds a root. -/
def Returns (w : World) (p : Program) (calls : List Call) (root : Nat) : Prop :=
  ∃ before call after, calls = before ++ call :: after ∧
    (((start p).analyzeAll w before).1.analyze w call.1 call.2).2 = .ok (some root)

end Resolution

end ScriptBuild
