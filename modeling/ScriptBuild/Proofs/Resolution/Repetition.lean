import ScriptBuild.Proofs.Resolution.Directories
import ScriptBuild.Proofs.Resolution.Idempotence
import ScriptBuild.Proofs.Resolution.Schedule

namespace ScriptBuild

/-- A set of numbers below a bound is no larger than that. -/
theorem NodeSet.size_le_of_lt {a : NodeSet} {count : Nat} (h : ∀ id ∈ a, id < count) :
    a.size ≤ count := by
  rw [← Std.ExtTreeSet.length_toList, ← List.length_range (n := count)]
  have hnodup : a.toList.Nodup := by
    refine Std.ExtTreeSet.distinct_toList.imp fun hne heq => hne ?_
    rw [heq]
    exact Std.ReflCmp.compare_self
  refine (hnodup.subperm fun id hid => ?_).length_le
  exact List.mem_range.2 (h id (Std.ExtTreeSet.mem_toList.1 hid))

namespace Resolution

variable {w w' : World} {offered : Definition → Prop} {r r₁ s : Resolution} {id root : Nat}
  {n entry : String} {t : Target} {directory : Option FilePath} {d : Definition}
  {definition : Option Definition} {ids : List Nat}

/-- What a name stands for depends on lookups and not on bodies. -/
theorem Stands.of_lookup (h : Stands w r directory n t) (hlookup : w'.lookup = w.lookup) :
    Stands w' r directory n t := by
  cases h with
  | unknown hunknown => exact .unknown (by rwa [hlookup])
  | undefined hnone => exact .undefined (by rwa [hlookup])
  | defined hknown hfind hdenotes =>
    exact .defined (by rwa [hlookup]) (by rwa [hlookup]) hdenotes

/-- What a name means depends on lookups and not on bodies. -/
theorem Means.of_lookup (h : Means w r id n t) (hlookup : w'.lookup = w.lookup) :
    Means w' r id n t := by
  cases h with
  | own hown => exact .own hown
  | foreign hown hstands => exact .foreign hown (hstands.of_lookup hlookup)

/-- A run is underway in every world with the same lookups, however bodies read there. -/
theorem Underway.of_lookup (h : Underway w offered r) (hlookup : w'.lookup = w.lookup) :
    Underway w' offered r :=
  { h with
    remembers :=
      { names := fun names heq => by rw [hlookup]; exact h.remembers.names names heq
        namesIn := fun d names heq => by rw [hlookup]; exact h.remembers.namesIn d names heq
        found := fun d n id heq => (h.remembers.found d n id heq).of_lookup hlookup } }

/-- What is settled depends on where names are found, and not on what the bodies say. -/
theorem Sweep.of_lookup (h : Sweep w offered r) (hlookup : w'.lookup = w.lookup) :
    Sweep w' offered r where
  underway := h.underway.of_lookup hlookup
  bodiless := h.bodiless
  settled id hid t n htakes hnot := (h.settled id hid t n htakes hnot).of_lookup hlookup

/-- Whether a run repeats another one depends on lookups and not on bodies. -/
theorem Repeats.of_lookup (h : Repeats w offered r₁ r) (hlookup : w'.lookup = w.lookup) :
    Repeats w' offered r₁ r :=
  { h with underway := h.underway.of_lookup hlookup }

/-- Looking names up leaves settled what was handled before. -/
theorem Sweep.grow (h : Sweep w offered r) (hs : Underway w offered s) (hlooked : r.Looked s) :
    Sweep w offered s := by
  refine ⟨hs, h.bodiless.looked hlooked, fun id hid => ?_⟩
  rw [hlooked.handled] at hid
  have hready := h.underway.ready id (h.underway.agenda.handled_met id hid)
  have hworks : r.Works (id + 1) s := hlooked.works
  exact (h.settled id hid).works hworks (Nat.ne_of_lt (Nat.lt_succ_self id)) hready.lt_size
    (h.underway.agenda.handled_unit id hid)

/-- Another entry point is analyzed in the same run. -/
theorem Sweep.analyze (h : Sweep w offered r) (hw : Steady w offered)
    (hdefinition : ∀ d, definition = some d → offered d)
    (hanalyze : r.analyze w entry definition = (s, .ok (some root))) :
    Sweep w offered s ∧ r.Before s ∧ s.run.waiting = [] ∧
      ∃ d, definition.or (w.lookup.find entry none) = some d ∧ offered d ∧
        d.kind.isSharedTable = false ∧ s.Denotes entry d root := by
  obtain ⟨d, hd, honOffer, htable, hroot, hdrain⟩ := analyze_ok hanalyze
  have hoffered : offered d := honOffer.elim (hw.offers d) (hdefinition d)
  obtain ⟨hs, hlooked, hdenotes⟩ := h.underway.unitFor hw.times entry hoffered
  obtain ⟨hfinal, hbefore, hempty, -⟩ := (h.grow hs hlooked).drain hw hdrain
  rw [hroot] at hdenotes
  exact ⟨hfinal, hlooked.before.trans hbefore, hempty, d, hd, hoffered, htable, hdenotes.mono hbefore⟩

/-- Noting that units are built which were met leaves everything settled. -/
theorem Sweep.markBuilt (h : Sweep w offered r) (hid : r.Met id) :
    Sweep w offered (r.markBuilt id) ∧ r.Before (r.markBuilt id) := by
  have hmet (other : Nat) : (r.markBuilt id).Met other ↔ r.Met other := by
    rw [Resolution.markBuilt, met_setFreshness]
    exact or_iff_left_of_imp fun heq => heq ▸ hid
  have hbefore : r.Before (r.markBuilt id) := ⟨.refl _, fun _ hnode => hnode, fun other => (hmet other).2⟩
  refine ⟨⟨h.underway.advance hbefore ⟨hmet, rfl, rfl, rfl, rfl, rfl⟩,
    ⟨h.bodiless.beyond, h.bodiless.file, h.bodiless.waiting⟩, fun other hother t n htakes hnot => ?_⟩,
    hbefore⟩
  have hready := h.underway.ready other (h.underway.agenda.handled_met other hother)
  exact (h.settled other hother t n htakes hnot).of_units hbefore hready.lt_size rfl

/-- Noting that units were built, between two entry points, leaves a run that covers several of them
in order. What was settled for one entry point stays so for the next one. -/
theorem Sweep.foldl_markBuilt (h : Sweep w offered r) (ids : List Nat) (hids : ∀ id ∈ ids, r.Met id) :
    Sweep w offered (ids.foldl Resolution.markBuilt r) ∧
      r.Before (ids.foldl Resolution.markBuilt r) := by
  induction ids generalizing r with
  | nil => exact ⟨h, .refl r⟩
  | cons id ids ih =>
    obtain ⟨hmarked, hbefore⟩ := h.markBuilt (hids id List.mem_cons_self)
    obtain ⟨hlast, hrest⟩ := ih hmarked fun other hother =>
      hbefore.met other (hids other (List.mem_cons_of_mem _ hother))
    exact ⟨hlast, hbefore.trans hrest⟩

theorem Sweep.start {p : Program} (hcode : p.TakenByCode) :
    Sweep w offered (start p) := by
  refine ⟨.start w offered p, ⟨fun id hle t n htakes => ?_, fun id u hu _ hbody t n htakes => ?_,
    fun id u hmem => absurd hmem List.not_mem_nil⟩,
    fun id hid => absurd hid Std.ExtTreeSet.not_mem_empty⟩
  · obtain ⟨u, hu, -⟩ := hcode id t n htakes
    exact absurd (Catalog.lt_size_of_get? hu) (Nat.not_lt_of_le hle)
  · obtain ⟨v, hv, hcode⟩ := hcode id t n htakes
    obtain rfl := Option.some.inj (hu.symm.trans hv)
    rw [hbody] at hcode
    cases hcode

/-- Nothing was done yet in a new run over what a former one left behind. -/
theorem Repeats.start (r₁ : Resolution) : Repeats w offered r₁ (start r₁.program) :=
  ⟨.start w _ _, rfl, fun _ hid => absurd hid Std.ExtTreeMap.not_mem_empty, fun _ => rfl,
    fun _ hwork => absurd hwork List.not_mem_nil, rfl⟩

/-- An entry point that was analyzed in the former run is analyzed again. -/
theorem Repeats.analyze (h : Repeats w offered r₁ r) (hw : Steady w offered)
    (hfinal : Sweep w offered r₁) (hempty : r₁.run.waiting = [])
    (hsize : r₁.program.units.size ≤ workLimit)
    (hd : definition.or (w.lookup.find entry none) = some d) (hoffered : offered d)
    (htable : d.kind.isSharedTable = false) (hdenotes : r₁.Denotes entry d root) :
    ∃ s, r.analyze w entry definition = (s, .ok (some root)) ∧ Repeats w offered r₁ s := by
  obtain ⟨hagain, hroot⟩ := h.unitFor hw hfinal.underway hoffered hdenotes
  have hhandled : r₁.run.handled.size ≤ r₁.program.units.size := NodeSet.size_le_of_lt fun id hid =>
    (hfinal.underway.ready id (hfinal.underway.agenda.handled_met id hid)).lt_size
  obtain ⟨s, hdrain, hrepeated⟩ := hagain.drain workLimit hw hfinal hempty (by omega)
  refine ⟨s, ?_, hrepeated⟩
  rw [Resolution.analyze, hd]
  simp only [htable, Bool.false_eq_true, if_false, hroot, hdrain]

end Resolution

end ScriptBuild
