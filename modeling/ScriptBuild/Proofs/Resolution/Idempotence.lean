import Mathlib
import ScriptBuild.Proofs.Resolution.Worklist

namespace ScriptBuild

/-- Adding a node that is there changes nothing. -/
theorem Digraph.addNode_of_hasNode {g : Digraph} {n : Nat} (h : g.hasNode n) : g.addNode n = g := by
  refine Digraph.ext (Std.ExtTreeMap.ext_getElem? fun k => ?_)
  rw [addNode, Std.ExtTreeMap.getElem?_insertIfNew, if_neg fun hnew => hnew.2 (hasNode_iff.1 h)]

theorem NodeSet.size_le_of_subset {a b : NodeSet} (h : ∀ id ∈ a, id ∈ b) : a.size ≤ b.size := by
  rw [← Std.ExtTreeSet.length_toList, ← Std.ExtTreeSet.length_toList]
  have hnodup : a.toList.Nodup := by
    refine Std.ExtTreeSet.distinct_toList.imp fun hne heq => hne ?_
    rw [heq]
    exact Std.ReflCmp.compare_self
  refine (hnodup.subperm fun id hid => ?_).length_le
  exact Std.ExtTreeSet.mem_toList.2 (h id (Std.ExtTreeSet.mem_toList.1 hid))

namespace Resolution

variable {w : World} {offered : Definition → Prop} {r r₁ s : Resolution} {id other : Nat}
  {n name slot : String} {t : Target} {u : BuildUnit} {work : Work} {later : List Work} {fuel : Nat}
  {d : Definition} {directory : Option FilePath} {todo : List (Target × String)}

/-- A run repeats a former one: it has changed nothing of what the former one left behind, and meets
    only what that one met. What the first run left behind is settled, so the second one finds each
    unit as new as its definition and moves no import. -/
structure Repeats (w : World) (offered : Definition → Prop) (r₁ r : Resolution) : Prop where
  underway : Underway w offered r
  program : r.program = r₁.program
  met : ∀ id, r.Met id → r₁.Met id
  old : ∀ id, r.freshness id = .old
  waiting : ∀ work ∈ r.run.waiting, ∃ id, work = .recheck id
  readings : r.run.readings = 0

/-- A run that repeats another one is not ahead of it. -/
theorem Repeats.before (h : Repeats w offered r₁ r) : r.Before r₁ :=
  ⟨by rw [h.program]; exact .refl _, fun id hid => by rwa [← h.program], h.met⟩

/-- Whether a run repeats another one depends on its program, freshness, queue and count of
readings. -/
theorem Repeats.congr (h : Repeats w offered r₁ r) (hs : Underway w offered s)
    (hprogram : s.program = r.program) (hfreshness : s.run.freshness = r.run.freshness)
    (hwaiting : s.run.waiting = r.run.waiting) (hreadings : s.run.readings = r.run.readings) :
    Repeats w offered r₁ s where
  underway := hs
  program := hprogram.trans h.program
  met id hmet := h.met id (by rwa [Met, ← hfreshness])
  old id := by rw [freshness, hfreshness]; exact h.old id
  waiting := by rw [hwaiting]; exact h.waiting
  readings := hreadings.trans h.readings

/-- Adding a slot that is there changes nothing. -/
theorem growTable_of_exports (h : r.Exports id slot) : r.growTable id slot = r := by
  rw [Exports, Option.any_eq_true] at h
  obtain ⟨u, hu, hslot⟩ := h
  have hsame : r.program.units.modify id (·.addSlot slot) = r.program.units := by
    refine Catalog.modify_eq_self fun v hv => ?_
    obtain rfl := Option.some.inj (hu.symm.trans hv)
    rw [BuildUnit.addSlot, if_pos hslot]
  simp only [growTable, hu, Option.any_some, hslot, Bool.not_true, Bool.false_and,
    Bool.false_eq_true, if_false, modifyProgram, hsame]

/-- A unit that the former run met is found as new as its definition. -/
theorem Repeats.refresh (h : Repeats w offered r₁ r) (hfinal : Underway w offered r₁)
    (hoffered : offered d) (hdenotes : r₁.Denotes name d id) (htable : d.kind.isSharedTable = false)
    (hunderway : Underway w offered (r.refresh id d)) : Repeats w offered r₁ (r.refresh id d) := by
  obtain ⟨u, hu, _, hidentity⟩ := Catalog.describes_of_findMatch (hdenotes.unit htable)
  obtain ⟨⟨v, hv, hready⟩, hnode⟩ := hfinal.ready id (hdenotes.met htable)
  obtain rfl := Option.some.inj (hu.symm.trans hv)
  rw [← h.program] at hu
  have htag : u.kind.tag = d.kind.tag := congrArg Identity.tag hidentity
  have hunit : u.kind.isSharedTable = false := by
    rw [UnitKind.isSharedTable_eq_of_tag htag, htable]
  obtain ⟨hbody, hcurrent⟩ := hready hunit
  have hnot : ¬ r.Outdated id d := by
    rintro ⟨v, hv, hfile, hnewer⟩
    obtain rfl := Option.some.inj (hu.symm.trans hv)
    rw [UnitKind.isFile_eq_of_tag htag] at hfile
    exact absurd (hcurrent d hoffered hfile hidentity.symm) (Nat.not_le_of_lt hnewer)
  have hnode' : r.program.graph.hasNode id := by
    rw [h.program]
    refine hnode fun htable' => not_isTable_of_get? hu hunit ?_
    rwa [IsTable, h.program]
  have hsame : r.program.units.modify id (fun u => { u with body := u.body.or (some d.body) }) =
      r.program.units := by
    refine Catalog.modify_eq_self fun v hv => ?_
    obtain rfl := Option.some.inj (hu.symm.trans hv)
    rw [Option.or_of_isSome hbody]
  rw [refresh_of_not_outdated hnot, hsame, Digraph.addNode_of_hasNode hnode'] at hunderway ⊢
  refine ⟨hunderway, h.program, fun other hmet => ?_, fun other => ?_, fun work hwork => ?_,
    h.readings⟩
  · have hmet : (r.setFreshness id .old).Met other := hmet
    rcases met_setFreshness.1 hmet with hold | rfl
    · exact h.met other hold
    · exact hdenotes.met htable
  · have hold := h.old other
    simp only [freshness, Std.ExtTreeMap.getD_insert] at hold ⊢
    split
    · rfl
    · exact hold
  · rcases List.mem_append.1 hwork with hwork | hwork
    · exact h.waiting work hwork
    · exact ⟨id, List.mem_singleton.1 hwork⟩

/-- A definition that denotes a unit from the former run denotes it again. -/
theorem Repeats.unitFor (h : Repeats w offered r₁ r) (hw : Steady w offered)
    (hfinal : Underway w offered r₁) (hoffered : offered d) (hdenotes : r₁.Denotes name d id) :
    Repeats w offered r₁ (r.unitFor name d).1 ∧ (r.unitFor name d).2 = id := by
  have hunderway := (h.underway.unitFor hw.times name hoffered).1
  have hunit := unitOutcome r name d
  generalize r.unitFor name d = k at hunit hunderway ⊢
  cases hunit with
  | table htable =>
    have hmatch := hdenotes.table htable
    rw [← h.program] at hmatch
    have hlisted : r.Exports id name := by
      rw [Exports, h.program]
      exact hdenotes.listed htable
    rw [tableFor_of_some hmatch, growTable_of_exports hlisted]
    exact ⟨h, rfl⟩
  | made htable hmatch =>
    rw [h.program, hdenotes.unit htable] at hmatch
    cases hmatch
  | met htable hmatch =>
    rw [h.program, hdenotes.unit htable] at hmatch
    exact ⟨h, (Option.some.inj hmatch).symm⟩
  | refreshed htable hmatch =>
    rw [h.program, hdenotes.unit htable] at hmatch
    obtain rfl := Option.some.inj hmatch
    exact ⟨h.refresh hfinal hoffered hdenotes htable hunderway, rfl⟩

/-- Asking whether a name is known repeats the former run. -/
theorem Repeats.isKnown (h : Repeats w offered r₁ r) (hw : Steady w offered)
    (directory : Option FilePath) (name : String) :
    Repeats w offered r₁ (r.isKnown w directory name).1 := by
  have hk := (h.underway.isKnown hw.spelling directory name).1
  obtain ⟨names, namesIn, heq⟩ := isKnown_eq w r directory name
  rw [heq] at hk ⊢
  exact h.congr hk rfl rfl rfl rfl

/-- What a lookup found in the former run denotes what the name meant then. -/
theorem Means.denotes (h : Means w r id n t) (hown : ¬ r.Exports id n)
    (hknows : w.lookup.Knows (r.directoryOf id) n) (hfind : w.lookup.find n (r.directoryOf id) = some d) :
    ∃ other, r.Denotes n d other := by
  cases h with
  | own hown' => exact absurd hown' hown
  | foreign _ hstands =>
    cases hstands with
    | unknown hunknown => exact absurd hknows hunknown
    | undefined hnone => rw [hfind] at hnone; cases hnone
    | defined _ hfind' hdenotes =>
      rw [hfind] at hfind'
      cases hfind'
      exact ⟨_, hdenotes⟩

/-- Looking up a name that is settled repeats the former run. -/
theorem Repeats.lookupExternal (h : Repeats w offered r₁ r) (hw : Steady w offered)
    (hfinal : Underway w offered r₁) (hmeans : Means w r₁ id n t) :
    Repeats w offered r₁ (r.lookupExternal w id n).1 := by
  have hdirectory : r.directoryOf id = r₁.directoryOf id := by
    rw [directoryOf, h.program, directoryOf]
  have hasks := h.isKnown hw (r.directoryOf id) n
  have hknows := (h.underway.isKnown hw.spelling (r.directoryOf id) n).2.2.2
  have hlookup := lookupOutcome w r id n
  generalize r.lookupExternal w id n = k at hlookup ⊢
  cases hlookup with
  | own | recalled => exact h
  | missing _ _ hasked => rwa [hasked] at hasks
  | @found names namesIn d hown _ hasked hfind =>
    rw [hasked] at hasks hknows
    have hoffered := hw.offers d ⟨n, _, hfind⟩
    obtain ⟨other, hdenotes⟩ := hmeans.denotes (by rwa [Exports, ← h.program])
      (hdirectory ▸ hknows.1 rfl) (by rw [← hdirectory]; exact hfind)
    obtain ⟨hunit, -⟩ := hasks.unitFor hw hfinal hoffered hdenotes
    obtain ⟨hs, _, hdenotes'⟩ := hasks.underway.unitFor hw.times n hoffered
    have hstands := Stands.defined (hknows.1 rfl) hfind hdenotes'
    exact hunit.congr (hs.rememberFound hw.spelling hstands).1 rfl rfl rfl rfl

/-- A name that meant something in the former run means the same again. -/
theorem Repeats.lookupExternal_snd (h : Repeats w offered r₁ r) (hw : Steady w offered)
    (hfinal : Underway w offered r₁) (hlt : id < r.program.units.size) (hunit : ¬ r.IsTable id)
    (hmeans : Means w r₁ id n t) : (r.lookupExternal w id n).2 = t := by
  obtain ⟨hs, hlooked, hmeans'⟩ := h.underway.lookupExternal hw n hlt hunit
  have hrepeats := h.lookupExternal hw hfinal hmeans
  have hlt' := Nat.lt_of_lt_of_le hlt hlooked.before.units.size_le
  refine (hmeans'.mono hrepeats.before hlt' ?_).unique hw.spelling hmeans
  rw [Exports, Exports, hrepeats.program]

/-- Looking up again the imports of a settled unit moves none of them. -/
theorem Repeats.foldl_recheckImport (h : Repeats w offered r₁ r) (id : Nat)
    (todo : List (Target × String)) (hw : Steady w offered)
    (hfinal : Underway w offered r₁) (hlt : id < r₁.program.units.size) (hunit : ¬ r₁.IsTable id)
    (htodo : ∀ x ∈ todo, Means w r₁ id x.2 x.1) :
    ∃ s, todo.foldl (recheckImport w id) (r, false) = (s, false) ∧ Repeats w offered r₁ s := by
  induction todo generalizing r with
  | nil => exact ⟨r, rfl, h⟩
  | cons x todo ih =>
    have hmeans := htodo x List.mem_cons_self
    have hlt' : id < r.program.units.size := by rwa [h.program]
    have hunit' : ¬ r.IsTable id := by rwa [IsTable, h.program]
    have hs := h.lookupExternal hw hfinal hmeans
    rw [List.foldl_cons,
      recheckImport_of_eq (h.lookupExternal_snd hw hfinal hlt' hunit' hmeans)]
    exact ih hs fun y hy => htodo y (List.mem_cons_of_mem _ hy)

/-- Fixing up a settled unit repeats the former run. -/
theorem Repeats.recheck (h : Repeats w offered r₁ r) (hw : Steady w offered) (id : Nat)
    (hfinal : Underway w offered r₁) (hlt : id < r₁.program.units.size) (hunit : ¬ r₁.IsTable id)
    (hsettled : Settled w r₁ id) : Repeats w offered r₁ (r.recheck w id).1 := by
  obtain ⟨s, hfold, hs⟩ := h.foldl_recheckImport id
    (lookedUpImports r.program id) hw hfinal hlt hunit fun x hx => by
      rw [h.program] at hx
      obtain ⟨htakes, hnot⟩ := mem_lookedUpImports.1 hx
      exact hsettled x.1 x.2 htakes hnot
  have hrecheck := recheckOutcome w r id
  generalize r.recheck w id = k at hrecheck ⊢
  cases hrecheck with
  | kept hfold' =>
    obtain rfl := (Prod.mk.inj (hfold.symm.trans hfold')).1
    exact hs
  | marked hfold' => cases hfold.symm.trans hfold'

/-- Taking up a piece of work repeats the former run. -/
theorem Repeats.begin (h : Repeats w offered r₁ r) (hwaiting : r.run.waiting = work :: later) :
    Repeats w offered r₁ (r.begin work later) where
  underway := h.underway.begin hwaiting
  program := h.program
  met := h.met
  old := h.old
  waiting x hx := h.waiting x (hwaiting ▸ List.mem_cons_of_mem _ hx)
  readings := h.readings

/-- The units that a repeated run has handled are among those of the former one. -/
theorem Repeats.mem_handled (h : Repeats w offered r₁ r) (hfinal : Sweep w offered r₁)
    (hempty : r₁.run.waiting = []) (hmet : r.Met id) (hunit : ¬ r.IsTable id) :
    id ∈ r₁.run.handled := by
  rcases hfinal.underway.agenda.covered id (h.met id hmet) with htable | hin | ⟨x, hx, _⟩
  · exact absurd (by rwa [IsTable, h.program]) hunit
  · exact hin
  · rw [hempty] at hx
    cases hx

/-- Every piece of work of a repeated run succeeds, and repeats the former run. -/
theorem Repeats.handle (h : Repeats w offered r₁ r) (hw : Steady w offered)
    (hfinal : Sweep w offered r₁) (hempty : r₁.run.waiting = [])
    (hwaiting : r.run.waiting = work :: later) :
    ∃ s, ({ r with run := { r.run with waiting := later } } : Resolution).handle w work =
      (s, none) ∧ Repeats w offered r₁ s ∧ s.run.handled.size = r.run.handled.size + 1 := by
  have hmem : work ∈ r.run.waiting := hwaiting ▸ List.mem_cons_self
  have hmet := h.underway.agenda.waiting_met work hmem
  have hunit := h.underway.agenda.waiting_unit work hmem
  have hfresh := h.underway.agenda.waiting_fresh work hmem
  have hin := h.mem_handled hfinal hempty hmet hunit
  obtain ⟨id, rfl⟩ := h.waiting work hmem
  have hbegin := h.begin hwaiting
  have hrepeats := hbegin.recheck hw id hfinal.underway
    (hfinal.underway.ready id (h.met id hmet)).lt_size
    (hfinal.underway.agenda.handled_unit id hin) (hfinal.settled id hin)
  have hworks := (hbegin.underway.recheck hw id hmet hunit).works
  refine ⟨_, handle_recheck id hfresh, hrepeats, ?_⟩
  rw [hworks.handled, Resolution.begin, size_insert_of_not_mem hfresh]

/-- A repeated run ends, and has no more to do than the former one had. -/
theorem Repeats.drain (h : Repeats w offered r₁ r) (fuel : Nat) (hw : Steady w offered)
    (hfinal : Sweep w offered r₁) (hempty : r₁.run.waiting = [])
    (hfuel : r₁.run.handled.size ≤ r.run.handled.size + fuel) :
    ∃ s, r.drain w fuel = (s, none) ∧ Repeats w offered r₁ s := by
  have hbound {r : Resolution} (hr : Repeats w offered r₁ r) :
      r.run.handled.size ≤ r₁.run.handled.size := by
    refine NodeSet.size_le_of_subset fun id hid => ?_
    exact hr.mem_handled hfinal hempty (hr.underway.agenda.handled_met id hid)
      (hr.underway.agenda.handled_unit id hid)
  exact drain_ends hbound (fun hr hwaiting => hr.handle hw hfinal hempty hwaiting) h hfuel

/-- Dependencies and imports mention only units. -/
structure Confined (p : Program) : Prop where
  node : ∀ id, p.graph.hasNode id → id < p.units.size
  taker : ∀ id t n, p.Takes id t n → id < p.units.size
  target : ∀ id other n, p.Takes id (.unit other) n → other < p.units.size

/-- The definitions that an analysis may meet: those that the lookup gives and that of the entry
point. -/
def OnOffer (w : World) (definition : Option Definition) (d : Definition) : Prop :=
  w.lookup.Offers d ∨ definition = some d

/-- What an analysis does that finds a unit for its entry point. -/
theorem analyze_ok {entry : String} {definition : Option Definition} {root : Nat}
    (hanalyze : r.analyze w entry definition = (s, .ok (some root))) :
    ∃ d, definition.or (w.lookup.find entry none) = some d ∧ OnOffer w definition d ∧
      d.kind.isSharedTable = false ∧ (r.unitFor entry d).2 = root ∧
      (r.unitFor entry d).1.drain w workLimit = (s, none) := by
  have houtcome := analyzeOutcome w r entry definition
  rw [hanalyze] at houtcome
  cases houtcome with
  | @done d _ hd htable hdrain =>
    refine ⟨d, hd, ?_, htable, rfl, hdrain⟩
    rcases Option.or_eq_some_iff.1 hd with hthis | ⟨_, hfind⟩
    · exact .inr hthis
    · exact .inl ⟨entry, none, hfind⟩

/-- A second analysis of the same entry point in an unchanged world finds the same unit, leaves all
units, dependencies and imports as they are, reads no body, and finds every unit old. The imports of
a file without code are never looked at again, so there must be none at the start. -/
theorem analyze_reset {p : Program} {entry : String} {definition : Option Definition} {root : Nat}
    (hspelling : w.lookup.IgnoresSpelling) (htimes : SameTimes (OnOffer w definition))
    (hconfined : Confined p)
    (hprecompiled : ∀ id u path, p.units.get? id = some u → u.kind = .precompiled path → Idle p id)
    (hanalyze : (start p).analyze w entry definition = (r, .ok (some root))) :
    ∃ s, r.reset.analyze w entry definition = (s, .ok (some root)) ∧ s.program = r.program ∧
      s.run.readings = 0 ∧ ∀ id, s.freshness id = .old := by
  obtain ⟨d, hd, hoffered, htable, hroot, hdrain⟩ := analyze_ok hanalyze
  have hw : Steady w (OnOffer w definition) := ⟨hspelling, htimes, fun d => .inl⟩
  have hstart : Sweep w (OnOffer w definition) (start p) := by
    refine ⟨.start w _ p, ⟨fun id hle t n htakes => ?_, fun id u hu hfile hbody => ?_,
      fun id u hmem => absurd hmem List.not_mem_nil⟩,
      fun id hin => absurd hin Std.ExtTreeSet.not_mem_empty⟩
    · exact absurd (hconfined.taker id t n htakes) (Nat.not_lt_of_le hle)
    cases hkind : u.kind with
    | precompiled path => exact hprecompiled id u path hu hkind
    | _ => simp_all [UnitKind.hasBody, UnitKind.isFile, UnitKind.path?]
  obtain ⟨hs, hlooked, hdenotes⟩ := hstart.underway.unitFor htimes entry hoffered
  obtain ⟨hfinal, hbefore, hempty, hsize⟩ := (hstart.looked hs hlooked rfl).drain hw hdrain
  rw [hlooked.handled] at hsize
  rw [hroot] at hdenotes
  have hrepeats : Repeats w (OnOffer w definition) r (start r.program) :=
    ⟨.start w _ _, rfl, fun id hid => absurd hid Std.ExtTreeMap.not_mem_empty, fun _ => rfl,
      fun work hwork => absurd hwork List.not_mem_nil, rfl⟩
  obtain ⟨hagain, hroot'⟩ := hrepeats.unitFor hw hfinal.underway hoffered (hdenotes.mono hbefore)
  have hlooked' := (hrepeats.underway.unitFor htimes entry hoffered).2.1
  obtain ⟨s, hdrain', hrepeated⟩ := hagain.drain workLimit hw hfinal hempty
    (by rw [hlooked'.handled]; exact hsize)
  refine ⟨s, ?_, hrepeated.program, hrepeated.readings, hrepeated.old⟩
  rw [analyze, hd]
  simp only [htable, Bool.false_eq_true, if_false, reset, hroot', hdrain']

/-- A lookup that finds two files, whatever the directory. -/
def twoFiles (first second : String × UnitKind) : NameLookup where
  find name _ :=
    ([first, second].find? (·.1 == name)).bind fun (_, kind) =>
      kind.path?.map fun path => ⟨kind, 1, .file path⟩
  names := {first.1, second.1}
  namesIn _ := ∅

theorem ignoresSpelling_twoFiles (first second : String × UnitKind) :
    (twoFiles first second).IgnoresSpelling := ⟨fun _ _ _ _ => rfl, fun _ _ _ => rfl⟩

/-- Both files of the example have one time. -/
theorem timestamp_of_offers_twoFiles {first second : String × UnitKind}
    (h : (twoFiles first second).Offers d) : d.timestamp = 1 := by
  obtain ⟨name, directory, hfind⟩ := h
  obtain ⟨⟨_, kind⟩, _, hpath⟩ := Option.bind_eq_some_iff.1 hfind
  obtain ⟨path, _, rfl⟩ := Option.map_eq_some_iff.1 hpath
  rfl

/-- Two scripts that call each other; one of them also calls a function that is nowhere. -/
def mutualWorld : World where
  lookup := twoFiles ("f", .script ⟨"f.m"⟩) ("g", .script ⟨"g.m"⟩)
  events
    | .file ⟨"f.m"⟩ => .ok [.reference "g" ⟨0, 1⟩, .reference "h" ⟨2, 3⟩]
    | _ => .ok [.reference "f" ⟨0, 1⟩]

/-- One file, for which a name was not found when it was older. -/
def oneFile (name : String) (kind : UnitKind) (missing : String) : Program where
  units := .ofList [⟨name, 0, kind, 0, kind.body?, []⟩]
  graph := .addNode ∅ 0
  imports := (∅ : Std.ExtTreeMap Nat Imports).insert 0 ⟨∅, {missing}⟩

/-- All that is recorded in the example is a name that was not found. -/
theorem takes_oneFile {kind : UnitKind} {missing : String}
    (h : (oneFile name kind missing).Takes id t n) : id = 0 ∧ t = .unresolved := by
  rw [Program.Takes, Program.importsOf, oneFile, Std.ExtTreeMap.getD_insert] at h
  split at h
  · next heq =>
    refine ⟨(Std.LawfulEqCmp.compare_eq_iff_eq.1 heq).symm, ?_⟩
    cases t with
    | unit other => simp [Imports.Has] at h
    | unresolved => rfl
  · exact absurd h (by simp)

/-- The example's program mentions its one unit only. -/
theorem confined_oneFile (name : String) (kind : UnitKind) (missing : String) :
    Confined (oneFile name kind missing) where
  node id hnode := by
    rcases Digraph.hasNode_addNode.1 hnode with rfl | hnone
    · exact Nat.one_pos
    · exact absurd hnone Digraph.not_hasNode_empty
  taker id t n htakes := by rw [(takes_oneFile htakes).1]; exact Nat.one_pos
  target id other n htakes := by cases (takes_oneFile htakes).2

/-- The only unit of the example is its file. -/
theorem get?_oneFile {kind : UnitKind} {missing : String}
    (h : (oneFile name kind missing).units.get? id = some u) : u.kind = kind := by
  cases id with
  | zero => cases h; rfl
  | succ id => cases h

/-- Each file of the example is offered with one time. -/
theorem sameTimes_twoFiles {first second : String × UnitKind}
    {events : Body → Except Fault (List Event)} :
    SameTimes (OnOffer ⟨twoFiles first second, events⟩ none) := by
  rintro d d' (hd | hd) (hd' | hd') _ _
  · exact (timestamp_of_offers_twoFiles hd).trans (timestamp_of_offers_twoFiles hd').symm
  all_goals cases ‹none = some _›

theorem exists_of_snd {α β : Type} {b : β} (k : α × β) (h : k.2 = b) : ∃ a, k = (a, b) :=
  ⟨k.1, Prod.ext rfl h⟩

/-- The outcome of an analysis that finds the script newer. -/
def mutualRun : Resolution × Except Fault (Option Nat) :=
  (start (oneFile "f" (.script ⟨"f.m"⟩) "g")).analyze mutualWorld "f" none

theorem analyze_reset_mutualWorld :
    mutualWorld.lookup.IgnoresSpelling ∧ SameTimes (OnOffer mutualWorld none) ∧
      Confined (oneFile "f" (.script ⟨"f.m"⟩) "g") ∧
      ∃ r s, mutualRun = (r, .ok (some 0)) ∧
        r.reset.analyze mutualWorld "f" none = (s, .ok (some 0)) ∧ s.program = r.program ∧
        s.run.readings = 0 ∧ ∀ id, s.freshness id = .old := by
  have hroot : mutualRun.2 = .ok (some 0) := by cbv
  obtain ⟨r, hr⟩ := exists_of_snd mutualRun hroot
  obtain ⟨s, hs⟩ := analyze_reset (ignoresSpelling_twoFiles _ _) sameTimes_twoFiles
    (confined_oneFile _ _ _) (fun id u path hu hkind => by rw [get?_oneFile hu] at hkind; cases hkind)
    hr
  exact ⟨ignoresSpelling_twoFiles _ _, sameTimes_twoFiles, confined_oneFile _ _ _, r, s, hr, hs⟩

/-- A precompiled file that refers to a name, which is found from the start. -/
def libraryWorld : World :=
  ⟨twoFiles ("k", .precompiled ⟨"k.o"⟩) ("g", .script ⟨"g.m"⟩),
    fun _ => .ok []⟩

/-- The outcome of an analysis for which the file is newer than what is recorded. -/
def libraryRun : Resolution × Except Fault (Option Nat) :=
  (start (oneFile "k" (.precompiled ⟨"k.o"⟩) "g")).analyze libraryWorld "k" none

/-- The first run does not look at the imports of a newer file without code, and the second one does. -/
theorem analyze_reset_precompiled :
    libraryWorld.lookup.IgnoresSpelling ∧ SameTimes (OnOffer libraryWorld none) ∧
      Confined (oneFile "k" (.precompiled ⟨"k.o"⟩) "g") ∧
      ∃ r s, libraryRun = (r, .ok (some 0)) ∧
        r.reset.analyze libraryWorld "k" none = (s, .ok (some 0)) ∧ s.program ≠ r.program := by
  have hroot : libraryRun.2 = .ok (some 0) := by cbv
  have hsize : libraryRun.1.program.units.size = 1 := by cbv
  have hagain : (libraryRun.1.reset.analyze libraryWorld "k" none).2 = .ok (some 0) := by cbv
  have hgrown : (libraryRun.1.reset.analyze libraryWorld "k" none).1.program.units.size = 2 := by
    cbv
  obtain ⟨r, hr⟩ := exists_of_snd libraryRun hroot
  rw [hr] at hsize hagain hgrown
  obtain ⟨s, hs⟩ := exists_of_snd (r.reset.analyze libraryWorld "k" none) hagain
  rw [hs] at hgrown
  refine ⟨ignoresSpelling_twoFiles _ _, sameTimes_twoFiles, confined_oneFile _ _ _, r, s, hr, hs,
    fun heq => ?_⟩
  dsimp only at hsize hgrown
  rw [heq, hsize] at hgrown
  cases hgrown

end Resolution

end ScriptBuild
