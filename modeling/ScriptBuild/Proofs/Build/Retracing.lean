import ScriptBuild.Proofs.Build.ForwardDeclarations
import ScriptBuild.Proofs.Build.Lookups
import ScriptBuild.Proofs.Build.Refresh
import ScriptBuild.Proofs.Plan.Causes
import ScriptBuild.Proofs.Plan.Watched
import ScriptBuild.Proofs.Resolution.Repetition
import ScriptBuild.Proofs.SearchPath.Kinds

namespace ScriptBuild

variable {σ : Type}

/-- The unit to which an entry point was resolved. -/
def Outcome.unit? : Outcome → Option Nat
  | built _ id _ | notBuildable _ id => some id
  | unresolved _ => none

/-- What a build does with a unit is told by its kind. -/
theorem UnitKind.treatment_eq_of_tag {kind kind' : UnitKind} (h : kind.tag = kind'.tag) :
    kind.treatment = kind'.treatment := by
  cases kind <;> cases kind' <;> first | rfl | cases h

namespace Resolution

variable {w : World} {r : Resolution} {name : String} {definition : Option Definition}
  {d : Definition}

/-- An entry point that is looked up is analyzed by what is found. -/
theorem analyze_of_or (h : definition.or (w.lookup.find name none) = some d) :
    r.analyze w name definition = r.analyze w name (some d) := by
  unfold analyze
  rw [h, Option.some_or]

/-- An analysis of what stands for nothing that can be built changes nothing. -/
theorem analyze_of_filter_eq_none
    (h : (definition.or (w.lookup.find name none)).filter (!·.kind.isSharedTable) = none) :
    r.analyze w name definition = (r, .ok none) := by
  unfold analyze
  cases hd : definition.or (w.lookup.find name none) with
  | none => rfl
  | some d =>
    rw [hd] at h
    dsimp only
    split
    · rfl
    · next htable => simp [htable] at h

end Resolution

namespace Builder

open BuildM Resolution

variable {b : Builder σ} {s s' t : BuildState σ} {entry : Entry} {entries : List Entry}
  {result : EntryResult} {results : List EntryResult} {root id : Nat} {d : Definition}
  {spelling : DirectoryKey → FilePath} {disk : Disk} {p q : Program}

/-- The definition that an entry point stands for, if any that can be built. -/
def standsFor (b : Builder σ) (s : BuildState σ) (entry : Entry) : Option Definition :=
  (b.sought s entry).bind fun definition =>
    (definition.or ((b.world s.disk).lookup.find entry.name none)).filter
      (!·.kind.isSharedTable)

/-- Entry points do not stand for shared tables. -/
theorem isSharedTable_of_standsFor (h : b.standsFor s entry = some d) :
    d.kind.isSharedTable = false := by
  obtain ⟨_, _, hd⟩ := Option.bind_eq_some_iff.1 h
  simpa using (Option.filter_eq_some_iff.1 hd).2

/-- The definition that an entry point stands for is found on the disk. -/
theorem offers_of_standsFor (hfile : ∀ name text, entry ≠ .snippet name text)
    (h : b.standsFor s entry = some d) : (b.world s.disk).lookup.Offers d := by
  obtain ⟨definition, hsought, hd⟩ := Option.bind_eq_some_iff.1 h
  rcases Option.or_eq_some_iff.1 (Option.filter_eq_some_iff.1 hd).1 with rfl | ⟨-, hfind⟩
  · unfold sought meaning at hsought
    cases entry with
    | named name => cases hsought
    | located name directory =>
      unfold Entry.meaning at hsought
      dsimp only at hsought
      split at hsought
      · cases hsought
      · next definition hmeaning =>
        cases hsought
        split at hmeaning
        · next found hfound =>
          cases hmeaning
          exact ⟨name, some directory, (Option.filter_eq_some_iff.1 hfound).1⟩
        · cases hmeaning
      · cases hsought
    | snippet name text => exact absurd rfl (hfile name text)
  · exact ⟨entry.name, none, hfind⟩

/-- The same builder at another time. -/
def later (b : Builder σ) (now : Nat) : Builder σ := { b with now }

/-- Where the same names are known an entry point stands for the same, whatever the time is. -/
theorem standsFor_congr (h : s.disk.SameNames t.disk) (hfile : ∀ name text, entry ≠ .snippet name text)
    (now : Nat) : (b.later now).standsFor t entry = b.standsFor s entry := by
  have hlookup := h.lookup b.config.search
  have hmeaning : (b.later now).meaning t entry = b.meaning s entry :=
    meaning_congr (congrArg NameLookup.find hlookup) hfile
  have hworld : ((b.later now).world t.disk).lookup = (b.world s.disk).lookup := hlookup
  rw [standsFor, standsFor, sought, sought, hmeaning, hworld]

/-- An entry point that stands for nothing is reported. -/
theorem buildEntry_of_none (h : b.standsFor s entry = none) :
    ∃ warning, b.buildEntry entry s = .ok (.unresolved entry.name warning) s := by
  have hnamed {definition : Option Definition} (hsought : b.sought s entry = some definition) :
      b.buildNamed entry.name definition s =
        .ok (.unresolved entry.name (Entry.notBuildableText entry.name)) s := by
    rw [standsFor, hsought, Option.bind_some] at h
    have hanalyze : b.analyze entry.name definition s = .ok none s := by
      rw [Builder.analyze, analyze_of_filter_eq_none h]
    rw [buildNamed, bind_of_ok hanalyze]
    rfl
  rw [buildEntry, BuildM.get_bind]
  cases hmeaning : b.meaning s entry with
  | byName => exact ⟨_, hnamed (by rw [sought, hmeaning])⟩
  | defined definition => exact ⟨_, hnamed (by rw [sought, hmeaning])⟩
  | missingIn directory => exact ⟨_, rfl⟩

/-- Any other one is resolved by its definition, and built. -/
theorem buildEntry_of_some (h : b.standsFor s entry = some d) :
    b.buildEntry entry s = b.buildNamed entry.name (some d) s := by
  obtain ⟨definition, hsought, hd⟩ := Option.bind_eq_some_iff.1 h
  have hanalyze : b.analyze entry.name definition s = b.analyze entry.name (some d) s := by
    rw [Builder.analyze, Builder.analyze, analyze_of_or (Option.filter_eq_some_iff.1 hd).1]
  have hnamed : b.buildNamed entry.name definition s = b.buildNamed entry.name (some d) s := by
    change EStateM.bind (b.analyze entry.name definition) _ s =
      EStateM.bind (b.analyze entry.name (some d)) _ s
    rw [EStateM.bind, EStateM.bind, hanalyze]
  rw [buildEntry, BuildM.get_bind]
  unfold sought at hsought
  cases hmeaning : b.meaning s entry <;> rw [hmeaning] at hsought <;> cases hsought
  · exact hnamed
  · exact hnamed

/-- What a build of an entry point does that succeeds. -/
theorem buildEntry_cases (hrun : b.buildEntry entry s = .ok result s') :
    (b.standsFor s entry = none ∧ s' = s ∧ ∃ warning, result = .unresolved entry.name warning) ∨
      ∃ d root r, b.standsFor s entry = some d ∧
        s.resolution.analyze (b.world s.disk) entry.name (some d) = (r, .ok (some root)) ∧
        b.buildUnit entry.name root { s with resolution := r } = .ok result s' := by
  cases hstands : b.standsFor s entry with
  | none =>
    obtain ⟨warning, hunresolved⟩ := buildEntry_of_none hstands
    cases hunresolved.symm.trans hrun
    exact .inl ⟨rfl, rfl, warning, rfl⟩
  | some d =>
    rw [buildEntry_of_some hstands] at hrun
    obtain ⟨found, s₁, hanalyze, hrun⟩ := BuildM.bind_eq_ok.1 hrun
    obtain ⟨r, hr, rfl⟩ := analyze_eq_ok hanalyze
    cases found with
    | some root => exact .inr ⟨d, root, r, rfl, hr, hrun⟩
    | none =>
      -- A definition that can be built is always resolved to a unit.
      have houtcome := analyzeOutcome (b.world s.disk) s.resolution entry.name (some d)
      rw [hr] at houtcome
      cases houtcome with
      | undefined hnone => cases hnone
      | table hd hshared =>
        obtain rfl := Option.some.inj hd
        rw [isSharedTable_of_standsFor hstands] at hshared
        cases hshared

/-- How an entry point fares that is resolved to a unit of some kind. -/
def outcomeOf (b : Builder σ) (kind : UnitKind) (name : String) (root : Nat) : Outcome :=
  if kind.treatment = .translate then .built name root (b.config.outputPath name)
  else .notBuildable name root

theorem unit?_outcomeOf (b : Builder σ) (kind : UnitKind) (name : String) (root : Nat) :
    (b.outcomeOf kind name root).unit? = some root := by
  unfold outcomeOf
  split <;> rfl

/-- A module is made for an entry point exactly if its unit is translated. -/
theorem hasStep_emit_iff : (b.planFor s root).hasStep root .emit ↔
    (b.planningOf s s.resolution.freshness).treatment root = .translate := by
  rw [planFor_eq, Plan.hasStep, List.contains_iff_mem, Planning.steps_plan, List.mem_append]
  constructor
  · rintro (hmem | hmem)
    · obtain ⟨node, -, hmem⟩ := List.mem_flatMap.1 hmem
      exact absurd rfl (Planning.mem_nodeSteps hmem).2.2
    · split at hmem
      · next htranslate => simpa using htranslate
      · cases hmem
  · intro htranslate
    simp [htranslate]

/-- An entry point that is resolved to a unit fares by the kind of that. -/
theorem outcome_eq_outcomeOf {name : String} {u : BuildUnit}
    (hu : s.resolution.program.units.get? root = some u) (htag : u.kind.tag = d.kind.tag)
    (hrun : b.buildUnit name root s = .ok result t) : result.outcome = b.outcomeOf d.kind name root := by
  have htreatment : (b.planningOf s s.resolution.freshness).treatment root = d.kind.treatment := by
    rw [Planning.treatment, planningOf, hu, Option.map_some, Option.getD_some,
      UnitKind.treatment_eq_of_tag htag]
  rw [outcome_buildUnit hrun, outcomeOf]
  exact if_congr (hasStep_emit_iff.trans (by rw [htreatment])) rfl rfl

/-- A unit that is compiled has all the files from which it is linked, and its module if it has one of
its own. -/
structure Stored (b : Builder σ) (p : Program) (d : Disk) (id : Nat) (u : BuildUnit) : Prop where
  source : d.hasPath (b.layout.path .source u)
  object : d.hasPath (b.layout.path .object u)
  forwardSource : b.config.mode = .perUnit → (∃ v, v ≠ id ∧ p.graph.StronglyConnected id v) →
    d.hasPath (b.layout.path .forwardSource u)
  artifact : b.config.mode = .perUnit → d.hasPath (b.layout.path .artifact u)

/-- All units that a unit leads to and that are compiled have their files. -/
def StoredBelow (b : Builder σ) (p : Program) (d : Disk) (root : Nat) : Prop :=
  ∀ id u, p.graph.Reaches root id → p.units.get? id = some u → u.kind.treatment.makesObject →
    b.Stored p d id u

/-- Files that are there stay as long as nothing is deleted. -/
theorem StoredBelow.retains {d d' : Disk} (h : b.StoredBelow p d root) (hretains : d.Retains d') :
    b.StoredBelow p d' root := by
  intro id u hid hu hobject
  obtain ⟨hsource, hcompiled, hforward, hartifact⟩ := h id u hid hu hobject
  exact ⟨hretains _ hsource, hretains _ hcompiled, fun hmode hcycle =>
    hretains _ (hforward hmode hcycle), fun hmode => hretains _ (hartifact hmode)⟩

/-- What a unit leads to stays stored where its dependencies and their kinds are kept. -/
theorem StoredBelow.kept {d : Disk} (h : b.StoredBelow q d root) (hkept : q.KeptBelow root p)
    (hq : q.Linked) (hroot : root < q.units.size) : b.StoredBelow p d root := by
  intro id v hid hv hobject
  have hid := (hkept.reaches_iff .refl).1 hid
  obtain ⟨u, hu⟩ := Catalog.exists_get? (hq.node id (hid.hasNode (hq.known root hroot)))
  obtain ⟨v', hv', hbecomes⟩ := hkept.units id u hu
  obtain rfl := Option.some.inj (hv.symm.trans hv')
  obtain ⟨hsource, hcompiled, hforward, hartifact⟩ := h id u hid hu (hbecomes.kind ▸ hobject)
  rw [← b.layout.path_of_becomes hbecomes] at hsource hcompiled hforward hartifact
  refine ⟨hsource, hcompiled, fun hmode ⟨other, hne, hcycle⟩ => ?_, hartifact⟩
  exact hforward hmode ⟨other, hne, (hkept.stronglyConnected_iff hid).1 hcycle⟩

/-- A unit that has its files has them for the plan that is made then. -/
theorem StoredBelow.isStocked {freshness : Nat → Freshness}
    (h : b.StoredBelow s.resolution.program s.disk root)
    (hid : s.resolution.program.graph.Reaches root id)
    (hobject : (b.planningOf s freshness).makesObject id) :
    (b.planningOf s freshness).IsStocked s.resolution.program.graph id := by
  cases hu : s.resolution.program.units.get? id with
  | none => simp [Planning.makesObject, Planning.treatment, planningOf, hu, Treatment.makesObject]
      at hobject
  | some u =>
    rw [makesObject_planningOf hu] at hobject
    have hstored := h id u hid hu hobject
    have hfile {role : FileRole} (hthere : s.disk.hasPath (b.layout.path role u)) :
        (b.planningOf s freshness).hasFile role id := (hasFile_planningOf hu).trans hthere
    exact ⟨hfile hstored.source, hfile hstored.object,
      fun hmode hcycle => hfile (hstored.forwardSource hmode hcycle),
      fun hmode => hfile (hstored.artifact hmode)⟩

/-- When a plan was carried out, all its units have their files. -/
theorem storedBelow_of_stocked (hlinked : s.resolution.program.Linked)
    (hroot : root < s.resolution.program.units.size)
    (h : b.Stocked (b.planFor s root) s (b.planFor s root).steps t) :
    b.StoredBelow s.resolution.program t.disk root := by
  intro id u hid hu hobject
  have hobject : (b.planningOf s s.resolution.freshness).makesObject id := by
    rwa [makesObject_planningOf hu]
  obtain ⟨hsource, hcompiled, hforward, hartifact⟩ :=
    Planning.isStocked_or_mem_steps (c := b.planningOf s s.resolution.freshness) hlinked.node hroot
      hid hobject
  refine ⟨?_, ?_, fun hmode hcycle => ?_, fun hmode => ?_⟩
  · exact Prepared.hasPath_of_stocked h hu (hsource.imp_right fun hmem =>
      ⟨.generate, hmem, by simp [Action.roles], by simp⟩)
  · exact Prepared.hasPath_of_stocked h hu (hcompiled.imp_right fun hmem =>
      ⟨.compile, hmem, by simp [Action.roles], by simp⟩)
  · exact Prepared.hasPath_of_stocked h hu ((hforward hmode hcycle).imp_right fun hmem =>
      ⟨.generate, hmem.1, by simp [Action.roles], fun _ => hmem.2⟩)
  · exact Prepared.hasPath_of_stocked h hu (.inr
      ⟨.link, hartifact hmode, by simp [Action.roles], by simp⟩)

/-- The names that a disk shows are steady once each directory is spelled in one way. -/
theorem steady_world (b : Builder σ) (spelling : DirectoryKey → FilePath) (disk : Disk) :
    Steady ((b.world disk).respelled spelling) (b.world disk).lookup.Offers where
  spelling := World.ignoresSpelling_respelled _ _
  times := by
    rintro d d' ⟨name, directory, hd⟩ ⟨name', directory', hd'⟩ hfile hidentity
    obtain ⟨p, hp⟩ := Option.isSome_iff_exists.1 hfile
    have hpath := congrArg Identity.path hidentity
    simp only [Definition.identity, UnitKind.identity, hp, Option.map_some] at hpath
    obtain ⟨q, hq, hsame⟩ := Option.map_eq_some_iff.1 hpath.symm
    exact (SearchPath.alike_of_find hd hd' hp hq (FilePath.same_iff.2 hsame.symm)).1
  offers _ := World.offers_of_respelled

/-- Between two entry points of a build that started on a disk. The directories of the program are
taken to be spelled in one way. -/
structure Midway (b : Builder σ) (disk : Disk) (spelling : DirectoryKey → FilePath)
    (s : BuildState σ) : Prop where
  rests : Rests s
  sweep : Sweep ((b.world disk).respelled spelling) (b.world disk).lookup.Offers s.resolution
  names : disk.SameNames s.disk

/-- The world of another disk that shows the same names. -/
theorem lookup_world (h : disk.SameNames s.disk) (spelling : DirectoryKey → FilePath) :
    ((b.world s.disk).respelled spelling).lookup = ((b.world disk).respelled spelling).lookup :=
  congrArg (NameLookup.respelled · spelling) (h.lookup b.config.search)

/-- An analysis in the course of a build leaves the directories as they are spelled. -/
theorem Midway.analyze {r : Resolution} (h : b.Midway disk spelling s)
    (hfile : ∀ name text, entry ≠ .snippet name text) (hstands : b.standsFor s entry = some d)
    (hlies : r.program.LiesIn fun d => spelling d.key = d)
    (hr : s.resolution.analyze (b.world s.disk) entry.name (some d) = (r, .ok (some root))) :
    b.Midway disk spelling { s with resolution := r } ∧ Proceeds s { s with resolution := r } ∧
      s.resolution.Before r ∧ root ∈ r.run.handled ∧ r.Denotes entry.name d root := by
  have hanalyze : b.analyze entry.name (some d) s = .ok (some root) { s with resolution := r } := by
    rw [Builder.analyze, hr]
  obtain ⟨hrests, hproceeds, hhandled⟩ := h.rests.analyze hanalyze
  have hlookup := lookup_world (b := b) h.names spelling
  have hoffers := offers_of_standsFor hfile hstands
  have hshown : (b.world s.disk).lookup = (b.world disk).lookup := h.names.lookup b.config.search
  rw [hshown] at hoffers
  have hsame := analyze_congr h.rests.closing.sane
    (World.agreesFrom_respelled (D := fun d => spelling d.key = d) (fun _ hd => hd) (b.world s.disk))
    entry.name (some d) (by rw [hr]; exact hlies)
  have hsteady : Steady ((b.world s.disk).respelled spelling) (b.world disk).lookup.Offers := by
    have hsteady := b.steady_world spelling s.disk
    rwa [hshown] at hsteady
  obtain ⟨hsweep, hbefore, -, d', hd', -, -, hdenotes⟩ := (h.sweep.of_lookup hlookup).analyze hsteady
    (fun _ heq => Option.some.inj heq ▸ hoffers) (hsame.trans hr)
  obtain rfl := Option.some.inj hd'
  exact ⟨⟨hrests, hsweep.of_lookup hlookup.symm, h.names⟩, hproceeds, hbefore, hhandled, hdenotes⟩

/-- So does the building of what was resolved, which changes no lookup. -/
theorem Midway.buildUnit {name : String} (h : b.Midway disk spelling s) (htidy : b.toolchain.Tidy)
    (hconfined : b.toolchain.Confined) (hrun : b.buildUnit name root s = .ok result t) :
    b.Midway disk spelling t ∧ Proceeds s t ∧ s.resolution.Before t.resolution := by
  obtain ⟨hrests, hproceeds⟩ := h.rests.buildUnit hconfined hrun
  have hnames := (sameNames_buildUnit htidy hconfined name root).ok hrun
  obtain ⟨s₁, hexecute, htouched, rfl⟩ := buildUnit_eq_ok hrun
  have hresolution := ((execute_keepsSources hconfined).ok hexecute).resolution
  rw [hresolution] at htouched
  have hmet (id : Nat) (hid : id ∈ result.touched) : s.resolution.Met id := by
    rw [htouched, List.mem_filter] at hid
    exact Due.met hid.2
  obtain ⟨hsweep, hbefore⟩ := h.sweep.foldl_markBuilt result.touched hmet
  rw [← hresolution] at hsweep hbefore
  refine ⟨⟨hrests, hsweep, h.names.trans hnames⟩, hproceeds, ?_⟩
  rwa [hresolution] at hbefore ⊢

/-- What an entry point came to: nothing, or a unit that its definition still denotes. -/
inductive CameTo (b : Builder σ) (s : BuildState σ) (r : Resolution) (entry : Entry) :
    Outcome → Prop where
  | nothing (hstands : b.standsFor s entry = none) : CameTo b s r entry (.unresolved entry.name)
  | unit {d : Definition} {root : Nat} (hstands : b.standsFor s entry = some d)
      (hdenotes : r.Denotes entry.name d root) (hhandled : root ∈ r.run.handled) :
      CameTo b s r entry (b.outcomeOf d.kind entry.name root)

theorem CameTo.mono {r r' : Resolution} {outcome : Outcome} (h : b.CameTo s r entry outcome)
    (hbefore : r.Before r') (hextends : Extends r r') : b.CameTo s r' entry outcome := by
  cases h with
  | nothing hstands => exact .nothing hstands
  | unit hstands hdenotes hhandled =>
    exact .unit hstands (hdenotes.mono hbefore) (hextends.handled _ hhandled)

/-- What an entry point came to was handled in the run. -/
theorem CameTo.known {r : Resolution} {outcome : Outcome} (h : b.CameTo s r entry outcome)
    (hroot : outcome.unit? = some root) : root ∈ r.run.handled ∧ root < r.program.units.size := by
  cases h with
  | nothing hstands => cases hroot
  | unit hstands hdenotes hhandled =>
    rw [unit?_outcomeOf] at hroot
    obtain rfl := Option.some.inj hroot
    obtain ⟨u, hu, -⟩ := hdenotes.exists_unit
    exact ⟨hhandled, Catalog.lt_size_of_get? hu⟩

/-- Whatever happens to a program after a unit was handled, what the unit leads to stays as it
is. -/
theorem Rests.keptBelow (h : Rests s) (ht : Rests t) (hproceeds : Proceeds s t)
    (hroot : root ∈ s.resolution.run.handled) :
    s.resolution.program.KeptBelow root t.resolution.program where
  units := hproceeds.resumes.units
  edge _ _ ha := h.closing.edge_iff h.waiting h.linked ht.linked ht.closing.code hproceeds.resumes
    hroot ha

/-- What an entry point came to in a build that has gone on since. -/
structure Finished (b : Builder σ) (s₀ s : BuildState σ) (entry : Entry) (outcome : Outcome) :
    Prop where
  came : b.CameTo s₀ s.resolution entry outcome
  stored : ∀ root, outcome.unit? = some root → b.StoredBelow s.resolution.program s.disk root

/-- An entry point that came to something is where it was after more of the build. -/
theorem Finished.advance {s₀ : BuildState σ} {outcome : Outcome} (h : b.Finished s₀ s entry outcome)
    (hs : Rests s) (ht : Rests t) (hproceeds : Proceeds s t)
    (hbefore : s.resolution.Before t.resolution) (hretains : s.disk.Retains t.disk) :
    b.Finished s₀ t entry outcome := by
  refine ⟨h.came.mono hbefore hproceeds.resumes, fun root hroot => ?_⟩
  obtain ⟨hhandled, hknown⟩ := h.came.known hroot
  exact ((h.stored root hroot).kept (hs.keptBelow ht hproceeds hhandled) hs.linked hknown).retains
    hretains

/-- An entry point that is built comes to what it stands for, and all that it leads to is stored. -/
theorem finished_buildEntry {s₀ : BuildState σ} (hreliable : b.toolchain.Reliable)
    (htidy : b.toolchain.Tidy) (hconfined : b.toolchain.Confined)
    (hgenerator : b.generator = Stub.generate) (h : b.Midway s₀.disk spelling s)
    (hfile : ∀ name text, entry ≠ .snippet name text)
    (hlies : t.resolution.program.LiesIn fun d => spelling d.key = d)
    (hrun : b.buildEntry entry s = .ok result t) :
    b.Midway s₀.disk spelling t ∧ Proceeds s t ∧ s.resolution.Before t.resolution ∧
      s.disk.Retains t.disk ∧ b.Finished s₀ t entry result.outcome := by
  have hstandsFor : b.standsFor s entry = b.standsFor s₀ entry :=
    standsFor_congr (b := b) h.names hfile b.now
  rcases buildEntry_cases hrun with ⟨hnone, rfl, warning, rfl⟩ | ⟨d, root, r, hsome, hr, hbuild⟩
  · refine ⟨h, .refl _, .refl _, fun _ hp => hp, ?_, fun root hroot => ?_⟩
    · exact .nothing (hstandsFor.symm.trans hnone)
    · cases hroot
  · have hanalyze : b.analyze entry.name (some d) s = .ok (some root) { s with resolution := r } := by
      rw [Builder.analyze, hr]
    have hproceeds := (h.rests.analyze hanalyze).1.buildUnit hconfined hbuild
    obtain ⟨hplanned, hfirst, hbefore, hhandled, hdenotes⟩ := h.analyze hfile hsome
      (hlies.of_grows hproceeds.2.resumes.units) hr
    obtain ⟨hlast, hsecond, hafter⟩ := hplanned.buildUnit htidy hconfined hbuild
    obtain ⟨u, hu, htag⟩ := hdenotes.exists_unit
    have houtcome := outcome_eq_outcomeOf hu htag hbuild
    obtain ⟨s₁, hexecute, -, rfl⟩ := buildUnit_eq_ok hbuild
    have hknown := Catalog.lt_size_of_get? hu
    have hstocked := (Stocked.refl b (b.planFor { s with resolution := r } root)
      { s with resolution := r }).execute hreliable hgenerator hexecute
    rw [List.nil_append] at hstocked
    refine ⟨hlast, hfirst.trans hsecond, hbefore.trans hafter, hstocked.gains.disk, ?_, ?_⟩
    · rw [houtcome]
      exact .unit (hstandsFor.symm.trans hsome) (hdenotes.mono hafter)
        (hsecond.resumes.handled _ hhandled)
    · intro root' hroot
      rw [houtcome, unit?_outcomeOf] at hroot
      obtain rfl := Option.some.inj hroot
      exact (storedBelow_of_stocked hplanned.rests.linked hknown hstocked).kept
        (hplanned.rests.keptBelow hlast.rests hsecond hhandled) hplanned.rests.linked hknown

/-- And so it stays until all entry points are built. -/
theorem finished_mapM_buildEntry {s₀ : BuildState σ} (hreliable : b.toolchain.Reliable)
    (htidy : b.toolchain.Tidy) (hconfined : b.toolchain.Confined)
    (hgenerator : b.generator = Stub.generate) (h : b.Midway s₀.disk spelling s)
    (hfiles : ∀ entry ∈ entries, ∀ name text, entry ≠ .snippet name text)
    (hlies : t.resolution.program.LiesIn fun d => spelling d.key = d)
    (hrun : entries.mapM b.buildEntry s = .ok results t) :
    b.Midway s₀.disk spelling t ∧ s.resolution.Before t.resolution ∧ s.disk.Retains t.disk ∧
      List.Forall₂ (fun entry result => b.Finished s₀ t entry result.outcome) entries results := by
  induction entries generalizing s results with
  | nil =>
    rw [List.mapM_nil] at hrun
    cases hrun
    exact ⟨h, .refl _, fun _ hp => hp, .nil⟩
  | cons entry entries ih =>
    rw [List.mapM_cons] at hrun
    obtain ⟨result, s₁, hentry, hrun⟩ := BuildM.bind_eq_ok.1 hrun
    obtain ⟨rest, s₂, hrest, hrun⟩ := BuildM.bind_eq_ok.1 hrun
    cases hrun
    have hbuilt := h.rests.buildEntry hconfined hentry
    have hproceeds := (hbuilt.1.mapM_buildEntry hconfined hrest).2
    obtain ⟨hmiddle, -, hbefore, hretains, hfinished⟩ := finished_buildEntry hreliable htidy
      hconfined hgenerator h (hfiles entry List.mem_cons_self)
      (hlies.of_grows hproceeds.resumes.units) hentry
    obtain ⟨hlast, hafter, hgains, hall⟩ := ih hmiddle
      (fun other hother => hfiles other (List.mem_cons_of_mem _ hother)) hrest
    refine ⟨hlast, hbefore.trans hafter, fun p hp => hgains p (hretains p hp), .cons ?_ hall⟩
    exact hfinished.advance hmiddle.rests hlast.rests hproceeds hafter hgains

/-- The records of some steps are about these steps. -/
theorem mem_steps_of_mem_records {plan : Plan} {generated : NodeSet} {name : String}
    {steps : List Step} {records : List StepRecord} {record : StepRecord}
    (hrun : b.execute name plan generated steps s = .ok records t) (hmem : record ∈ records) :
    record.step ∈ steps := by
  induction steps generalizing s generated records with
  | nil =>
    cases hrun
    cases hmem
  | cons step steps ih =>
    rw [execute, BuildM.get_bind] at hrun
    cases hu : s.resolution.program.units.get? step.unit with
    | none =>
      rw [hu] at hrun
      exact List.mem_cons_of_mem _ (ih hrun hmem)
    | some u =>
      rw [hu] at hrun
      obtain ⟨performed, s₁, -, hrun⟩ := BuildM.bind_eq_ok.1 hrun
      obtain ⟨later, s₂, hrest, hrun⟩ := BuildM.bind_eq_ok.1 hrun
      cases hrun
      rcases List.mem_cons.1 hmem with rfl | hmem
      · exact List.mem_cons_self
      · exact List.mem_cons_of_mem _ (ih hrest hmem)

/-- In the course of a build over what a former one left behind, which has changed nothing of that. -/
structure Retraces (b : Builder σ) (disk : Disk) (spelling : DirectoryKey → FilePath)
    (r₁ : Resolution) (s : BuildState σ) : Prop where
  repeats : Repeats ((b.world disk).respelled spelling) (b.world disk).lookup.Offers r₁ s.resolution
  rests : Rests s
  names : disk.SameNames s.disk

/-- An entry point comes to the same again. -/
theorem Retraces.resolved {s₀ v : BuildState σ} {outcome : Outcome} {now : Nat}
    (h : (b.later now).Retraces s₀.disk spelling t.resolution v) (ht : b.Midway s₀.disk spelling t)
    (hsize : t.resolution.program.units.size ≤ workLimit)
    (hlies : t.resolution.program.LiesIn fun d => spelling d.key = d)
    (hfile : ∀ name text, entry ≠ .snippet name text)
    (hcame : b.CameTo s₀ t.resolution entry outcome) :
    (∃ warning, outcome = .unresolved entry.name ∧
      (b.later now).buildEntry entry v = .ok (.unresolved entry.name warning) v) ∨
    ∃ d root r, outcome = b.outcomeOf d.kind entry.name root ∧
      t.resolution.Denotes entry.name d root ∧
      (b.later now).Retraces s₀.disk spelling t.resolution { v with resolution := r } ∧
      (b.later now).buildEntry entry v =
        (b.later now).buildUnit entry.name root { v with resolution := r } := by
  have hstandsFor : (b.later now).standsFor v entry = b.standsFor s₀ entry :=
    standsFor_congr h.names hfile now
  cases hcame with
  | nothing hstands =>
    obtain ⟨warning, hnone⟩ := buildEntry_of_none (hstandsFor.trans hstands)
    exact .inl ⟨warning, rfl, hnone⟩
  | @unit d root hstands hdenotes hhandled =>
    have hsome := hstandsFor.trans hstands
    have hoffers := offers_of_standsFor hfile hstands
    have hlookup := lookup_world (b := b) (s := v) h.names spelling
    have hshown : (b.world v.disk).lookup = (b.world s₀.disk).lookup := h.names.lookup b.config.search
    have hsteady : Steady ((b.world v.disk).respelled spelling) (b.world s₀.disk).lookup.Offers := by
      have hsteady := b.steady_world spelling v.disk
      rwa [hshown] at hsteady
    have hrepeats : Repeats ((b.world v.disk).respelled spelling) (b.world s₀.disk).lookup.Offers
        t.resolution v.resolution := h.repeats.of_lookup hlookup
    obtain ⟨r, hr, hagain⟩ := hrepeats.analyze hsteady (ht.sweep.of_lookup hlookup) ht.rests.waiting
      hsize (Option.some_or (a := d)) hoffers
      (isSharedTable_of_standsFor hstands) hdenotes
    have hsame := analyze_congr h.rests.closing.sane
      (World.agreesFrom_respelled (D := fun d => spelling d.key = d) (fun _ hd => hd)
        (b.world v.disk)).symm entry.name (some d) (by rw [hr, hagain.program]; exact hlies)
    rw [hr] at hsame
    have hanalyze : (b.later now).analyze entry.name (some d) v = .ok (some root)
        { v with resolution := r } := by
      have hworld : (b.later now).world v.disk = b.world v.disk := rfl
      rw [Builder.analyze, hworld, hsame]
    refine .inr ⟨d, root, r, rfl, hdenotes, ⟨hagain.of_lookup hlookup.symm,
      (h.rests.analyze hanalyze).1, h.names⟩, ?_⟩
    rw [buildEntry_of_some hsome, buildNamed, bind_of_ok hanalyze]

/-- Where nothing is new and everything is stored, only links are planned. -/
theorem links_of_storedBelow (hlinked : s.resolution.program.Linked)
    (hroot : root < s.resolution.program.units.size) (hold : ∀ id, s.resolution.freshness id = .old)
    (hstored : b.StoredBelow s.resolution.program s.disk root) {x : Step}
    (hx : x ∈ (b.planFor s root).steps) : x.action = .link ∨ x.action = .emit := by
  by_cases hemit : x.action = .emit
  · exact .inr hemit
  · have hid : s.resolution.program.graph.Reaches root x.unit :=
      (Planning.mem_steps (c := b.planningOf s s.resolution.freshness) hlinked.node hroot hx hemit).1
    refine Planning.links_of_isStocked (c := b.planningOf s s.resolution.freshness) hlinked.node hroot
      hx (fun v hv => hstored.isStocked (hid.trans hv)) fun v hv => ?_
    refine Planning.not_generate_of_isStocked (c := b.planningOf s s.resolution.freshness) hlinked.node
      hroot ?_ (hstored.isStocked (hid.trans hv))
    exact (congrArg Freshness.needsBuild (hold v)).trans rfl

/-- Then a unit is built by links alone, and no unit counts as built. -/
theorem buildUnit_of_old {name : String} (hlinked : s.resolution.program.Linked)
    (hroot : root < s.resolution.program.units.size) (hold : ∀ id, s.resolution.freshness id = .old)
    (hstored : b.StoredBelow s.resolution.program s.disk root)
    (hrun : b.buildUnit name root s = .ok result t) :
    (∀ record ∈ result.records, record.step.action = .link ∨ record.step.action = .emit) ∧
      result.touched = [] ∧ t.resolution = s.resolution := by
  obtain ⟨s₁, hexecute, htouched, rfl⟩ := buildUnit_eq_ok hrun
  have hresolution : s₁.resolution = s.resolution :=
    (execute_frames b.respects_resolution fun _ _ _ =>
      ⟨fun _ _ => trivial, fun _ => trivial⟩).ok hexecute
  have hnone : result.touched = [] := by
    rw [htouched, List.filter_eq_nil_iff]
    intro id _
    rw [hresolution, hold]
    decide
  refine ⟨fun record hrecord => ?_, hnone, by rw [hnone]; exact hresolution⟩
  exact links_of_storedBelow hlinked hroot hold hstored (mem_steps_of_mem_records hexecute hrecord)

/-- What is stored is stored for the same builder at any time. -/
theorem StoredBelow.later {disk : Disk} (h : b.StoredBelow p disk root) (now : Nat) :
    (b.later now).StoredBelow p disk root := fun id u hid hu hobject =>
  have hstored := h id u hid hu hobject
  ⟨hstored.source, hstored.object, hstored.forwardSource, hstored.artifact⟩

/-- An entry point that is built again comes to the same by links alone. -/
theorem Retraces.buildEntry {s₀ v v' : BuildState σ} {outcome : Outcome} {now : Nat}
    (h : (b.later now).Retraces s₀.disk spelling t.resolution v) (ht : b.Midway s₀.disk spelling t)
    (hreliable : b.toolchain.Reliable) (htidy : b.toolchain.Tidy) (hconfined : b.toolchain.Confined)
    (hsize : t.resolution.program.units.size ≤ workLimit)
    (hlies : t.resolution.program.LiesIn fun d => spelling d.key = d)
    (hfile : ∀ name text, entry ≠ .snippet name text)
    (hfinished : b.Finished s₀ t entry outcome) (hretains : t.disk.Retains v.disk)
    (hrun : (b.later now).buildEntry entry v = .ok result v') :
    result.outcome = outcome ∧
      (∀ record ∈ result.records, record.step.action = .link ∨ record.step.action = .emit) ∧
      result.touched = [] ∧ (b.later now).Retraces s₀.disk spelling t.resolution v' ∧
      t.disk.Retains v'.disk := by
  rcases h.resolved ht hsize hlies hfile hfinished.came with
    ⟨warning, rfl, hnone⟩ | ⟨d, root, r, rfl, hdenotes, hplanned, hbuild⟩
  · cases hnone.symm.trans hrun
    exact ⟨rfl, fun _ hmem => absurd hmem List.not_mem_nil, rfl, h, hretains⟩
  · rw [hbuild] at hrun
    obtain ⟨u, hu, htag⟩ := hdenotes.exists_unit
    have hprogram : r.program = t.resolution.program := hplanned.repeats.program
    have hknown : root < r.program.units.size := hprogram ▸ Catalog.lt_size_of_get? hu
    have hstored : (b.later now).StoredBelow r.program v.disk root := by
      rw [hprogram]
      exact ((hfinished.stored root (b.unit?_outcomeOf _ _ _)).retains hretains).later now
    obtain ⟨hrecords, htouched, hresolution⟩ := buildUnit_of_old (s := { v with resolution := r })
      hplanned.rests.linked hknown hplanned.repeats.old hstored hrun
    have houtcome := outcome_eq_outcomeOf (s := { v with resolution := r }) (d := d)
      (hprogram ▸ hu) htag hrun
    have hnames := (sameNames_buildUnit (b := b.later now) htidy hconfined entry.name root).ok hrun
    have hrests := (hplanned.rests.buildUnit (b := b.later now) hconfined hrun).1
    refine ⟨houtcome, hrecords, htouched, ⟨?_, hrests, hplanned.names.trans hnames⟩, fun p hp => ?_⟩
    · rw [hresolution]
      exact hplanned.repeats
    · obtain ⟨s₁, hexecute, -, rfl⟩ := buildUnit_eq_ok hrun
      exact ((execute_frames (respects_gains (b := b.later now) hreliable) fun _ _ _ =>
        ⟨fun _ _ => trivial, fun _ => trivial⟩).ok hexecute).disk p (hretains p hp)

/-- All entry points that are built again come to the same by links alone. -/
theorem Retraces.mapM_buildEntry {s₀ v v' : BuildState σ} {again : List EntryResult} {now : Nat}
    (h : (b.later now).Retraces s₀.disk spelling t.resolution v) (ht : b.Midway s₀.disk spelling t)
    (hreliable : b.toolchain.Reliable) (htidy : b.toolchain.Tidy) (hconfined : b.toolchain.Confined)
    (hsize : t.resolution.program.units.size ≤ workLimit)
    (hlies : t.resolution.program.LiesIn fun d => spelling d.key = d)
    (hfiles : ∀ entry ∈ entries, ∀ name text, entry ≠ .snippet name text)
    (hfinished : List.Forall₂ (fun entry result => b.Finished s₀ t entry result.outcome) entries results)
    (hretains : t.disk.Retains v.disk)
    (hrun : entries.mapM (b.later now).buildEntry v = .ok again v') :
    again.map (·.outcome) = results.map (·.outcome) ∧
      (∀ record ∈ again.flatMap (·.records),
        record.step.action = .link ∨ record.step.action = .emit) ∧
      again.flatMap (·.touched) = [] ∧
      (b.later now).Retraces s₀.disk spelling t.resolution v' := by
  induction hfinished generalizing v again with
  | nil =>
    rw [List.mapM_nil] at hrun
    cases hrun
    exact ⟨rfl, fun _ hmem => absurd hmem List.not_mem_nil, rfl, h⟩
  | @cons entry result entries results hfirst hrest ih =>
    rw [List.mapM_cons] at hrun
    obtain ⟨first, s₁, hentry, hrun⟩ := BuildM.bind_eq_ok.1 hrun
    obtain ⟨rest, s₂, hothers, hrun⟩ := BuildM.bind_eq_ok.1 hrun
    cases hrun
    obtain ⟨houtcome, hrecords, htouched, hnext, hkept⟩ := h.buildEntry ht hreliable htidy hconfined
      hsize hlies (hfiles entry List.mem_cons_self) hfirst hretains hentry
    obtain ⟨houtcomes, hlater, hnone, hlast⟩ := ih hnext
      (fun other hother => hfiles other (List.mem_cons_of_mem _ hother)) hkept hothers
    refine ⟨?_, fun record hrecord => ?_, ?_, hlast⟩
    · rw [List.map_cons, List.map_cons, houtcome, houtcomes]
    · rw [List.flatMap_cons, List.mem_append] at hrecord
      exact hrecord.elim (hrecords record) (hlater record)
    · rw [List.flatMap_cons, htouched, hnone, List.append_nil]

end Builder

end ScriptBuild
