import ScriptBuild.Proofs.Build.Planning
import ScriptBuild.Proofs.Build.Sources
import ScriptBuild.Proofs.Resolution.Schedule

namespace ScriptBuild

variable {σ : Type}

namespace Digraph

variable {g : Digraph} {u : Nat}

theorem mem_sources : u ∈ g.sources ↔ g.hasNode u ∧ ∀ v, ¬ g.Edge v u := by
  have hentered (rows : List (Nat × NodeSet)) (seen : NodeSet) :
      u ∈ rows.foldl (fun seen row => seen ∪ row.2) seen ↔ u ∈ seen ∨ ∃ row ∈ rows, u ∈ row.2 := by
    induction rows generalizing seen with
    | nil => simp
    | cons row rows ih => rw [List.foldl_cons, ih]; simp [or_assoc]
  have hedge : (∃ row ∈ g.table.toList, u ∈ row.2) ↔ ∃ v, g.Edge v u := by
    constructor
    · rintro ⟨⟨v, targets⟩, hrow, hu⟩
      have hsome := Std.ExtTreeMap.mem_toList_iff_getElem?_eq_some.1 hrow
      exact ⟨v, by rwa [Edge, successors, Std.ExtTreeMap.getD_eq_getD_getElem?, hsome]⟩
    · rintro ⟨v, hu⟩
      rw [Edge, successors, Std.ExtTreeMap.getD_eq_getD_getElem?] at hu
      cases hsome : g.table[v]? with
      | none => rw [hsome] at hu; simp at hu
      | some targets =>
        rw [hsome] at hu
        exact ⟨(v, targets), Std.ExtTreeMap.mem_toList_iff_getElem?_eq_some.2 hsome, hu⟩
  rw [sources, List.mem_filter, mem_nodes]
  refine and_congr_right fun _ => ?_
  simp only [Bool.not_eq_true', Bool.eq_false_iff, ne_eq, Std.ExtTreeSet.contains_iff_mem]
  rw [hentered, hedge]
  simp

end Digraph

theorem UnitKind.isSharedTable_of_path? {kind : UnitKind} {p : FilePath}
    (hpath : kind.path? = some p) : kind.isSharedTable = false := by
  cases kind <;> first | rfl | cases hpath

/-- A path starts with its directory, however both are spelled. -/
theorem FilePath.startsWith_parent? {p q directory : FilePath} (hparent : p.parent? = some directory)
    (hsame : q.components = p.components) : q.startsWith directory := by
  have houter := map_components_parent? p
  rw [hparent, Option.map_some] at houter
  have hprefix : directory.components <+: p.components := by
    rw [← List.reverse_reverse p.components]
    generalize p.components.reverse = cs at houter ⊢
    cases cs with
    | nil => cases houter
    | cons c rest =>
      cases c with
      | root => cases houter
      | _ => rw [Option.some.inj houter, List.reverse_cons]; exact List.prefix_append _ _
  rw [startsWith, hsame, List.isPrefixOf_iff_prefix]
  exact hprefix

namespace Resolution

variable {w : World} {r s : Resolution} {id : Nat} {name : String} {d : Definition}
  {found : Option Nat}

/-- A definition that denotes a known unit gives that unit. -/
theorem unitFor_of_findMatch (htable : d.kind.isSharedTable = false)
    (hmatch : r.program.units.findMatch name d.kind d.timestamp = some id) :
    (r.unitFor name d).2 = id := by
  have hunit := unitOutcome r name d
  generalize r.unitFor name d = k at hunit ⊢
  cases hunit with
  | table hshared =>
    rw [htable] at hshared
    cases hshared
  | made _ hnone => cases hnone.symm.trans hmatch
  | met _ hfound | refreshed _ hfound => exact Option.some.inj (hfound.symm.trans hmatch)

/-- A definition of a known unit is resolved to that unit. -/
theorem analyze_of_findMatch (htable : d.kind.isSharedTable = false)
    (hmatch : r.program.units.findMatch name d.kind d.timestamp = some id)
    (hanalyze : r.analyze w name (some d) = (s, .ok found)) : found = some id := by
  have houtcome := analyzeOutcome w r name (some d)
  rw [hanalyze] at houtcome
  cases houtcome with
  | undefined hnone => cases hnone
  | table hd hshared =>
    obtain rfl := Option.some.inj hd
    rw [htable] at hshared
    cases hshared
  | done hd =>
    obtain rfl := Option.some.inj hd
    rw [unitFor_of_findMatch htable hmatch]

end Resolution

namespace Builder

open Resolution

variable {b : Builder σ} {s s' t : BuildState σ} {entry : Entry} {entries : List Entry}
  {name : String} {root id : Nat} {u : BuildUnit} {directory : FilePath} {result : EntryResult}
  {results : List EntryResult} {plan : Plan} {report : Report}

/-- What holds of the run between two entry points. -/
structure Rests (s : BuildState σ) : Prop where
  closing : s.resolution.Closing
  linked : s.resolution.program.Linked
  waiting : s.resolution.run.waiting = []

/-- A build goes on: the run does, and definitions are where they were. -/
structure Proceeds (s t : BuildState σ) : Prop where
  resumes : Extends s.resolution t.resolution
  sources : s.disk.SameSources t.disk

theorem Proceeds.refl (s : BuildState σ) : Proceeds s s := ⟨.refl _, fun _ _ => rfl⟩

theorem Proceeds.trans {r s t : BuildState σ} (h : Proceeds r s) (h' : Proceeds s t) :
    Proceeds r t := ⟨h.resumes.trans h'.resumes, h.sources.trans h'.sources⟩

/-- An analysis that succeeds leaves nothing waiting, and has handled the unit that it found. -/
theorem Rests.analyze (h : Rests s) {definition : Option Definition}
    (hrun : b.analyze name definition s = .ok (some root) t) :
    Rests t ∧ Proceeds s t ∧ root ∈ t.resolution.run.handled := by
  obtain ⟨r, hanalyze, rfl⟩ := analyze_eq_ok hrun
  obtain ⟨hclosing, hextends, hwaiting, hroot⟩ := h.closing.analyze hanalyze
  have hevolves := (h.closing.sane.analyze (b.world s.disk) name definition).2
  rw [hanalyze] at hevolves
  exact ⟨⟨hclosing, h.linked.evolves hevolves, hwaiting⟩, ⟨hextends, fun _ _ => rfl⟩, hroot⟩

/-- What an entry point was resolved to is built with the run left as it is. -/
theorem Rests.buildUnit (h : Rests s) (hconfined : b.toolchain.Confined)
    (hrun : b.buildUnit name root s = .ok result t) : Rests t ∧ Proceeds s t := by
  obtain ⟨s₁, hexecute, htouched, rfl⟩ := buildUnit_eq_ok hrun
  obtain ⟨hresolution, hsources⟩ := (execute_keepsSources hconfined).ok hexecute
  rw [hresolution] at htouched ⊢
  have hmet (id : Nat) (hid : id ∈ result.touched) : s.resolution.Met id := by
    rw [htouched, List.mem_filter] at hid
    exact Due.met hid.2
  obtain ⟨hclosing, hextends, hwaiting⟩ := h.closing.foldl_markBuilt result.touched hmet
  have hprogram := (foldl_markBuilt result.touched s.resolution).1
  exact ⟨⟨hclosing, by rw [hprogram]; exact h.linked, hwaiting.trans h.waiting⟩, hextends, hsources⟩

/-- After an entry point nothing waits, and definitions are where they were. -/
theorem Rests.buildEntry (h : Rests s) (hconfined : b.toolchain.Confined)
    (hrun : b.buildEntry entry s = .ok result t) : Rests t ∧ Proceeds s t := by
  rcases buildEntry_eq_ok hrun with ⟨_, _, rfl⟩ | ⟨definition, root, r, hr, hbuild⟩
  · exact ⟨h, .refl _⟩
  · have hanalyze : b.analyze entry.name definition s = .ok (some root) { s with resolution := r } := by
      rw [Builder.analyze, hr]
    obtain ⟨hmiddle, hfirst, _⟩ := h.analyze hanalyze
    obtain ⟨hlast, hsecond⟩ := hmiddle.buildUnit hconfined hbuild
    exact ⟨hlast, hfirst.trans hsecond⟩

theorem Rests.mapM_buildEntry (h : Rests s) (hconfined : b.toolchain.Confined)
    (hrun : entries.mapM b.buildEntry s = .ok results t) : Rests t ∧ Proceeds s t := by
  induction entries generalizing s results with
  | nil =>
    rw [List.mapM_nil] at hrun
    cases hrun
    exact ⟨h, .refl _⟩
  | cons entry entries ih =>
    rw [List.mapM_cons] at hrun
    obtain ⟨result, s₁, hentry, hrun⟩ := BuildM.bind_eq_ok.1 hrun
    obtain ⟨rest, s₂, hrest, hrun⟩ := BuildM.bind_eq_ok.1 hrun
    cases hrun
    obtain ⟨hmiddle, hfirst⟩ := h.buildEntry hconfined hentry
    obtain ⟨hlast, hsecond⟩ := ih hmiddle hrest
    exact ⟨hlast, hfirst.trans hsecond⟩

/-- Entry points are built one after the other, and so is any one among them. -/
theorem mapM_buildEntry_append {before after : List Entry}
    (hrun : (before ++ entry :: after).mapM b.buildEntry s = .ok results t) :
    ∃ former s₁ result s₂ later, before.mapM b.buildEntry s = .ok former s₁ ∧
      b.buildEntry entry s₁ = .ok result s₂ ∧ after.mapM b.buildEntry s₂ = .ok later t ∧
      results = former ++ result :: later := by
  rw [List.mapM_append, List.mapM_cons] at hrun
  obtain ⟨former, s₁, hbefore, hrun⟩ := BuildM.bind_eq_ok.1 hrun
  obtain ⟨rest, s₂, hrest, hrun⟩ := BuildM.bind_eq_ok.1 hrun
  obtain ⟨result, s₃, hentry, hrest⟩ := BuildM.bind_eq_ok.1 hrest
  obtain ⟨later, s₄, hafter, hrest⟩ := BuildM.bind_eq_ok.1 hrest
  cases hrest
  cases hrun
  exact ⟨former, s₁, result, s₃, later, hbefore, hentry, hafter, rfl⟩

/-- What becomes of an entry point when its turn comes: it is resolved, and what it stands for is
built by a plan. -/
structure Undertakes (b : Builder σ) (entry : Entry) (s t : BuildState σ) (plan : Plan) : Prop where
  analyzed : ∃ definition, b.analyze entry.name definition s = .ok (some plan.root) t
  built : b.buildEntry entry s = b.buildUnit entry.name plan.root t
  planned : plan = b.planFor t plan.root

/-- In the course of a build of some entry points one of them is built by a plan. -/
def CarriesOut (b : Builder σ) (entries : List Entry) (s : BuildState σ) (entry : Entry)
    (plan : Plan) : Prop :=
  ∃ before after results s₁ t, entries = before ++ entry :: after ∧
    before.mapM b.buildEntry { s with resolution := s.resolution.reset } = .ok results s₁ ∧
    b.Undertakes entry s₁ t plan

/-- A unit is translated, and is still what its name denotes in its own directory. -/
structure InPlace (b : Builder σ) (s : BuildState σ) (id : Nat) (u : BuildUnit)
    (directory : FilePath) : Prop where
  get : s.resolution.program.units.get? id = some u
  translate : u.kind.treatment = .translate
  within : u.directory? = some directory
  denoted : ∃ d, b.config.search.find s.disk u.name (some directory) = some d ∧
    s.resolution.program.units.findMatch u.name d.kind d.timestamp = some id

/-- A unit in its place on which nothing depends is among the known entry points. -/
theorem InPlace.mem_knownEntries (h : b.InPlace s root u directory)
    (hlinked : s.resolution.program.Linked)
    (hsource : ∀ other, ¬ s.resolution.program.graph.Edge other root) :
    .located u.name directory ∈ knownEntries s.resolution.program := by
  have hnode := hlinked.hasNode_iff.2 (Catalog.lt_size_of_get? h.get)
  refine List.mem_filterMap.2 ⟨root, Digraph.mem_sources.2 ⟨hnode, hsource⟩, ?_⟩
  rw [h.get, Option.bind_some, if_pos (by rw [h.translate]; rfl), h.within, Option.map_some]

/-- A unit that is in its place is what its entry point stands for, also later in a build. -/
theorem InPlace.buildEntry (h : b.InPlace s root u directory) (hproceeds : Proceeds s s')
    (hrun : b.buildEntry (.located u.name directory) s' = .ok result t) :
    ∃ s₁, b.Undertakes (.located u.name directory) s' s₁ (b.planFor s₁ root) := by
  obtain ⟨d, hfind, hmatch⟩ := h.denoted
  obtain ⟨v, hv, hname, hidentity⟩ := Catalog.describes_of_findMatch hmatch
  obtain rfl := Option.some.inj (h.get.symm.trans hv)
  have hpath : u.kind.path?.map FilePath.components = d.kind.path?.map FilePath.components :=
    congrArg Identity.path hidentity
  obtain ⟨p, hp, hparent⟩ := Option.bind_eq_some_iff.1 h.within
  have htable : d.kind.isSharedTable = false := by
    rw [← UnitKind.isSharedTable_eq_of_tag (congrArg Identity.tag hidentity)]
    exact UnitKind.isSharedTable_of_path? hp
  have hwithin : Entry.isWithin directory d := by
    rw [hp, Option.map_some] at hpath
    obtain ⟨q, hq, hcomponents⟩ := Option.map_eq_some_iff.1 hpath.symm
    rw [Entry.isWithin, hq, Option.any_some]
    exact FilePath.startsWith_parent? hparent hcomponents
  have hmeaning : b.meaning s' (.located u.name directory) = .defined d := by
    have hfound : (b.config.search.find s'.disk u.name (some directory)).filter
        (Entry.isWithin directory) = some d := by
      rw [SearchPath.find_congr hproceeds.sources, hfind, Option.filter_some_pos hwithin]
    unfold meaning Entry.meaning
    dsimp only
    rw [hfound]
  rw [Builder.buildEntry, BuildM.get_bind, hmeaning] at hrun
  obtain ⟨found, s₁, hanalyze, hrun⟩ := BuildM.bind_eq_ok.1 hrun
  obtain ⟨r, hr, rfl⟩ := analyze_eq_ok hanalyze
  obtain rfl := analyze_of_findMatch htable (hproceeds.resumes.units.findMatch hmatch) hr
  refine ⟨_, ⟨_, hanalyze⟩, ?_, rfl⟩
  rw [Builder.buildEntry, BuildM.get_bind, hmeaning]
  exact BuildM.bind_of_ok hanalyze

/-- What was built has a module if its plan makes one, and cannot be built otherwise. -/
theorem outcome_buildUnit (h : b.buildUnit name root s = .ok result t) : result.outcome =
    if (b.planFor s root).hasStep root .emit then .built name root (b.config.outputPath name)
    else .notBuildable name root := by
  rw [buildUnit, BuildM.get_bind] at h
  obtain ⟨records, s₁, _, h⟩ := BuildM.bind_eq_ok.1 h
  obtain ⟨touched, s₂, _, h⟩ := BuildM.bind_eq_ok.1 h
  cases h
  rfl

/-- The module of a translated unit is made last. -/
theorem hasStep_emit (hget : s.resolution.program.units.get? root = some u)
    (htranslate : u.kind.treatment = .translate) : (b.planFor s root).hasStep root .emit := by
  have htreatment : (b.planningOf s s.resolution.freshness).treatment root = .translate := by
    rw [Planning.treatment, planningOf, hget, Option.map_some, htranslate, Option.getD_some]
  rw [planFor_eq, Plan.hasStep, Planning.steps_plan, htreatment]
  simp

/-- When the known entry points are built again, each of them that is in its place is built by a plan
that has exactly the units to which it leads in the graph that the build leaves behind. -/
theorem plan_of_refresh (b : Builder σ) (hconfined : b.toolchain.Confined) (s : BuildState σ)
    (hlinked : s.resolution.program.Linked) (hcode : s.resolution.program.TakenByCode)
    (report : Report) (s' : BuildState σ) (hrun : b.refresh s = .ok report s') (root : Nat)
    (u : BuildUnit) (directory : FilePath) (hplace : b.InPlace s root u directory)
    (hsource : ∀ other, ¬ s.resolution.program.graph.Edge other root) :
    ∃ plan, b.CarriesOut (knownEntries s.resolution.program) s (.located u.name directory) plan ∧
      .built u.name root (b.config.outputPath u.name) ∈ report.outcomes ∧
      ∀ id, id ∈ plan.units ↔ s'.resolution.program.graph.Reaches root id := by
  obtain ⟨results, s₁, hentries, hpersist, rfl⟩ := build_eq_ok.1 hrun
  rw [(persist_eq_ok hpersist).1]
  obtain ⟨before, after, hknown⟩ := List.append_of_mem (hplace.mem_knownEntries hlinked hsource)
  rw [hknown] at hentries
  obtain ⟨former, t₁, result, t₂, later, hbefore, hentry, hafter, rfl⟩ :=
    mapM_buildEntry_append hentries
  have hstart : Rests { s with resolution := s.resolution.reset } := ⟨closing_start hcode, hlinked, rfl⟩
  obtain ⟨hrests, hproceeds⟩ := hstart.mapM_buildEntry hconfined hbefore
  have hplace' : b.InPlace { s with resolution := s.resolution.reset } root u directory :=
    ⟨hplace.get, hplace.translate, hplace.within, hplace.denoted⟩
  obtain ⟨t, hundertakes⟩ := hplace'.buildEntry hproceeds hentry
  obtain ⟨definition, hanalyze⟩ := hundertakes.analyzed
  obtain ⟨hresolved, hfound, hroot⟩ := hrests.analyze hanalyze
  rw [hundertakes.built] at hentry
  obtain ⟨hbuilt, hcarried⟩ := hresolved.buildUnit hconfined hentry
  obtain ⟨hlast, hrest⟩ := hbuilt.mapM_buildEntry hconfined hafter
  obtain ⟨v, hv, huv⟩ := (hproceeds.trans hfound).resumes.units root u hplace.get
  refine ⟨_, ⟨before, after, former, t₁, t, hknown, hbefore, hundertakes⟩, ?_, fun id => ?_⟩
  · refine List.mem_map.2 ⟨result, by simp, ?_⟩
    rw [outcome_buildUnit hentry]
    exact if_pos (hasStep_emit hv (by rw [huv.kind, hplace.translate]))
  · rw [mem_units_planFor hresolved.linked (Catalog.lt_size_of_get? hv)]
    exact (hresolved.closing.reaches_iff hresolved.waiting hresolved.linked hlast.linked
      hlast.closing.code (hcarried.trans hrest).resumes hroot).symm

/-- Tools that make empty files change nothing else. -/
theorem confined_stubBuilder : stubBuilder.toolchain.Confined := by
  intro i tools d p hapart
  change (emptyFiles.run i (tools, d)).1.2.file? p = d.file? p
  rw [emptyFiles]
  dsimp only
  split
  · next disk hwrite => exact Disk.file?_write_of_apart hwrite hapart
  · rfl

/-- A script in the working directory, and places for what a build makes. -/
def scriptDisk : Disk where
  nodes := .ofList [(["c"], Node.directory 0), (["c", "objects"], .directory 0),
    (["f.m"], textFile 1 "function f()\nend\n")]
  changed := 0
  changedAround := 0

/-- What the script is found as. -/
def scriptDefinition : Definition := ⟨.script ⟨"./f.m"⟩, 1, .file ⟨"./f.m"⟩⟩

/-- The script as a unit. -/
def scriptUnit : BuildUnit := ⟨"f", 0, .script ⟨"./f.m"⟩, 1, some (.file ⟨"./f.m"⟩), ["f"]⟩

/-- The script as a first session learns of it. -/
def scriptLearned : Resolution :=
  let start : BuildState Unit := .start stubBuilder.config scriptDisk ()
  (start.resolution.reset.analyze (stubBuilder.world scriptDisk) "f" (some scriptDefinition)).1

/-- A later session that knows the script. -/
def knownStart : BuildState Unit :=
  let program := scriptLearned.program.kept
  ⟨scriptDisk, (), .start program, .ofProgram program, []⟩

/-- The state after the script that is known was analyzed again. -/
def knownAnalyzed : BuildState Unit :=
  { knownStart with resolution := (knownStart.resolution.reset.analyze
      (stubBuilder.world knownStart.disk) "f" (some scriptDefinition)).1 }

/-- What is computed of the script: no archive was there at first, it is found again as the unit that
it was and written anew, and nothing depends on it. -/
theorem knownStart_eqs :
    scriptDisk.text? stubBuilder.layout.cacheFile = none ∧
    (knownStart.resolution.reset.analyze (stubBuilder.world knownStart.disk) "f"
      (some scriptDefinition)).2.toOption = some (some 0) ∧
    knownEntries knownStart.resolution.program = [.located "f" ⟨"."⟩] ∧
    stubBuilder.meaning { knownStart with resolution := knownStart.resolution.reset }
      (.located "f" ⟨"."⟩) = .defined scriptDefinition ∧
    knownAnalyzed.resolution.program.graph = Digraph.empty.addNode 0 ∧
    (stubBuilder.planningOf knownAnalyzed knownAnalyzed.resolution.freshness).unitSteps 0 ++
      (if (stubBuilder.planningOf knownAnalyzed knownAnalyzed.resolution.freshness).treatment 0 ==
        .translate then [⟨0, .emit⟩] else []) = [⟨0, .generate⟩, ⟨0, .compile⟩, ⟨0, .emit⟩] ∧
    knownStart.resolution.program.imports = ∅ ∧
    knownStart.resolution.program.units.get? 0 = some scriptUnit ∧
    scriptUnit.directory? = some ⟨"."⟩ ∧
    stubBuilder.config.search.find knownStart.disk "f" (some ⟨"."⟩) = some scriptDefinition ∧
    knownStart.resolution.program.units.findMatch "f" scriptDefinition.kind
      scriptDefinition.timestamp = some 0 ∧
    0 ∈ knownStart.resolution.program.graph.sources := by
  decide +kernel

/-- The units and dependencies of the script fit together. -/
theorem linked_script : scriptLearned.program.Linked :=
  (Archive.Kept.load (.inl knownStart_eqs.1)).linked.evolves ((sane_start _).analyze _ _ _).2

/-- The script is found again as the unit that it was. -/
theorem analyze_known : stubBuilder.analyze "f" (some scriptDefinition)
    { knownStart with resolution := knownStart.resolution.reset } = .ok (some 0) knownAnalyzed :=
  analyze_of_result knownStart_eqs.2.1

/-- They fit together after it was analyzed again. -/
theorem linked_known : knownAnalyzed.resolution.program.Linked :=
  linked_script.kept.evolves ((sane_start _).analyze _ _ _).2

/-- The script can be built by every plan that is about it alone. -/
theorem finish_known (plan : Plan) (hunits : plan.units = [0]) : BuildM.succeeds
    (stubBuilder.finish "f" plan [⟨0, .generate⟩, ⟨0, .compile⟩, ⟨0, .emit⟩]) knownAnalyzed := by
  unfold finish settle
  simp only [execute, take, generate, emit, BuildConfig.entryLinkage, hunits]
  generalize plan.isCyclic 0 = cyclic
  cases cyclic <;> decide +kernel

theorem refresh_known : ∃ report s', stubBuilder.refresh knownStart = .ok report s' := by
  obtain ⟨-, -, hentries, hmeaning, hgraph, hsteps, -⟩ := knownStart_eqs
  obtain ⟨report, s', hrun, -⟩ := exists_build_alone careful_stubBuilder hmeaning analyze_known
    linked_known hgraph hsteps finish_known
  rw [← hentries] at hrun
  exact ⟨report, s', hrun⟩

/-- The script that is known is built again. -/
theorem plan_of_refresh_known : ∃ report s' plan, stubBuilder.refresh knownStart = .ok report s' ∧
    stubBuilder.CarriesOut (knownEntries knownStart.resolution.program) knownStart
      (.located "f" ⟨"."⟩) plan ∧
    .built "f" 0 (stubBuilder.config.outputPath "f") ∈ report.outcomes ∧ 0 ∈ plan.units := by
  obtain ⟨report, s', hrun⟩ := refresh_known
  obtain ⟨-, -, -, -, -, -, himports, hget, hwithin, hfind, hmatch, hsource⟩ := knownStart_eqs
  have hcode : knownStart.resolution.program.TakenByCode :=
    Program.takenByCode_of_imports himports
  have hplace : stubBuilder.InPlace knownStart 0 scriptUnit ⟨"."⟩ :=
    ⟨hget, by decide, hwithin, scriptDefinition, hfind, hmatch⟩
  obtain ⟨plan, hcarries, hbuilt, hunits⟩ := plan_of_refresh stubBuilder confined_stubBuilder
    knownStart linked_script.kept hcode report s' hrun 0 scriptUnit ⟨"."⟩ hplace
    (Digraph.mem_sources.1 hsource).2
  exact ⟨report, s', plan, hrun, hcarries, hbuilt, (hunits 0).2 .refl⟩

/-- A script that calls another one, which is still there when the first may be gone. -/
def callerDisk (present : Bool) : Disk :=
  let callee : List (Place × Node) := [(["c"], .directory 0), (["c", "objects"], .directory 0),
    (["b.m"], .file (.text "function b()\nend\n") 1)]
  let caller : Place × Node := (["a.m"], .file (.text "function a()\n  b();\nend\n") 1)
  ⟨.ofList (if present then caller :: callee else callee), 0, 0⟩

/-- The script that is called as a unit. -/
def orphanUnit : BuildUnit := ⟨"b", 0, .script ⟨"./b.m"⟩, 1, some (.file ⟨"./b.m"⟩), ["b"]⟩

/-- What is known of both after they were analyzed. -/
def callerProgram : Program where
  units := .ofList [⟨"a", 0, .script ⟨"./a.m"⟩, 1, some (.file ⟨"./a.m"⟩), ["a"]⟩, orphanUnit]
  graph := Digraph.empty.addEdge 0 1
  imports := (∅ : Std.ExtTreeMap Nat Imports).insert 0 (Imports.empty.insert (.unit 1) "b")

/-- What is known of both is known after an analysis. -/
theorem reached_callerProgram : (Resolution.start callerProgram).Reached := by
  have hanalyzed := Reached.analyzed (stubBuilder.world (callerDisk true)) "a"
    (some ⟨.script ⟨"./a.m"⟩, 1, .file ⟨"./a.m"⟩⟩) .start
  generalize hr : (Resolution.analyze _ _ _ _).1 = r at hanalyzed
  obtain ⟨hunits, hgraph, himports⟩ : r.program.units = callerProgram.units ∧
      r.program.graph = callerProgram.graph ∧ r.program.imports = callerProgram.imports := by
    rw [← hr]
    decide +kernel
  obtain ⟨⟨units, graph, imports⟩, run⟩ := r
  obtain rfl : units = callerProgram.units := hunits
  obtain rfl : graph = callerProgram.graph := hgraph
  obtain rfl : imports = callerProgram.imports := himports
  exact .reset hanalyzed

/-- A session that knows both, and in which the caller is gone. -/
def orphanStart : BuildState Unit :=
  ⟨callerDisk false, (), .start callerProgram, .ofProgram callerProgram, []⟩

/-- What is computed of that session: the caller is the known entry point and cannot be found, the
called script can, and refreshing succeeds. -/
theorem orphanStart_eqs :
    knownEntries orphanStart.resolution.program = [.located "a" ⟨"."⟩] ∧
    stubBuilder.meaning { orphanStart with resolution := orphanStart.resolution.reset }
      (.located "a" ⟨"."⟩) = .missingIn ⟨"."⟩ ∧
    orphanUnit.directory? = some ⟨"."⟩ ∧
    stubBuilder.config.search.find orphanStart.disk "b" (some ⟨"."⟩) =
      some ⟨.script ⟨"./b.m"⟩, 1, .file ⟨"./b.m"⟩⟩ ∧
    orphanStart.resolution.program.units.findMatch "b" (.script ⟨"./b.m"⟩) 1 = some 1 ∧
    BuildM.succeeds stubBuilder.refresh orphanStart := by
  decide +kernel

/-- Nothing is built for an entry point that its directory does not have. -/
theorem buildEntry_of_missing (h : b.meaning s entry = .missingIn directory) :
    b.buildEntry entry s =
      .ok (.unresolved entry.name (Entry.missingText entry.name directory)) s := by
  rw [buildEntry, BuildM.get_bind, h]
  rfl

/-- Building the known entry points again carries out no plan: the caller is gone, and the called
script is none of them. -/
theorem not_carriesOut_orphan : ¬ stubBuilder.CarriesOut
    (knownEntries orphanStart.resolution.program) orphanStart entry plan := by
  rintro ⟨before, after, results, s₁, t, hknown, hbefore, hundertakes⟩
  obtain ⟨hentries, hmeaning, -⟩ := orphanStart_eqs
  rw [hentries] at hknown
  obtain ⟨rfl, rfl, rfl⟩ : before = [] ∧ entry = .located "a" ⟨"."⟩ ∧ after = [] := by
    cases before with
    | nil => exact ⟨rfl, (List.cons.inj hknown).1.symm, (List.cons.inj hknown).2.symm⟩
    | cons first rest => simpa using congrArg List.length hknown
  rw [List.mapM_nil] at hbefore
  cases hbefore
  have houtcome := outcome_buildUnit (hundertakes.built.symm.trans (buildEntry_of_missing hmeaning))
  split at houtcome <;> cases houtcome

/-- A script stays in its place, and is in no plan when the known entry points are built again, as the
only one that leads to it is gone. -/
theorem no_plan_of_refresh_orphan : orphanStart.resolution.Reached ∧
    stubBuilder.InPlace orphanStart 1 orphanUnit ⟨"."⟩ ∧
    (∃ report s', stubBuilder.refresh orphanStart = .ok report s') ∧
    ∀ entry plan, stubBuilder.CarriesOut (knownEntries orphanStart.resolution.program) orphanStart
      entry plan → 1 ∉ plan.units := by
  obtain ⟨-, -, hwithin, hfind, hmatch, hsucceeds⟩ := orphanStart_eqs
  refine ⟨reached_callerProgram, ⟨rfl, by decide, hwithin,
    ⟨.script ⟨"./b.m"⟩, 1, .file ⟨"./b.m"⟩⟩, hfind, hmatch⟩,
    BuildM.exists_ok_of_succeeds hsucceeds, fun entry plan hcarries => ?_⟩
  exact absurd hcarries not_carriesOut_orphan

end Builder

end ScriptBuild
