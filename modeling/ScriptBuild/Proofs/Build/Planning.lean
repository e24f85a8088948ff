import ScriptBuild.Proofs.Build.Alike

namespace ScriptBuild

variable {σ : Type}

namespace Builder

open BuildM

variable {b : Builder σ} {s t : BuildState σ} {entry : Entry} {name : String}

/-- Nothing but the program of a session has changed. -/
structure SameOutside (s t : BuildState σ) : Prop where
  disk : t.disk = s.disk
  tools : t.tools = s.tools
  archive : t.archive = s.archive
  log : t.log = s.log

theorem SameOutside.refl (s : BuildState σ) : SameOutside s s := ⟨rfl, rfl, rfl, rfl⟩

theorem SameOutside.trans {r s t : BuildState σ} (h : SameOutside r s) (h' : SameOutside s t) :
    SameOutside r t :=
  ⟨h'.disk.trans h.disk, h'.tools.trans h.tools, h'.archive.trans h.archive, h'.log.trans h.log⟩

/-- Plans are made in a session, one after the other. -/
def Plans (b : Builder σ) : BuildState σ → BuildState σ → Prop :=
  Relation.ReflTransGen fun s t => ∃ entry, t = BuildM.final (b.planEntry entry) s

/-- Plans are made one after the other, and none of them finds a unit that has to be built. -/
def PlansIdly (b : Builder σ) : BuildState σ → BuildState σ → Prop :=
  Relation.ReflTransGen fun s t =>
    ∃ entry plan, b.planEntry entry s = .ok plan t ∧ ∀ id, ¬ t.resolution.Due id

/-- To make a plan resolves an entry point in a new run, unless its directory does not have it. -/
theorem final_planEntry (entry : Entry) (s : BuildState σ) :
    final (b.planEntry entry) s = { s with resolution := s.resolution.reset } ∨ ∃ definition,
      final (b.planEntry entry) s = { s with
        resolution := (s.resolution.reset.analyze (b.world s.disk) entry.name definition).1 } := by
  have hanalyzed (definition : Option Definition) :
      final (do
        let root ← b.analyze entry.name definition
        pure (root.map (b.planFor (← get))) : BuildM σ (Option Plan))
          { s with resolution := s.resolution.reset } = { s with
        resolution := (s.resolution.reset.analyze (b.world s.disk) entry.name definition).1 } := by
    rw [final_bind_eq fun _ _ => rfl, final_analyze]
  have hstart : startRun s = .ok () { s with resolution := s.resolution.reset } := rfl
  rw [final, planEntry, bind_of_ok hstart, get_bind]
  cases b.meaning { s with resolution := s.resolution.reset } entry with
  | byName => exact .inr ⟨none, hanalyzed none⟩
  | defined definition => exact .inr ⟨definition, hanalyzed definition⟩
  | missingIn _ => exact .inl rfl

/-- Making a plan changes nothing but the program, also if it fails. -/
theorem planEntry_sameOutside (entry : Entry) : BuildM.Frames SameOutside (b.planEntry entry) := by
  intro s
  rcases b.final_planEntry entry s with hfinal | ⟨definition, hfinal⟩ <;> rw [hfinal]
  · exact ⟨rfl, rfl, rfl, rfl⟩
  · exact ⟨rfl, rfl, rfl, rfl⟩

/-- However many plans are made, nothing but the program changes. -/
theorem Plans.sameOutside (h : b.Plans s t) : SameOutside s t := by
  induction h with
  | refl => exact .refl s
  | tail _ hstep ih =>
    obtain ⟨entry, rfl⟩ := hstep
    exact ih.trans (planEntry_sameOutside entry _)

/-- An entry point is resolved in a new run, after which a build would build what it stands for. -/
structure Resolves (b : Builder σ) (entry : Entry) (s t : BuildState σ) (root : Nat) : Prop where
  analyzed : ∃ definition, s.resolution.reset.analyze (b.world s.disk) entry.name definition =
    (t.resolution, .ok (some root))
  build : b.buildEntry entry { s with resolution := s.resolution.reset } =
    b.buildUnit entry.name root t

/-- The plan of an entry point is made as things stand after it was resolved. -/
theorem planEntry_eq_ok {plan : Option Plan} (h : b.planEntry entry s = .ok plan t) :
    (plan = none ∧ t.resolution.program = s.resolution.program) ∨
      ∃ root, b.Resolves entry s t root ∧ plan = some (b.planFor t root) := by
  obtain ⟨_, s₀, hstart, h⟩ := BuildM.bind_eq_ok.1 h
  cases hstart
  rw [BuildM.get_bind] at h
  dsimp only at h
  generalize hs₀ : ({ s with resolution := s.resolution.reset } : BuildState σ) = s₀ at h
  have hanalyzed {definition : Option Definition}
      (hentry : b.buildEntry entry s₀ = b.buildNamed entry.name definition s₀)
      (h : (do
        let root ← b.analyze entry.name definition
        pure (root.map (b.planFor (← get))) : BuildM σ (Option Plan)) s₀ = .ok plan t) :
      (plan = none ∧ t.resolution.program = s.resolution.program) ∨
        ∃ root, b.Resolves entry s t root ∧ plan = some (b.planFor t root) := by
    obtain ⟨found, s₁, hfound, h⟩ := BuildM.bind_eq_ok.1 h
    rw [BuildM.get_bind] at h
    rw [buildNamed, BuildM.bind_of_ok hfound] at hentry
    obtain ⟨r, hr, rfl⟩ := analyze_eq_ok hfound
    cases h
    subst hs₀
    cases found with
    | none =>
      obtain rfl := Resolution.eq_of_analyze_none hr
      exact .inl ⟨rfl, rfl⟩
    | some root => exact .inr ⟨root, ⟨⟨definition, hr⟩, hentry⟩, rfl⟩
  cases hmeaning : b.meaning s₀ entry <;> rw [hmeaning] at h
  case byName => exact hanalyzed (by rw [buildEntry, BuildM.get_bind, hmeaning]) h
  case defined => exact hanalyzed (by rw [buildEntry, BuildM.get_bind, hmeaning]) h
  case missingIn =>
    cases h
    subst hs₀
    exact .inl ⟨rfl, rfl⟩

/-- A plan teaches a session nothing about the program if no unit turns out to be due. -/
theorem kept_planEntry {plan : Option Plan} (hlinked : s.resolution.program.Linked)
    (h : b.planEntry entry s = .ok plan t) (hnone : ∀ id, ¬ t.resolution.Due id) :
    t.resolution.program.Linked ∧ t.resolution.program.kept = s.resolution.program.kept := by
  rcases planEntry_eq_ok h with ⟨_, hprogram⟩ | ⟨root, ⟨⟨definition, hanalyze⟩, _⟩, _⟩
  · rw [hprogram]
    exact ⟨hlinked, rfl⟩
  · have hsane := Resolution.sane_start s.resolution.program
    have hlater := (hsane.analyze (b.world s.disk) entry.name definition).2
    have hnoted := Resolution.noted_analyze hsane hlinked.toSound (Resolution.calm_start _) hanalyze
    rw [← Resolution.reset, hanalyze] at hlater
    have hafter := hlinked.evolves hlater
    refine ⟨hafter, hafter.kept.ext_takes hlinked.kept ?_ fun id target n => ?_⟩
    · refine Catalog.ext_get? fun id => ?_
      rw [Program.get?_kept, Program.get?_kept]
      exact (hnoted.same id (hnone id)).1
    · have himports := (hnoted.same id (hnone id)).2
      exact iff_of_eq (congrArg (·.Has target n) himports)

theorem PlansIdly.kept (h : b.PlansIdly s t) (hlinked : s.resolution.program.Linked) :
    t.resolution.program.Linked ∧ t.resolution.program.kept = s.resolution.program.kept := by
  induction h with
  | refl => exact ⟨hlinked, rfl⟩
  | tail _ hstep ih =>
    obtain ⟨entry, plan, hplan, hnone⟩ := hstep
    obtain ⟨hbefore, hsame⟩ := ih
    obtain ⟨hafter, hkept⟩ := kept_planEntry hbefore hplan hnone
    exact ⟨hafter, hkept.trans hsame⟩

/-- Plans that find nothing to build are plans. -/
theorem PlansIdly.plans (h : b.PlansIdly s t) : b.Plans s t := by
  induction h with
  | refl => exact .refl
  | tail _ hstep ih =>
    obtain ⟨entry, plan, hplan, -⟩ := hstep
    refine ih.tail ⟨entry, ?_⟩
    rw [final, hplan]

/-- All steps are taken if their units are there. -/
theorem map_step_execute (hcareful : b.toolchain.Careful) {steps : List Step} {generated : NodeSet}
    {records : List StepRecord}
    (hunits : ∀ step ∈ steps, (s.resolution.program.units.get? step.unit).isSome)
    (h : b.execute name plan generated steps s = .ok records t) : records.map (·.step) = steps := by
  induction steps generalizing s generated records with
  | nil =>
    cases h
    rfl
  | cons step steps ih =>
    rw [execute, BuildM.get_bind] at h
    obtain ⟨u, hu⟩ := Option.isSome_iff_exists.1 (hunits step List.mem_cons_self)
    rw [hu] at h
    obtain ⟨performed, s₁, htake, h⟩ := BuildM.bind_eq_ok.1 h
    obtain ⟨rest, s₂, hrest, h⟩ := BuildM.bind_eq_ok.1 h
    cases h
    have hleaves := (take_spares hcareful (b.avoids_cacheFile name step.action u)).ok htake
    have hlater := ih (fun x hx => by
      rw [hleaves.resolution]
      exact hunits x (List.mem_cons_of_mem _ hx)) hrest
    rw [List.map_cons, hlater]

/-- A build takes the steps of the plan that is made in its place. -/
theorem records_of_planEntry (hcareful : b.toolchain.Careful) {plan : Plan} {report : Report}
    {s₁ s₂ : BuildState σ} (hplan : b.planEntry entry s = .ok (some plan) s₁)
    (hbuild : b.build [entry] s = .ok report s₂) :
    report.records.map (·.step) = plan.steps := by
  obtain ⟨results, s₃, hentries, _, rfl⟩ := build_eq_ok.1 hbuild
  rw [List.mapM_cons, List.mapM_nil] at hentries
  obtain ⟨result, s₄, hentry, hentries⟩ := BuildM.bind_eq_ok.1 hentries
  cases hentries
  rcases planEntry_eq_ok hplan with ⟨hnone, _⟩ | ⟨root, hresolves, hmade⟩
  · cases hnone
  · obtain rfl := Option.some.inj hmade
    rw [hresolves.build] at hentry
    obtain ⟨_, hexecute, _⟩ := buildUnit_eq_ok hentry
    rw [reportOf, List.flatMap_singleton]
    exact map_step_execute hcareful (fun step hstep => Planning.isSome_get?_of_mem_steps hstep)
      hexecute

/-- Plans that are made in a session change nothing outside of it. If none of them finds a unit that
has to be built, or if they teach it nothing about the program all the same, each build fares as it
would have fared without them: it takes the same steps, and it leaves the same files, tools and
archive. A plan has the steps that a build in its place takes. -/
theorem build_of_plans (b : Builder σ) (hcareful : b.toolchain.Careful)
    (hgenerator : b.IgnoresBodies) (s t : BuildState σ) (hplans : b.Plans s t) :
    SameOutside s t ∧
      (t.resolution.program.kept = s.resolution.program.kept ∨
          (s.resolution.program.Linked ∧ b.PlansIdly s t) → ∀ entries,
        SameEnd (BuildState.Alike Eq) (b.build entries s) (b.build entries t)) ∧
      ∀ entry plan t', b.planEntry entry t = .ok (some plan) t' →
        ∀ report t'', b.build [entry] t = .ok report t'' →
          report.records.map (·.step) = plan.steps := by
  have hsame := hplans.sameOutside
  refine ⟨hsame, fun hnothing entries => ?_, fun entry plan t' hplan report t'' hbuild => ?_⟩
  · have hkept : t.resolution.program.kept = s.resolution.program.kept := by
      rcases hnothing with hkept | ⟨hlinked, hidly⟩
      · exact hkept
      · exact (hidly.kept hlinked).2
    exact build_alike b.toolchain.matches_self hgenerator hsame.disk hsame.tools.symm
      hsame.archive hsame.log hkept entries
  · exact records_of_planEntry hcareful hplan hbuild

/-- The plan of an entry point that its directory has. -/
theorem planEntry_of_located {directory : FilePath} {definition : Definition} {root : Nat}
    (hmeaning : b.meaning { s with resolution := s.resolution.reset } (.located name directory) =
      .defined definition)
    (hanalyze : b.analyze name (some definition) { s with resolution := s.resolution.reset } =
      .ok (some root) t) :
    b.planEntry (.located name directory) s = .ok (some (b.planFor t root)) t := by
  refine BuildM.bind_eq_ok.2 ⟨(), { s with resolution := s.resolution.reset }, rfl, ?_⟩
  rw [BuildM.get_bind, hmeaning]
  exact BuildM.bind_eq_ok.2 ⟨_, _, hanalyze, rfl⟩

/-- A session that knows the pair from an earlier build. -/
def knownPair : BuildState Unit :=
  ⟨archivedDisk, (), .start pairArchive.toProgram, pairArchive, []⟩

/-- The session after a plan for the pair was made. -/
def knownPlanned : BuildState Unit :=
  { knownPair with resolution := (knownPair.resolution.reset.analyze
      (stubBuilder.world archivedDisk) "f" (some pairDefinition)).1 }

/-- The plan finds no unit that has to be built. -/
theorem plansIdly_pair : stubBuilder.PlansIdly knownPair knownPlanned := by
  have hmeaning : stubBuilder.meaning { knownPair with resolution := knownPair.resolution.reset }
      (.located "f" ⟨"."⟩) = .defined pairDefinition := by
    decide +kernel
  have hall : (knownPair.resolution.reset.analyze (stubBuilder.world archivedDisk) "f"
        (some pairDefinition)).2.toOption = some (some 0) ∧
      knownPlanned.resolution.run.freshness =
        ((∅ : Std.ExtTreeMap Nat Freshness).insert 0 .old).insert 1 .old := by
    decide +kernel
  obtain ⟨hroot, hfreshness⟩ := hall
  have hplan := planEntry_of_located (b := stubBuilder) (s := knownPair) hmeaning
    (analyze_of_result hroot)
  refine .single ⟨_, _, hplan, fun id => ?_⟩
  rw [Resolution.not_due_iff, Resolution.freshness]
  rw [hfreshness, Std.ExtTreeMap.getD_insert, Std.ExtTreeMap.getD_insert]
  simp

/-- The pair is known and has not changed: it is planned, and then built as if it had not been
planned. Before, it was built by the steps of its plan. -/
theorem build_of_plans_pair :
    (stubBuilder.PlansIdly knownPair knownPlanned ∧
      SameEnd (BuildState.Alike Eq) (stubBuilder.build [.located "f" ⟨"."⟩] knownPair)
        (stubBuilder.build [.located "f" ⟨"."⟩] knownPlanned)) ∧
    ∃ plan t report t', stubBuilder.planEntry (.located "f" ⟨"."⟩) pairStart = .ok (some plan) t ∧
      stubBuilder.build [.located "f" ⟨"."⟩] pairStart = .ok report t' ∧
      report.records.map (·.step) = plan.steps ∧ plan.steps = pairSteps := by
  have hgenerator : stubBuilder.IgnoresBodies := Stub.generate_kept
  obtain ⟨report, t', hbuild, -⟩ := build_pair
  have hlinked : knownPair.resolution.program.Linked := records_pairArchive.toProgram.linked
  have hplan := planEntry_of_located (b := stubBuilder) (s := pairStart) analysis_pair.meaning
    analysis_pair.analyze
  refine ⟨⟨plansIdly_pair, ?_⟩, _, _, report, t', hplan, hbuild, ?_, analysis_pair.steps_planFor⟩
  · exact (build_of_plans stubBuilder careful_stubBuilder hgenerator knownPair knownPlanned
      plansIdly_pair.plans).2.1 (.inr ⟨hlinked, plansIdly_pair⟩) _
  · exact (build_of_plans stubBuilder careful_stubBuilder hgenerator pairStart pairStart
      .refl).2.2 _ _ _ hplan _ _ hbuild

end Builder

end ScriptBuild
