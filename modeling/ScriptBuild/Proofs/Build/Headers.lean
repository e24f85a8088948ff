import ScriptBuild.Build.Session
import ScriptBuild.Proofs.Build.Step
import ScriptBuild.Proofs.Layout
import ScriptBuild.Proofs.Plan.Steps
import ScriptBuild.Proofs.Resolution.Evolution

namespace ScriptBuild

namespace Stub

variable {r : Request} {code : Generated} {v : BuildUnit}

theorem concat_cons (piece : String) (pieces : List String) :
    concat (piece :: pieces) = piece ++ concat pieces := by
  cases pieces with
  | nil => simp [concat]
  | cons next pieces => rw [concat, String.intercalate_cons_cons, String.append_empty, ← concat]

theorem concat_append (pieces others : List String) :
    concat (pieces ++ others) = concat pieces ++ concat others := by
  induction pieces with
  | nil => simp [concat]
  | cons piece pieces ih => rw [List.cons_append, concat_cons, concat_cons, ih, String.append_assoc]

/-- The units whose headers generated code includes: the unit itself, and all that it can refer to,
unless it is the table of global variables. -/
def Request.included (r : Request) : List BuildUnit :=
  r.unit :: if r.unit.kind == .globals then [] else
    (r.dependencies.filter fun d => isCallable d.1).map (·.1)

/-- The source of the global variables starts with the lines that include headers. -/
theorem source_globals (hkind : r.unit.kind = .globals) : tableSource r.unit =
    concat (r.included.map BuildUnit.includeLine) ++
      concat (r.unit.slots.map fun slot => "void *" ++ r.unit.symbol slot ++ " = 0;\n") := by
  rw [Request.included, if_pos (by simpa using hkind), List.map_singleton, concat_cons, tableSource]
  simp [concat]

/-- So does the source of a unit with functions. -/
theorem functionSource_eq (hkind : r.unit.kind ≠ .globals) : ∃ rest, functionSource r =
    concat (r.included.map BuildUnit.includeLine) ++ rest := by
  refine ⟨concat (r.unresolved.map fun name => "/* resolved at run time: " ++ name ++ " */\n") ++
    functions r.unit (concat ((r.dependencies.filter fun d => isCallable d.1).flatMap
      fun d => d.2.map (use d.1))) r.unit.exports, ?_⟩
  rw [Request.included, if_neg (by simpa using hkind), List.map_cons, concat_cons, List.map_map,
    functionSource, String.append_assoc, String.append_assoc, String.append_assoc]
  rfl

/-- Generated code starts with the lines that include these headers. -/
theorem source_of_generate (h : generate r = .ok code) :
    ∃ rest, code.source = concat (r.included.map BuildUnit.includeLine) ++ rest := by
  unfold generate at h
  cases hkind : r.unit.kind <;> rw [hkind] at h <;> cases h
  case globals => exact ⟨_, source_globals hkind⟩
  all_goals exact functionSource_eq (by simp [hkind])

/-- The header of each of these units is included in the generated code. -/
theorem exists_source_eq (h : generate r = .ok code) (hincluded : v ∈ r.included) :
    ∃ former later, code.source = former ++ v.includeLine ++ later := by
  obtain ⟨rest, hsource⟩ := source_of_generate h
  obtain ⟨front, back, hunits⟩ := List.append_of_mem hincluded
  refine ⟨concat (front.map BuildUnit.includeLine),
    concat (back.map BuildUnit.includeLine) ++ rest, ?_⟩
  rw [hsource, hunits, List.map_append, List.map_cons, concat_append, concat_cons]
  simp only [String.append_assoc]

/-- Code can be generated for every kind of unit for which an object is made. -/
theorem exists_generate (hobject : r.unit.kind.treatment.makesObject) :
    ∃ code, generate r = .ok code := by
  unfold generate
  cases hkind : r.unit.kind <;> rw [hkind] at hobject
  case precompiled | builtins | unknown => cases hobject
  all_goals exact ⟨_, rfl⟩

end Stub

/-- Generated code includes nothing but headers of units that its unit depends on, and its own. -/
theorem Program.Sound.edge_of_included {p : Program} (h : p.Sound) {id other : Nat}
    {u v : BuildUnit} {cyclic : Bool} (hu : p.units.get? id = some u)
    (hv : p.units.get? other = some v) (hincluded : v ∈ (p.stubRequest id u cyclic).included) :
    other = id ∨ p.graph.Edge id other := by
  rcases List.mem_cons.1 hincluded with rfl | hmem
  · exact .inl (h.distinct other id v _ hv hu rfl rfl)
  · refine .inr ?_
    split at hmem
    · cases hmem
    · obtain ⟨⟨v', names⟩, hdependency, rfl⟩ := List.mem_map.1 hmem
      obtain ⟨⟨x, set⟩, hfound, hpair⟩ := List.mem_filterMap.1 (List.mem_filter.1 hdependency).1
      obtain ⟨w, hw, heq⟩ := Option.map_eq_some_iff.1 hpair
      cases heq
      obtain rfl := h.distinct other x _ _ hv hw rfl rfl
      have hset := Std.ExtTreeMap.mem_toList_iff_getElem?_eq_some.1 hfound
      obtain ⟨n, hn⟩ := Imports.exists_mem_of_ne_empty (h.proper id other set hset)
      refine h.edge id other n ?_
      rw [Program.Takes, Imports.Has, Std.ExtTreeMap.getD_eq_getD_getElem?, hset]
      exact hn

namespace Builder

variable {σ : Type} {b : Builder σ} {s s' : BuildState σ} {entry : String} {plan : Plan}
  {generated : NodeSet} {records : List StepRecord} {before after : List Step}
  {id other root : Nat} {u v : BuildUnit}

/-- The header of a unit is there after some steps exactly if it was there before or one of them
generated the code of the unit. -/
theorem hasPath_header_iff (htidy : b.toolchain.Tidy)
    (hdistinct : s.resolution.program.units.Distinct) (hemit : ∀ x ∈ before, x.action ≠ .emit)
    (hrun : b.execute entry plan generated before s = .ok records s')
    (hv : s.resolution.program.units.get? other = some v) :
    s'.disk.hasPath (b.layout.path .header v) ↔
      s.disk.hasPath (b.layout.path .header v) ∨ ⟨other, .generate⟩ ∈ before := by
  obtain ⟨hmakes, hheaders⟩ := execute_makes htidy hrun
  constructor
  · intro hnew
    refine (hmakes.disk.hasPath_or hnew).imp_right ?_
    rintro ⟨q, spot, ⟨x, hx, w, hw, hproduct⟩, hq, hheader⟩
    rcases hproduct with ⟨role, rfl, hrole⟩ | ⟨haction, _⟩
    · obtain ⟨hstem, hheader⟩ := Layout.fileName_injective (Layout.fileName_eq_of_leads hq hheader)
      obtain ⟨hname, hoverload⟩ := BuildUnit.stem_injective hstem
      obtain rfl := hdistinct x.unit other w v hw hv hname hoverload
      rwa [← hrole hheader]
    · exact absurd haction (hemit x hx)
  · rintro (hold | hgenerated)
    · exact hmakes.disk.hasPath hold
    · exact hheaders _ hgenerated rfl v hv

/-- What a plan is made from as things stand, for any freshness of the units. -/
def planningOf (b : Builder σ) (s : BuildState σ) (freshness : Nat → Freshness) : Planning where
  catalog := s.resolution.program.units
  mode := b.config.mode
  freshness := freshness
  present role u := s.disk.hasPath (b.layout.path role u)

/-- The plan of a build is made for the freshness that the resolution found. -/
theorem planFor_eq : b.planFor s root =
    (b.planningOf s s.resolution.freshness).plan s.resolution.program.graph root := rfl

/-- A plan looks for the files of a unit on the disk. -/
theorem hasFile_planningOf {freshness : Nat → Freshness} {role : FileRole}
    (hv : s.resolution.program.units.get? other = some v) :
    (b.planningOf s freshness).hasFile role other = s.disk.hasPath (b.layout.path role v) := by
  simp only [Planning.hasFile, planningOf, hv, Option.any_some]

/-- A plan makes objects for the units whose kind asks for it. -/
theorem makesObject_planningOf {freshness : Nat → Freshness}
    (hv : s.resolution.program.units.get? other = some v) :
    (b.planningOf s freshness).makesObject other = v.kind.treatment.makesObject := by
  simp only [Planning.makesObject, Planning.treatment, planningOf, hv, Option.map_some,
    Option.getD_some]

/-- The source of a unit is there only if its header is. -/
def HeadersWithSources (b : Builder σ) (s : BuildState σ) : Prop :=
  ∀ id u, s.resolution.program.units.get? id = some u →
    s.disk.hasPath (b.layout.path .source u) → s.disk.hasPath (b.layout.path .header u)

/-- When a unit is compiled, a header that its generated code includes is there exactly if it was
there before the build or its code has been generated by then, and that is so exactly if the header
was there before or does not belong to a later member of the cycle of the unit. The code has the line
that includes the header. The program is one that resolutions lead to, in either mode and for any
freshness of the units. -/
theorem header_at_compile (b : Builder σ) (htidy : b.toolchain.Tidy) (s s' : BuildState σ)
    (harises : s.resolution.Arises) (hheaders : b.HeadersWithSources s) (freshness : Nat → Freshness)
    (root : Nat) (hroot : root < s.resolution.program.units.size) (before after : List Step) (id : Nat)
    (hsteps : ((b.planningOf s freshness).plan s.resolution.program.graph root).steps =
      before ++ ⟨id, .compile⟩ :: after)
    (entry : String) (records : List StepRecord)
    (hrun : b.execute entry ((b.planningOf s freshness).plan s.resolution.program.graph root) ∅ before
      s = .ok records s')
    (u v : BuildUnit) (other : Nat) (hu : s.resolution.program.units.get? id = some u)
    (hv : s.resolution.program.units.get? other = some v)
    (hincluded : v ∈ (s.resolution.program.stubRequest id u
      (((b.planningOf s freshness).plan s.resolution.program.graph root).isCyclic id)).included)
    (hobject : v.kind.treatment.makesObject) :
    (s'.disk.hasPath (b.layout.path .header v) ↔
      s.disk.hasPath (b.layout.path .header v) ∨ ⟨other, .generate⟩ ∈ before) ∧
    (s'.disk.hasPath (b.layout.path .header v) ↔
      s.disk.hasPath (b.layout.path .header v) ∨
        ¬ (other ∈ ((b.planningOf s freshness).plan s.resolution.program.graph root).peers id ∧
          id < other)) ∧
    ∀ code, Stub.generate (s.resolution.program.stubRequest id u
      (((b.planningOf s freshness).plan s.resolution.program.graph root).isCyclic id)) = .ok code →
        ∃ former later, code.source = former ++ v.includeLine ++ later := by
  have hsound := harises.sound
  have hpairs := Planning.steps_pairwise (c := b.planningOf s freshness) hsound.node hroot
  rw [hsteps, List.pairwise_append] at hpairs
  have hemit (x : Step) (hx : x ∈ before) : x.action ≠ .emit :=
    (hpairs.2.2 x hx _ List.mem_cons_self).emit
  have hgenerated := hasPath_header_iff htidy hsound.distinct hemit hrun hv
  refine ⟨hgenerated, ?_, fun code hcode => Stub.exists_source_eq hcode hincluded⟩
  rw [hgenerated]
  by_cases hthere : s.disk.hasPath (b.layout.path .header v)
  · simp [hthere]
  · have hsource : ¬ (b.planningOf s freshness).hasFile .source other := by
      rw [hasFile_planningOf hv]
      exact fun h => hthere (hheaders other v hv h)
    have hmakes : (b.planningOf s freshness).makesObject other := by
      rwa [makesObject_planningOf hv]
    rw [Planning.generated_before_compile hsound.node hroot hsteps
      (hsound.edge_of_included hu hv hincluded) hmakes hsource]

/-- Two units that need each other. -/
def mutualGraph : Digraph := (Digraph.empty.addEdge 0 1).addEdge 1 0

/-- The places of a plan for two units that need each other. -/
structure OfMutual (plan : Plan) : Prop where
  order : plan.order = [.cycle 2 [0, 1]]
  first : plan.isCyclic 0 = true
  second : plan.isCyclic 1 = true
  peers : plan.peers 0 = [1]

/-- Two units that need each other are planned as a cycle, whatever was built of them. -/
theorem ofMutual_plan {c : Planning} (hsize : c.catalog.size = 2) : OfMutual (c.plan mutualGraph 0) := by
  -- The units only matter for the key of the cycle, by their number.
  constructor <;> simp only [Planning.plan, Plan.isCyclic, Plan.peers, hsize] <;> cbv

/-- The steps of such a plan. -/
def mutualSteps (c : Planning) : List Step :=
  c.cycleSteps [0, 1] ++ if c.treatment 0 == .translate then [⟨0, .emit⟩] else []

/-- The steps of a plan for two units that need each other are those of their cycle and the making
of the module. -/
theorem steps_plan_mutual {c : Planning} (hsize : c.catalog.size = 2) :
    (c.plan mutualGraph 0).steps = mutualSteps c := by
  rw [Planning.steps_plan, (ofMutual_plan hsize).order, List.flatMap_singleton, Planning.nodeSteps,
    mutualSteps]

/-- Tools that make an empty file. -/
def emptyFiles : Toolchain Unit where
  run i state :=
    match state.2.write i.output (.text "") 0 with
    | .ok disk => (((), disk), .ok ())
    | .error reason => (state, .error (.toolMissing "cc" reason))

theorem tidy_emptyFiles : emptyFiles.Tidy := by
  intro i tools d
  rw [emptyFiles]
  dsimp only
  split
  · next disk hwrite => exact (Disk.adds_write hwrite).1
  · exact .refl _ _

/-- A builder with these tools, which generates code as builds do. -/
def stubBuilder : Builder Unit where
  config := { BuildConfig.default with cacheDirectory := ⟨"c"⟩ }
  generator := Stub.generate
  toolchain := emptyFiles
  now := 0

/-- Two functions that call each other. -/
def mutualArchive : Archive where
  version := Archive.formatVersion
  units := [⟨"f", 0, some ⟨"f.m"⟩, 1, .script, ["f"], [⟨"g", 0, ["g"]⟩], []⟩,
    ⟨"g", 0, some ⟨"g.m"⟩, 1, .script, ["g"], [⟨"f", 0, ["f"]⟩], []⟩]
  registry := []

/-- One of the two functions as a unit. -/
def mutualUnit (name : String) : BuildUnit :=
  ⟨name, 0, .script ⟨name ++ ".m"⟩, 1, some (.file ⟨name ++ ".m"⟩), [name]⟩

/-- Nothing was built of them yet. -/
def mutualStart : BuildState Unit where
  disk := ⟨.ofList [(["c"], Node.directory 0), (["c", "objects"], Node.directory 0)], 0, 0⟩
  tools := ()
  resolution := .start mutualArchive.toProgram
  archive := mutualArchive
  log := []

/-- The plan for the first of them. -/
def mutualPlan : Plan :=
  (stubBuilder.planningOf mutualStart fun _ => .new).plan mutualStart.resolution.program.graph 0

/-- The archive has both functions, which depend on each other, and the disk has no source of them. -/
theorem mutualStart_eqs : mutualStart.resolution.program.graph = mutualGraph ∧
    mutualStart.resolution.program.units.size = 2 ∧
    ∀ id < 2, (mutualStart.resolution.program.units.get? id).any
      (fun u => mutualStart.disk.hasPath (stubBuilder.layout.path .source u)) = false := by
  decide

/-- The plan follows the dependencies that the archive lists. -/
theorem mutualPlan_eq : mutualPlan =
    (stubBuilder.planningOf mutualStart fun _ => .new).plan mutualGraph 0 := by
  rw [mutualPlan, mutualStart_eqs.1]

theorem size_mutualStart : mutualStart.resolution.program.units.size = 2 := mutualStart_eqs.2.1

/-- The first unit is compiled before the code of the second one is generated. -/
theorem steps_mutualPlan : mutualPlan.steps =
    [⟨0, .generate⟩] ++ ⟨0, .compile⟩ :: [⟨1, .generate⟩, ⟨1, .compile⟩, ⟨0, .emit⟩] := by
  rw [mutualPlan_eq, steps_plan_mutual size_mutualStart]
  decide

/-- Where nothing was built, no source is without its header. -/
theorem headersWithSources_mutualStart : stubBuilder.HeadersWithSources mutualStart := by
  intro id u hu hsource
  have hsize := size_mutualStart
  have hlt := Catalog.lt_size_of_get? hu
  have habsent := mutualStart_eqs.2.2 id (by omega)
  rw [hu, Option.any_some, hsource] at habsent
  cases habsent

/-- Whether some steps can all be taken for them. -/
def succeeds (steps : List Step) : Bool :=
  match stubBuilder.execute "f" mutualPlan ∅ steps mutualStart with
  | .ok _ _ => true
  | .error _ _ => false

/-- The code of the first unit can be generated. -/
theorem exists_run_generate : ∃ records s', stubBuilder.execute "f" mutualPlan ∅ [⟨0, .generate⟩]
    mutualStart = .ok records s' := by
  have hsucceeds : succeeds [⟨0, .generate⟩] := by
    simp only [succeeds, execute, take, generate]
    generalize mutualPlan.isCyclic 0 = cyclic
    cases cyclic <;> decide
  unfold succeeds at hsucceeds
  split at hsucceeds
  · next records s' hrun => exact ⟨records, s', hrun⟩
  · cases hsucceeds

/-- The first of two functions that call each other is compiled without the header of the other. -/
theorem header_at_compile_mutualScripts :
    ∃ records s' code former later, mutualPlan.steps =
        [⟨0, .generate⟩] ++ ⟨0, .compile⟩ :: [⟨1, .generate⟩, ⟨1, .compile⟩, ⟨0, .emit⟩] ∧
      stubBuilder.execute "f" mutualPlan ∅ [⟨0, .generate⟩] mutualStart = .ok records s' ∧
      mutualUnit "g" ∈ (mutualStart.resolution.program.stubRequest 0 (mutualUnit "f")
        (mutualPlan.isCyclic 0)).included ∧
      Stub.generate (mutualStart.resolution.program.stubRequest 0 (mutualUnit "f")
        (mutualPlan.isCyclic 0)) = .ok code ∧
      code.source = former ++ "#include \"g_0.h\"\n" ++ later ∧
      ¬ s'.disk.hasPath (stubBuilder.layout.path .header (mutualUnit "g")) := by
  obtain ⟨records, s', hrun⟩ := exists_run_generate
  have hincluded : mutualUnit "g" ∈ (mutualStart.resolution.program.stubRequest 0 (mutualUnit "f")
      (mutualPlan.isCyclic 0)).included := by
    generalize mutualPlan.isCyclic 0 = cyclic
    cases cyclic <;> decide
  have hpeers : mutualPlan.peers 0 = [1] := by
    rw [mutualPlan_eq]
    exact (ofMutual_plan size_mutualStart).peers
  have hiff := header_at_compile stubBuilder tidy_emptyFiles mutualStart s'
    (.restored mutualArchive) headersWithSources_mutualStart (fun _ => .new) 0 (by decide)
    [⟨0, .generate⟩] _ 0 steps_mutualPlan "f" records hrun (mutualUnit "f") (mutualUnit "g") 1
    (by decide) (by decide) hincluded (by decide)
  obtain ⟨code, hcode⟩ := Stub.exists_generate (r := mutualStart.resolution.program.stubRequest 0
    (mutualUnit "f") (mutualPlan.isCyclic 0)) (by decide)
  obtain ⟨former, later, hsource⟩ := hiff.2.2 code hcode
  refine ⟨records, s', code, former, later, steps_mutualPlan, hrun, hincluded, hcode, hsource,
    fun hthere => ?_⟩
  rcases hiff.2.1.1 hthere with hbefore | hearlier
  · revert hbefore
    decide
  · exact hearlier ⟨hpeers ▸ List.mem_singleton_self 1, by decide⟩

end Builder

end ScriptBuild
