import ScriptBuild.Proofs.Build.GeneratedFiles
import ScriptBuild.Proofs.Resolution.Bodies

namespace ScriptBuild

variable {σ τ α β : Type}

namespace BuildM

variable {R : BuildState σ → BuildState τ → Prop} {x : BuildM σ α} {y : BuildM τ α}
  {f : α → BuildM σ β} {g : α → BuildM τ β} {s s' : BuildState σ} {t : BuildState τ}

/-- Two computations end with the same result or the same fault, in states that are related. -/
inductive SameEnd (R : BuildState σ → BuildState τ → Prop) :
    EStateM.Result Fault (BuildState σ) α → EStateM.Result Fault (BuildState τ) α → Prop where
  | ok (a : α) {s : BuildState σ} {t : BuildState τ} (h : R s t) : SameEnd R (.ok a s) (.ok a t)
  | error (fault : Fault) {s : BuildState σ} {t : BuildState τ} (h : R s t) :
      SameEnd R (.error fault s) (.error fault t)

/-- Computations that end alike end alike if what comes next does. -/
theorem SameEnd.bind (hx : SameEnd R (x s) (y t))
    (hf : ∀ a s' t', R s' t' → SameEnd R (f a s') (g a t')) :
    SameEnd R ((x >>= f) s) ((y >>= g) t) := by
  have hleft : (x >>= f) s = EStateM.bind x f s := rfl
  have hright : (y >>= g) t = EStateM.bind y g t := rfl
  rw [hleft, hright, EStateM.bind, EStateM.bind]
  revert hx
  generalize x s = m
  generalize y t = n
  intro hx
  cases hx with
  | ok a h => exact hf a _ _ h
  | error fault h => exact .error fault h

theorem SameEnd.symm {m : EStateM.Result Fault (BuildState σ) α}
    {n : EStateM.Result Fault (BuildState τ) α} (h : SameEnd R m n) :
    SameEnd (fun t s => R s t) n m := by
  cases h with
  | ok a h => exact .ok a h
  | error fault h => exact .error fault h

end BuildM

/-- Two states of a build are the same but for the bodies of units in their programs, and for what
their tools remember, which is related. -/
structure BuildState.Alike (T : σ → τ → Prop) (s : BuildState σ) (t : BuildState τ) : Prop where
  disk : t.disk = s.disk
  tools : T s.tools t.tools
  archive : t.archive = s.archive
  log : t.log = s.log
  resolution : s.resolution.Alike t.resolution

/-- Two toolchains do the same to the disk as long as what they remember is related, and it stays
related. -/
def Toolchain.Matches (t : Toolchain σ) (t' : Toolchain τ) (T : σ → τ → Prop) : Prop :=
  ∀ i tools tools' d, T tools tools' → T (t.run i (tools, d)).1.1 (t'.run i (tools', d)).1.1 ∧
    (t'.run i (tools', d)).1.2 = (t.run i (tools, d)).1.2 ∧
      (t'.run i (tools', d)).2 = (t.run i (tools, d)).2

/-- A toolchain does what it does if it remembers the same. -/
theorem Toolchain.matches_self (t : Toolchain σ) : t.Matches t Eq := by
  rintro i tools _ d rfl
  exact ⟨rfl, rfl, rfl⟩

/-- The same builder with other tools. -/
def Builder.withTools (b : Builder σ) (t : Toolchain τ) : Builder τ :=
  ⟨b.config, b.generator, t, b.now⟩

@[simp] theorem Builder.config_withTools {b : Builder σ} {t : Toolchain τ} :
    (b.withTools t).config = b.config := rfl

@[simp] theorem Builder.generator_withTools {b : Builder σ} {t : Toolchain τ} :
    (b.withTools t).generator = b.generator := rfl

@[simp] theorem Builder.toolchain_withTools {b : Builder σ} {t : Toolchain τ} :
    (b.withTools t).toolchain = t := rfl

@[simp] theorem Builder.now_withTools {b : Builder σ} {t : Toolchain τ} :
    (b.withTools t).now = b.now := rfl

@[simp] theorem Builder.layout_withTools {b : Builder σ} {t : Toolchain τ} :
    (b.withTools t).layout = b.layout := rfl

@[simp] theorem Builder.world_withTools {b : Builder σ} {t : Toolchain τ} {d : Disk} :
    (b.withTools t).world d = b.world d := rfl

/-- What code is generated from, but for the bodies of the units. -/
def Stub.Request.kept (r : Stub.Request) : Stub.Request :=
  { r with
    unit := r.unit.kept
    dependencies := r.dependencies.map fun (u, names) => (u.kept, names) }

/-- The generator does not look at where bodies are. -/
def Builder.IgnoresBodies (b : Builder σ) : Prop := ∀ r, b.generator r.kept = b.generator r

/-- The code of a unit does not depend on where bodies are. -/
theorem Stub.generate_kept (r : Stub.Request) : Stub.generate r.kept = Stub.generate r := by
  have hkind : r.kept.unit.kind = r.unit.kind := rfl
  have hsource : Stub.functionSource r.kept = Stub.functionSource r := by
    refine Stub.functionSource_congr rfl rfl (List.forall₂_map_right_iff.2 ?_)
    exact List.forall₂_same.2 fun d _ => ⟨rfl, rfl, rfl, fun _ _ => rfl⟩
  rw [Stub.generate, Stub.generate, hkind, hsource]
  cases r.unit.kind <;> rfl

section

variable {u v : BuildUnit} {us vs : List BuildUnit}

/-- What does not look at bodies is the same of units of which the same is kept. -/
theorem eq_of_kept (h : v.kept = u.kept) {f : BuildUnit → α} (hf : ∀ u, f u.kept = f u) :
    f v = f u := by
  rw [← hf v, h, hf]

/-- Lists of units of which the same is kept have the same images under what does not look at
bodies. -/
theorem map_of_kept (h : vs.map BuildUnit.kept = us.map BuildUnit.kept) {f : BuildUnit → α}
    (hf : ∀ u, f u.kept = f u) : vs.map f = us.map f := by
  have hcomp : f ∘ BuildUnit.kept = f := funext hf
  have hmap := congrArg (List.map f) h
  rwa [List.map_map, List.map_map, hcomp] at hmap

/-- Lists of units of which the same is kept give the same under what picks some of them without
looking at bodies. -/
theorem filterMap_of_kept (h : vs.map BuildUnit.kept = us.map BuildUnit.kept)
    {f : BuildUnit → Option α} (hf : ∀ u, f u.kept = f u) : vs.filterMap f = us.filterMap f := by
  have hcomp : f ∘ BuildUnit.kept = f := funext hf
  have hmap := congrArg (List.filterMap f) h
  rwa [List.filterMap_map, List.filterMap_map, hcomp] at hmap

/-- A test that does not look at bodies lets the same units pass. -/
theorem filter_of_kept (h : vs.map BuildUnit.kept = us.map BuildUnit.kept) {f : BuildUnit → Bool}
    (hf : ∀ u, f u.kept = f u) :
    (vs.filter f).map BuildUnit.kept = (us.filter f).map BuildUnit.kept := by
  have hcomp : f ∘ BuildUnit.kept = f := funext hf
  have hfilter := congrArg (List.filter f) h
  rwa [List.filter_map, List.filter_map, hcomp] at hfilter

end

namespace Planning

variable {c d : Planning}

/-- A plan is made from the mode, the freshness of the units, the files that are there, and what is
done with each unit. Nothing else of the units counts. -/
theorem plan_congr (hmode : d.mode = c.mode) (hfreshness : d.freshness = c.freshness)
    (hsize : d.catalog.size = c.catalog.size) (hfile : d.hasFile = c.hasFile)
    (htreatment : d.treatment = c.treatment) (hskip : d.skipWarning = c.skipWarning)
    (hentry : d.entryWarning = c.entryWarning) (graph : Digraph) (root : Nat) :
    d.plan graph root = c.plan graph root := by
  have hmakes : d.makesObject = c.makesObject := funext fun id => by
    rw [makesObject, makesObject, htreatment]
  have hgenerates : d.generates = c.generates := funext fun forwardDeclared => funext fun id => by
    rw [generates, generates, hfreshness, hfile]
  have hobjects : d.objectSteps = c.objectSteps := funext fun forwardDeclared => funext fun id => by
    rw [objectSteps, objectSteps, hmakes, hgenerates, hfile]
  have hnodes : d.nodeSteps = c.nodeSteps := funext fun node => by
    cases node with
    | unit id => rw [nodeSteps, nodeSteps, unitSteps, unitSteps, hobjects, hmakes, hmode]
    | cycle key members =>
      rw [nodeSteps, nodeSteps, cycleSteps, cycleSteps, hobjects, hmakes, hmode, hfile]
  rw [plan, plan, hsize, hnodes, htreatment, hskip, hentry]

/-- The steps of a plan are about known units. -/
theorem isSome_get?_of_mem_steps {g : Digraph} {root : Nat} {x : Step}
    (hx : x ∈ (c.plan g root).steps) : (c.catalog.get? x.unit).isSome := by
  have hknown {id : Nat} (htreatment : c.treatment id ≠ .skip) : (c.catalog.get? id).isSome := by
    rw [treatment] at htreatment
    cases hget : c.catalog.get? id with
    | some u => rfl
    | none =>
      rw [hget] at htreatment
      exact absurd rfl htreatment
  rw [steps_plan] at hx
  rcases List.mem_append.1 hx with hx | hx
  · obtain ⟨node, _, hx⟩ := List.mem_flatMap.1 hx
    refine hknown fun hskip => ?_
    have hobject := (mem_nodeSteps hx).2.1
    rw [makesObject, hskip] at hobject
    cases hobject
  · split at hx
    · next htranslate =>
      obtain rfl := List.mem_singleton.1 hx
      refine hknown fun hskip => ?_
      rw [hskip] at htranslate
      cases htranslate
    · cases hx

end Planning

namespace Builder

open BuildM

variable {b : Builder σ} {tools : Toolchain τ} {T : σ → τ → Prop} {s : BuildState σ}
  {t : BuildState τ} {p q : Program} {fixed : Nat → Prop} {u v : BuildUnit}

/-- The plan for a unit is the same, as plans do not look at bodies. -/
theorem planFor_alike (h : s.Alike T t) (root : Nat) : (b.withTools tools).planFor t root =
    b.planFor s root := by
  have hp := h.resolution.program
  rw [planFor_eq, planFor_eq, hp.graph]
  refine Planning.plan_congr (c := b.planningOf s s.resolution.freshness)
    (d := (b.withTools tools).planningOf t t.resolution.freshness) rfl
    (funext h.resolution.freshness) hp.size ?_ ?_ ?_ ?_ _ _
  · funext role id
    simp only [Planning.hasFile, planningOf, h.disk]
    exact hp.any (fun _ => rfl) id
  · funext id
    simp only [Planning.treatment, planningOf, hp.map (f := fun u => u.kind.treatment) fun _ => rfl]
  · exact funext fun id => hp.bind (fun _ => rfl) id
  · exact funext fun id => hp.bind (fun _ => rfl) id

/-- A module is linked from the same files. -/
theorem unitLinkage_alike (h : p.Alike q fixed) (c : BuildConfig) (plan : Plan) (id : Nat)
    (hkept : v.kept = u.kept) (forward : Bool) :
    c.unitLinkage q.units plan id v forward = c.unitLinkage p.units plan id u forward := by
  have hlibraries : c.unitLibraries q.units plan id forward =
      c.unitLibraries p.units plan id forward :=
    List.filterMap_congr fun other _ => h.bind (f := fun u => (c.layout.library?
      (forward && (plan.peers id).contains other) u).map fun library => (other, library))
      (fun _ => rfl) other
  simp only [BuildConfig.unitLinkage, hlibraries, c.layout.path_of_kept _ hkept]

/-- The module of an entry point is linked from the same objects. -/
theorem entryLinkage_alike (h : p.Alike q fixed) (c : BuildConfig) (plan : Plan) (entry : String) :
    c.entryLinkage q.units plan entry = c.entryLinkage p.units plan entry := by
  have hneeded : (plan.units.filterMap q.units.get?).map BuildUnit.kept =
      (plan.units.filterMap p.units.get?).map BuildUnit.kept := by
    rw [List.map_filterMap, List.map_filterMap]
    exact List.filterMap_congr fun id _ => h.map_kept id
  have hobjects := map_of_kept (filter_of_kept hneeded (f := fun u => u.kind.treatment.makesObject)
    fun _ => rfl) (f := c.layout.path .object) fun _ => rfl
  have hmodules := filterMap_of_kept (filter_of_kept hneeded
    (f := fun u => u.kind.treatment == .linkAsIs) fun _ => rfl) (f := fun u => u.kind.path?)
    fun _ => rfl
  simp only [BuildConfig.entryLinkage, hobjects, hmodules]

/-- Code is generated from the same request, but for where bodies are. -/
theorem kept_stubRequest (h : p.Alike q fixed) (id : Nat) (hkept : v.kept = u.kept) (cyclic : Bool) :
    (q.stubRequest id v cyclic).kept = (p.stubRequest id u cyclic).kept := by
  have himports : q.importsOf id = p.importsOf id := by
    rw [Program.importsOf, Program.importsOf, h.imports]
  simp only [Program.stubRequest, Stub.Request.kept, Program.unresolvedNames, himports, hkept,
    List.map_filterMap, Option.map_map]
  congr 1
  refine List.filterMap_congr fun dependency _ => ?_
  exact h.map (f := fun v => (v.kept, dependency.2.toList)) (fun _ => rfl) dependency.1

/-- Tools that are asked for the same end alike. -/
theorem run_alike (htools : b.toolchain.Matches tools T) (h : s.Alike T t) (i : Invocation) :
    SameEnd (BuildState.Alike T) (b.run i s) ((b.withTools tools).run i t) := by
  have hmatches := htools i s.tools t.tools s.disk h.tools
  unfold run
  rw [toolchain_withTools, h.disk, h.log]
  generalize b.toolchain.run i (s.tools, s.disk) = k at hmatches ⊢
  generalize tools.run i (t.tools, s.disk) = k' at hmatches ⊢
  obtain ⟨⟨state, _⟩, _⟩ := k
  obtain ⟨⟨state', disk⟩, result⟩ := k'
  obtain ⟨hrelated, rfl, rfl⟩ := hmatches
  cases result with
  | ok done => exact .ok () ⟨rfl, hrelated, h.archive, rfl, h.resolution⟩
  | error fault => exact .error fault ⟨rfl, hrelated, h.archive, rfl, h.resolution⟩

theorem writeFile_alike (h : s.Alike T t) (path : FilePath) (text : String) :
    SameEnd (BuildState.Alike T) (b.writeFile path text s)
      ((b.withTools tools).writeFile path text t) := by
  simp only [writeFile, now_withTools, h.disk]
  split
  · exact .ok () ⟨rfl, h.tools, h.archive, h.log, h.resolution⟩
  · exact .error _ h

theorem copyFile_alike (h : s.Alike T t) (source target : FilePath) :
    SameEnd (BuildState.Alike T) (b.copyFile source target s)
      ((b.withTools tools).copyFile source target t) := by
  simp only [copyFile, now_withTools, h.disk]
  split
  · exact .ok () ⟨rfl, h.tools, h.archive, h.log, h.resolution⟩
  · exact .error _ h

/-- The same code is generated, as the generator does not look at bodies. -/
theorem generate_alike (hgenerator : b.IgnoresBodies) (h : s.Alike T t) (plan : Plan) (id : Nat)
    (hkept : v.kept = u.kept) :
    SameEnd (BuildState.Alike T) (b.generate plan id u s)
      ((b.withTools tools).generate plan id v t) := by
  have hcode : b.generator (t.resolution.program.stubRequest id v (plan.isCyclic id)) =
      b.generator (s.resolution.program.stubRequest id u (plan.isCyclic id)) := by
    rw [← hgenerator, kept_stubRequest h.resolution.program id hkept, hgenerator]
  rw [generate, generate, BuildM.get_bind, BuildM.get_bind]
  simp only [generator_withTools, layout_withTools, hcode, b.layout.path_of_kept _ hkept]
  cases b.generator (s.resolution.program.stubRequest id u (plan.isCyclic id)) with
  | error fault => exact .error fault h
  | ok code =>
    refine (writeFile_alike h _ _).bind fun _ s₁ t₁ h₁ => ?_
    refine (writeFile_alike h₁ _ _).bind fun _ s₂ t₂ h₂ => ?_
    cases code.forward with
    | some text => exact writeFile_alike h₂ _ _
    | none => exact .ok () h₂

/-- A module is linked alike, and the same exports are registered. -/
theorem linkNow_alike (htools : b.toolchain.Matches tools T) (h : s.Alike T t)
    (hkept : v.kept = u.kept) (l : Linkage) :
    SameEnd (BuildState.Alike T) (b.linkNow u l s) ((b.withTools tools).linkNow v l t) := by
  have hname : v.name = u.name := eq_of_kept hkept fun _ => rfl
  have hoverload : v.overload = u.overload := eq_of_kept hkept fun _ => rfl
  have hexports : v.exports = u.exports := eq_of_kept hkept fun _ => rfl
  refine (run_alike htools h _).bind fun _ s₁ t₁ h₁ => ?_
  rw [hname, hoverload, hexports]
  have harchive := congrArg (·.updateRegistry u.name u.overload u.exports) h₁.archive
  exact .ok () ⟨h₁.disk, h₁.tools, harchive, h₁.log, h₁.resolution⟩

theorem forwardLink_alike (htools : b.toolchain.Matches tools T) (h : s.Alike T t)
    (hkept : v.kept = u.kept) :
    SameEnd (BuildState.Alike T) (b.forwardLink u s) ((b.withTools tools).forwardLink v t) := by
  have hstandIn : b.config.standInLinkage v = b.config.standInLinkage u := by
    simp only [BuildConfig.standInLinkage, b.config.layout.path_of_kept _ hkept]
  have hdisplay : v.display = u.display := eq_of_kept hkept fun _ => rfl
  rw [forwardLink, forwardLink, BuildM.get_bind, BuildM.get_bind]
  simp only [config_withTools, layout_withTools, b.layout.path_of_kept _ hkept, hstandIn, hdisplay,
    h.disk]
  split
  · exact (run_alike htools h _).bind fun _ s₁ t₁ h₁ => run_alike htools h₁ _
  · exact .error _ h

/-- A module is linked in both builds or in neither, as the same files are there with the same
times. -/
theorem link_alike (htools : b.toolchain.Matches tools T) (h : s.Alike T t) (plan : Plan)
    (generated : NodeSet) (id : Nat)
    (hkept : v.kept = u.kept) :
    SameEnd (BuildState.Alike T) (b.link plan generated id u s)
      ((b.withTools tools).link plan generated id v t) := by
  rw [link, link, BuildM.get_bind, BuildM.get_bind]
  simp only [config_withTools, unitLinkage_alike h.resolution.program b.config plan id hkept,
    h.disk]
  split
  · exact .ok false h
  · exact (linkNow_alike htools h hkept _).bind fun _ s₁ t₁ h₁ => .ok true h₁

/-- The module of an entry point is made in both builds or in neither. -/
theorem emit_alike (htools : b.toolchain.Matches tools T) (h : s.Alike T t) (name : String)
    (plan : Plan) (generated : NodeSet) (hkept : v.kept = u.kept) :
    SameEnd (BuildState.Alike T) (b.emit name plan generated u s)
      ((b.withTools tools).emit name plan generated v t) := by
  rw [emit, emit, config_withTools, layout_withTools]
  cases b.config.mode with
  | perUnit =>
    rw [b.layout.path_of_kept .artifact hkept]
    exact (copyFile_alike h _ _).bind fun _ s₁ t₁ h₁ => .ok true h₁
  | single =>
    dsimp only
    rw [BuildM.get_bind, BuildM.get_bind]
    simp only [entryLinkage_alike h.resolution.program, h.disk]
    split
    · exact .ok false h
    · exact (run_alike htools h _).bind fun _ s₁ t₁ h₁ => .ok true h₁

theorem take_alike (htools : b.toolchain.Matches tools T) (hgenerator : b.IgnoresBodies)
    (h : s.Alike T t) (name : String) (plan : Plan) (generated : NodeSet) (step : Step)
    (hkept : v.kept = u.kept) :
    SameEnd (BuildState.Alike T) (b.take name plan generated step u s)
      ((b.withTools tools).take name plan generated step v t) := by
  rw [take, take]
  cases step.action with
  | generate => exact (generate_alike hgenerator h plan _ hkept).bind fun _ _ _ h₁ => .ok true h₁
  | compile =>
    dsimp only
    rw [compile, compile, layout_withTools, b.layout.path_of_kept .source hkept,
      b.layout.path_of_kept .object hkept]
    exact (run_alike htools h _).bind fun _ _ _ h₁ => .ok true h₁
  | forwardLink => exact (forwardLink_alike htools h hkept).bind fun _ _ _ h₁ => .ok true h₁
  | link => exact link_alike htools h plan generated _ hkept
  | relink =>
    refine SameEnd.bind ?_ fun _ _ _ h₁ => .ok true h₁
    rw [relink, relink, BuildM.get_bind, BuildM.get_bind, config_withTools,
      unitLinkage_alike h.resolution.program b.config plan step.unit hkept]
    exact linkNow_alike htools h hkept _
  | emit => exact emit_alike htools h name plan generated hkept

/-- Steps that are taken one after the other end alike, and have the same records. -/
theorem execute_alike (htools : b.toolchain.Matches tools T) (hgenerator : b.IgnoresBodies)
    (h : s.Alike T t) (name : String) (plan : Plan) (generated : NodeSet) (steps : List Step) :
    SameEnd (BuildState.Alike T) (b.execute name plan generated steps s)
      ((b.withTools tools).execute name plan generated steps t) := by
  induction steps generalizing s t generated with
  | nil => exact .ok [] h
  | cons step steps ih =>
    rw [execute, BuildM.get_bind, execute, BuildM.get_bind]
    have hunit := h.resolution.program.map_kept step.unit
    cases hu : s.resolution.program.units.get? step.unit with
    | none =>
      rw [hu, Option.map_none, Option.map_eq_none_iff] at hunit
      rw [hunit]
      exact ih h generated
    | some u =>
      rw [hu, Option.map_some] at hunit
      obtain ⟨v, hv, hkept⟩ := Option.map_eq_some_iff.1 hunit
      have hdisplay : v.display = u.display := eq_of_kept hkept fun _ => rfl
      rw [hv]
      dsimp only
      rw [hdisplay]
      have htaken := take_alike htools hgenerator h name plan generated step hkept
      refine htaken.bind fun _ s₁ t₁ h₁ => ?_
      exact (ih h₁ _).bind fun _ _ _ h₂ => .ok _ h₂

theorem settle_alike (h : s.Alike T t) (plan : Plan) :
    SameEnd (BuildState.Alike T) (settle plan s) (settle plan t) := by
  have hfreshness : (fun id => (t.resolution.freshness id).needsBuild) =
      fun id => (s.resolution.freshness id).needsBuild :=
    funext fun id => by rw [h.resolution.freshness]
  rw [settle, settle, hfreshness]
  exact .ok _ ⟨h.disk, h.tools, h.archive, h.log,
    Resolution.Alike.foldl (fun id hr => hr.markBuilt id) h.resolution _⟩

/-- What an entry point was resolved to is built alike. -/
theorem buildUnit_alike (htools : b.toolchain.Matches tools T) (hgenerator : b.IgnoresBodies)
    (h : s.Alike T t) (name : String) (root : Nat) :
    SameEnd (BuildState.Alike T) (b.buildUnit name root s)
      ((b.withTools tools).buildUnit name root t) := by
  rw [buildUnit, BuildM.get_bind, buildUnit, BuildM.get_bind]
  simp only [planFor_alike h root]
  refine (execute_alike htools hgenerator h name _ ∅ _).bind fun _ s₁ t₁ h₁ => ?_
  exact (settle_alike h₁ _).bind fun _ _ _ h₂ => .ok _ h₂

/-- An analysis comes to the same units, as it gives bodies to the units that it meets. -/
theorem analyze_alike (h : s.Alike T t) (name : String) (definition : Option Definition) :
    SameEnd (BuildState.Alike T) (b.analyze name definition s)
      ((b.withTools tools).analyze name definition t) := by
  have hagree := h.resolution.analyze (b.world s.disk) name definition
  simp only [analyze, world_withTools, h.disk]
  generalize s.resolution.analyze (b.world s.disk) name definition = k at hagree ⊢
  generalize t.resolution.analyze (b.world s.disk) name definition = k' at hagree ⊢
  obtain ⟨r, _⟩ := k
  obtain ⟨r', result⟩ := k'
  obtain ⟨hresolution, rfl⟩ := hagree
  cases result with
  | ok found => exact .ok found ⟨rfl, h.tools, h.archive, h.log, hresolution⟩
  | error fault => exact .error fault ⟨rfl, h.tools, h.archive, h.log, hresolution⟩

/-- An entry point that was found is built alike. -/
theorem buildNamed_alike (htools : b.toolchain.Matches tools T) (hgenerator : b.IgnoresBodies)
    (h : s.Alike T t) (name : String) (definition : Option Definition) :
    SameEnd (BuildState.Alike T) (b.buildNamed name definition s)
      ((b.withTools tools).buildNamed name definition t) := by
  refine (analyze_alike h name definition).bind fun found s₁ t₁ h₁ => ?_
  cases found with
  | none => exact .ok _ h₁
  | some root => exact buildUnit_alike htools hgenerator h₁ name root

/-- What an entry point stands for does not depend on the program. -/
theorem meaning_alike (h : s.Alike T t) (entry : Entry) :
    (b.withTools tools).meaning t entry = b.meaning s entry := by
  rw [meaning, meaning, h.disk, config_withTools, now_withTools]

theorem buildEntry_alike (htools : b.toolchain.Matches tools T) (hgenerator : b.IgnoresBodies)
    (h : s.Alike T t) (entry : Entry) :
    SameEnd (BuildState.Alike T) (b.buildEntry entry s)
      ((b.withTools tools).buildEntry entry t) := by
  rw [buildEntry, BuildM.get_bind, buildEntry, BuildM.get_bind, meaning_alike h]
  cases b.meaning s entry with
  | byName => exact buildNamed_alike htools hgenerator h _ _
  | defined definition => exact buildNamed_alike htools hgenerator h _ _
  | missingIn directory => exact .ok _ h

/-- Entry points that are built one after the other are built alike. -/
theorem mapM_buildEntry_alike (htools : b.toolchain.Matches tools T) (hgenerator : b.IgnoresBodies)
    (h : s.Alike T t) (entries : List Entry) :
    SameEnd (BuildState.Alike T) (entries.mapM b.buildEntry s)
      (entries.mapM (b.withTools tools).buildEntry t) := by
  induction entries generalizing s t with
  | nil => exact .ok [] h
  | cons entry entries ih =>
    rw [List.mapM_cons, List.mapM_cons]
    refine (buildEntry_alike htools hgenerator h entry).bind fun _ s₁ t₁ h₁ => ?_
    exact (ih h₁).bind fun _ _ _ h₂ => .ok _ h₂

/-- The same rows are brought up to date, as rows do not tell where bodies are. -/
theorem updateRows_alike (h : p.Alike q fixed) (a : Archive) (ids : List Nat) :
    a.updateRows q ids = a.updateRows p ids := by
  have hrow (id : Nat) : Archive.row? q id = Archive.row? p id := by
    rw [← Archive.row?_kept, h.kept, Archive.row?_kept]
  have hput (p : Program) : a.updateRows p ids = { a with units := ids.foldl (fun rows id =>
      (Archive.row? p id).elim rows (Archive.putRow · rows)) a.units } := by
    rw [Archive.updateRows]
    congr 2
    funext rows id
    rw [Archive.row?]
    cases p.units.get? id <;> rfl
  simp only [hput, hrow]

theorem persist_alike (h : s.Alike T t) (touched : NodeSet) :
    SameEnd (BuildState.Alike T) (b.persist touched s) ((b.withTools tools).persist touched t) := by
  have harchive : t.archive.updateRows t.resolution.program touched.toList =
      s.archive.updateRows s.resolution.program touched.toList := by
    rw [h.archive, updateRows_alike h.resolution.program]
  unfold persist
  dsimp only
  rw [harchive, h.disk, layout_withTools, now_withTools]
  generalize Archive.store _ s.disk b.layout.cacheFile b.now = k
  obtain ⟨disk, stored⟩ := k
  cases stored with
  | ok done => exact .ok () ⟨rfl, h.tools, rfl, h.log, h.resolution⟩
  | error fault => exact .error fault ⟨rfl, h.tools, rfl, h.log, h.resolution⟩

/-- A build that starts on two programs which differ in nothing but bodies fares alike. -/
theorem build_alike (htools : b.toolchain.Matches tools T) (hgenerator : b.IgnoresBodies)
    (hdisk : t.disk = s.disk) (hrelated : T s.tools t.tools) (harchive : t.archive = s.archive)
    (hlog : t.log = s.log) (hkept : t.resolution.program.kept = s.resolution.program.kept)
    (entries : List Entry) :
    SameEnd (BuildState.Alike T) (b.build entries s) ((b.withTools tools).build entries t) := by
  have hstart : SameEnd (BuildState.Alike T) (startRun s) (startRun t) :=
    .ok () ⟨hdisk, hrelated, harchive, hlog, .start hkept⟩
  refine hstart.bind fun _ s₁ t₁ h₁ => ?_
  refine (mapM_buildEntry_alike htools hgenerator h₁ entries).bind fun results s₂ t₂ h₂ => ?_
  rw [BuildM.get_bind, BuildM.get_bind, h₂.resolution.run]
  exact (persist_alike h₂ _).bind fun _ _ _ h₃ => .ok _ h₃

end Builder

end ScriptBuild
