import ScriptBuild.Proofs.Build.Planning
import ScriptBuild.Proofs.Build.Requests
import ScriptBuild.Proofs.Plan.Inputs
import ScriptBuild.Proofs.Resolution.Reached

namespace ScriptBuild

variable {σ τ α β : Type}

/-- The files that a tool is handed. -/
def Invocation.inputs : Invocation → List FilePath
  | compile source _ _ => [source]
  | link objects _ libraries => objects ++ libraries

/-- All that a tool was handed was there when it was asked. -/
def Note.Supplied (note : Note) : Prop := ∀ p ∈ note.request.inputs, note.disk.hasPath p

/-- Nothing has gone from a disk. -/
def Disk.Retains (d d' : Disk) : Prop := ∀ p, d.hasPath p → d'.hasPath p

/-- From a disk to which files are only added nothing has gone. -/
theorem Disk.Adds.retains {made : FilePath → Prop} {d d' : Disk} (h : d.Adds made d') :
    d.Retains d' := fun _ => h.hasPath

/-- Tools that delete nothing, and make the file that they are asked for whenever they succeed. -/
structure Toolchain.Reliable (t : Toolchain σ) : Prop where
  retains : ∀ i tools (d : Disk), d.Retains (t.run i (tools, d)).1.2
  makes : ∀ i tools (d : Disk), (t.run i (tools, d)).2 = .ok () →
    (t.run i (tools, d)).1.2.hasPath i.output

/-- Tools that note what they are asked for are as reliable as without their notes. -/
theorem Toolchain.Reliable.noting {t : Toolchain σ} (h : t.Reliable) : t.noting.Reliable where
  retains i tools := h.retains i tools.1
  makes i tools := h.makes i tools.1

/-- Part of a build leaves the resolution as it is, and deletes nothing. -/
structure BuildState.Gains (s s' : BuildState σ) : Prop where
  resolution : s'.resolution = s.resolution
  disk : s.disk.Retains s'.disk

theorem BuildState.Gains.refl (s : BuildState σ) : s.Gains s := ⟨rfl, fun _ h => h⟩

theorem BuildState.Gains.trans {s₁ s₂ s₃ : BuildState σ} (h : s₁.Gains s₂) (h' : s₂.Gains s₃) :
    s₁.Gains s₃ := ⟨h'.resolution.trans h.resolution, fun p hp => h'.disk p (h.disk p hp)⟩

namespace Builder

open BuildM BuildState

variable {b : Builder σ} {notes : σ → List Note} {s s' t t' : BuildState σ} {entry : String}
  {plan : Plan} {generated : NodeSet} {step : Step} {steps before after : List Step}
  {u v : BuildUnit} {id root : Nat} {performed : Bool} {done : Unit} {i : Invocation} {l : Linkage}
  {records : List StepRecord} {p : FilePath} {role : FileRole}

/-- With reliable tools, nothing that a build makes deletes anything. -/
theorem respects_gains (hreliable : b.toolchain.Reliable) : b.Respects Gains fun _ => True where
  refl := .refl
  trans _ _ _ := .trans
  run i _ s := by
    have hretains := hreliable.retains i s.tools s.disk
    unfold final run
    generalize b.toolchain.run i (s.tools, s.disk) = k at hretains ⊢
    obtain ⟨⟨tools, disk⟩, result⟩ := k
    cases result with
    | ok _ => exact ⟨rfl, hretains⟩
    | error _ => exact ⟨rfl, hretains⟩
  write q text _ s := by
    simp only [final, writeFile]
    cases hwrite : s.disk.write q (.text text) b.now with
    | ok disk => exact ⟨rfl, (Disk.adds_write hwrite).1.retains⟩
    | error _ => exact .refl s
  copy source q _ s := by
    simp only [final, copyFile]
    cases hcopy : s.disk.copy source q b.now with
    | ok disk => exact ⟨rfl, (Disk.adds_copy hcopy).retains⟩
    | error _ => exact .refl s
  register s _ _ _ := ⟨rfl, fun _ h => h⟩

/-- No step deletes anything, whether it succeeds or fails. -/
theorem gains_take (hreliable : b.toolchain.Reliable) :
    Frames Gains (b.take entry plan generated step u) :=
  take_frames (respects_gains hreliable) ⟨fun _ _ => trivial, fun _ => trivial⟩

/-- The files that a step makes for its unit are there. Forward declarations are made for members of
cycles only. -/
def Made (b : Builder σ) (plan : Plan) (step : Step) (u : BuildUnit) (d : Disk) : Prop :=
  ∀ role ∈ step.action.roles, (role = .forwardSource → plan.isCyclic step.unit) →
    d.hasPath (b.layout.path role u)

/-- What a tool was asked for is there if it succeeds. -/
theorem hasPath_run (hreliable : b.toolchain.Reliable) (h : b.run i s = .ok done s') :
    s'.disk.hasPath i.output := by
  have hmakes := hreliable.makes i s.tools s.disk
  unfold run at h
  generalize b.toolchain.run i (s.tools, s.disk) = k at h hmakes
  obtain ⟨⟨tools, disk⟩, result⟩ := k
  cases result with
  | error fault => cases h
  | ok _ =>
    cases h
    exact hmakes rfl

/-- A module is there after it was linked. -/
theorem hasPath_linkNow (hreliable : b.toolchain.Reliable) (h : b.linkNow u l s = .ok done s') :
    s'.disk.hasPath l.output := by
  obtain ⟨_, s₁, hrun, h⟩ := BuildM.bind_eq_ok.1 h
  have hmade := hasPath_run hreliable hrun
  cases h
  exact hmade

theorem hasPath_of_isUpToDate {d : Disk} {watched : List FilePath} (h : d.isUpToDate p watched) :
    d.hasPath p := by
  unfold Disk.isUpToDate Disk.changed? at h
  unfold Disk.hasPath
  cases hlookup : d.lookup p with
  | none => simp [hlookup] at h
  | some node => rfl

/-- Generating the code of a unit makes its forward declarations if it is in a cycle. -/
theorem made_of_generate (hgenerator : b.generator = Stub.generate)
    (haction : step.action = .generate) (h : b.generate plan step.unit u s = .ok done s') :
    b.Made plan step u s'.disk := by
  rw [generate, BuildM.get_bind, hgenerator] at h
  cases hcode : Stub.generate (s.resolution.program.stubRequest step.unit u
      (plan.isCyclic step.unit)) with
  | error fault =>
    rw [hcode] at h
    cases h
  | ok code =>
    rw [hcode] at h
    obtain ⟨_, s₁, hheader, h⟩ := BuildM.bind_eq_ok.1 h
    obtain ⟨_, s₂, hsource, h⟩ := BuildM.bind_eq_ok.1 h
    obtain ⟨-, hheader⟩ := writeFile_makes hheader
    obtain ⟨hmakes, hsource⟩ := writeFile_makes hsource
    have hheader := hmakes.disk.hasPath hheader
    intro role hrole hcyclic
    rw [haction] at hrole
    cases hforward : code.forward with
    | some text =>
      rw [hforward] at h
      obtain ⟨hlast, hnew⟩ := writeFile_makes h
      simp only [Action.roles, List.mem_cons, List.not_mem_nil, or_false] at hrole
      rcases hrole with rfl | rfl | rfl
      · exact hlast.disk.hasPath hheader
      · exact hlast.disk.hasPath hsource
      · exact hnew
    | none =>
      rw [hforward] at h
      cases h
      simp only [Action.roles, List.mem_cons, List.not_mem_nil, or_false] at hrole
      rcases hrole with rfl | rfl | rfl
      · exact hheader
      · exact hsource
      · -- Only for units outside of cycles there are no forward declarations.
        have hsome := Stub.forward_of_generate hcode
        rw [hforward, Program.stubRequest, if_pos (hcyclic rfl)] at hsome
        cases hsome

/-- After forward linking, the object of the forward declarations and the stand-in are there. -/
theorem hasPath_forwardLink (hreliable : b.toolchain.Reliable)
    (h : b.forwardLink u s = .ok done s') :
    s'.disk.hasPath (b.layout.path .forwardObject u) ∧ s'.disk.hasPath (b.layout.path .standIn u) := by
  rw [forwardLink, BuildM.get_bind] at h
  split at h
  · obtain ⟨_, s₁, hcompile, hlink⟩ := BuildM.bind_eq_ok.1 h
    have hobject := hasPath_run hreliable hcompile
    rw [Invocation.output] at hobject
    have hstandIn := hasPath_run hreliable hlink
    rw [output_standInLinkage] at hstandIn
    exact ⟨(((respects_gains hreliable).run _ trivial).ok hlink).disk _ hobject, hstandIn⟩
  · cases h

/-- A module is there after its link step, whether it was linked or found up to date. -/
theorem hasPath_link (hreliable : b.toolchain.Reliable)
    (h : b.link plan generated id u s = .ok performed s') :
    s'.disk.hasPath (b.layout.path .artifact u) := by
  rw [link, BuildM.get_bind] at h
  split at h
  · next hskip =>
    cases h
    simp only [Bool.and_eq_true] at hskip
    have huptodate := hasPath_of_isUpToDate hskip.2
    rwa [output_unitLinkage] at huptodate
  · obtain ⟨_, s₁, hlink, h⟩ := BuildM.bind_eq_ok.1 h
    cases h
    have hlinked := hasPath_linkNow hreliable hlink
    rwa [output_unitLinkage] at hlinked

theorem hasPath_relink (hreliable : b.toolchain.Reliable) (h : b.relink plan id u s = .ok done s') :
    s'.disk.hasPath (b.layout.path .artifact u) := by
  rw [relink, BuildM.get_bind] at h
  have hlinked := hasPath_linkNow hreliable h
  rwa [output_unitLinkage] at hlinked

/-- A step made its files if they are all there. -/
theorem made_of_roles {d : Disk} {roles : List FileRole} (hroles : step.action.roles = roles)
    (h : ∀ role ∈ roles, d.hasPath (b.layout.path role u)) : b.Made plan step u d :=
  fun role hrole _ => h role (hroles ▸ hrole)

/-- A step that is taken makes the files that it stands for, or finds them up to date. -/
theorem made_take (hreliable : b.toolchain.Reliable) (hgenerator : b.generator = Stub.generate)
    (h : b.take entry plan generated step u s = .ok performed s') :
    b.Made plan step u s'.disk := by
  unfold take at h
  cases haction : step.action <;> simp only [haction] at h
  case generate =>
    obtain ⟨_, s₁, hgenerate, h⟩ := BuildM.bind_eq_ok.1 h
    cases h
    exact made_of_generate hgenerator haction hgenerate
  case compile =>
    obtain ⟨_, s₁, hcompile, h⟩ := BuildM.bind_eq_ok.1 h
    have hobject := hasPath_run hreliable hcompile
    rw [Invocation.output] at hobject
    cases h
    exact made_of_roles (congrArg Action.roles haction) (List.forall_mem_singleton.2 hobject)
  case forwardLink =>
    obtain ⟨_, s₁, hforward, h⟩ := BuildM.bind_eq_ok.1 h
    cases h
    obtain ⟨hobject, hstandIn⟩ := hasPath_forwardLink hreliable hforward
    exact made_of_roles (congrArg Action.roles haction)
      (List.forall_mem_cons.2 ⟨hobject, List.forall_mem_singleton.2 hstandIn⟩)
  case link =>
    exact made_of_roles (congrArg Action.roles haction)
      (List.forall_mem_singleton.2 (hasPath_link hreliable h))
  case relink =>
    obtain ⟨_, s₁, hlink, h⟩ := BuildM.bind_eq_ok.1 h
    cases h
    exact made_of_roles (congrArg Action.roles haction)
      (List.forall_mem_singleton.2 (hasPath_relink hreliable hlink))
  case emit =>
    exact made_of_roles (congrArg Action.roles haction) (List.forall_mem_nil _)

/-- Some steps of a plan were taken: nothing has gone, and the files that they stand for are there. -/
structure Stocked (b : Builder σ) (plan : Plan) (s : BuildState σ) (before : List Step)
    (s' : BuildState σ) : Prop where
  gains : s.Gains s'
  made : ∀ x ∈ before, ∀ u, s.resolution.program.units.get? x.unit = some u →
    b.Made plan x u s'.disk

theorem Stocked.refl (b : Builder σ) (plan : Plan) (s : BuildState σ) : b.Stocked plan s [] s :=
  ⟨.refl s, fun _ hx => absurd hx List.not_mem_nil⟩

/-- A step that is taken after some others. -/
theorem Stocked.take (h : b.Stocked plan s before s') (hreliable : b.toolchain.Reliable)
    (hgenerator : b.generator = Stub.generate)
    (hu : s.resolution.program.units.get? step.unit = some u)
    (hrun : b.take entry plan generated step u s' = .ok performed t) :
    b.Stocked plan s (before ++ [step]) t := by
  have hgains := (gains_take hreliable).ok hrun
  refine ⟨h.gains.trans hgains, fun x hx v hv => ?_⟩
  rcases List.mem_append.1 hx with hx | hx
  · exact fun role hrole hcyclic => hgains.disk _ (h.made x hx v hv role hrole hcyclic)
  · obtain rfl := List.mem_singleton.1 hx
    obtain rfl := Option.some.inj (hu.symm.trans hv)
    exact made_take hreliable hgenerator hrun

/-- A step about an unknown unit is passed over. -/
theorem Stocked.pass (h : b.Stocked plan s before s')
    (hnone : s.resolution.program.units.get? step.unit = none) :
    b.Stocked plan s (before ++ [step]) s' := by
  refine ⟨h.gains, fun x hx v hv => ?_⟩
  rcases List.mem_append.1 hx with hx | hx
  · exact h.made x hx v hv
  · obtain rfl := List.mem_singleton.1 hx
    rw [hnone] at hv
    cases hv

/-- Steps that are taken one after the other have made, or found, the files that they stand for. -/
theorem Stocked.execute (h : b.Stocked plan s before s') (hreliable : b.toolchain.Reliable)
    (hgenerator : b.generator = Stub.generate)
    (hrun : b.execute entry plan generated steps s' = .ok records t) :
    b.Stocked plan s (before ++ steps) t := by
  induction steps generalizing before s' generated records with
  | nil =>
    cases hrun
    rw [List.append_nil]
    exact h
  | cons step steps ih =>
    rw [List.append_cons]
    rw [Builder.execute, BuildM.get_bind, h.gains.resolution] at hrun
    cases hu : s.resolution.program.units.get? step.unit with
    | none =>
      rw [hu] at hrun
      exact ih (h.pass hu) hrun
    | some u =>
      rw [hu] at hrun
      obtain ⟨performed, s₁, htake, hrun⟩ := BuildM.bind_eq_ok.1 hrun
      obtain ⟨later, s₂, hlater, hrun⟩ := BuildM.bind_eq_ok.1 hrun
      cases hrun
      exact ih (h.take hreliable hgenerator hu htake) hlater

/-- The runtime and all precompiled modules are there. -/
structure Equipped (b : Builder σ) (s : BuildState σ) : Prop where
  runtime : ∀ p ∈ b.config.runtime, s.disk.hasPath p
  precompiled : ∀ id u p, s.resolution.program.units.get? id = some u →
    u.kind = .precompiled p → s.disk.hasPath p

/-- What a plan is made from: units and dependencies that fit together with an entry point among
them, and what is not built but linked as it is. -/
structure Prepared (b : Builder σ) (s : BuildState σ) (root : Nat) : Prop extends b.Equipped s where
  linked : s.resolution.program.Linked
  known : root < s.resolution.program.units.size

namespace Prepared

variable (h : b.Prepared s root) (hstocked : b.Stocked (b.planFor s root) s before t)

include h

/-- The nodes of the dependency graph are units. -/
theorem node (id : Nat) (hnode : s.resolution.program.graph.hasNode id) :
    id < (b.planningOf s s.resolution.freshness).catalog.size := h.linked.node id hnode

theorem not_edge_self (id : Nat) : ¬ s.resolution.program.graph.Edge id id := by
  intro hedge
  obtain ⟨n, htakes⟩ := h.linked.takes id id hedge
  exact h.linked.loop id n htakes

include hstocked

theorem runtime_of_stocked (hp : p ∈ b.config.runtime.toList) : t.disk.hasPath p :=
  hstocked.gains.disk p (h.runtime p (Option.mem_toList.1 hp))

omit h in
/-- A file of a unit is there if it was there when the plan was made, or was made since. -/
theorem hasPath_of_stocked (hu : s.resolution.program.units.get? id = some u)
    (hready : (b.planningOf s s.resolution.freshness).hasFile role id ∨
      ∃ a : Action, ⟨id, a⟩ ∈ before ∧ role ∈ a.roles ∧
        (role = .forwardSource → (b.planFor s root).isCyclic id)) :
    t.disk.hasPath (b.layout.path role u) := by
  rcases hready with hthere | ⟨a, hmem, hrole, hcyclic⟩
  · rw [hasFile_planningOf hu] at hthere
    exact hstocked.gains.disk _ hthere
  · exact hstocked.made _ hmem u hu role hrole hcyclic

/-- The libraries that a module is linked with are there. On the first pass through a cycle those of
the peers are stand-ins. -/
theorem library {a : Action} (hlinks : a.Links) {forward : Bool}
    (hforward : forward = true ↔ a = .link ∧ ⟨id, .forwardLink⟩ ∈ (b.planFor s root).steps)
    (hsteps : (b.planFor s root).steps = before ++ ⟨id, a⟩ :: after)
    (hp : p ∈ (b.config.unitLibraries s.resolution.program.units (b.planFor s root) id forward).map
      (·.2)) : t.disk.hasPath p := by
  have hroot := h.known
  have hmem : ⟨id, a⟩ ∈ (b.planFor s root).steps := by
    rw [hsteps]
    exact List.mem_append_right _ List.mem_cons_self
  have hmode : (b.planningOf s s.resolution.freshness).mode = .perUnit := by
    refine Planning.mode_of_mem_steps hmem ?_ ?_
    · rcases hlinks with rfl | rfl <;> simp [Action.rank]
    · rcases hlinks with rfl | rfl <;> simp
  obtain ⟨⟨other, q⟩, hlibrary, rfl⟩ := List.mem_map.1 hp
  obtain ⟨other', hneeded, hfound⟩ := List.mem_filterMap.1 hlibrary
  obtain ⟨v, hv, hfound⟩ := Option.bind_eq_some_iff.1 hfound
  obtain ⟨q', hq, heq⟩ := Option.map_eq_some_iff.1 hfound
  cases heq
  have hedge : s.resolution.program.graph.Edge id other := by
    have hinner : (Planning.needed s.resolution.program.graph root).Edge id other :=
      Std.ExtTreeSet.mem_toList.1 hneeded
    exact (Planning.edge_needed.1 hinner).2
  have htranslated (hobject : v.kind.treatment.makesObject)
      (hq : some (b.layout.path (if forward && ((b.planFor s root).peers id).contains other
        then .standIn else .artifact) v) = some q) : t.disk.hasPath q := by
    have hobject : (b.planningOf s s.resolution.freshness).makesObject other := by
      rwa [makesObject_planningOf hv]
    obtain rfl := Option.some.inj hq
    split
    · next hstandIn =>
      simp only [Bool.and_eq_true, List.contains_iff_mem] at hstandIn
      obtain ⟨rfl, hmade⟩ := hforward.1 hstandIn.1
      have hbefore := Planning.standIn_before_link h.node hroot hmode hsteps hmade hobject hstandIn.2
      exact hasPath_of_stocked hstocked hv
        (.inr ⟨.forwardLink, hbefore, by simp [Action.roles], by simp⟩)
    · next hdirect =>
      simp only [Bool.and_eq_true, List.contains_iff_mem, not_and] at hdirect
      have hbefore := Planning.artifact_before_link h.node hroot hmode h.not_edge_self hlinks hsteps
        hedge hobject fun hlink hmade => hdirect (hforward.2 ⟨hlink, hmade⟩)
      refine hasPath_of_stocked hstocked hv (hbefore.imp_right fun hlinked => ?_)
      exact ⟨.link, hlinked, by simp [Action.roles], by simp⟩
  unfold Layout.library? at hq
  cases htreatment : v.kind.treatment <;> rw [htreatment] at hq
  case translate => exact htranslated (by rw [htreatment]; rfl) hq
  case table => exact htranslated (by rw [htreatment]; rfl) hq
  case linkAsIs =>
    cases hkind : v.kind <;> rw [hkind] at htreatment hq <;> cases htreatment
    cases hq
    exact hstocked.gains.disk _ (h.precompiled other v _ hv hkind)
  case runtime => cases hq
  case skip => cases hq

end Prepared

/-- All that the tools are handed in the course of a computation is there. -/
def Supplies (notes : σ → List Note) (x : BuildM σ α) (s : BuildState σ) : Prop :=
  ∃ more, notes (final x s).tools = notes s.tools ++ more ∧ ∀ note ∈ more, note.Supplied

/-- Where no tool is asked for anything, all is there that is handed over. -/
theorem Supplies.of_tools {x : BuildM σ α} (h : (final x s).tools = s.tools) :
    Supplies notes x s :=
  ⟨[], by rw [h, List.append_nil], fun _ hmem => absurd hmem List.not_mem_nil⟩

/-- Two parts hand over only what is there if the first one does, and the second one from every
state in which the first can end. -/
theorem Supplies.bind {x : BuildM σ α} {f : α → BuildM σ β} (hx : Supplies notes x s)
    (hf : ∀ a s', x s = .ok a s' → Supplies notes (f a) s') : Supplies notes (x >>= f) s := by
  have hbind : (x >>= f) s = EStateM.bind x f s := rfl
  unfold Supplies at hx ⊢
  rw [final, hbind, EStateM.bind]
  cases hrun : x s with
  | error fault s' =>
    rw [final, hrun] at hx
    exact hx
  | ok a s' =>
    rw [final, hrun] at hx
    obtain ⟨more, hmore, hsupplied⟩ := hx
    obtain ⟨later, hlater, hrest⟩ := hf a s' hrun
    refine ⟨more ++ later, ?_, fun note hnote => ?_⟩
    · rw [← List.append_assoc, ← hmore]
      exact hlater
    · exact (List.mem_append.1 hnote).elim (hsupplied note) (hrest note)

theorem Supplies.get {f : BuildState σ → BuildM σ α} (h : Supplies notes (f s) s) :
    Supplies notes (MonadState.get >>= f) s := h

/-- A run of a tool hands over what is there if all its inputs are. -/
theorem supplies_run (hnotes : b.toolchain.Notes notes) (h : ∀ p ∈ i.inputs, s.disk.hasPath p) :
    Supplies notes (b.run i) s := by
  have hnoted := hnotes i s.tools s.disk
  unfold Supplies final run
  generalize b.toolchain.run i (s.tools, s.disk) = k at hnoted ⊢
  obtain ⟨⟨tools, disk⟩, result⟩ := k
  refine ⟨[⟨i, s.disk, result.isOk⟩], ?_, fun note hnote => ?_⟩
  · cases result <;> exact hnoted
  · rw [List.mem_singleton.1 hnote]
    exact h

/-- Linking a module hands over what is there if its objects and libraries are. -/
theorem supplies_linkNow (hnotes : b.toolchain.Notes notes)
    (h : ∀ p ∈ l.objects ++ l.libraries, s.disk.hasPath p) :
    Supplies notes (b.linkNow u l) s := by
  have hrun : Supplies notes (b.run l.invocation) s := supplies_run hnotes h
  exact hrun.bind fun _ _ _ => .of_tools rfl

theorem supplies_writeFile {text : String} : Supplies notes (b.writeFile p text) s := by
  refine .of_tools ?_
  simp only [final, writeFile]
  cases s.disk.write p (.text text) b.now <;> rfl

theorem supplies_copyFile {source : FilePath} : Supplies notes (b.copyFile source p) s := by
  refine .of_tools ?_
  simp only [final, copyFile]
  cases s.disk.copy source p b.now <;> rfl

/-- Generating code asks no tool for anything. -/
theorem supplies_generate : Supplies notes (b.generate plan id u) s := by
  refine .get ?_
  dsimp only
  split
  · exact .of_tools rfl
  · refine supplies_writeFile.bind fun _ _ _ => supplies_writeFile.bind fun _ _ _ => ?_
    split
    · exact supplies_writeFile
    · exact .of_tools rfl

namespace Prepared

variable (h : b.Prepared s root) (hstocked : b.Stocked (b.planFor s root) s before t)
  (hnotes : b.toolchain.Notes notes)

include h hstocked

/-- The forward declarations of a unit are there when its stand-in is made. -/
theorem forwardSource (hu : s.resolution.program.units.get? id = some u)
    (hsteps : (b.planFor s root).steps = before ++ ⟨id, .forwardLink⟩ :: after) :
    t.disk.hasPath (b.layout.path .forwardSource u) := by
  have hmem : ⟨id, .forwardLink⟩ ∈ (b.planFor s root).steps := by
    rw [hsteps]
    exact List.mem_append_right _ List.mem_cons_self
  have hmode : (b.planningOf s s.resolution.freshness).mode = .perUnit :=
    Planning.mode_of_mem_steps hmem (by simp [Action.rank]) (by simp)
  have hbefore := Planning.forwardSource_before_forwardLink h.node h.known hmode hsteps
  refine hasPath_of_stocked hstocked hu (hbefore.imp_right fun hlinked => ?_)
  exact ⟨.generate, hlinked.1, by simp [Action.roles], fun _ => hlinked.2⟩

/-- The module of the entry point is there when it is copied. -/
theorem artifact (hmode : b.config.mode = .perUnit)
    (hu : s.resolution.program.units.get? step.unit = some u) (hemit : step.action = .emit)
    (hsteps : (b.planFor s root).steps = before ++ step :: after) :
    t.disk.hasPath (b.layout.path .artifact u) := by
  have hmem : step ∈ (b.planFor s root).steps := by
    rw [hsteps]
    exact List.mem_append_right _ List.mem_cons_self
  obtain ⟨rfl, hobject⟩ := Planning.unit_of_emit hmem hemit
  have hlinked := Planning.artifact_before_emit (c := b.planningOf s s.resolution.freshness) h.node
    h.known hmode hsteps hobject
  exact hasPath_of_stocked hstocked hu (.inr ⟨.link, hlinked, by simp [Action.roles], by simp⟩)

/-- What the module of a unit is linked from is there. -/
theorem linkage {a : Action} (hlinks : a.Links) {forward : Bool}
    (hforward : forward = true ↔ a = .link ∧ ⟨id, .forwardLink⟩ ∈ (b.planFor s root).steps)
    (hu : s.resolution.program.units.get? id = some u)
    (hsteps : (b.planFor s root).steps = before ++ ⟨id, a⟩ :: after)
    (hl : l = b.config.unitLinkage s.resolution.program.units (b.planFor s root) id u forward) :
    ∀ p ∈ l.objects ++ l.libraries, t.disk.hasPath p := by
  have hmem : ⟨id, a⟩ ∈ (b.planFor s root).steps := by
    rw [hsteps]
    exact List.mem_append_right _ List.mem_cons_self
  have hmode : (b.planningOf s s.resolution.freshness).mode = .perUnit := by
    refine Planning.mode_of_mem_steps hmem ?_ ?_
    · rcases hlinks with rfl | rfl <;> simp [Action.rank]
    · rcases hlinks with rfl | rfl <;> simp
  intro p hp
  subst hl
  simp only [BuildConfig.unitLinkage, List.mem_append, List.mem_singleton] at hp
  rcases hp with hp | hp | hp
  · rw [hp]
    have hbefore := Planning.object_before_link h.node h.known hmode hlinks hsteps
    refine hasPath_of_stocked hstocked hu (hbefore.imp_right fun hcompiled => ?_)
    exact ⟨.compile, hcompiled, by simp [Action.roles], by simp⟩
  · exact h.library hstocked hlinks hforward hsteps hp
  · exact h.runtime_of_stocked hstocked hp

/-- What the module of the entry point is linked from is there if it holds all units. -/
theorem entryLinkage (hemit : step.action = .emit)
    (hsteps : (b.planFor s root).steps = before ++ step :: after)
    (hl : l = b.config.entryLinkage s.resolution.program.units (b.planFor s root) entry) :
    ∀ p ∈ l.objects ++ l.libraries, t.disk.hasPath p := by
  have hmem : step ∈ (b.planFor s root).steps := by
    rw [hsteps]
    exact List.mem_append_right _ List.mem_cons_self
  obtain ⟨rfl, -⟩ := Planning.unit_of_emit hmem hemit
  have hneeded {v : BuildUnit} (hv : v ∈ (b.planFor s root).units.filterMap
      s.resolution.program.units.get?) : ∃ id ∈ (b.planFor s root).units,
        s.resolution.program.units.get? id = some v := List.mem_filterMap.1 hv
  intro p hp
  subst hl
  simp only [BuildConfig.entryLinkage, List.mem_append, List.mem_map, List.mem_filter,
    List.mem_filterMap (f := fun u : BuildUnit => u.kind.path?)] at hp
  rcases hp with ⟨v, ⟨hv, hobject⟩, rfl⟩ | ⟨v, ⟨hv, hasIs⟩, hpath⟩ | hp
  · obtain ⟨id, hid, hget⟩ := hneeded hv
    have hobject : (b.planningOf s s.resolution.freshness).makesObject id := by
      rwa [makesObject_planningOf hget]
    have hbefore := Planning.object_before_emit h.node h.known hsteps hid hobject
    refine hasPath_of_stocked hstocked hget (hbefore.imp_right fun hcompiled => ?_)
    exact ⟨.compile, hcompiled, by simp [Action.roles], by simp⟩
  · obtain ⟨id, -, hget⟩ := hneeded hv
    cases hkind : v.kind <;> rw [hkind] at hasIs hpath <;> cases hasIs
    cases hpath
    exact hstocked.gains.disk _ (h.precompiled id v _ hget hkind)
  · exact h.runtime_of_stocked hstocked hp

include hnotes

/-- A step of the plan hands the tools only what is there. -/
theorem supplies_take (hreliable : b.toolchain.Reliable)
    (hu : s.resolution.program.units.get? step.unit = some u)
    (hsteps : (b.planFor s root).steps = before ++ step :: after) :
    Supplies notes (b.take entry (b.planFor s root) generated step u) t := by
  have hprogram : t.resolution.program = s.resolution.program := by rw [hstocked.gains.resolution]
  obtain ⟨id, action⟩ := step
  unfold take
  cases action with
  | generate => exact supplies_generate.bind fun _ _ _ => .of_tools rfl
  | compile =>
    refine Supplies.bind (supplies_run hnotes ?_) fun _ _ _ => .of_tools rfl
    intro p hp
    rw [List.mem_singleton.1 hp]
    have hbefore := Planning.source_before_compile (c := b.planningOf s s.resolution.freshness)
      h.node h.known hsteps
    refine hasPath_of_stocked hstocked hu (hbefore.imp_right fun hgenerated => ?_)
    exact ⟨.generate, hgenerated, by simp [Action.roles], by simp⟩
  | forwardLink =>
    have hsource := h.forwardSource hstocked hu hsteps
    refine Supplies.bind (.get ?_) fun _ _ _ => .of_tools rfl
    rw [if_pos hsource]
    refine (supplies_run hnotes ?_).bind fun _ s₁ hcompile => supplies_run hnotes ?_
    · intro p hp
      rw [List.mem_singleton.1 hp]
      exact hsource
    · -- The object of the forward declarations was made just now.
      have hobject := hasPath_run hreliable hcompile
      simp only [Invocation.output] at hobject
      have hgains := ((respects_gains hreliable).run _ trivial).ok hcompile
      intro p hp
      simp only [BuildConfig.standInLinkage, Linkage.invocation, Invocation.inputs,
        List.mem_append, List.mem_singleton] at hp
      rcases hp with hp | hp
      · rw [hp]
        exact hobject
      · exact hgains.disk p (h.runtime_of_stocked hstocked hp)
  | link =>
    refine .get ?_
    dsimp only
    split
    · exact .of_tools rfl
    · refine Supplies.bind (supplies_linkNow hnotes ?_) fun _ _ _ => .of_tools rfl
      refine h.linkage hstocked (.inl rfl) ?_ hu hsteps (by rw [hprogram])
      simp [Plan.hasStep]
  | relink =>
    refine Supplies.bind (.get ?_) fun _ _ _ => .of_tools rfl
    refine supplies_linkNow hnotes (h.linkage hstocked (.inr rfl) ?_ hu hsteps (by rw [hprogram]))
    simp
  | emit =>
    unfold emit
    dsimp only
    split
    · exact supplies_copyFile.bind fun _ _ _ => .of_tools rfl
    · refine .get ?_
      split
      · exact .of_tools rfl
      · refine Supplies.bind (supplies_run hnotes ?_) fun _ _ _ => .of_tools rfl
        exact h.entryLinkage hstocked rfl hsteps (by rw [hprogram])

end Prepared

/-- Steps of a plan, taken one after the other, hand the tools only what is there. -/
theorem Prepared.supplies_execute (h : b.Prepared s root)
    (hstocked : b.Stocked (b.planFor s root) s before t) (hnotes : b.toolchain.Notes notes)
    (hreliable : b.toolchain.Reliable) (hgenerator : b.generator = Stub.generate)
    (hsteps : (b.planFor s root).steps = before ++ steps) :
    Supplies notes (b.execute entry (b.planFor s root) generated steps) t := by
  induction steps generalizing before t generated with
  | nil => exact .of_tools rfl
  | cons step steps ih =>
    refine .get ?_
    rw [hstocked.gains.resolution]
    cases hu : s.resolution.program.units.get? step.unit with
    | none => exact ih (hstocked.pass hu) (by rw [hsteps, List.append_cons])
    | some u =>
      refine (h.supplies_take hstocked hnotes hreliable hu hsteps).bind fun performed s₁ htake => ?_
      refine Supplies.bind (ih ?_ (by rw [hsteps, List.append_cons])) fun _ _ _ => .of_tools rfl
      exact hstocked.take hreliable hgenerator hu htake

/-- What an entry point was resolved to is built with what is there, as each step of its plan comes
after those that make what it works on. -/
theorem Prepared.supplies_buildUnit {name : String} (h : b.Prepared s root)
    (hnotes : b.toolchain.Notes notes) (hreliable : b.toolchain.Reliable)
    (hgenerator : b.generator = Stub.generate) :
    Supplies notes (b.buildUnit name root) s := by
  refine .get ?_
  refine (h.supplies_execute (.refl b _ s) hnotes hreliable hgenerator rfl).bind fun _ _ _ => ?_
  exact Supplies.bind (.of_tools rfl) fun _ _ _ => .of_tools rfl

end Builder

theorem Resolution.lt_size_of_analyze {w : World} {r s : Resolution} {name : String}
    {definition : Option Definition} {root : Nat} (hsane : r.Sane)
    (hanalyze : r.analyze w name definition = (s, .ok (some root))) :
    root < s.program.units.size := by
  unfold analyze at hanalyze
  split at hanalyze
  · cases hanalyze
  · next d _ =>
    split at hanalyze
    · cases hanalyze
    · obtain ⟨hmet, -, u, hu, -⟩ := hsane.unitFor name d
      generalize r.unitFor name d = k at hanalyze hmet hu
      obtain ⟨s₁, first⟩ := k
      dsimp only at hanalyze hmet hu
      split at hanalyze
      · next s₂ hdrain =>
        cases hanalyze
        have hevolves := (hmet.drain workLimit w).2
        rw [hdrain] at hevolves
        obtain ⟨v, hv, -⟩ := grows_of_evolves hevolves root u hu
        exact Catalog.lt_size_of_get? hv
      · cases hanalyze

/-- Noting that units are built leads from one reached state to another. -/
theorem Resolution.Reached.foldl_markBuilt {r : Resolution} (h : r.Reached) (ids : List Nat) :
    (ids.foldl Resolution.markBuilt r).Reached := by
  induction ids generalizing r with
  | nil => exact h
  | cons id ids ih => exact ih (h.markBuilt id)

namespace Builder

open BuildM BuildState

variable {b : Builder σ} {notes : σ → List Note} {s s' t t' : BuildState σ} {entry : Entry}
  {entries former rest : List Entry} {step : Step} {root : Nat} {result : EntryResult}
  {results : List EntryResult}

/-- How an entry point is looked for as things stand: by a definition, if one is known, or by its
name. Nothing is looked for if its directory does not have it. -/
def sought (b : Builder σ) (s : BuildState σ) (entry : Entry) : Option (Option Definition) :=
  match b.meaning s entry with
  | .byName => some none
  | .defined definition => some (some definition)
  | .missingIn _ => none

/-- In the course of a build of some entry points one of them is resolved to a unit, for which a plan
is then made. -/
def TakesUp (b : Builder σ) (entries : List Entry) (s : BuildState σ) (entry : Entry)
    (t : BuildState σ) (root : Nat) : Prop :=
  ∃ before after results s₁ definition, entries = before ++ entry :: after ∧
    before.mapM b.buildEntry { s with resolution := s.resolution.reset } = .ok results s₁ ∧
    b.sought s₁ entry = some definition ∧
    b.analyze entry.name definition s₁ = .ok (some root) t

/-- In the course of a build of some entry points a step is about to be taken. -/
def Faces (b : Builder σ) (entries : List Entry) (s : BuildState σ) (step : Step)
    (t : BuildState σ) : Prop :=
  ∃ entry s₁ root before after records, b.TakesUp entries s entry s₁ root ∧
    (b.planFor s₁ root).steps = before ++ step :: after ∧
    b.execute entry.name (b.planFor s₁ root) ∅ before s₁ = .ok records t

/-- An entry point is built on what was reached, and leaves something that is. -/
theorem reached_buildEntry (hreliable : b.toolchain.Reliable) (h : s.resolution.Reached)
    (hrun : b.buildEntry entry s = .ok result s') : s'.resolution.Reached := by
  rcases buildEntry_eq_ok hrun with ⟨-, -, rfl⟩ | ⟨definition, root, r, hr, hbuild⟩
  · exact h
  · have hreached := h.analyzed (b.world s.disk) entry.name definition
    rw [hr] at hreached
    obtain ⟨s₁, hexecute, -, rfl⟩ := buildUnit_eq_ok hbuild
    have hgains := (execute_frames (respects_gains hreliable) fun _ _ _ =>
      ⟨fun _ _ => trivial, fun _ => trivial⟩).ok hexecute
    have hkept : s₁.resolution.Reached := by
      rw [hgains.resolution]
      exact hreached
    exact hkept.foldl_markBuilt _

/-- So are entry points that are built one after the other. -/
theorem reached_mapM (hreliable : b.toolchain.Reliable) (h : s.resolution.Reached)
    (hrun : entries.mapM b.buildEntry s = .ok results s') : s'.resolution.Reached := by
  induction entries generalizing s results with
  | nil =>
    rw [List.mapM_nil] at hrun
    cases hrun
    exact h
  | cons entry entries ih =>
    rw [List.mapM_cons] at hrun
    obtain ⟨result, s₁, hentry, hrun⟩ := BuildM.bind_eq_ok.1 hrun
    obtain ⟨later, s₂, hlater, hrun⟩ := BuildM.bind_eq_ok.1 hrun
    cases hrun
    exact ih (reached_buildEntry hreliable h hentry) hlater

/-- The plans of a build are made from what fits together. -/
theorem TakesUp.prepared (h : b.TakesUp entries s entry t root) (hreliable : b.toolchain.Reliable)
    (hreached : s.resolution.Reached) (hequipped : b.Equipped t) : b.Prepared t root := by
  obtain ⟨before, after, results, s₁, definition, -, hbefore, -, hanalyze⟩ := h
  have hmiddle : s₁.resolution.Reached := reached_mapM hreliable hreached.reset hbefore
  obtain ⟨r, hr, rfl⟩ := analyze_eq_ok hanalyze
  have hanalyzed := hmiddle.analyzed (b.world s₁.disk) entry.name definition
  rw [hr] at hanalyzed
  exact ⟨hequipped, hanalyzed.kept.linked, Resolution.lt_size_of_analyze hmiddle.kept.sane hr⟩

/-- An entry point hands over only what is there, if what is made a plan from fits together. -/
theorem supplies_buildEntry (hnotes : b.toolchain.Notes notes) (hreliable : b.toolchain.Reliable)
    (hgenerator : b.generator = Stub.generate)
    (hprepared : ∀ definition t root, b.sought s entry = some definition →
      b.analyze entry.name definition s = .ok (some root) t → b.Prepared t root) :
    Supplies notes (b.buildEntry entry) s := by
  have hnamed {definition : Option Definition} (hsought : b.sought s entry = some definition) :
      Supplies notes (b.buildNamed entry.name definition) s := by
    have hanalyze : Supplies notes (b.analyze entry.name definition) s := by
      refine .of_tools ?_
      rw [final_analyze]
    refine hanalyze.bind fun found t hrun => ?_
    cases found with
    | none => exact .of_tools rfl
    | some root =>
      exact (hprepared definition t root hsought hrun).supplies_buildUnit hnotes hreliable hgenerator
  refine .get ?_
  cases hmeaning : b.meaning s entry with
  | byName => exact hnamed (by rw [sought, hmeaning])
  | defined definition => exact hnamed (by rw [sought, hmeaning])
  | missingIn directory => exact .of_tools rfl

/-- From one entry point to the next the tools are handed only what is there. -/
theorem supplies_mapM (hnotes : b.toolchain.Notes notes) (hreliable : b.toolchain.Reliable)
    (hgenerator : b.generator = Stub.generate) (hreached : s.resolution.Reached)
    (hequipped : ∀ entry t root, b.TakesUp entries s entry t root → b.Equipped t)
    (hentries : entries = former ++ rest)
    (hformer : former.mapM b.buildEntry { s with resolution := s.resolution.reset } =
      .ok results t) : Supplies notes (rest.mapM b.buildEntry) t := by
  induction rest generalizing former results t with
  | nil =>
    rw [List.mapM_nil]
    exact .of_tools rfl
  | cons entry rest ih =>
    rw [List.mapM_cons]
    have hentry : Supplies notes (b.buildEntry entry) t := by
      refine supplies_buildEntry hnotes hreliable hgenerator fun definition t' root hsought hrun => ?_
      have htakesUp : b.TakesUp entries s entry t' root :=
        ⟨former, rest, results, t, definition, hentries, hformer, hsought, hrun⟩
      exact htakesUp.prepared hreliable hreached (hequipped entry t' root htakesUp)
    refine hentry.bind fun result s₁ hrun => ?_
    have hnext : (former ++ [entry]).mapM b.buildEntry { s with resolution := s.resolution.reset } =
        .ok (results ++ [result]) s₁ := by
      rw [List.mapM_append, bind_of_ok hformer, List.mapM_cons, List.mapM_nil]
      have hlast : (do
          let r ← b.buildEntry entry
          let rs ← pure []
          pure (r :: rs) : BuildM σ (List EntryResult)) t = .ok [result] s₁ := by
        rw [bind_of_ok hrun]
        rfl
      rw [bind_of_ok hlast]
      rfl
    exact Supplies.bind (ih (by rw [hentries, List.append_cons]) hnext) fun _ _ _ => .of_tools rfl

/-- A build hands the tools only what is there, if the runtime and the precompiled modules are there
whenever a plan is made. -/
theorem supplies_build (hnotes : b.toolchain.Notes notes) (hreliable : b.toolchain.Reliable)
    (hgenerator : b.generator = Stub.generate) (hreached : s.resolution.Reached)
    (hequipped : ∀ entry t root, b.TakesUp entries s entry t root → b.Equipped t) :
    Supplies notes (b.build entries) s := by
  have hstart : Supplies notes (startRun : BuildM σ Unit) s := .of_tools rfl
  refine hstart.bind fun _ s₁ hrun => ?_
  cases hrun
  have hnone : ([] : List Entry).mapM b.buildEntry { s with resolution := s.resolution.reset } =
      .ok [] { s with resolution := s.resolution.reset } := rfl
  have hresults := supplies_mapM hnotes hreliable hgenerator hreached hequipped
    (List.nil_append entries).symm hnone
  refine hresults.bind fun results s₂ _ => .get ?_
  refine Supplies.bind (.of_tools ?_) fun _ _ _ => .of_tools rfl
  unfold final persist
  dsimp only
  split <;> rename_i heq <;> split at heq <;> cases heq <;> rfl

end Builder

/-- The same builder with tools that note every request. -/
def Builder.noting (b : Builder σ) : Builder (σ × List Note) := b.withTools b.toolchain.noting

/-- The same state with tools that have noted nothing yet. -/
def BuildState.noting (s : BuildState σ) : BuildState (σ × List Note) :=
  ⟨s.disk, (s.tools, []), s.resolution, s.archive, s.log⟩

/-- Tools are in the same state but for their notes. -/
def SameButNotes (tools : σ) (noted : σ × List Note) : Prop := noted.1 = tools

/-- Tools do the same to the disk when they also note what they are asked for. -/
theorem Toolchain.matches_noting (t : Toolchain σ) : t.Matches t.noting SameButNotes := by
  rintro i _ tools d rfl
  exact ⟨rfl, rfl, rfl⟩

namespace Builder

open BuildM BuildState

variable {b : Builder σ} {s t : BuildState σ} {t' : BuildState (σ × List Note)} {entry : Entry}
  {entries : List Entry} {root : Nat}

/-- What ends alike succeeds if the other one does. -/
theorem exists_ok_of_sameEnd {R : BuildState σ → BuildState τ → Prop}
    {x : BuildM σ α} {y : BuildM τ α} {s : BuildState σ} {t t' : BuildState τ} {a : α}
    (h : SameEnd R (x s) (y t)) (hrun : y t = .ok a t') : ∃ s', x s = .ok a s' ∧ R s' t' := by
  rw [hrun] at h
  generalize x s = k at h
  cases h with
  | ok a hrelated => exact ⟨_, rfl, hrelated⟩

/-- Noting does not change what is taken up. -/
theorem TakesUp.of_noting (hgenerator : b.IgnoresBodies)
    (h : b.noting.TakesUp entries s.noting entry t' root) :
    ∃ t, b.TakesUp entries s entry t root ∧ t.Alike SameButNotes t' := by
  obtain ⟨before, after, results, s₁', definition, hentries, hbefore, hsought, hanalyze⟩ := h
  have hstart : BuildState.Alike SameButNotes { s with resolution := s.resolution.reset }
      { s.noting with resolution := s.noting.resolution.reset } :=
    ⟨rfl, rfl, rfl, rfl, rfl, .refl _ _⟩
  obtain ⟨s₁, hformer, halike⟩ := exists_ok_of_sameEnd
    (mapM_buildEntry_alike b.toolchain.matches_noting hgenerator hstart before) hbefore
  obtain ⟨t, hanalyzed, hrelated⟩ :=
    exists_ok_of_sameEnd (analyze_alike halike entry.name definition) hanalyze
  refine ⟨t, ⟨before, after, results, s₁, definition, hentries, hformer, ?_, hanalyzed⟩, hrelated⟩
  unfold sought at hsought ⊢
  rw [noting, meaning_alike halike] at hsought
  exact hsought

/-- Notes have nothing to do with what is there. -/
theorem Equipped.noting (h : b.Equipped t) (halike : t.Alike SameButNotes t') :
    b.noting.Equipped t' where
  runtime p hp := by
    rw [halike.disk]
    exact h.runtime p hp
  precompiled id u p hu hkind := by
    have hunit := halike.resolution.program.map_kept id
    rw [hu, Option.map_some] at hunit
    obtain ⟨v, hv, hkept⟩ := Option.map_eq_some_iff.1 hunit.symm
    rw [halike.disk]
    refine h.precompiled id v p hv ?_
    exact (congrArg BuildUnit.kind hkept).trans hkind

/-- Every source that is compiled, every object and library that is linked, the forward declarations
of which a stand-in is made and the module that is copied in the end are there when a tool or a step
is handed them, in either mode, for any entry points, whatever files were there before, and also if
the build fails. The tools note their requests, without which the build fares alike. -/
theorem inputs_of_build (b : Builder σ) (hgenerator : b.generator = Stub.generate)
    (hreliable : b.toolchain.Reliable) (s : BuildState σ) (hreached : s.resolution.Reached)
    (entries : List Entry)
    (hequipped : ∀ entry t root, b.TakesUp entries s entry t root → b.Equipped t) :
    SameEnd (BuildState.Alike SameButNotes) (b.build entries s) (b.noting.build entries s.noting) ∧
      (∀ note ∈ (final (b.noting.build entries) s.noting).tools.2, note.Supplied) ∧
      ∀ step t u, b.Faces entries s step t → t.resolution.program.units.get? step.unit = some u →
        (step.action = .forwardLink → t.disk.hasPath (b.layout.path .forwardSource u)) ∧
        (step.action = .emit → b.config.mode = .perUnit →
          t.disk.hasPath (b.layout.path .artifact u)) := by
  have hbodies : b.IgnoresBodies := by
    intro r
    rw [hgenerator]
    exact Stub.generate_kept r
  refine ⟨?_, ?_, ?_⟩
  · have hsame : SameButNotes s.tools s.noting.tools := rfl
    exact build_alike b.toolchain.matches_noting hbodies rfl hsame rfl rfl rfl entries
  · have hnoted : ∀ entry t' root, b.noting.TakesUp entries s.noting entry t' root →
        b.noting.Equipped t' := by
      intro entry t' root htakesUp
      obtain ⟨t, htakes, halike⟩ := htakesUp.of_noting hbodies
      exact (hequipped entry t root htakes).noting halike
    obtain ⟨more, hmore, hsupplied⟩ := supplies_build (b := b.noting) b.toolchain.notes_noting
      hreliable.noting hgenerator hreached hnoted
    intro note hnote
    rw [hmore] at hnote
    exact hsupplied note hnote
  · rintro ⟨id, action⟩ t u ⟨entry, s₁, root, before, after, records, htakesUp, hsteps, hrun⟩ hu
    have hprepared := htakesUp.prepared hreliable hreached (hequipped entry s₁ root htakesUp)
    have hstocked := (Stocked.refl b (b.planFor s₁ root) s₁).execute hreliable hgenerator hrun
    rw [List.nil_append] at hstocked
    rw [hstocked.gains.resolution] at hu
    refine ⟨?_, ?_⟩
    · rintro rfl
      exact hprepared.forwardSource hstocked hu hsteps
    · intro hemit hmode
      exact hprepared.artifact hstocked hmode hu hemit hsteps

/-- A builder that makes a module for each unit. -/
def modulesBuilder : Builder Unit :=
  { stubBuilder with config := { stubBuilder.config with mode := .perUnit } }

/-- Tools that make empty files make what they are asked for, and delete nothing. -/
theorem reliable_emptyFiles : emptyFiles.Reliable where
  retains i tools d := (tidy_emptyFiles i tools d).retains
  makes i tools d h := by
    rw [emptyFiles] at h ⊢
    dsimp only at h ⊢
    split at h
    · next disk hwrite => exact (Disk.adds_write hwrite).2
    · cases h

/-- An entry point that is defined is looked for by its definition. -/
theorem sought_of_meaning {definition : Definition} (h : b.meaning s entry = .defined definition) :
    b.sought s entry = some (some definition) := by rw [sought, h]

/-- Whether one module is made or several does not matter for what an entry point stands for. -/
theorem meaning_modules : modulesBuilder.meaning = stubBuilder.meaning := rfl

/-- Whether one module is made or several does not matter for an analysis. -/
theorem analyze_modules : modulesBuilder.analyze = stubBuilder.analyze := rfl

/-- There are no precompiled modules in the project of the pair, and the runtime is there. -/
theorem equipped_pair {entry : Entry} {t : BuildState Unit} {root : Nat}
    (h : modulesBuilder.TakesUp [.located "f" ⟨"."⟩] pairStart entry t root) :
    modulesBuilder.Equipped t := by
  obtain ⟨before, after, results, s₁, definition, hentries, hbefore, hsought, hanalyze⟩ := h
  obtain ⟨rfl, rfl, rfl⟩ : before = [] ∧ entry = .located "f" ⟨"."⟩ ∧ after = [] := by
    cases before with
    | nil => exact ⟨rfl, (List.cons.inj hentries).1.symm, (List.cons.inj hentries).2.symm⟩
    | cons first rest => simpa using congrArg List.length hentries
  rw [List.mapM_nil] at hbefore
  cases hbefore
  have hfound := sought_of_meaning (b := modulesBuilder) (meaning_modules ▸ analysis_pair.meaning)
  have hsame := hfound.symm.trans hsought
  rw [Option.some.injEq] at hsame
  subst hsame
  rw [analyze_modules] at hanalyze
  have hok := analysis_pair.analyze.symm.trans hanalyze
  cases hok
  have hsize := analysis_pair.size
  have hnone : ∀ id < 2, (pairAnalyzed.resolution.program.units.get? id).any
      (fun u => u.kind.treatment == .linkAsIs) = false := by
    rw [analysis_pair.units]
    decide
  refine ⟨fun p hp => absurd hp (by simp [modulesBuilder, stubBuilder, BuildConfig.default]), ?_⟩
  intro id u p hu hkind
  have hlt := Catalog.lt_size_of_get? hu
  have habsent := hnone id (by omega)
  rw [hu, Option.any_some, hkind] at habsent
  cases habsent

/-- The first session of the pair starts from nothing. -/
theorem reached_pairStart : pairStart.resolution.Reached := by
  have hload : Archive.load pairDisk stubBuilder.config.layout.cacheFile = .empty := by
    rw [Archive.load, ← layout, text?_pairDisk]
  have hempty : Archive.empty.toProgram = .empty := by
    rw [Archive.records_empty.toProgram_eq]
    decide +kernel
  rw [pairStart, BuildState.start, hload]
  dsimp only
  rw [hempty]
  exact .start

/-- A pair of scripts that call each other is built into modules, for which stand-ins are made. -/
theorem inputs_of_build_pair : pairStart.resolution.Reached ∧
    ∀ note ∈ (final (modulesBuilder.noting.build [.located "f" ⟨"."⟩]) pairStart.noting).tools.2,
      note.Supplied :=
  ⟨reached_pairStart, (inputs_of_build modulesBuilder rfl reliable_emptyFiles pairStart reached_pairStart
    [.located "f" ⟨"."⟩] fun _ _ _ h => equipped_pair h).2.1⟩

end Builder

end ScriptBuild
