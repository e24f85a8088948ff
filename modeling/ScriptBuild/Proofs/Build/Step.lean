import ScriptBuild.Build.Step
import ScriptBuild.Proofs.Disk

namespace ScriptBuild

variable {σ α β : Type}

/-- A copy adds its target, and keeps the rest. -/
theorem Disk.adds_copy {d d' : Disk} {source goal : FilePath} {now : Int}
    (h : d.copy source goal now = .ok d') : d.Adds (· = goal) d' := by
  unfold Disk.copy at h
  obtain ⟨⟨spot, node⟩, _, h⟩ := bind_eq_ok.1 h
  cases node with
  | directory changed => cases h
  | file content changed => exact (adds_write h).1

/-- Tools that keep what is on the disk, and make nothing but the file that they are asked for. -/
def Toolchain.Tidy (t : Toolchain σ) : Prop :=
  ∀ (i : Invocation) (tools : σ) (d : Disk), d.Adds (· = i.output) (t.run i (tools, d)).1.2

/-- Two parts succeed if the first one does, and the second one from where the first one ends. -/
theorem BuildM.bind_eq_ok {x : BuildM σ α} {f : α → BuildM σ β} {s s' : BuildState σ} {b : β} :
    (x >>= f) s = .ok b s' ↔ ∃ a s₁, x s = .ok a s₁ ∧ f a s₁ = .ok b s' := by
  change EStateM.bind x f s = _ ↔ _
  unfold EStateM.bind
  cases x s with
  | ok a s₁ => simp
  | error fault s₁ => simp

/-- A computation that succeeds hands its result to the next one. -/
theorem BuildM.bind_of_ok {x : BuildM σ α} {f : α → BuildM σ β} {s s' : BuildState σ} {a : α}
    (h : x s = .ok a s') : (x >>= f) s = f a s' := by
  change EStateM.bind x f s = _
  rw [EStateM.bind, h]

/-- Two parts fail if the first one does, or the second one from where the first one ends. -/
theorem BuildM.bind_eq_error {x : BuildM σ α} {f : α → BuildM σ β} {s s' : BuildState σ}
    {fault : Fault} : (x >>= f) s = .error fault s' ↔
      x s = .error fault s' ∨ ∃ a s₁, x s = .ok a s₁ ∧ f a s₁ = .error fault s' := by
  change EStateM.bind x f s = _ ↔ _
  unfold EStateM.bind
  cases x s with
  | ok a s₁ => simp
  | error fault s₁ => simp

theorem BuildM.get_bind {f : BuildState σ → BuildM σ α} {s : BuildState σ} :
    ((get : BuildM σ (BuildState σ)) >>= f) s = f s s := rfl

/-- Part of a build leaves the program as it is, and makes only files at some paths. -/
structure BuildState.Makes (made : FilePath → Prop) (s s' : BuildState σ) : Prop where
  resolution : s'.resolution = s.resolution
  disk : s.disk.Adds made s'.disk

namespace BuildState.Makes

variable {made made' : FilePath → Prop} {s s₁ s' : BuildState σ}

theorem refl (made : FilePath → Prop) (s : BuildState σ) : s.Makes made s := ⟨rfl, .refl _ _⟩

theorem trans (h : s.Makes made s₁) (h' : s₁.Makes made s') : s.Makes made s' :=
  ⟨h'.resolution.trans h.resolution, h.disk.trans h'.disk⟩

/-- A part that makes some files makes no others than a larger choice of paths allows. -/
theorem mono (h : s.Makes made s') (hmade : ∀ p, made p → made' p) : s.Makes made' s' :=
  ⟨h.resolution, h.disk.mono hmade⟩

end BuildState.Makes

namespace Builder

variable {b : Builder σ} {s s' : BuildState σ} {entry : String} {plan : Plan} {generated : NodeSet}
  {step : Step} {u : BuildUnit} {id : Nat} {performed : Bool} {done : Unit} {p q : FilePath}
  {text : String} {i : Invocation} {l : Linkage} {records : List StepRecord} {steps : List Step}

/-- The paths at which a step for a unit may make a file: its own files, the header only by
generating code, and the final module by making that. -/
def Product (b : Builder σ) (entry : String) (step : Step) (u : BuildUnit) (p : FilePath) : Prop :=
  (∃ role, p = b.layout.path role u ∧ (role = .header → step.action = .generate)) ∨
    (step.action = .emit ∧ p = b.config.outputPath entry)

theorem output_standInLinkage :
    (b.config.standInLinkage u).invocation.output = b.layout.path .standIn u := by
  simp only [BuildConfig.standInLinkage, Linkage.invocation, Invocation.output, Builder.layout]

theorem output_unitLinkage {units : Catalog} {forward : Bool} :
    (b.config.unitLinkage units plan id u forward).output = b.layout.path .artifact u := by
  simp only [BuildConfig.unitLinkage, Builder.layout]

theorem output_entryLinkage {units : Catalog} :
    (b.config.entryLinkage units plan entry).invocation.output = b.config.outputPath entry := by
  simp only [BuildConfig.entryLinkage, Linkage.invocation, Invocation.output]

/-- A run of tidy tools makes what they are asked for. -/
theorem run_makes (htidy : b.toolchain.Tidy) (h : b.run i s = .ok done s') :
    s.Makes (· = i.output) s' := by
  have hadds := htidy i s.tools s.disk
  unfold run at h
  generalize b.toolchain.run i (s.tools, s.disk) = k at h hadds
  obtain ⟨⟨tools, disk⟩, result⟩ := k
  cases result with
  | error fault => cases h
  | ok _ =>
    cases h
    exact ⟨rfl, hadds⟩

theorem writeFile_makes (h : b.writeFile p text s = .ok done s') :
    s.Makes (· = p) s' ∧ s'.disk.hasPath p := by
  unfold writeFile at h
  split at h
  · next disk hwrite =>
    cases h
    obtain ⟨hadds, hnew⟩ := Disk.adds_write hwrite
    exact ⟨⟨rfl, hadds⟩, hnew⟩
  · cases h

theorem copyFile_makes (h : b.copyFile p q s = .ok done s') : s.Makes (· = q) s' := by
  unfold copyFile at h
  split at h
  · next disk hcopy =>
    cases h
    exact ⟨rfl, Disk.adds_copy hcopy⟩
  · cases h

theorem linkNow_makes (htidy : b.toolchain.Tidy) (h : b.linkNow u l s = .ok done s') :
    s.Makes (· = l.output) s' := by
  obtain ⟨_, s₁, hrun, h⟩ := BuildM.bind_eq_ok.1 h
  cases h
  exact (run_makes htidy hrun).trans ⟨rfl, .refl _ _⟩

/-- Generating the code of a unit makes files of that unit, the header among them. -/
theorem generate_makes (h : b.generate plan id u s = .ok done s') :
    s.Makes (fun p => ∃ role, p = b.layout.path role u) s' ∧
      s'.disk.hasPath (b.layout.path .header u) := by
  rw [generate, BuildM.get_bind] at h
  cases hcode : b.generator (s.resolution.program.stubRequest id u (plan.isCyclic id)) with
  | error fault =>
    rw [hcode] at h
    cases h
  | ok code =>
    rw [hcode] at h
    obtain ⟨_, s₁, hheader, h⟩ := BuildM.bind_eq_ok.1 h
    obtain ⟨_, s₂, hsource, h⟩ := BuildM.bind_eq_ok.1 h
    obtain ⟨hmakes, hnew⟩ := writeFile_makes hheader
    have hmakes' := (writeFile_makes hsource).1
    have hrest : s₂.Makes (fun p => ∃ role, p = b.layout.path role u) s' := by
      cases hforward : code.forward with
      | some text =>
        rw [hforward] at h
        exact (writeFile_makes h).1.mono fun _ heq => ⟨_, heq⟩
      | none =>
        rw [hforward] at h
        cases h
        exact .refl _ _
    have hafter := (hmakes'.mono fun _ heq => ⟨_, heq⟩).trans hrest
    exact ⟨(hmakes.mono fun _ heq => ⟨_, heq⟩).trans hafter, hafter.disk.hasPath hnew⟩

theorem compile_makes (htidy : b.toolchain.Tidy) (h : b.compile u s = .ok done s') :
    s.Makes (· = b.layout.path .object u) s' := by
  have hmakes := run_makes htidy h
  rwa [Invocation.output] at hmakes

/-- Making a stand-in makes files of its unit, but not the header. -/
theorem forwardLink_makes (htidy : b.toolchain.Tidy) (h : b.forwardLink u s = .ok done s') :
    s.Makes (fun p => ∃ role, role ≠ .header ∧ p = b.layout.path role u) s' := by
  rw [forwardLink, BuildM.get_bind] at h
  split at h
  · obtain ⟨_, s₁, hcompile, h⟩ := BuildM.bind_eq_ok.1 h
    have hobject := run_makes htidy hcompile
    have hlink := run_makes htidy h
    rw [Invocation.output] at hobject
    rw [output_standInLinkage] at hlink
    exact (hobject.mono fun p heq => ⟨.forwardObject, by simp, heq⟩).trans
      (hlink.mono fun p heq => ⟨.standIn, by simp, heq⟩)
  · cases h

/-- Linking a module unless it is up to date makes the module or nothing. -/
theorem link_makes (htidy : b.toolchain.Tidy) (h : b.link plan generated id u s = .ok performed s') :
    s.Makes (· = b.layout.path .artifact u) s' := by
  rw [link, BuildM.get_bind] at h
  split at h
  · cases h
    exact .refl _ _
  · obtain ⟨_, s₁, hlink, h⟩ := BuildM.bind_eq_ok.1 h
    cases h
    have hmakes := linkNow_makes htidy hlink
    rwa [output_unitLinkage] at hmakes

theorem relink_makes (htidy : b.toolchain.Tidy) (h : b.relink plan id u s = .ok done s') :
    s.Makes (· = b.layout.path .artifact u) s' := by
  rw [relink, BuildM.get_bind] at h
  have hmakes := linkNow_makes htidy h
  rwa [output_unitLinkage] at hmakes

/-- Making the module of an entry point makes that or nothing. -/
theorem emit_makes (htidy : b.toolchain.Tidy) (h : b.emit entry plan generated u s = .ok performed s') :
    s.Makes (· = b.config.outputPath entry) s' := by
  rw [emit] at h
  cases hmode : b.config.mode with
  | perUnit =>
    rw [hmode] at h
    obtain ⟨_, s₁, hcopy, h⟩ := BuildM.bind_eq_ok.1 h
    cases h
    exact copyFile_makes hcopy
  | single =>
    rw [hmode] at h
    dsimp only at h
    rw [BuildM.get_bind] at h
    split at h
    · cases h
      exact .refl _ _
    · obtain ⟨_, s₁, hrun, h⟩ := BuildM.bind_eq_ok.1 h
      cases h
      have hmakes := run_makes htidy hrun
      rwa [output_entryLinkage] at hmakes

/-- A step makes products of its own only, and the header if it generates code. -/
theorem take_makes (htidy : b.toolchain.Tidy)
    (h : b.take entry plan generated step u s = .ok performed s') :
    s.Makes (b.Product entry step u) s' ∧
      (step.action = .generate → s'.disk.hasPath (b.layout.path .header u)) := by
  have hown {role : FileRole} (hrole : role = .header → step.action = .generate) :
      ∀ p, p = b.layout.path role u → b.Product entry step u p :=
    fun p heq => .inl ⟨role, heq, hrole⟩
  unfold take at h
  cases haction : step.action <;> simp only [haction] at h
  case generate =>
    obtain ⟨_, s₁, hgenerate, h⟩ := BuildM.bind_eq_ok.1 h
    cases h
    obtain ⟨hmakes, hnew⟩ := generate_makes hgenerate
    exact ⟨hmakes.mono fun p ⟨role, heq⟩ => hown (fun _ => haction) p heq, fun _ => hnew⟩
  case compile =>
    obtain ⟨_, s₁, hcompile, h⟩ := BuildM.bind_eq_ok.1 h
    cases h
    exact ⟨(compile_makes htidy hcompile).mono (hown (by simp)), by simp⟩
  case forwardLink =>
    obtain ⟨_, s₁, hlink, h⟩ := BuildM.bind_eq_ok.1 h
    cases h
    refine ⟨(forwardLink_makes htidy hlink).mono ?_, by simp⟩
    exact fun p ⟨role, hrole, heq⟩ => hown (fun h => absurd h hrole) p heq
  case link => exact ⟨(link_makes htidy h).mono (hown (by simp)), by simp⟩
  case relink =>
    obtain ⟨_, s₁, hlink, h⟩ := BuildM.bind_eq_ok.1 h
    cases h
    exact ⟨(relink_makes htidy hlink).mono (hown (by simp)), by simp⟩
  case emit => exact ⟨(emit_makes htidy h).mono fun p heq => .inr ⟨haction, heq⟩, by simp⟩

/-- The paths at which some steps may make files. -/
def Products (b : Builder σ) (units : Catalog) (entry : String) (steps : List Step) (p : FilePath) :
    Prop :=
  ∃ step ∈ steps, ∃ u, units.get? step.unit = some u ∧ b.Product entry step u p

/-- Steps that are all taken leave the program as it is, make only files of their units and the final
module, and have made the headers of the units for which they generate code. -/
theorem execute_makes (htidy : b.toolchain.Tidy)
    (h : b.execute entry plan generated steps s = .ok records s') :
    s.Makes (b.Products s.resolution.program.units entry steps) s' ∧
      ∀ step ∈ steps, step.action = .generate → ∀ u,
        s.resolution.program.units.get? step.unit = some u →
          s'.disk.hasPath (b.layout.path .header u) := by
  induction steps generalizing s generated records with
  | nil =>
    cases h
    exact ⟨.refl _ _, fun _ hmem => absurd hmem List.not_mem_nil⟩
  | cons step steps ih =>
    have hcons (p : FilePath) (hp : b.Products s.resolution.program.units entry steps p) :
        b.Products s.resolution.program.units entry (step :: steps) p := by
      obtain ⟨x, hx, hrest⟩ := hp
      exact ⟨x, List.mem_cons_of_mem _ hx, hrest⟩
    rw [execute, BuildM.get_bind] at h
    cases hunit : s.resolution.program.units.get? step.unit with
    | none =>
      rw [hunit] at h
      obtain ⟨hmakes, hheaders⟩ := ih h
      refine ⟨hmakes.mono hcons, fun x hx haction u hu => ?_⟩
      rcases List.mem_cons.1 hx with rfl | hx
      · rw [hunit] at hu
        cases hu
      · exact hheaders x hx haction u hu
    | some u =>
      rw [hunit] at h
      obtain ⟨performed, s₁, htake, h⟩ := BuildM.bind_eq_ok.1 h
      obtain ⟨later, s₂, hrest, h⟩ := BuildM.bind_eq_ok.1 h
      cases h
      obtain ⟨hmakes, hheader⟩ := take_makes htidy htake
      obtain ⟨hmakes', hheaders⟩ := ih hrest
      rw [hmakes.resolution] at hmakes' hheaders
      refine ⟨(hmakes.mono fun p hp => ⟨step, List.mem_cons_self, u, hunit, hp⟩).trans
        (hmakes'.mono hcons), fun x hx haction v hv => ?_⟩
      rcases List.mem_cons.1 hx with rfl | hx
      · obtain rfl := Option.some.inj (hunit.symm.trans hv)
        exact hmakes'.disk.hasPath (hheader haction)
      · exact hheaders x hx haction v hv

end Builder

end ScriptBuild
