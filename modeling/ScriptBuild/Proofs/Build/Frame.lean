import ScriptBuild.Build.Session
import ScriptBuild.Proofs.Build.Step
import ScriptBuild.Proofs.Disk.Apart

namespace ScriptBuild

variable {σ α β : Type}

/-- Tools that change the text of no file but the one that they are asked for. -/
def Toolchain.Careful (t : Toolchain σ) : Prop :=
  ∀ (i : Invocation) (tools : σ) (d : Disk) (p : FilePath), d.Apart p i.output →
    (t.run i (tools, d)).1.2.text? p = d.text? p

namespace BuildM

variable {R R' : BuildState σ → BuildState σ → Prop} {x : BuildM σ α} {f : α → BuildM σ β}
  {s s' : BuildState σ} {a : α} {fault : Fault}

/-- The state in which a computation ends, also if it fails. -/
def final (x : BuildM σ α) (s : BuildState σ) : BuildState σ :=
  match x s with
  | .ok _ s' | .error _ s' => s'

/-- Whether a computation does not fail. -/
def succeeds (x : BuildM σ α) (s : BuildState σ) : Bool :=
  match x s with
  | .ok _ _ => true
  | .error _ _ => false

/-- A computation that does not fail ends with a result. -/
theorem exists_ok_of_succeeds (h : succeeds x s) : ∃ a s', x s = .ok a s' := by
  unfold succeeds at h
  split at h
  · next a s' hrun => exact ⟨a, s', hrun⟩
  · cases h

/-- A computation that fails ends with a fault, in the state in which it stopped. -/
theorem exists_error_of_fails (h : succeeds x s = false) : ∃ fault, x s = .error fault (final x s) := by
  unfold succeeds at h
  unfold final
  split at h
  · cases h
  · next fault s' hrun => exact ⟨fault, by rw [hrun]⟩

/-- A computation ends in a state that is related to the one in which it started. -/
def Frames (R : BuildState σ → BuildState σ → Prop) (x : BuildM σ α) : Prop := ∀ s, R s (final x s)

/-- A computation that frames a relation and succeeds ends in a related state. -/
theorem Frames.ok (h : Frames R x) (hrun : x s = .ok a s') : R s s' := by
  have hs := h s
  rwa [final, hrun] at hs

/-- A computation that frames a relation and fails ends in a related state as well. -/
theorem Frames.error (h : Frames R x) (hrun : x s = .error fault s') : R s s' := by
  have hs := h s
  rwa [final, hrun] at hs

theorem Frames.mono (h : Frames R x) (hmono : ∀ s s', R s s' → R' s s') : Frames R' x :=
  fun s => hmono s _ (h s)

/-- A computation that does nothing frames every reflexive relation. -/
theorem Frames.pure (hrefl : ∀ s, R s s) (a : α) : Frames R (Pure.pure a : BuildM σ α) := hrefl

/-- Two parts that follow each other end in a related state, from one state on, if the relation is
transitive. -/
theorem final_bind (htrans : ∀ s₁ s₂ s₃, R s₁ s₂ → R s₂ s₃ → R s₁ s₃) (hx : R s (final x s))
    (hf : ∀ a, Frames R (f a)) : R s (final (x >>= f) s) := by
  have hbind : (x >>= f) s = EStateM.bind x f s := rfl
  rw [final, hbind, EStateM.bind]
  rw [final] at hx
  cases hrun : x s with
  | ok a s' =>
    rw [hrun] at hx
    exact htrans s s' _ hx (hf a s')
  | error fault s' =>
    rw [hrun] at hx
    exact hx

/-- Two parts that follow each other frame what each of them frames, if the relation is
transitive. -/
theorem Frames.bind (htrans : ∀ s₁ s₂ s₃, R s₁ s₂ → R s₂ s₃ → R s₁ s₃) (hx : Frames R x)
    (hf : ∀ a, Frames R (f a)) : Frames R (x >>= f) := fun s => final_bind htrans (hx s) hf

/-- What changes nothing may follow without changing where a computation ends. -/
theorem final_bind_eq (hf : ∀ a s, final (f a) s = s) : final (x >>= f) s = final x s := by
  have hbind : (x >>= f) s = EStateM.bind x f s := rfl
  rw [final, hbind, EStateM.bind, final]
  cases x s with
  | ok a s' => exact hf a s'
  | error fault s' => rfl

/-- A computation that looks at the state first. -/
theorem Frames.get {f : BuildState σ → BuildM σ α} (hf : ∀ s, R s (final (f s) s)) :
    Frames R ((MonadState.get : BuildM σ (BuildState σ)) >>= f) := hf

end BuildM

/-- Part of a build leaves alone the program, the rows of the archive, and the text at a path. -/
structure BuildState.Leaves (p : FilePath) (s s' : BuildState σ) : Prop where
  resolution : s'.resolution = s.resolution
  units : s'.archive.units = s.archive.units
  version : s'.archive.version = s.archive.version
  text : s'.disk.text? p = s.disk.text? p

namespace BuildState.Leaves

variable {p : FilePath} {s s₁ s' : BuildState σ}

theorem refl (p : FilePath) (s : BuildState σ) : s.Leaves p s := ⟨rfl, rfl, rfl, rfl⟩

theorem trans (h : s.Leaves p s₁) (h' : s₁.Leaves p s') : s.Leaves p s' :=
  ⟨h'.resolution.trans h.resolution, h'.units.trans h.units, h'.version.trans h.version,
    h'.text.trans h.text⟩

end BuildState.Leaves

/-- The files that an action makes for its unit. -/
def Action.roles : Action → List FileRole
  | .generate => [.header, .source, .forwardSource]
  | .compile => [.object]
  | .forwardLink => [.forwardObject, .standIn]
  | .link | .relink => [.artifact]
  | .emit => []

namespace Builder

open BuildM

variable {b : Builder σ} {entry : String} {plan : Plan} {generated : NodeSet} {step : Step}
  {u : BuildUnit} {id : Nat} {p q source : FilePath} {text : String} {i : Invocation} {l : Linkage}
  {steps : List Step}

/-- What a step for a unit makes has a property. -/
structure Makes (b : Builder σ) (entry : String) (action : Action) (u : BuildUnit)
    (P : FilePath → Prop) : Prop where
  parts : ∀ role ∈ action.roles, P (b.layout.path role u)
  output : action = .emit → P (b.config.outputPath entry)

/-- A relation between states is kept by all that makes nothing but files with a property. -/
structure Respects (b : Builder σ) (R : BuildState σ → BuildState σ → Prop)
    (P : FilePath → Prop) : Prop where
  refl : ∀ s, R s s
  trans : ∀ s₁ s₂ s₃, R s₁ s₂ → R s₂ s₃ → R s₁ s₃
  run : ∀ i : Invocation, P i.output → Frames R (b.run i)
  write : ∀ p text, P p → Frames R (b.writeFile p text)
  copy : ∀ source p, P p → Frames R (b.copyFile source p)
  register : ∀ s name overload symbols,
    R s { s with archive := s.archive.updateRegistry name overload symbols }

/-- An analysis changes the resolution only, whether it succeeds or fails. -/
theorem final_analyze (name : String) (definition : Option Definition) (s : BuildState σ) :
    final (b.analyze name definition) s =
      { s with resolution := (s.resolution.analyze (b.world s.disk) name definition).1 } := by
  unfold final Builder.analyze
  generalize s.resolution.analyze (b.world s.disk) name definition = k
  obtain ⟨r, result⟩ := k
  cases result <;> rfl

section

variable {R : BuildState σ → BuildState σ → Prop} {P : FilePath → Prop}

/-- Generating the code of a unit keeps what is kept by all that makes such files. -/
theorem generate_frames (hR : b.Respects R P) (h : b.Makes entry .generate u P) :
    Frames R (b.generate plan id u) := by
  refine .get fun s => ?_
  dsimp only
  split
  · exact hR.refl s
  · next code _ =>
    have hpath {role : FileRole} (hrole : role ∈ Action.generate.roles) (text : String) :
        Frames R (b.writeFile (b.layout.path role u) text) := hR.write _ _ (h.parts role hrole)
    refine Frames.bind hR.trans (hpath (by simp [Action.roles]) _) (fun _ => ?_) s
    refine Frames.bind hR.trans (hpath (by simp [Action.roles]) _) fun _ => ?_
    split
    · exact hpath (by simp [Action.roles]) _
    · exact .pure hR.refl ()

/-- So does compiling the code of a unit. -/
theorem compile_frames (hR : b.Respects R P) (h : b.Makes entry .compile u P) :
    Frames R (b.compile u) := by
  refine hR.run _ ?_
  rw [Invocation.output]
  exact h.parts .object (by simp [Action.roles])

/-- So does making a stand-in. -/
theorem forwardLink_frames (hR : b.Respects R P) (h : b.Makes entry .forwardLink u P) :
    Frames R (b.forwardLink u) := by
  refine .get fun s => ?_
  split
  · refine Frames.bind hR.trans (hR.run _ ?_) (fun _ => hR.run _ ?_) s
    · rw [Invocation.output]
      exact h.parts .forwardObject (by simp [Action.roles])
    · rw [output_standInLinkage]
      exact h.parts .standIn (by simp [Action.roles])
  · exact hR.refl s

/-- So does linking a module, which also registers what the unit exports. -/
theorem linkNow_frames (hR : b.Respects R P) (h : P l.output) : Frames R (b.linkNow u l) :=
  .bind hR.trans (hR.run _ h) fun _ s => hR.register s _ _ _

/-- So does linking a module unless it is up to date. -/
theorem link_frames (hR : b.Respects R P) (h : P (b.layout.path .artifact u)) :
    Frames R (b.link plan generated id u) := by
  refine .get fun s => ?_
  dsimp only
  split
  · exact hR.refl s
  · refine Frames.bind hR.trans (linkNow_frames hR ?_) (fun _ => .pure hR.refl _) s
    rwa [output_unitLinkage]

/-- So does linking a module again. -/
theorem relink_frames (hR : b.Respects R P) (h : P (b.layout.path .artifact u)) :
    Frames R (b.relink plan id u) := by
  refine .get fun s => linkNow_frames hR ?_ s
  rwa [output_unitLinkage]

/-- So does making the module of an entry point. -/
theorem emit_frames (hR : b.Respects R P) (h : b.Makes entry .emit u P) :
    Frames R (b.emit entry plan generated u) := by
  have houtput := h.output rfl
  unfold emit
  split
  · exact .bind hR.trans (hR.copy _ _ houtput) fun _ => .pure hR.refl _
  · refine .get fun s => ?_
    dsimp only
    split
    · exact hR.refl s
    · refine Frames.bind hR.trans (hR.run _ ?_) (fun _ => .pure hR.refl _) s
      rwa [output_entryLinkage]

/-- A step keeps what is kept by all that makes nothing but such files as it makes. -/
theorem take_frames (hR : b.Respects R P) (h : b.Makes entry step.action u P) :
    Frames R (b.take entry plan generated step u) := by
  unfold take
  cases haction : step.action <;> rw [haction] at h
  case generate => exact .bind hR.trans (generate_frames hR h) fun _ => .pure hR.refl _
  case compile => exact .bind hR.trans (compile_frames hR h) fun _ => .pure hR.refl _
  case forwardLink => exact .bind hR.trans (forwardLink_frames hR h) fun _ => .pure hR.refl _
  case link => exact link_frames hR (h.parts .artifact (by simp [Action.roles]))
  case relink =>
    have hartifact := h.parts .artifact (by simp [Action.roles])
    exact .bind hR.trans (relink_frames hR hartifact) fun _ => .pure hR.refl _
  case emit => exact emit_frames hR h

/-- Steps that are taken one after the other keep what each of them keeps. -/
theorem execute_frames_of (hrefl : ∀ s, R s s) (htrans : ∀ s₁ s₂ s₃, R s₁ s₂ → R s₂ s₃ → R s₁ s₃)
    (htake : ∀ step ∈ steps, ∀ generated s u,
      s.resolution.program.units.get? step.unit = some u →
        R s (final (b.take entry plan generated step u) s)) :
    Frames R (b.execute entry plan generated steps) := by
  induction steps generalizing generated with
  | nil => exact .pure hrefl []
  | cons step steps ih =>
    have hrest (generated : NodeSet) : Frames R (b.execute entry plan generated steps) :=
      ih fun x hx => htake x (List.mem_cons_of_mem _ hx)
    refine .get fun s => ?_
    split
    · exact hrest _ s
    · next u hu =>
      refine final_bind htrans (htake step List.mem_cons_self generated s u hu) fun _ => ?_
      exact .bind htrans (hrest _) fun _ => .pure hrefl _

/-- Steps keep what is kept by all that makes such files as they make for any unit. -/
theorem execute_frames (hR : b.Respects R P)
    (h : ∀ step ∈ steps, ∀ u, b.Makes entry step.action u P) :
    Frames R (b.execute entry plan generated steps) :=
  execute_frames_of hR.refl hR.trans fun step hmem _ s u _ => take_frames hR (h step hmem u) s

end

/-- A computation leaves alone the program, the rows of the archive and the text at a path. -/
abbrev Spares (p : FilePath) (x : BuildM σ α) : Prop := BuildM.Frames (BuildState.Leaves p) x

/-- A path that a step for a unit makes nothing at. -/
abbrev Avoids (b : Builder σ) (entry : String) (action : Action) (u : BuildUnit) (p : FilePath) :
    Prop := b.Makes entry action u p.Apart

/-- Careful tools leave alone the text of all files but the one that they are asked for. -/
theorem run_spares (hcareful : b.toolchain.Careful) (hapart : p.Apart i.output) :
    Spares p (b.run i) := by
  intro s
  have htext := hcareful i s.tools s.disk p (hapart s.disk)
  unfold final run
  generalize b.toolchain.run i (s.tools, s.disk) = k at htext ⊢
  obtain ⟨⟨tools, disk⟩, result⟩ := k
  cases result with
  | ok _ => exact ⟨rfl, rfl, rfl, htext⟩
  | error _ => exact ⟨rfl, rfl, rfl, htext⟩

/-- Writing a file leaves alone the text at all other paths. -/
theorem writeFile_spares (hapart : p.Apart q) : Spares p (b.writeFile q text) := by
  intro s
  simp only [final, writeFile]
  cases hwrite : s.disk.write q (.text text) b.now with
  | ok disk => exact ⟨rfl, rfl, rfl, Disk.text?_write_of_apart hwrite (hapart s.disk)⟩
  | error _ => exact .refl p s

/-- Copying a file leaves alone the text at all paths but its target. -/
theorem copyFile_spares (hapart : p.Apart q) : Spares p (b.copyFile source q) := by
  intro s
  simp only [final, copyFile]
  cases hcopy : s.disk.copy source q b.now with
  | ok disk => exact ⟨rfl, rfl, rfl, Disk.text?_copy_of_apart hcopy (hapart s.disk)⟩
  | error _ => exact .refl p s

/-- With careful tools, all that makes nothing at a path leaves its text alone. -/
theorem respects_leaves (hcareful : b.toolchain.Careful) (p : FilePath) :
    b.Respects (BuildState.Leaves p) p.Apart where
  refl := .refl p
  trans _ _ _ := .trans
  run _ hapart := run_spares hcareful hapart
  write _ _ hapart := writeFile_spares hapart
  copy _ _ hapart := copyFile_spares hapart
  register _ _ _ _ := ⟨rfl, rfl, rfl, rfl⟩

/-- A step leaves alone what it makes nothing at. -/
theorem take_spares (hcareful : b.toolchain.Careful) (h : b.Avoids entry step.action u p) :
    Spares p (b.take entry plan generated step u) := take_frames (respects_leaves hcareful p) h

/-- Steps leave alone what none of them makes anything at. -/
theorem execute_spares (hcareful : b.toolchain.Careful)
    (h : ∀ step ∈ steps, ∀ u, b.Avoids entry step.action u p) :
    Spares p (b.execute entry plan generated steps) := execute_frames (respects_leaves hcareful p) h

end Builder

end ScriptBuild
