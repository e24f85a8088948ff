import ScriptBuild.Proofs.Build.GeneratedFiles

namespace ScriptBuild

variable {σ : Type}

/-- A request to the tools, with the disk that they found and whether they did what was asked. -/
structure Note where
  request : Invocation
  disk : Disk
  done : Bool

/-- The tools note every request. -/
def Toolchain.Notes (t : Toolchain σ) (notes : σ → List Note) : Prop :=
  ∀ i tools d, notes (t.run i (tools, d)).1.1 = notes tools ++ [⟨i, d, (t.run i (tools, d)).2.isOk⟩]

/-- Tools that do the same and note every request as well. -/
def Toolchain.noting (t : Toolchain σ) : Toolchain (σ × List Note) where
  run i state :=
    let done := t.run i (state.1.1, state.2)
    (((done.1.1, state.1.2 ++ [⟨i, state.2, done.2.isOk⟩]), done.1.2), done.2)

theorem Toolchain.notes_noting (t : Toolchain σ) : t.noting.Notes Prod.snd := fun _ _ _ => rfl

/-- Notes have nothing to do with which files are touched. -/
theorem Toolchain.Careful.noting {t : Toolchain σ} (h : t.Careful) : t.noting.Careful :=
  fun i tools => h i tools.1

section

variable {notes more : List Note} {note : Note} {p : FilePath}

/-- The last request for a file. -/
def LastMade (notes : List Note) (p : FilePath) (note : Note) : Prop :=
  ∃ before after, notes = before ++ note :: after ∧ note.request.output = p ∧
    ∀ x ∈ after, x.request.output ≠ p

/-- The last request for a file is still the last one after requests for others. -/
theorem LastMade.append (h : LastMade notes p note) (hmore : ∀ x ∈ more, x.request.output ≠ p) :
    LastMade (notes ++ more) p note := by
  obtain ⟨before, after, rfl, hmade, hafter⟩ := h
  refine ⟨before, after ++ more, by simp, hmade, fun x hx => ?_⟩
  exact (List.mem_append.1 hx).elim (hafter x) (hmore x)

/-- The request at the end is the last one for its file. -/
theorem lastMade_last (h : note.request.output = p) : LastMade (notes ++ [note]) p note :=
  ⟨notes, [], rfl, h, fun _ hx => absurd hx List.not_mem_nil⟩

variable {l : Layout} {d d' : Disk} {u v : BuildUnit}

/-- The object of a unit was last made from its source as it is on a disk. -/
def Compiled (l : Layout) (notes : List Note) (d : Disk) (u : BuildUnit) : Prop :=
  ∃ note includes, LastMade notes (l.path .object u) note ∧ note.done ∧
    note.request = .compile (l.path .source u) (l.path .object u) includes ∧
    note.disk.text? (l.path .source u) = d.text? (l.path .source u)

/-- It does not matter where the body of the unit is. -/
theorem Compiled.of_kept (h : Compiled l notes d u) (hkept : v.kept = u.kept) :
    Compiled l notes d v := by
  rw [Compiled, l.path_of_kept _ hkept, l.path_of_kept _ hkept]
  exact h

/-- An object is as new as its source where the source stays the same. -/
theorem Compiled.sameCode (h : Compiled l notes d u) (hsame : l.SameCode d d' u) :
    Compiled l notes d' u := by
  obtain ⟨note, includes, hlast, hdone, hrequest, htext⟩ := h
  exact ⟨note, includes, hlast, hdone, hrequest, htext.trans hsame.source.symm⟩

theorem Compiled.append (h : Compiled l notes d u)
    (hmore : ∀ x ∈ more, x.request.output ≠ l.path .object u) : Compiled l (notes ++ more) d u := by
  obtain ⟨note, includes, hlast, hrest⟩ := h
  exact ⟨note, includes, hlast.append hmore, hrest⟩

end

/-- After the code of a unit is generated, the unit is compiled. -/
def Finishes (id : Nat) : List Step → Prop
  | [] => True
  | step :: steps => (step = ⟨id, .generate⟩ → ⟨id, .compile⟩ ∈ steps) ∧ Finishes id steps

section

variable {c : Planning} {g : Digraph} {root id : Nat} {xs ys : List Step}

theorem Finishes.append (hxs : Finishes id xs) (hys : Finishes id ys) : Finishes id (xs ++ ys) := by
  induction xs with
  | nil => exact hys
  | cons x xs ih => exact ⟨fun heq => List.mem_append_left _ (hxs.1 heq), ih hxs.2⟩

/-- Lists that compile what they generate do so one after the other. -/
theorem finishes_flatMap {α : Type} {f : α → List Step} {as : List α}
    (h : ∀ a ∈ as, Finishes id (f a)) : Finishes id (as.flatMap f) := by
  induction as with
  | nil => trivial
  | cons a as ih =>
    rw [List.flatMap_cons]
    exact (h a List.mem_cons_self).append (ih fun x hx => h x (List.mem_cons_of_mem _ hx))

/-- Where no code is generated, nothing has to be compiled. -/
theorem finishes_of_not_mem (h : ⟨id, .generate⟩ ∉ xs) : Finishes id xs := by
  induction xs with
  | nil => trivial
  | cons x xs ih =>
    rw [List.mem_cons, not_or] at h
    exact ⟨fun heq => absurd heq.symm h.1, ih h.2⟩

/-- A unit whose code is generated is compiled. -/
theorem Finishes.mem (h : Finishes id xs) (hmem : ⟨id, .generate⟩ ∈ xs) : ⟨id, .compile⟩ ∈ xs := by
  induction xs with
  | nil => exact absurd hmem List.not_mem_nil
  | cons x xs ih =>
    rcases List.mem_cons.1 hmem with heq | hmem
    · exact List.mem_cons_of_mem _ (h.1 heq.symm)
    · exact List.mem_cons_of_mem _ (ih h.2 hmem)

namespace Planning

/-- The steps up to the object of a unit compile what they generate. -/
theorem finishes_objectSteps (forwardDeclared : Bool) (other : Nat) :
    Finishes id (c.objectSteps forwardDeclared other) := by
  rw [objectSteps_eq]
  split
  · split
    · refine ⟨fun heq => ?_, fun heq => ?_, trivial⟩
      · cases heq
        exact List.mem_cons_self
      · cases heq
    · exact finishes_of_not_mem (by split <;> simp)
  · trivial

/-- So do the steps of a place in the order. -/
theorem finishes_nodeSteps (node : PlanNode) : Finishes id (c.nodeSteps node) := by
  cases node with
  | unit other =>
    refine (finishes_objectSteps false other).append (finishes_of_not_mem fun hmem => ?_)
    split at hmem
    · cases List.mem_singleton.1 hmem
    · cases hmem
  | cycle key members =>
    obtain ⟨links, hsteps, hlinks⟩ := cycleSteps_eq c members
    rw [nodeSteps, hsteps]
    refine (finishes_flatMap fun other _ => finishes_objectSteps _ other).append
      (finishes_of_not_mem fun hmem => ?_)
    exact (hlinks _ hmem).2.2.2.1 rfl

theorem finishes_plan : Finishes id (c.plan g root).steps := by
  rw [steps_plan]
  refine (finishes_flatMap fun node _ => finishes_nodeSteps node).append
    (finishes_of_not_mem fun hmem => ?_)
  split at hmem
  · cases List.mem_singleton.1 hmem
  · cases hmem

end Planning

end

namespace Builder

variable {b : Builder σ} {notes : σ → List Note} {s s' : BuildState σ} {p : FilePath} {u v : BuildUnit}
  {id : Nat} {entry : String} {plan : Plan} {generated : NodeSet} {step : Step} {steps : List Step}
  {performed : Bool} {records : List StepRecord}

/-- The tools were not asked for a file. -/
def Unasked (notes : σ → List Note) (p : FilePath) (s s' : BuildState σ) : Prop :=
  ∃ more, notes s'.tools = notes s.tools ++ more ∧ ∀ x ∈ more, x.request.output ≠ p

theorem Unasked.refl (p : FilePath) (s : BuildState σ) : Unasked notes p s s :=
  ⟨[], (List.append_nil _).symm, fun _ hx => absurd hx List.not_mem_nil⟩

/-- What makes nothing at a path does not ask the tools for it. -/
theorem respects_unasked (hnotes : b.toolchain.Notes notes) (p : FilePath) :
    b.Respects (Unasked notes p) (· ≠ p) where
  refl := .refl p
  trans := by
    rintro s₁ s₂ s₃ ⟨more, hfirst, hmore⟩ ⟨later, hsecond, hlater⟩
    refine ⟨more ++ later, by rw [hsecond, hfirst, List.append_assoc], fun x hx => ?_⟩
    exact (List.mem_append.1 hx).elim (hmore x) (hlater x)
  run i hne s := by
    have hnoted := hnotes i s.tools s.disk
    unfold BuildM.final run
    generalize b.toolchain.run i (s.tools, s.disk) = k at hnoted ⊢
    obtain ⟨⟨tools, disk⟩, result⟩ := k
    refine ⟨[⟨i, s.disk, result.isOk⟩], ?_, fun x hx => ?_⟩
    · cases result <;> exact hnoted
    · rwa [List.mem_singleton.1 hx]
  write q text _ s := by
    simp only [BuildM.final, writeFile]
    cases s.disk.write q (.text text) b.now <;> exact .refl p s
  copy source q _ s := by
    simp only [BuildM.final, copyFile]
    cases s.disk.copy source q b.now <;> exact .refl p s
  register s _ _ _ := .refl p s

/-- A request that is met is the last one that is noted. -/
theorem notes_run (hnotes : b.toolchain.Notes notes) {i : Invocation} {done : Unit}
    (h : b.run i s = .ok done s') : notes s'.tools = notes s.tools ++ [⟨i, s.disk, true⟩] := by
  have hnoted := hnotes i s.tools s.disk
  unfold run at h
  generalize b.toolchain.run i (s.tools, s.disk) = k at h hnoted
  obtain ⟨⟨tools, disk⟩, result⟩ := k
  cases result with
  | error fault => cases h
  | ok _ =>
    cases h
    exact hnoted

/-- Compiling a unit makes its object from its source as it is then. -/
theorem compiled_compile (hcareful : b.toolchain.Careful) (hnotes : b.toolchain.Notes notes)
    {done : Unit} (h : b.compile u s = .ok done s') :
    Compiled b.layout (notes s'.tools) s'.disk u := by
  have hapart : (b.layout.path .source u).Apart (b.layout.path .object u) :=
    fun _ => Layout.apart_path (.inl (by decide))
  rw [compile] at h
  have hsource := ((run_spares (i := .compile _ _ _) hcareful hapart).ok h).text
  generalize hrequest : Invocation.compile (b.layout.path .source u) (b.layout.path .object u)
    [b.layout.objectsDirectory] = request at h
  have hlast : LastMade (notes s'.tools) (b.layout.path .object u) ⟨request, s.disk, true⟩ := by
    rw [notes_run hnotes h]
    refine lastMade_last ?_
    rw [← hrequest, Invocation.output]
  exact ⟨_, _, hlast, rfl, hrequest.symm, hsource.symm⟩

/-- A step other than the generation of its code keeps the object of a unit as new as the source, and
its compilation makes it so. -/
theorem compiled_take (hcareful : b.toolchain.Careful) (hnotes : b.toolchain.Notes notes)
    (hdistinct : s.resolution.program.units.Distinct)
    (hu : s.resolution.program.units.get? id = some u)
    (hv : s.resolution.program.units.get? step.unit = some v) (hnot : step ≠ ⟨id, .generate⟩)
    (h : step = ⟨id, .compile⟩ ∨ Compiled b.layout (notes s.tools) s.disk u)
    (htake : b.take entry plan generated step v s = .ok performed s') :
    Compiled b.layout (notes s'.tools) s'.disk u := by
  by_cases hcompile : step = ⟨id, .compile⟩
  · subst hcompile
    obtain rfl := Option.some.inj (hu.symm.trans hv)
    obtain ⟨_, s₁, hrun, hrest⟩ := BuildM.bind_eq_ok.1 htake
    cases hrest
    exact compiled_compile hcareful hnotes hrun
  · have hmakes : b.Makes entry step.action v (· ≠ b.layout.path .object u) := by
      refine ⟨fun role hrole => Layout.path_ne ?_, fun _ => Layout.outputPath_ne_object⟩
      by_cases hobject : role = .object
      · refine .inr (other_of_ne hdistinct hu hv hcompile ?_)
        subst hobject
        cases haction : step.action <;> rw [haction] at hrole <;> simp [Action.roles] at hrole ⊢
      · exact .inl hobject
    obtain ⟨more, hmore, hunasked⟩ := (take_frames (respects_unasked hnotes _) hmakes).ok htake
    have hsame := (sameCode_take hcareful (other_of_ne hdistinct hu hv hnot)).ok htake
    rw [hmore]
    exact ((h.resolve_left hcompile).append hunasked).sameCode hsame

/-- The object of a unit is as new as the source after some steps if it was so before, or if the unit
is compiled. -/
theorem compiled_execute (hcareful : b.toolchain.Careful) (hnotes : b.toolchain.Notes notes)
    (hdistinct : s.resolution.program.units.Distinct)
    (hu : s.resolution.program.units.get? id = some u) (hfinishes : Finishes id steps)
    (h : ⟨id, .compile⟩ ∈ steps ∨ Compiled b.layout (notes s.tools) s.disk u)
    (hrun : b.execute entry plan generated steps s = .ok records s') :
    Compiled b.layout (notes s'.tools) s'.disk u := by
  induction steps generalizing s generated records with
  | nil =>
    cases hrun
    exact h.resolve_left List.not_mem_nil
  | cons step steps ih =>
    obtain ⟨hfirst, hrest⟩ := hfinishes
    rw [execute, BuildM.get_bind] at hrun
    cases hunit : s.resolution.program.units.get? step.unit with
    | none =>
      rw [hunit] at hrun
      refine ih hdistinct hu hrest (h.imp_left fun hmem => ?_) hrun
      rcases List.mem_cons.1 hmem with rfl | hmem
      · rw [hu] at hunit
        cases hunit
      · exact hmem
    | some v =>
      rw [hunit] at hrun
      obtain ⟨performed, s₁, htake, hrun⟩ := BuildM.bind_eq_ok.1 hrun
      obtain ⟨later, s₂, hlater, hrun⟩ := BuildM.bind_eq_ok.1 hrun
      cases hrun
      have hresolution : s₁.resolution = s.resolution :=
        ((take_spares hcareful (b.avoids_cacheFile entry step.action v)).ok htake).resolution
      refine ih (hresolution ▸ hdistinct) (hresolution ▸ hu) hrest ?_ hlater
      by_cases hgenerate : step = ⟨id, .generate⟩
      · exact .inl (hfirst hgenerate)
      · refine or_iff_not_imp_left.2 fun hnot => ?_
        refine compiled_take hcareful hnotes hdistinct hu hunit hgenerate (h.imp_left fun hmem => ?_)
          htake
        exact ((List.mem_cons.1 hmem).resolve_right hnot).symm

end Builder

end ScriptBuild
