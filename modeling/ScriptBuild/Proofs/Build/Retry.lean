import ScriptBuild.Proofs.Build.Planning
import ScriptBuild.Proofs.Build.Requests

namespace ScriptBuild

variable {σ : Type}

/-- The files of a unit are right: its code was generated from some program in which it was the same,
and its object was compiled from its source. -/
structure Right (l : Layout) (notes : List Note) (p : Program) (d : Disk) (id : Nat) (u : BuildUnit) :
    Prop where
  made : ∃ q, MadeFrom l q p d id u
  compiled : Compiled l notes d u

/-- The files of all units with code are right, but for some that are left to be done. -/
structure InOrder (l : Layout) (notes : σ → List Note) (left : Nat → Prop) (s : BuildState σ) :
    Prop where
  linked : s.resolution.program.Linked
  permitted : s.resolution.program.Permitted
  right : ∀ id u, s.resolution.program.units.get? id = some u → u.kind.treatment.makesObject →
    ¬ left id → Right l (notes s.tools) s.resolution.program s.disk id u

/-- A unit that is due, or has an object that was not compiled from its source. -/
def Unfinished (l : Layout) (notes : σ → List Note) (s : BuildState σ) (id : Nat) : Prop :=
  s.resolution.Due id ∨ ∃ u, s.resolution.program.units.get? id = some u ∧
    ¬ Compiled l (notes s.tools) s.disk u

/-- A builder generates the usual code for a layout, with careful tools that note every request. -/
structure Builder.Fits (b : Builder σ) (l : Layout) (notes : σ → List Note) : Prop where
  careful : b.toolchain.Careful
  generator : b.generator = Stub.generate
  layout : b.layout = l
  noted : b.toolchain.Notes notes

section

variable {l : Layout} {notes : σ → List Note} {left left' : Nat → Prop} {s s' : BuildState σ}

theorem InOrder.mono (h : InOrder l notes left s) (hmono : ∀ id, left id → left' id) :
    InOrder l notes left' s :=
  ⟨h.linked, h.permitted, fun id u hu hobject hnot =>
    h.right id u hu hobject fun hleft => hnot (hmono id hleft)⟩

/-- A unit that is neither due nor has an old object is right if its code was made from some
program. -/
theorem inOrder_of_made (hlinked : s.resolution.program.Linked)
    (hpermitted : s.resolution.program.Permitted)
    (hmade : ∀ id u, s.resolution.program.units.get? id = some u → u.kind.treatment.makesObject →
      ¬ left id → ¬ s.resolution.Due id → ∃ q, MadeFrom l q s.resolution.program s.disk id u) :
    InOrder l notes (fun id => left id ∨ Unfinished l notes s id) s := by
  refine ⟨hlinked, hpermitted, fun id u hu hobject hnot => ?_⟩
  simp only [Unfinished, not_or, not_exists, not_and, not_not] at hnot
  obtain ⟨hleft, hdue, hcompiled⟩ := hnot
  exact ⟨hmade id u hu hobject hleft hdue, hcompiled u hu⟩

/-- The files of a unit stay right while the program and its code stay the same, and its object is
not asked for. -/
theorem Right.advance {p p' : Program} {d d' : Disk} {more : List Note} {id : Nat} {u : BuildUnit}
    (h : Right l more p d id u) (hprogram : p' = p) (hsame : l.SameCode d d' u) :
    Right l more p' d' id u := by
  subst hprogram
  obtain ⟨⟨q, hmade⟩, hcompiled⟩ := h
  exact ⟨⟨q, hmade.advance (.refl _) rfl rfl hsame⟩, hcompiled.sameCode hsame⟩

/-- From one state to another the files of some units are made anew, and are right then. The code of
all other units stays as it is, and their files stay right if they were. -/
def Renews (l : Layout) (notes : σ → List Note) (ids : List Nat) (s s' : BuildState σ) : Prop :=
  ∀ id u, s'.resolution.program.units.get? id = some u → u.kind.treatment.makesObject →
    (id ∈ ids ∧ Right l (notes s'.tools) s'.resolution.program s'.disk id u) ∨
    (id ∉ ids ∧ ∃ v, s.resolution.program.units.get? id = some v ∧ v.kept = u.kept ∧
      l.SameCode s.disk s'.disk u ∧
      (Right l (notes s.tools) s.resolution.program s.disk id v →
        Right l (notes s'.tools) s'.resolution.program s'.disk id u))

/-- The header of a unit is there, and its source is one of two. -/
structure Layout.OneOf (l : Layout) (u : BuildUnit) (former new : String) (d : Disk) : Prop where
  header : d.text? (l.path .header u) = some (Stub.header u)
  source : d.text? (l.path .source u) = some former ∨ d.text? (l.path .source u) = some new

/-- Writing the header as it is, or the new source, keeps the source one of the two. -/
theorem Layout.OneOf.write {u : BuildUnit} {former new text : String} {d d' : Disk} {role : FileRole}
    {now : Int} (h : l.OneOf u former new d)
    (hwrite : d.write (l.path role u) (.text text) now = .ok d')
    (hheader : role = .header → text = Stub.header u) (hsource : role = .source → text = new) :
    l.OneOf u former new d' := by
  have hother {other : FileRole} (hne : other ≠ role) :
      d'.text? (l.path other u) = d.text? (l.path other u) :=
    Disk.text?_write_of_apart hwrite (Layout.apart_path (.inl hne))
  refine ⟨?_, ?_⟩
  · by_cases heq : role = .header
    · subst heq
      rw [Disk.text?_write hwrite, hheader rfl]
    · rw [hother (Ne.symm heq), h.header]
  · by_cases heq : role = .source
    · subst heq
      rw [Disk.text?_write hwrite, hsource rfl]
      exact .inr rfl
    · rw [hother (Ne.symm heq)]
      exact h.source

/-- The program stays, and so does it that the code of a unit was made from some program. -/
structure StaysMade (l : Layout) (id : Nat) (s s' : BuildState σ) : Prop where
  resolution : s'.resolution = s.resolution
  made : s.resolution.program.Linked → ∀ u, s.resolution.program.units.get? id = some u →
    (∃ q, MadeFrom l q s.resolution.program s.disk id u) →
    ∃ q, MadeFrom l q s.resolution.program s'.disk id u

theorem StaysMade.refl {id : Nat} (s : BuildState σ) : StaysMade l id s s := ⟨rfl, fun _ _ _ h => h⟩

/-- What was made from some program stays so over two parts that follow each other. -/
theorem StaysMade.trans {id : Nat} {s₁ : BuildState σ} (h : StaysMade l id s s₁)
    (h' : StaysMade l id s₁ s') : StaysMade l id s s' := by
  refine ⟨h'.resolution.trans h.resolution, fun hlinked u hu hmade => ?_⟩
  have hlast := h'.made
  rw [h.resolution] at hlast
  exact hlast hlinked u hu (h.made hlinked u hu hmade)

theorem Renews.congr (hprogram : s'.resolution.program = s.resolution.program)
    (hnotes : notes s'.tools = notes s.tools)
    (hsame : ∀ id u, s.resolution.program.units.get? id = some u → l.SameCode s.disk s'.disk u) :
    Renews l notes [] s s' := by
  intro id u hu _
  rw [hprogram] at hu
  rw [hnotes]
  exact .inr ⟨List.not_mem_nil, u, hu, rfl, hsame id u hu, fun h => h.advance hprogram (hsame id u hu)⟩

theorem Renews.refl : Renews l notes [] s s := .congr rfl rfl fun _ _ _ => .refl _ _ _

theorem Renews.trans {ids later : List Nat} {s₁ : BuildState σ} (h : Renews l notes ids s s₁)
    (h' : Renews l notes later s₁ s') : Renews l notes (ids ++ later) s s' := by
  intro id u hu hobject
  simp only [List.mem_append, not_or]
  rcases h' id u hu hobject with ⟨hmem, hright⟩ | ⟨hnot, v, hv, hkept, hsame, hright⟩
  · exact .inl ⟨.inr hmem, hright⟩
  · rcases h id v hv (makesObject_of_kept hkept hobject) with
      ⟨hmem, hformer⟩ | ⟨hnot', w, hw, hkept', hsame', hformer⟩
    · exact .inl ⟨.inl hmem, hright hformer⟩
    · exact .inr ⟨⟨hnot', hnot⟩, w, hw, hkept'.trans hkept, (hsame'.of_kept hkept.symm).trans hsame,
        fun h => hright (hformer h)⟩

/-- What is made anew is not left to be done any more. -/
theorem InOrder.renews {ids : List Nat} (h : InOrder l notes left s)
    (hrenews : Renews l notes ids s s') (hlinked : s'.resolution.program.Linked)
    (hpermitted : s'.resolution.program.Permitted) :
    InOrder l notes (fun id => left id ∧ id ∉ ids) s' := by
  refine ⟨hlinked, hpermitted, fun id u hu hobject hnot => ?_⟩
  rcases hrenews id u hu hobject with ⟨_, hright⟩ | ⟨hold, v, hv, hkept, _, hright⟩
  · exact hright
  · refine hright (h.right id v hv (makesObject_of_kept hkept hobject) fun hleft => ?_)
    exact hnot ⟨hleft, hold⟩

end

namespace Builder

open BuildM Resolution

variable {b : Builder σ} {l : Layout} {notes : σ → List Note} {left : Nat → Prop}
  {s s' : BuildState σ} {p : Program} {a : Archive} {touched : List Nat} {u v : BuildUnit}
  {id root : Nat} {entry : Entry} {entries : List Entry} {name : String} {plan : Plan}
  {generated : NodeSet} {step : Step} {steps : List Step} {result : EntryResult}
  {results : List EntryResult} {report : Report} {fault : Fault}

/-- The object of a unit is as new as the source after an entry point if it was so before, or if the
code was generated. -/
theorem compiled_buildEntry (hfits : b.Fits l notes) (hbetween : Between p a touched s)
    (hu : s'.resolution.program.units.get? id = some u)
    (h : id ∈ generatedIn result.records ∨ Compiled l (notes s.tools) s.disk u)
    (hrun : b.buildEntry entry s = .ok result s') : Compiled l (notes s'.tools) s'.disk u := by
  obtain ⟨hcareful, hgenerator, rfl, hnotes⟩ := hfits
  rcases buildEntry_eq_ok hrun with ⟨_, hrecords, rfl⟩ | ⟨definition, root, r, hr, hbuild⟩
  · rw [hrecords] at h
    exact h.resolve_left List.not_mem_nil
  · obtain ⟨s₁, hexecute, _, rfl⟩ := buildUnit_eq_ok hbuild
    obtain ⟨_, hevolves, _⟩ := hbetween.analyze hr
    have hlinked := hbetween.linked.evolves hevolves
    have hprogram := (foldl_markBuilt result.touched s₁.resolution).1.trans
      (congrArg program (leaves_of_steps hcareful hexecute).resolution)
    dsimp only at hprogram hu ⊢
    rw [hprogram] at hu
    have hcoded := coded_execute hcareful hgenerator hlinked.distinct hu hexecute
    have hfinishes : Finishes id (b.planFor { s with resolution := r } root).steps := by
      rw [planFor_eq]
      exact Planning.finishes_plan
    refine compiled_execute (s := { s with resolution := r }) hcareful hnotes hlinked.distinct hu
      hfinishes (h.imp_left fun hmem => ?_) hexecute
    exact hfinishes.mem (hcoded.steps.1 hmem)

/-- An entry point that is built renews the files of the units for which it generates code. -/
theorem renews_buildEntry (hfits : b.Fits l notes) (hbetween : Between p a touched s)
    (hrun : b.buildEntry entry s = .ok result s') :
    Renews l notes (generatedIn result.records) s s' := by
  intro id u hu hobject
  have hcode := code_of_buildEntry hbetween hfits.careful hfits.generator hrun hu hobject
  rw [hfits.layout] at hcode
  rcases hcode with ⟨hgenerated, hmade⟩ | ⟨hold, v, hv, hkept, _, hsame, hmade⟩
  · exact .inl ⟨hgenerated, ⟨_, hmade⟩, compiled_buildEntry hfits hbetween hu (.inl hgenerated) hrun⟩
  · refine .inr ⟨hold, v, hv, hkept, hsame, fun ⟨⟨q, hformer⟩, hcompiled⟩ => ⟨⟨q, hmade q hformer⟩, ?_⟩⟩
    exact compiled_buildEntry hfits hbetween hu (.inr (hcompiled.of_kept hkept.symm)) hrun

/-- So do entry points that are built one after the other. -/
theorem renews_mapM_buildEntry (hfits : b.Fits l notes) (hbetween : Between p a touched s)
    (hrun : entries.mapM b.buildEntry s = .ok results s') :
    Renews l notes (generatedIn (results.flatMap (·.records))) s s' := by
  induction entries generalizing touched s results with
  | nil =>
    rw [List.mapM_nil] at hrun
    cases hrun
    exact .refl
  | cons entry entries ih =>
    rw [List.mapM_cons] at hrun
    obtain ⟨result, s₁, hentry, hrun⟩ := BuildM.bind_eq_ok.1 hrun
    obtain ⟨rest, s₂, hrest, hrun⟩ := BuildM.bind_eq_ok.1 hrun
    cases hrun
    rw [List.flatMap_cons, generatedIn_append]
    exact (renews_buildEntry hfits hbetween hentry).trans
      (ih (hbetween.buildEntry hfits.careful hentry) hrest)

/-- To keep the archive touches neither code nor objects, also if it fails. -/
theorem renews_persist (hfits : b.Fits l notes) (ids : NodeSet) (s : BuildState σ) :
    Renews l notes [] s (final (b.persist ids) s) := by
  obtain ⟨_, _, rfl, _⟩ := hfits
  obtain ⟨hresolution, htools, _⟩ := final_persist (b := b) ids s
  exact .congr (congrArg program hresolution) (congrArg notes htools)
    fun _ u _ => b.sameCode_persist ids s u

/-- A build that succeeds renews the files of all units for which it generates code. -/
theorem renews_build (hfits : b.Fits l notes) (hlinked : s.resolution.program.Linked)
    (hpermitted : s.resolution.program.Permitted) (hrun : b.build entries s = .ok report s') :
    Renews l notes (generatedIn report.records) s s' := by
  obtain ⟨results, s₁, hentries, hpersist, rfl⟩ := build_eq_ok.1 hrun
  have hfirst := renews_mapM_buildEntry hfits (between_reset hlinked hpermitted) hentries
  have hlast := b.renews_persist hfits
    (Std.ExtTreeSet.ofList (results.flatMap (·.touched))) s₁
  rw [BuildM.final, hpersist] at hlast
  have hboth := hfirst.trans hlast
  rw [List.append_nil] at hboth
  exact hboth

/-- Generating the code of a unit may stop between two files. -/
theorem oneOf_generate (hgenerator : b.generator = Stub.generate) (plan : Plan) {former : String} :
    BuildM.Frames (fun s s' =>
      b.layout.OneOf u former (s.resolution.program.stubRequest id u false).source s.disk →
        b.layout.OneOf u former (s.resolution.program.stubRequest id u false).source s'.disk)
      (b.generate plan id u) := by
  refine .get fun s => ?_
  dsimp only
  split
  · exact fun h => h
  · next code hcode =>
    rw [hgenerator] at hcode
    obtain ⟨hheader, hsource⟩ := Stub.generate_eq_ok hcode
    generalize hnew : (s.resolution.program.stubRequest id u false).source = new
    have hwrite {role : FileRole} {text : String} (hheader : role = .header → text = Stub.header u)
        (hsource : role = .source → text = new) :
        BuildM.Frames (fun s s' => b.layout.OneOf u former new s.disk →
          b.layout.OneOf u former new s'.disk) (b.writeFile (b.layout.path role u) text) := by
      intro s h
      simp only [final, writeFile]
      cases hdone : s.disk.write (b.layout.path role u) (.text text) b.now with
      | ok disk => exact h.write hdone hheader hsource
      | error reason => exact h
    refine Frames.bind (fun _ _ _ h h' hs => h' (h hs)) (hwrite ?_ ?_) (fun _ => ?_) s
    · exact fun _ => hheader
    · simp
    refine Frames.bind (fun _ _ _ h h' hs => h' (h hs)) (hwrite ?_ ?_) fun _ => ?_
    · simp
    · exact fun _ => hsource.trans hnew
    split
    · exact hwrite (by simp) (by simp)
    · exact .pure (fun _ h => h) ()

/-- Generating the code of a unit leaves code that was made from some program, also if it stops half
way: the header stays the same, and the source is the former or the new one. -/
theorem made_generate (hgenerator : b.generator = Stub.generate) (plan : Plan)
    (hlinked : s.resolution.program.Linked) (hu : s.resolution.program.units.get? id = some u)
    (h : ∃ q, MadeFrom b.layout q s.resolution.program s.disk id u) :
    ∃ q, MadeFrom b.layout q s.resolution.program (final (b.generate plan id u) s).disk id u := by
  obtain ⟨q, hmade⟩ := h
  obtain ⟨v, hv, hkept, hholds⟩ := hmade.made
  have hheader : s.disk.text? (b.layout.path .header v) = some (Stub.header v) :=
    (hholds false).header
  have hsource : s.disk.text? (b.layout.path .source v) =
      some (q.stubRequest id v false).source := (hholds false).source
  rw [b.layout.path_of_kept _ hkept] at hheader hsource
  rw [stub_header_of_kept hkept] at hheader
  obtain ⟨hheader', hsource'⟩ := oneOf_generate hgenerator plan s ⟨hheader, .inl hsource⟩
  rcases hsource' with hformer | hnew
  · exact ⟨q, hmade.advance (.refl _) rfl rfl
      ⟨hheader'.trans hheader.symm, hformer.trans hsource.symm⟩⟩
  · exact ⟨_, hlinked, .refl _, rfl, u, hu, rfl, fun _ => ⟨hheader', hnew⟩⟩

/-- A step keeps code that was made from some program, also if it fails. -/
theorem staysMade_take (hcareful : b.toolchain.Careful) (hgenerator : b.generator = Stub.generate)
    (hv : s.resolution.program.units.get? step.unit = some v) :
    StaysMade b.layout id s (final (b.take name plan generated step v) s) where
  resolution := (take_spares hcareful (b.avoids_cacheFile name step.action v) s).resolution
  made hlinked u hu hmade := by
    by_cases hgenerate : step = ⟨id, .generate⟩
    · subst hgenerate
      obtain rfl := Option.some.inj (hu.symm.trans hv)
      have hafter := made_generate hgenerator plan hlinked hu hmade
      rwa [← final_bind_eq (f := fun _ => Pure.pure true) fun _ _ => rfl] at hafter
    · have hother := other_of_ne hlinked.distinct hu hv hgenerate
      obtain ⟨q, hformer⟩ := hmade
      exact ⟨q, hformer.advance (.refl _) rfl rfl (sameCode_take hcareful hother s)⟩

/-- So do all steps, whichever of them fails. -/
theorem staysMade_execute (hcareful : b.toolchain.Careful)
    (hgenerator : b.generator = Stub.generate) :
    BuildM.Frames (StaysMade b.layout id) (b.execute name plan generated steps) :=
  execute_frames_of .refl (fun _ _ _ => .trans) fun _ _ _ _ _ hv =>
    staysMade_take hcareful hgenerator hv

/-- An analysis that fails changes nothing but the program. -/
theorem analyze_eq_error {definition : Option Definition}
    (h : b.analyze name definition s = .error fault s') :
    s' = { s with resolution := (s.resolution.analyze (b.world s.disk) name definition).1 } := by
  rw [← final_analyze, final, h]

/-- An entry point fails while it is analyzed, or in one of the steps of its plan. -/
theorem buildEntry_eq_error (h : b.buildEntry entry s = .error fault s') :
    ∃ definition r result,
      s.resolution.analyze (b.world s.disk) entry.name definition = (r, result) ∧
        (s' = { s with resolution := r } ∨ ∃ plan,
          b.execute entry.name plan ∅ plan.steps { s with resolution := r } = .error fault s') := by
  have hnamed {definition : Option Definition}
      (h : b.buildNamed entry.name definition s = .error fault s') : ∃ definition r result,
      s.resolution.analyze (b.world s.disk) entry.name definition = (r, result) ∧
        (s' = { s with resolution := r } ∨ ∃ plan,
          b.execute entry.name plan ∅ plan.steps { s with resolution := r } = .error fault s') := by
    rcases bind_eq_error.1 h with hanalyze | ⟨found, s₁, hanalyze, h⟩
    · exact ⟨definition, _, _, rfl, .inl (analyze_eq_error hanalyze)⟩
    · obtain ⟨r, hr, rfl⟩ := analyze_eq_ok hanalyze
      refine ⟨definition, r, _, hr, .inr ?_⟩
      cases found with
      | none => cases h
      | some root =>
        dsimp only at h
        rw [buildUnit, get_bind] at h
        rcases bind_eq_error.1 h with hexecute | ⟨_, _, _, h⟩
        · exact ⟨_, hexecute⟩
        · rcases bind_eq_error.1 h with hsettle | ⟨_, _, _, hpure⟩
          · cases hsettle
          · cases hpure
  rw [Builder.buildEntry, get_bind] at h
  cases hmeaning : b.meaning s entry <;> rw [hmeaning] at h
  case byName => exact hnamed h
  case defined => exact hnamed h
  case missingIn => cases h

/-- Code stays made from some program for all units that are not due after an analysis. -/
theorem made_analyze (h : InOrder l notes left s) (hsane : s.resolution.Sane)
    (hcalm : s.resolution.Calm) {w : World} {definition : Option Definition} {r : Resolution}
    {found : Except Fault (Option Nat)} (hr : s.resolution.analyze w name definition = (r, found)) :
    r.program.Linked ∧ r.program.Permitted ∧
      ∀ id u, r.program.units.get? id = some u → u.kind.treatment.makesObject → ¬ left id →
        ¬ r.Due id → ∃ q, MadeFrom l q r.program s.disk id u := by
  have hspared := spared_analyze hsane h.linked.toSound hcalm w name definition
  have hevolves := (hsane.analyze w name definition).2
  rw [hr] at hspared hevolves
  refine ⟨h.linked.evolves hevolves, h.permitted.evolves hevolves, fun id u hu hobject hnot hdue => ?_⟩
  obtain ⟨v, hv, hkept, hmade⟩ := made_of_spared hspared hevolves hu hdue
  obtain ⟨q, hformer⟩ := (h.right id v hv (makesObject_of_kept hkept hobject) hnot).made
  exact ⟨q, hmade l s.disk q hformer⟩

/-- What an entry point that fails has left neither due nor with an old object is as right as it was.
-/
theorem inOrder_buildEntry_error (hfits : b.Fits l notes) (hbetween : Between p a touched s)
    (h : InOrder l notes left s) (hrun : b.buildEntry entry s = .error fault s') :
    InOrder l notes (fun id => left id ∨ Unfinished l notes s' id) s' := by
  obtain ⟨hcareful, hgenerator, rfl, _⟩ := hfits
  obtain ⟨definition, r, found, hr, hend⟩ := buildEntry_eq_error hrun
  obtain ⟨hlinked, hpermitted, hmade⟩ := made_analyze h hbetween.sane hbetween.calm hr
  have hstays (id : Nat) : StaysMade b.layout id { s with resolution := r } s' := by
    rcases hend with rfl | ⟨plan, hexecute⟩
    · exact .refl _
    · exact (staysMade_execute hcareful hgenerator).error hexecute
  have hresolution : s'.resolution = r := (hstays 0).resolution
  refine inOrder_of_made (hresolution ▸ hlinked) (hresolution ▸ hpermitted)
    fun id u hu hobject hnot hdue => ?_
  rw [hresolution] at hu hdue ⊢
  exact (hstays id).made hlinked u hu (hmade id u hu hobject hnot hdue)

/-- When an entry point fails, only what it has begun and not finished is added to what is left to
be done. -/
theorem inOrder_mapM_buildEntry_error (hfits : b.Fits l notes) (hbetween : Between p a touched s)
    (h : InOrder l notes left s) (hrun : entries.mapM b.buildEntry s = .error fault s') :
    InOrder l notes (fun id => left id ∨ Unfinished l notes s' id) s' := by
  induction entries generalizing touched s left with
  | nil =>
    rw [List.mapM_nil] at hrun
    cases hrun
  | cons entry entries ih =>
    rw [List.mapM_cons] at hrun
    rcases bind_eq_error.1 hrun with hentry | ⟨result, s₁, hentry, hrun⟩
    · exact inOrder_buildEntry_error hfits hbetween h hentry
    · have hnext := hbetween.buildEntry hfits.careful hentry
      have hfirst := h.renews (renews_buildEntry hfits hbetween hentry) hnext.linked hnext.permitted
      rcases bind_eq_error.1 hrun with hrest | ⟨rest, s₂, _, hpure⟩
      · exact (ih hnext hfirst hrest).mono fun id hleft => hleft.imp_left And.left
      · cases hpure

/-- A build that succeeds takes from what is left to be done the units for which it generates
code. -/
theorem inOrder_build (hfits : b.Fits l notes) (h : InOrder l notes left s)
    (hrun : b.build entries s = .ok report s') :
    InOrder l notes (fun id => left id ∧ id ∉ generatedIn report.records) s' := by
  have hrenews := renews_build hfits h.linked h.permitted hrun
  obtain ⟨results, s₁, hentries, hpersist, _⟩ := build_eq_ok.1 hrun
  have hafter := (between_reset h.linked h.permitted).mapM_buildEntry hfits.careful hentries
  have hresolution := (persist_eq_ok hpersist).1
  exact h.renews hrenews (hresolution ▸ hafter.linked) (hresolution ▸ hafter.permitted)

/-- A new run forgets which units are due, and changes no file. -/
theorem inOrder_reset (h : InOrder l notes left s) :
    InOrder l notes left { s with resolution := s.resolution.reset } := ⟨h.linked, h.permitted, h.right⟩

/-- A build that fails adds to what is left to be done what it leaves unfinished. -/
theorem inOrder_build_error (hfits : b.Fits l notes) (h : InOrder l notes left s)
    (hrun : b.build entries s = .error fault s') :
    InOrder l notes (fun id => left id ∨ Unfinished l notes s' id) s' := by
  have hbetween := between_reset h.linked h.permitted
  rcases bind_eq_error.1 hrun with hstart | ⟨_, s₀, hstart, hrun⟩
  · cases hstart
  cases hstart
  rcases bind_eq_error.1 hrun with hentries | ⟨results, s₁, hentries, hrest⟩
  · exact inOrder_mapM_buildEntry_error hfits hbetween (inOrder_reset h) hentries
  · have hafter := hbetween.mapM_buildEntry hfits.careful hentries
    have horder := (inOrder_reset h).renews (renews_mapM_buildEntry hfits hbetween hentries)
      hafter.linked hafter.permitted
    rw [get_bind] at hrest
    rcases bind_eq_error.1 hrest with hpersist | ⟨_, s₂, _, hpure⟩
    · have hlast := b.renews_persist hfits
        (Std.ExtTreeSet.ofList (results.flatMap (·.touched))) s₁
      have hresolution := (b.final_persist
        (Std.ExtTreeSet.ofList (results.flatMap (·.touched))) s₁).1
      rw [final, hpersist] at hlast hresolution
      dsimp only at hlast hresolution
      refine (horder.renews hlast (hresolution ▸ hafter.linked)
        (hresolution ▸ hafter.permitted)).mono fun id hleft => .inl hleft.1.1
    · cases hpure

/-- So does the making of a plan, which leaves units due and builds none of them. -/
theorem inOrder_planEntry (h : InOrder l notes left s) (entry : Entry) :
    InOrder l notes (fun id => left id ∨ Unfinished l notes (final (b.planEntry entry) s) id)
      (final (b.planEntry entry) s) := by
  rcases b.final_planEntry entry s with hfinal | ⟨definition, hfinal⟩ <;> rw [hfinal]
  · exact (inOrder_reset h).mono fun _ => .inl
  · obtain ⟨hlinked, hpermitted, hmade⟩ :=
      made_analyze (inOrder_reset h) (sane_start _) (calm_start _) rfl
    exact inOrder_of_made hlinked hpermitted hmade

/-- What can become of a session, with the units that are left to be done. A session is opened on a
disk that has no archive or one with the rows of a program, where the files of any units may be wrong.
A build that succeeds finishes the units whose code it generates. A build that fails leaves the units
that it has begun, and a plan leaves those that it has met. Between two builds anything may change but
the code of known units. -/
inductive Session (l : Layout) (notes : σ → List Note) : BuildState σ → (Nat → Prop) → Prop where
  | opened (c : BuildConfig) (hlayout : c.layout = l) {d : Disk} {tools : σ} {left : Nat → Prop}
      (hkept : Archive.Kept d l.cacheFile)
      (hright : ∀ id u, (Archive.load d l.cacheFile).toProgram.units.get? id = some u →
        u.kind.treatment.makesObject → ¬ left id →
          Right l (notes tools) (Archive.load d l.cacheFile).toProgram d id u) :
      Session l notes (.start c d tools) left
  | changed {s : BuildState σ} {left : Nat → Prop} (h : Session l notes s left) {d : Disk} {tools : σ}
      (hnotes : notes tools = notes s.tools)
      (hsame : ∀ id u, s.resolution.program.units.get? id = some u → l.SameCode s.disk d u) :
      Session l notes { s with disk := d, tools } left
  | planned {s : BuildState σ} {left : Nat → Prop} (h : Session l notes s left) (b : Builder σ)
      (entry : Entry) :
      Session l notes (final (b.planEntry entry) s)
        fun id => left id ∨ Unfinished l notes (final (b.planEntry entry) s) id
  | built {s s' : BuildState σ} {left : Nat → Prop} (h : Session l notes s left) (b : Builder σ)
      (hfits : b.Fits l notes) {entries : List Entry} {report : Report}
      (hrun : b.build entries s = .ok report s') :
      Session l notes s' fun id => left id ∧ id ∉ generatedIn report.records
  | failed {s s' : BuildState σ} {left : Nat → Prop} (h : Session l notes s left) (b : Builder σ)
      (hfits : b.Fits l notes) {entries : List Entry} {fault : Fault}
      (hrun : b.build entries s = .error fault s') :
      Session l notes s' fun id => left id ∨ Unfinished l notes s' id

/-- Whatever becomes of a session, all units are right but for those that are left to be done. -/
theorem Session.inOrder (h : Session l notes s left) : InOrder l notes left s := by
  induction h with
  | opened c hlayout hkept hright =>
    subst hlayout
    exact ⟨hkept.load.linked, hkept.load.permitted, hright⟩
  | @changed s left _ d tools hnotes hsame ih =>
    have hrenews : Renews l notes [] s { s with disk := d, tools } := .congr rfl hnotes hsame
    exact (ih.renews hrenews ih.linked ih.permitted).mono fun id hleft => hleft.1
  | planned _ b entry ih => exact inOrder_planEntry ih entry
  | built _ b hfits hrun ih => exact inOrder_build hfits ih hrun
  | failed _ b hfits hrun ih => exact inOrder_build_error hfits ih hrun

/-- When a build succeeds in a session, whatever has failed there before: code that it does not
generate is the code that it found. The header of every unit that was not left to be done, or whose
code it generates, is the one that is generated as things stand; the source was generated from a
program in which the unit was the same and imported the same, and is the one that is generated as
things stand, if the other units export the imported names as they did then; and the object was last
made by compiling this source. -/
theorem files_of_retry (l : Layout) (notes : σ → List Note) (s : BuildState σ) (left : Nat → Prop)
    (hsession : Session l notes s left) (b : Builder σ) (hfits : b.Fits l notes)
    (entries : List Entry) (report : Report) (s' : BuildState σ)
    (hrun : b.build entries s = .ok report s') (id : Nat) (u : BuildUnit)
    (hu : s'.resolution.program.units.get? id = some u) (hobject : u.kind.treatment.makesObject) :
    (id ∉ generatedIn report.records → l.SameCode s.disk s'.disk u) ∧
      ((left id → id ∈ generatedIn report.records) →
        Compiled l (notes s'.tools) s'.disk u ∧ ∀ cyclic,
          ∃ code, Stub.generate (s'.resolution.program.stubRequest id u cyclic) = .ok code ∧
            s'.disk.text? (l.path .header u) = some code.header ∧
            ∃ (q : Program) (v : BuildUnit) (former : Stub.Generated),
              q.units.get? id = some v ∧ v.kept = u.kept ∧
              s'.resolution.program.importsOf id = q.importsOf id ∧
              Stub.generate (q.stubRequest id v cyclic) = .ok former ∧
              s'.disk.text? (l.path .source u) = some former.source ∧
              (q.SameExports s'.resolution.program id → former.source = code.source)) := by
  have horder := hsession.inOrder
  have hafter := inOrder_build hfits horder hrun
  refine ⟨fun hnot => ?_, fun hleft => ?_⟩
  · rcases renews_build hfits horder.linked horder.permitted hrun id u hu hobject with
      ⟨hgenerated, _⟩ | ⟨_, _, _, _, hsame, _⟩
    · exact absurd hgenerated hnot
    · exact hsame
  · obtain ⟨⟨q, hmade⟩, hcompiled⟩ :=
      hafter.right id u hu hobject fun hnot => hnot.2 (hleft hnot.1)
    refine ⟨hcompiled, fun cyclic => ?_⟩
    obtain ⟨code, hcode, hheader, v, former, hrest⟩ := hmade.files hobject cyclic
    exact ⟨code, hcode, hheader, q, v, former, hrest⟩

/-- The usual builder, with tools that note what they are asked for. -/
def notingBuilder : Builder (Unit × List Note) :=
  stubBuilder.withTools stubBuilder.toolchain.noting

theorem fits_notingBuilder : notingBuilder.Fits stubBuilder.layout Prod.snd :=
  ⟨careful_stubBuilder.noting, rfl, rfl, Toolchain.notes_noting _⟩

/-- A script in the working directory, as it is written at a time. -/
def writtenDisk (text : String) (time : Int) : Disk where
  nodes := .ofList [(["c"], Node.directory 0), (["c", "objects"], .directory 0),
    (["f.m"], textFile time text)]
  changed := 0
  changedAround := 0

/-- A script that cannot be read, as a text in it has no end. -/
def brokenDisk : Disk := writtenDisk "function f()\n  x = 'open\nend\n" 1

/-- The script after its text was given an end. -/
def mendedDisk : Disk := writtenDisk "function f()\nend\n" 2

/-- The session before the script is built for the first time. -/
def brokenStart : BuildState (Unit × List Note) := .start notingBuilder.config brokenDisk ((), [])

/-- The session after the script could not be built. -/
def brokenEnd : BuildState (Unit × List Note) :=
  final (notingBuilder.build [.located "f" ⟨"."⟩]) brokenStart

/-- The session when the script is built again. -/
def mendedStart : BuildState (Unit × List Note) := { brokenEnd with disk := mendedDisk }

/-- What is left to be done then. -/
def mendedLeft (id : Nat) : Prop :=
  False ∨ Unfinished stubBuilder.layout Prod.snd brokenEnd id

/-- The session with a failed build in it is one. -/
theorem session_mended : Session stubBuilder.layout Prod.snd mendedStart mendedLeft := by
  have hopened : Session stubBuilder.layout Prod.snd brokenStart fun _ => False := by
    refine .opened _ rfl (.inl (by decide +kernel)) fun id u hu => ?_
    have hunits : (Archive.load brokenDisk stubBuilder.config.layout.cacheFile).toProgram.units =
        .empty := by
      decide +kernel
    rw [hunits] at hu
    cases hu
  obtain ⟨fault, hfails⟩ := exists_error_of_fails (s := brokenStart)
    (x := notingBuilder.build [.located "f" ⟨"."⟩]) (by decide +kernel)
  refine .changed (.failed hopened _ fits_notingBuilder hfails) rfl fun id u hu => ?_
  have hunits : brokenEnd.resolution.program.units =
      .ofList [⟨"f", 0, .script ⟨"./f.m"⟩, 1, some (.file ⟨"./f.m"⟩), []⟩] := by
    decide +kernel
  change brokenEnd.resolution.program.units.get? id = some u at hu
  rw [hunits] at hu
  cases id with
  | zero =>
    cases hu
    exact ⟨by decide +kernel, by decide +kernel⟩
  | succ id => cases hu

/-- What the mended script is found as. -/
def mendedDefinition : Definition := ⟨.script ⟨"./f.m"⟩, 2, .file ⟨"./f.m"⟩⟩

/-- The mended script as a unit. -/
def mendedUnit : BuildUnit := ⟨"f", 0, .script ⟨"./f.m"⟩, 2, some (.file ⟨"./f.m"⟩), ["f"]⟩

/-- The state after the script could be read. -/
def mendedAnalyzed : BuildState (Unit × List Note) :=
  { mendedStart with resolution := (mendedStart.resolution.reset.analyze
      (notingBuilder.world mendedDisk) "f" (some mendedDefinition)).1 }

/-- The mended script can be built by every plan that is about it alone. -/
theorem finish_mended (plan : Plan) (hunits : plan.units = [0]) : BuildM.succeeds
    (notingBuilder.finish "f" plan [⟨0, .generate⟩, ⟨0, .compile⟩, ⟨0, .emit⟩]) mendedAnalyzed := by
  unfold finish settle
  simp only [execute, take, generate, emit, BuildConfig.entryLinkage, hunits]
  generalize plan.isCyclic 0 = cyclic
  cases cyclic <;> decide +kernel

/-- The session builds the mended script, and generates its code. -/
theorem build_mended : ∃ report s',
    notingBuilder.build [.located "f" ⟨"."⟩] mendedStart = .ok report s' ∧
      s'.resolution.program.units.get? 0 = some mendedUnit ∧ 0 ∈ generatedIn report.records := by
  have hmeaning : notingBuilder.meaning { mendedStart with resolution := mendedStart.resolution.reset }
      (.located "f" ⟨"."⟩) = .defined mendedDefinition := by
    decide +kernel
  have hanalyze : notingBuilder.analyze "f" (some mendedDefinition)
      { mendedStart with resolution := mendedStart.resolution.reset } = .ok (some 0) mendedAnalyzed :=
    analyze_of_result (by decide +kernel)
  have hlinked : mendedAnalyzed.resolution.program.Linked :=
    session_mended.inOrder.linked.evolves ((sane_start _).analyze _ _ _).2
  have hget : mendedAnalyzed.resolution.program.units.get? 0 = some mendedUnit := by decide +kernel
  obtain ⟨report, s', hrun, hprogram, plan, t, hexecute⟩ := exists_build_alone
    fits_notingBuilder.careful hmeaning hanalyze hlinked (by decide +kernel) (by decide +kernel)
    finish_mended
  have hcoded := coded_execute fits_notingBuilder.careful rfl hlinked.distinct hget hexecute
  exact ⟨report, s', hrun, by rw [hprogram, hget], hcoded.steps.2 List.mem_cons_self⟩

/-- A script is built after it could not be read at first. -/
theorem files_of_retry_mended : Session stubBuilder.layout Prod.snd mendedStart mendedLeft ∧
    ∃ report s' code, notingBuilder.build [.located "f" ⟨"."⟩] mendedStart = .ok report s' ∧
      Stub.generate (s'.resolution.program.stubRequest 0 mendedUnit false) = .ok code ∧
      s'.disk.text? (stubBuilder.layout.path .header mendedUnit) = some code.header ∧
      Compiled stubBuilder.layout s'.tools.2 s'.disk mendedUnit := by
  obtain ⟨report, s', hrun, hunit, hgenerated⟩ := build_mended
  obtain ⟨hcompiled, hmade⟩ := (files_of_retry stubBuilder.layout Prod.snd mendedStart mendedLeft
    session_mended notingBuilder fits_notingBuilder _ report s' hrun 0 mendedUnit hunit
    (by decide)).2 fun _ => hgenerated
  obtain ⟨code, hcode, hheader, _⟩ := hmade false
  exact ⟨session_mended, report, s', code, hrun, hcode, hheader, hcompiled⟩

end Builder

end ScriptBuild
