import ScriptBuild.Proofs.Build.Frame

namespace ScriptBuild

variable {σ α β : Type}

/-- A computation of a build that also notes states, the first one first. A build does not show what
    the disk holds on the way, which is what is left if the process is stopped there. Its course
    notes the state after every action that may change the disk: the writing of one file, one run of
    a tool, one copy, one move. -/
abbrev CourseM (σ : Type) := EStateM Fault (BuildState σ × List (BuildState σ))

namespace CourseM

/-- An action, after which the state is noted, also if the action fails. -/
def note (x : BuildM σ α) : CourseM σ α := fun (s, seen) =>
  match x s with
  | .ok a s' => .ok a (s', seen ++ [s'])
  | .error fault s' => .error fault (s', seen ++ [s'])

/-- The present state. -/
def look : CourseM σ (BuildState σ) := fun (s, seen) => .ok s (s, seen)

/-- What a computation is without its notes. -/
def forget (y : CourseM σ α) : BuildM σ α := fun s =>
  match y (s, []) with
  | .ok a (s', _) => .ok a s'
  | .error fault (s', _) => .error fault s'

/-- The states that a computation notes. -/
def states (y : CourseM σ α) (s : BuildState σ) : List (BuildState σ) :=
  match y (s, []) with
  | .ok _ (_, seen) | .error _ (_, seen) => seen

/-- A result with notes. -/
def noted (result : EStateM.Result Fault (BuildState σ) α) (seen : List (BuildState σ)) :
    EStateM.Result Fault (BuildState σ × List (BuildState σ)) α :=
  match result with
  | .ok a s => .ok a (s, seen)
  | .error fault s => .error fault (s, seen)

/-- From a state on, a computation with notes does what one without them does, and the states that
    it notes are related to the one in which it starts. -/
def PassesAt (R : BuildState σ → BuildState σ → Prop) (y : CourseM σ α) (x : BuildM σ α)
    (s : BuildState σ) : Prop :=
  ∀ seen, ∃ later, y (s, seen) = noted (x s) (seen ++ later) ∧ (∀ s' ∈ later, R s s') ∧
    R s (BuildM.final x s)

/-- The same from every state on. -/
def Passes (R : BuildState σ → BuildState σ → Prop) (y : CourseM σ α) (x : BuildM σ α) : Prop :=
  ∀ s, PassesAt R y x s

variable {R : BuildState σ → BuildState σ → Prop} {y : CourseM σ α} {x : BuildM σ α}
  {g : α → CourseM σ β} {f : α → BuildM σ β} {s : BuildState σ}

/-- An action that succeeds is noted with the state in which it ends. -/
theorem note_of_ok {a : α} {s' : BuildState σ} {seen : List (BuildState σ)} (h : x s = .ok a s') :
    note x (s, seen) = .ok a (s', seen ++ [s']) := by
  rw [note, h]

/-- An action that fails is noted with the state in which it stops. -/
theorem note_of_error {fault : Fault} {s' : BuildState σ} {seen : List (BuildState σ)}
    (h : x s = .error fault s') : note x (s, seen) = .error fault (s', seen ++ [s']) := by
  rw [note, h]

theorem look_bind {g : BuildState σ → CourseM σ β} {seen : List (BuildState σ)} :
    (look >>= g) (s, seen) = g s (s, seen) := rfl

/-- What follows an action that succeeds goes on from where that ends. -/
theorem after_ok {a : α} {t t' : BuildState σ × List (BuildState σ)} (h : y t = .ok a t') :
    (y >>= g) t = g a t' := by
  change EStateM.bind y g t = _
  rw [EStateM.bind, h]

theorem after_error {fault : Fault} {t t' : BuildState σ × List (BuildState σ)}
    (h : y t = .error fault t') : (y >>= g) t = .error fault t' := by
  change EStateM.bind y g t = _
  rw [EStateM.bind, h]

/-- A computation that does nothing passes through nothing. -/
theorem PassesAt.pure (hrefl : R s s) (a : α) :
    PassesAt R (Pure.pure a : CourseM σ α) (Pure.pure a) s := fun seen =>
  ⟨[], by rw [List.append_nil]; rfl, nofun, hrefl⟩

/-- A computation that fails at once passes through nothing. -/
theorem PassesAt.throw (hrefl : R s s) (fault : Fault) :
    PassesAt R (throw fault : CourseM σ α) (throw fault) s := fun seen =>
  ⟨[], by rw [List.append_nil]; rfl, nofun, hrefl⟩

/-- A noted action passes through the state in which it ends. -/
theorem PassesAt.note (h : R s (BuildM.final x s)) : PassesAt R (note x) x s := by
  intro seen
  refine ⟨[BuildM.final x s], ?_, fun s' hmem => ?_, h⟩
  · rw [BuildM.final]
    cases hrun : x s with
    | ok a s' => exact note_of_ok hrun
    | error fault s' => exact note_of_error hrun
  · obtain rfl := List.mem_singleton.mp hmem
    exact h

theorem PassesAt.look {g : BuildState σ → CourseM σ β} {f : BuildState σ → BuildM σ β}
    (h : PassesAt R (g s) (f s) s) : PassesAt R (CourseM.look >>= g) (get >>= f) s := h

/-- Two parts that follow each other pass through what each of them passes through, if the relation
is transitive. -/
theorem PassesAt.bind (htrans : ∀ s₁ s₂ s₃, R s₁ s₂ → R s₂ s₃ → R s₁ s₃) (hy : PassesAt R y x s)
    (hg : ∀ a, Passes R (g a) (f a)) : PassesAt R (y >>= g) (x >>= f) s := by
  intro seen
  obtain ⟨later, hrun, hlater, hend⟩ := hy seen
  have hbind : (y >>= g) (s, seen) = EStateM.bind y g (s, seen) := rfl
  have hbind' : (x >>= f) s = EStateM.bind x f s := rfl
  rw [BuildM.final] at hend ⊢
  rw [hbind, hbind', EStateM.bind, EStateM.bind, hrun]
  cases hx : x s with
  | error fault s₁ =>
    rw [hx] at hend
    exact ⟨later, rfl, hlater, hend⟩
  | ok a s₁ =>
    rw [hx] at hend
    obtain ⟨more, hmore, hpassed, hfinal⟩ := hg a s₁ (seen ++ later)
    refine ⟨later ++ more, ?_, fun s' hmem => ?_, htrans _ _ _ hend hfinal⟩
    · rw [← List.append_assoc]
      exact hmore
    · rcases List.mem_append.mp hmem with hmem | hmem
      · exact hlater s' hmem
      · exact htrans _ _ _ hend (hpassed s' hmem)

/-- So does a part that is done for each item of a list. -/
theorem Passes.mapM {γ : Type} {g : γ → CourseM σ β} {f : γ → BuildM σ β} (hrefl : ∀ s, R s s)
    (htrans : ∀ s₁ s₂ s₃, R s₁ s₂ → R s₂ s₃ → R s₁ s₃) (h : ∀ c, Passes R (g c) (f c))
    (cs : List γ) : Passes R (cs.mapM g) (cs.mapM f) := by
  induction cs with
  | nil => exact fun s => .pure (hrefl s) []
  | cons c cs ih =>
    rw [List.mapM_cons, List.mapM_cons]
    refine fun s => .bind htrans (h c s) fun result => ?_
    exact fun s => .bind htrans (ih s) fun results s => .pure (hrefl s) _

end CourseM

namespace Builder

open BuildM CourseM

variable (b : Builder σ)

/-- Generating the code of a unit writes up to three files. -/
def courseGenerate (plan : Plan) (id : Nat) (u : BuildUnit) : CourseM σ Unit := do
  let program := (← look).resolution.program
  match b.generator (program.stubRequest id u (plan.isCyclic id)) with
  | .error fault => throw fault
  | .ok code =>
    note (b.writeFile (b.layout.path .header u) code.header)
    note (b.writeFile (b.layout.path .source u) code.source)
    match code.forward with
    | some text => note (b.writeFile (b.layout.path .forwardSource u) text)
    | none => pure ()

/-- Making a stand-in takes two runs of the tools. -/
def courseForwardLink (u : BuildUnit) : CourseM σ Unit := do
  let source := b.layout.path .forwardSource u
  if (← look).disk.hasPath source then
    note (b.run (.compile source (b.layout.path .forwardObject u) [b.layout.objectsDirectory]))
    note (b.run (b.config.standInLinkage u).invocation)
  else throw (.noCode u.display ("no forward declarations at " ++ source.text))

/-- Any other step changes at most one file. -/
def courseTake (entry : String) (plan : Plan) (generated : NodeSet) (step : Step) (u : BuildUnit) :
    CourseM σ Bool :=
  match step.action with
  | .generate => do b.courseGenerate plan step.unit u; pure true
  | .forwardLink => do b.courseForwardLink u; pure true
  | .compile | .link | .relink | .emit => note (b.take entry plan generated step u)

/-- Taking steps one after the other. -/
def courseExecute (entry : String) (plan : Plan) :
    NodeSet → List Step → CourseM σ (List StepRecord)
  | _, [] => pure []
  | generated, step :: steps => do
    match (← look).resolution.program.units.get? step.unit with
    | none => courseExecute entry plan generated steps
    | some u =>
      let performed ← b.courseTake entry plan generated step u
      let renewed := if step.action == .generate then generated.insert step.unit else generated
      let records ← courseExecute entry plan renewed steps
      pure (⟨step, u.display, !performed⟩ :: records)

/-- Building what an entry point was resolved to. -/
def courseUnit (name : String) (root : Nat) : CourseM σ EntryResult := do
  let plan := b.planFor (← look) root
  let records ← b.courseExecute name plan ∅ plan.steps
  let touched ← note (settle plan)
  let outcome : Outcome :=
    if plan.hasStep root .emit then .built name root (b.config.outputPath name)
    else .notBuildable name root
  pure ⟨outcome, records, plan.warnings, touched⟩

/-- Building an entry point, by its definition if that is known. -/
def courseNamed (name : String) (definition : Option Definition) : CourseM σ EntryResult := do
  match ← note (b.analyze name definition) with
  | some root => b.courseUnit name root
  | none => pure (.unresolved name (Entry.notBuildableText name))

/-- Building an entry point. -/
def courseEntry (entry : Entry) : CourseM σ EntryResult := do
  match b.meaning (← look) entry with
  | .byName => b.courseNamed entry.name none
  | .defined definition => b.courseNamed entry.name (some definition)
  | .missingIn directory => pure (.unresolved entry.name (Entry.missingText entry.name directory))

/-- Brings the archive up to date for some units, and writes its draft. -/
def writeDraft (touched : NodeSet) : BuildM σ Unit := fun s =>
  let archive := s.archive.updateRows s.resolution.program touched.toList
  let draft := Archive.draftPath b.layout.cacheFile
  match s.disk.write draft (.text archive.document) b.now with
  | .ok disk => .ok () { s with archive, disk }
  | .error reason => .error (.unreadable draft reason) { s with archive }

/-- Moves the draft of the archive to its place. -/
def moveDraft : BuildM σ Unit := fun s =>
  match s.disk.rename (Archive.draftPath b.layout.cacheFile) b.layout.cacheFile b.now with
  | .ok disk => .ok () { s with disk }
  | .error reason => .error (.unreadable b.layout.cacheFile reason) s

/-- Bringing the archive up to date writes the draft and moves it. -/
def coursePersist (touched : NodeSet) : CourseM σ Unit := do
  note (b.writeDraft touched)
  note b.moveDraft

/-- The entry points of a build in a new run. -/
def courseEntries (entries : List Entry) : CourseM σ (List EntryResult) := do
  note startRun
  entries.mapM b.courseEntry

/-- A build that notes every state in which it leaves the disk. -/
def course (entries : List Entry) : CourseM σ Report := do
  let results ← b.courseEntries entries
  let unresolved := (← look).resolution.run.unresolved
  b.coursePersist (Std.ExtTreeSet.ofList (results.flatMap (·.touched)))
  pure ⟨results.map (·.outcome), results.flatMap (·.records), results.flatMap (·.warnings),
    unresolved⟩

section

variable {b : Builder σ} {R : BuildState σ → BuildState σ → Prop} {P : FilePath → Prop}
  {entry name : String} {plan : Plan} {generated : NodeSet} {step : Step} {u : BuildUnit} {id : Nat}
  {steps : List Step}

/-- Generating the code of a unit passes through states that are kept by making such files as it
makes. -/
theorem passes_generate (hR : b.Respects R P) (h : b.Makes entry .generate u P) :
    Passes R (b.courseGenerate plan id u) (b.generate plan id u) := by
  have hpath {role : FileRole} (hrole : role ∈ Action.generate.roles) (text : String) :
      Passes R (note (b.writeFile (b.layout.path role u) text))
        (b.writeFile (b.layout.path role u) text) :=
    fun s => .note (hR.write _ _ (h.parts role hrole) s)
  refine fun s => .look ?_
  dsimp only
  cases b.generator (s.resolution.program.stubRequest id u (plan.isCyclic id)) with
  | error fault => exact .throw (hR.refl s) fault
  | ok code =>
    refine .bind hR.trans (hpath (by simp [Action.roles]) _ s) fun _ s => ?_
    refine .bind hR.trans (hpath (by simp [Action.roles]) _ s) fun _ s => ?_
    cases code.forward with
    | some text => exact hpath (by simp [Action.roles]) text s
    | none => exact .pure (hR.refl s) ()

/-- So does making a stand-in, also between the two runs of the tools. -/
theorem passes_forwardLink (hR : b.Respects R P) (h : b.Makes entry .forwardLink u P) :
    Passes R (b.courseForwardLink u) (b.forwardLink u) := by
  have hobject : P (b.layout.path .forwardObject u) := h.parts _ (by simp [Action.roles])
  have hstandIn : P (b.layout.path .standIn u) := h.parts _ (by simp [Action.roles])
  refine fun s => .look ?_
  by_cases hsource : s.disk.hasPath (b.layout.path .forwardSource u) = true
  · rw [if_pos hsource, if_pos hsource]
    refine .bind hR.trans (.note (hR.run (.compile _ _ _) hobject s)) fun _ s =>
      .note (hR.run _ ?_ s)
    rwa [output_standInLinkage]
  · rw [if_neg hsource, if_neg hsource]
    exact .throw (hR.refl s) _

/-- So does every step. -/
theorem passes_take (hR : b.Respects R P) (h : b.Makes entry step.action u P) :
    Passes R (b.courseTake entry plan generated step u) (b.take entry plan generated step u) := by
  intro s
  have hwhole : Frames R (b.take entry plan generated step u) := take_frames hR h
  unfold courseTake
  cases haction : step.action <;> rw [haction] at h
  case generate =>
    unfold take
    rw [haction]
    exact .bind hR.trans (passes_generate hR h s) fun _ s => .pure (hR.refl s) _
  case forwardLink =>
    unfold take
    rw [haction]
    exact .bind hR.trans (passes_forwardLink hR h s) fun _ s => .pure (hR.refl s) _
  all_goals exact .note (hwhole s)

/-- So do steps that are taken one after the other. -/
theorem passes_execute (hR : b.Respects R P)
    (h : ∀ step ∈ steps, ∀ u, b.Makes entry step.action u P) :
    Passes R (b.courseExecute entry plan generated steps)
      (b.execute entry plan generated steps) := by
  induction steps generalizing generated with
  | nil => exact fun s => .pure (hR.refl s) []
  | cons step steps ih =>
    have hrest (generated : NodeSet) : Passes R (b.courseExecute entry plan generated steps)
        (b.execute entry plan generated steps) := ih fun x hx => h x (List.mem_cons_of_mem _ hx)
    refine fun s => .look ?_
    cases s.resolution.program.units.get? step.unit with
    | none => exact hrest generated s
    | some u =>
      refine .bind hR.trans (passes_take hR (h step List.mem_cons_self u) s) fun _ s => ?_
      exact .bind hR.trans (hrest _ s) fun _ s => .pure (hR.refl s) _

/-- What a course passes through if what it makes has a property, as far as only the program changes
    otherwise. -/
theorem passes_unit (hR : b.Respects R P)
    (hresolution : ∀ (s : BuildState σ) (r : Resolution), R s { s with resolution := r })
    (hmakes : ∀ entry action u, b.Makes entry action u P) (root : Nat) :
    Passes R (b.courseUnit name root) (b.buildUnit name root) := by
  refine fun s => .look ?_
  refine .bind hR.trans (passes_execute hR (fun step _ u => hmakes name step.action u) s) ?_
  refine fun records s => .bind hR.trans (.note (hresolution s _)) fun touched s => ?_
  exact .pure (hR.refl s) _

/-- So does the building of an entry point, if changes of the program are kept as well. -/
theorem passes_entry (hR : b.Respects R P)
    (hresolution : ∀ (s : BuildState σ) (r : Resolution), R s { s with resolution := r })
    (hmakes : ∀ entry action u, b.Makes entry action u P) (entry : Entry) :
    Passes R (b.courseEntry entry) (b.buildEntry entry) := by
  have hnamed (definition : Option Definition) :
      Passes R (b.courseNamed entry.name definition) (b.buildNamed entry.name definition) := by
    have hanalyze : Frames R (b.analyze entry.name definition) := fun s => by
      rw [final_analyze]
      exact hresolution s _
    refine fun s => .bind hR.trans (.note (hanalyze s)) fun found s => ?_
    cases found with
    | none => exact .pure (hR.refl s) _
    | some root => exact passes_unit hR hresolution hmakes root s
  refine fun s => .look ?_
  cases b.meaning s entry with
  | byName => exact hnamed none s
  | defined definition => exact hnamed (some definition) s
  | missingIn directory => exact .pure (hR.refl s) _

/-- So do entry points that are built one after the other. -/
theorem passes_entries (hR : b.Respects R P)
    (hresolution : ∀ (s : BuildState σ) (r : Resolution), R s { s with resolution := r })
    (hmakes : ∀ entry action u, b.Makes entry action u P) (entries : List Entry) :
    Passes R (b.courseEntries entries) (startRun >>= fun _ => entries.mapM b.buildEntry) := by
  refine fun s => .bind hR.trans (.note (hresolution s _)) fun _ => ?_
  exact .mapM hR.refl hR.trans (passes_entry hR hresolution hmakes) entries

end

end Builder

end ScriptBuild
