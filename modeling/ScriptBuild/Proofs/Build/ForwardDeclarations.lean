import ScriptBuild.Proofs.Build.GeneratedFiles
import ScriptBuild.Proofs.Build.Inputs

namespace ScriptBuild

variable {σ : Type}

namespace Stub

/-- The definition of a function with an empty body. -/
def emptyFunction (symbol : String) : String := "void " ++ symbol ++ "(void) \x7b\x7d\n"

/-- A text that defines such a function for each of some symbols. -/
def emptyFunctions (display : String) (symbols : List String) : String :=
  "/* forward declarations of " ++ display ++ " */\n" ++ concat (symbols.map emptyFunction)

/-- The forward declarations of a unit define an empty function for each symbol that it exports. -/
theorem forwardSource_eq (u : BuildUnit) :
    forwardSource u = emptyFunctions u.display (u.exports.map u.symbol) := by
  have hfunction : emptyFunction ∘ u.symbol =
      fun slot => "void " ++ u.symbol slot ++ "(void) \x7b\x7d\n" := by
    funext slot
    rw [Function.comp_apply, emptyFunction]
  unfold forwardSource emptyFunctions
  rw [List.map_map, hfunction]

end Stub

/-- Code was generated for a unit, in a cycle or outside of one. -/
structure Generation where
  unit : BuildUnit
  cyclic : Bool

namespace Generation

variable {past more : List Generation} {stem : String} {x : Generation}

/-- The last time that code was generated for a stem. -/
def latest (past : List Generation) (stem : String) : Option Generation :=
  past.reverse.find? fun x => x.unit.stem == stem

/-- The last time that forward declarations were generated for a stem. -/
def declaring (past : List Generation) (stem : String) : Option Generation :=
  past.reverse.find? fun x => x.unit.stem == stem && x.cyclic

theorem latest_append : latest (past ++ more) stem = (latest more stem).or (latest past stem) := by
  rw [latest, List.reverse_append, List.find?_append, ← latest, ← latest]

theorem declaring_append :
    declaring (past ++ more) stem = (declaring more stem).or (declaring past stem) := by
  rw [declaring, List.reverse_append, List.find?_append, ← declaring, ← declaring]

/-- What was last generated in a cycle was declared then. -/
theorem declaring_of_latest (h : latest past stem = some x) (hcyclic : x.cyclic) :
    declaring past stem = some x := by
  obtain ⟨hstem, before, after, hpast, hnone⟩ := List.find?_eq_some_iff_append.1 h
  refine List.find?_eq_some_iff_append.2 ⟨by simp [hstem, hcyclic], before, after, hpast, ?_⟩
  intro y hy
  have hother := hnone y hy
  simp_all

end Generation

/-- The units for which some steps of a plan generate code. -/
def Plan.generations (plan : Plan) (units : Catalog) (steps : List Step) : List Generation :=
  steps.filterMap fun step =>
    if step.action == .generate then
      (units.get? step.unit).map fun u => ⟨u, plan.isCyclic step.unit⟩
    else none

/-- Code is generated for the units for which there is a step that does so, in a cycle if the plan
has them in one. -/
theorem Plan.mem_generations {plan : Plan} {units : Catalog} {steps : List Step} {x : Generation} :
    x ∈ plan.generations units steps ↔ ∃ id, ⟨id, .generate⟩ ∈ steps ∧
      units.get? id = some x.unit ∧ x.cyclic = plan.isCyclic id := by
  rw [generations, List.mem_filterMap]
  constructor
  · rintro ⟨⟨id, action⟩, hstep, hx⟩
    split at hx
    · next haction =>
      obtain rfl : action = .generate := beq_iff_eq.1 haction
      obtain ⟨u, hu, rfl⟩ := Option.map_eq_some_iff.1 hx
      exact ⟨id, hstep, hu, rfl⟩
    · cases hx
  · rintro ⟨id, hstep, hu, hcyclic⟩
    refine ⟨⟨id, .generate⟩, hstep, ?_⟩
    simp only [beq_self_eq_true, if_true, hu, Option.map_some, ← hcyclic]

/-- The stem of a unit is made of its name and its overload number. -/
theorem BuildUnit.stem_congr {u v : BuildUnit} (hname : u.name = v.name)
    (hoverload : u.overload = v.overload) : u.stem = v.stem := by
  rw [stem, stem, hname, hoverload]

/-- Steps that generate the code of a unit generate none for others of its stem. -/
theorem Plan.latest_generations (plan : Plan) {units : Catalog} (steps : List Step) {id : Nat}
    {u : BuildUnit} (hdistinct : units.Distinct) (hu : units.get? id = some u) :
    Generation.latest (plan.generations units steps) u.stem =
      if ⟨id, .generate⟩ ∈ steps then some ⟨u, plan.isCyclic id⟩ else none := by
  have hsame (x : Generation) (hx : x ∈ plan.generations units steps) (hstem : x.unit.stem = u.stem) :
      x = ⟨u, plan.isCyclic id⟩ ∧ ⟨id, .generate⟩ ∈ steps := by
    obtain ⟨other, hstep, hother, hcyclic⟩ := mem_generations.1 hx
    obtain ⟨hname, hoverload⟩ := BuildUnit.stem_injective hstem
    obtain rfl := hdistinct other id x.unit u hother hu hname hoverload
    obtain rfl := Option.some.inj (hother.symm.trans hu)
    exact ⟨by rw [← hcyclic], hstep⟩
  cases hfind : Generation.latest (plan.generations units steps) u.stem with
  | some x =>
    have hx := List.mem_reverse.1 (List.mem_of_find?_eq_some hfind)
    obtain ⟨rfl, hstep⟩ := hsame x hx (by simpa using List.find?_some hfind)
    rw [if_pos hstep]
  | none =>
    rw [if_neg]
    intro hstep
    have hmem : ⟨u, plan.isCyclic id⟩ ∈ plan.generations units steps :=
      mem_generations.2 ⟨id, hstep, hu, rfl⟩
    have hnot := List.find?_eq_none.1 hfind _ (List.mem_reverse.2 hmem)
    simp at hnot

/-- Units of one stem have the same files. -/
theorem Layout.path_of_stem (l : Layout) (role : FileRole) {u v : BuildUnit}
    (hstem : u.stem = v.stem) : l.path role u = l.path role v := by
  rw [path, path, hstem]

/-- The forward declarations of every stem are those that were generated last. -/
structure Declared (l : Layout) (past : List Generation) (d : Disk) : Prop where
  text : ∀ (u : BuildUnit) (x : Generation), Generation.declaring past u.stem = some x →
    d.text? (l.path .forwardSource u) = some (Stub.forwardSource x.unit)
  absent : ∀ u : BuildUnit, Generation.declaring past u.stem = none →
    ¬ d.hasPath (l.path .forwardSource u)

/-- Where nothing is named like the files of a role, no unit has such a file. -/
theorem Layout.not_hasPath_path {l : Layout} {role : FileRole} {d : Disk}
    (hnone : ∀ x ∈ d.nodes.toList, ¬ role.ending.toList <:+ (x.1.getLastD "").toList)
    (u : BuildUnit) : ¬ d.hasPath (l.path role u) := by
  intro hthere
  obtain ⟨spot, node, hleads, hnode, _⟩ := Disk.hasPath_iff.1 hthere
  obtain ⟨place, _, rfl⟩ := leads_path hleads
  have hinside : (place ++ [fileName role u]).isEmpty = false := by simp
  rw [Disk.atSpot?, Disk.at?, hinside, if_neg Bool.false_ne_true] at hnode
  refine hnone _ (Std.ExtTreeMap.mem_toList_iff_getElem?_eq_some.2 hnode) ?_
  rw [List.getLastD_concat, fileName, String.toList_append]
  exact List.suffix_append _ _

theorem Declared.congr {l : Layout} {past past' : List Generation} {d d' : Disk}
    (h : Declared l past d)
    (hsame : ∀ u : BuildUnit, Generation.declaring past' u.stem = Generation.declaring past u.stem ∧
        Disk.SameAt (l.path .forwardSource u) d d' ∨
      ∃ x, Generation.declaring past' u.stem = some x ∧
        d'.text? (l.path .forwardSource u) = some (Stub.forwardSource x.unit)) :
    Declared l past' d' where
  text u x hx := by
    rcases hsame u with ⟨hpast, hat⟩ | ⟨y, hy, htext⟩
    · rw [hat.text]
      exact h.text u x (hpast ▸ hx)
    · obtain rfl := Option.some.inj (hx.symm.trans hy)
      exact htext
  absent u hnone := by
    rcases hsame u with ⟨hpast, hat⟩ | ⟨y, hy, _⟩
    · rw [hat.there]
      exact h.absent u (hpast ▸ hnone)
    · rw [hnone] at hy
      cases hy

/-- Forward declarations are still those that were generated last if they stayed as they were. -/
theorem Declared.sameAt {l : Layout} {past : List Generation} {d d' : Disk} (h : Declared l past d)
    (hsame : ∀ u, Disk.SameAt (l.path .forwardSource u) d d') : Declared l past d' :=
  h.congr fun u => .inl ⟨rfl, hsame u⟩

namespace Builder

open BuildM Generation

variable {b : Builder σ} {s s' t : BuildState σ} {entry : String} {plan : Plan}
  {generated : NodeSet} {step : Step} {steps : List Step} {records : List StepRecord}
  {u v : BuildUnit} {id : Nat} {performed : Bool} {done : Unit} {past : List Generation}
  {i : Invocation} {p : FilePath}

/-- What a path names stays the same as long as nothing is made that leads to its spot. -/
theorem respects_sameAt (hcareful : b.toolchain.Careful) (htidy : b.toolchain.Tidy) (p : FilePath) :
    b.Respects (fun s s' => Disk.SameAt p s.disk s'.disk) p.Apart where
  refl s := .refl p s.disk
  trans _ _ _ := .trans
  run i hapart s := by
    have htext := hcareful i s.tools s.disk p (hapart s.disk)
    have hadds := htidy i s.tools s.disk
    have hthere : (b.toolchain.run i (s.tools, s.disk)).1.2.hasPath p = s.disk.hasPath p := by
      rw [Bool.eq_iff_iff]
      constructor
      · -- A directory could come to the spot without changing any text; tidy tools make none.
        intro hnew
        refine (hadds.hasPath_or hnew).resolve_right ?_
        rintro ⟨q, spot, rfl, hq, hp⟩
        exact hapart s.disk spot hp hq
      · exact hadds.hasPath
    unfold final run
    generalize b.toolchain.run i (s.tools, s.disk) = k at htext hthere ⊢
    obtain ⟨⟨tools, disk⟩, result⟩ := k
    cases result with
    | ok _ => exact ⟨htext, hthere⟩
    | error _ => exact ⟨htext, hthere⟩
  write q text hapart s := by
    simp only [final, writeFile]
    cases hwrite : s.disk.write q (.text text) b.now with
    | ok disk => exact Disk.sameAt_write_of_apart hwrite (hapart s.disk)
    | error _ => exact .refl p s.disk
  copy source q hapart s := by
    simp only [final, copyFile]
    cases hcopy : s.disk.copy source q b.now with
    | ok disk => exact Disk.sameAt_copy_of_apart hcopy (hapart s.disk)
    | error _ => exact .refl p s.disk
  register s _ _ _ := .refl p s.disk

/-- Generating the code of a unit makes its forward declarations if it is in a cycle, and leaves
them alone otherwise. -/
theorem forwardSource_generate (hcareful : b.toolchain.Careful) (htidy : b.toolchain.Tidy)
    (hgenerator : b.generator = Stub.generate) (h : b.generate plan id u s = .ok done s') :
    if plan.isCyclic id then
      s'.disk.text? (b.layout.path .forwardSource u) = some (Stub.forwardSource u)
    else Disk.SameAt (b.layout.path .forwardSource u) s.disk s'.disk := by
  rw [generate, BuildM.get_bind, hgenerator] at h
  cases hcode : Stub.generate (s.resolution.program.stubRequest id u (plan.isCyclic id)) with
  | error fault =>
    rw [hcode] at h
    cases h
  | ok code =>
    have hforward := Stub.forward_of_generate hcode
    rw [Program.stubRequest] at hforward
    rw [hcode] at h
    obtain ⟨_, s₁, hheader, h⟩ := BuildM.bind_eq_ok.1 h
    obtain ⟨_, s₂, hsource, h⟩ := BuildM.bind_eq_ok.1 h
    split
    · next hcyclic =>
      rw [if_pos hcyclic] at hforward
      rw [hforward] at h
      exact text?_writeFile h
    · next hcyclic =>
      rw [if_neg hcyclic] at hforward
      rw [hforward] at h
      cases h
      have hsame := b.respects_sameAt hcareful htidy (b.layout.path .forwardSource u)
      have hfirst := (hsame.write _ _ fun _ => Layout.apart_path (.inl (by decide))).ok hheader
      have hsecond := (hsame.write _ _ fun _ => Layout.apart_path (.inl (by decide))).ok hsource
      exact hfirst.trans hsecond

/-- A step keeps the forward declarations of all stems but the one that it generates code for. -/
theorem declared_take (h : Declared b.layout past s.disk) (hcareful : b.toolchain.Careful)
    (htidy : b.toolchain.Tidy) (hgenerator : b.generator = Stub.generate) {units : Catalog}
    (hu : units.get? step.unit = some u)
    (hrun : b.take entry plan generated step u s = .ok performed s') :
    Declared b.layout (past ++ plan.generations units [step]) s'.disk := by
  refine Declared.congr h fun v => ?_
  have hother (hother : step.action = .generate → u.name ≠ v.name ∨ u.overload ≠ v.overload) :
      Disk.SameAt (b.layout.path .forwardSource v) s.disk s'.disk :=
    (take_frames (b.respects_sameAt hcareful htidy _)
      (avoids_code (by simp [Action.roles]) hother)).ok hrun
  rw [declaring_append]
  by_cases haction : step.action = .generate
  · have hgenerations : plan.generations units [step] = [⟨u, plan.isCyclic step.unit⟩] := by
      simp [Plan.generations, haction, hu]
    rw [hgenerations]
    by_cases hstem : u.stem = v.stem
    · -- Units of one stem share the file, so this is also what there is for the other one.
      rw [← Layout.path_of_stem _ _ hstem]
      have hgenerated : b.generate plan step.unit u s = .ok () s' := by
        unfold Builder.take at hrun
        rw [haction] at hrun
        obtain ⟨_, s₁, hgenerate, hrun⟩ := BuildM.bind_eq_ok.1 hrun
        cases hrun
        exact hgenerate
      have hfile := forwardSource_generate hcareful htidy hgenerator hgenerated
      by_cases hcyclic : plan.isCyclic step.unit
      · rw [if_pos hcyclic] at hfile
        exact .inr ⟨⟨u, plan.isCyclic step.unit⟩, by simp [declaring, hstem, hcyclic], hfile⟩
      · rw [if_neg hcyclic] at hfile
        exact .inl ⟨by simp [declaring, hcyclic], hfile⟩
    · refine .inl ⟨by simp [declaring, hstem], hother fun _ => ?_⟩
      by_contra hequal
      push Not at hequal
      exact hstem (BuildUnit.stem_congr hequal.1 hequal.2)
  · have hnone : plan.generations units [step] = [] := by simp [Plan.generations, haction]
    rw [hnone]
    exact .inl ⟨by simp [declaring], hother fun hgenerate => absurd hgenerate haction⟩

/-- Steps that are taken one after the other declare what they generate in cycles. -/
theorem declared_execute (h : Declared b.layout past s.disk) (hcareful : b.toolchain.Careful)
    (htidy : b.toolchain.Tidy) (hgenerator : b.generator = Stub.generate)
    (hrun : b.execute entry plan generated steps s = .ok records s') :
    Declared b.layout (past ++ plan.generations s.resolution.program.units steps) s'.disk := by
  induction steps generalizing past s generated records with
  | nil =>
    cases hrun
    rw [Plan.generations, List.filterMap_nil, List.append_nil]
    exact h
  | cons step steps ih =>
    have hcons (units : Catalog) : plan.generations units (step :: steps) =
        plan.generations units [step] ++ plan.generations units steps := by
      rw [Plan.generations, Plan.generations, Plan.generations, ← List.filterMap_append]
      rfl
    rw [Builder.execute, BuildM.get_bind] at hrun
    cases hunit : s.resolution.program.units.get? step.unit with
    | none =>
      rw [hunit] at hrun
      have hnone : plan.generations s.resolution.program.units [step] = [] := by
        simp [Plan.generations, hunit]
      rw [hcons, hnone]
      exact ih h hrun
    | some u =>
      rw [hunit] at hrun
      obtain ⟨performed, s₁, htake, hrun⟩ := BuildM.bind_eq_ok.1 hrun
      obtain ⟨later, s₂, hlater, hrun⟩ := BuildM.bind_eq_ok.1 hrun
      cases hrun
      have hresolution : s₁.resolution = s.resolution :=
        ((take_spares hcareful (b.avoids_cacheFile entry step.action u)).ok htake).resolution
      have hfirst := declared_take h hcareful htidy hgenerator hunit htake
      have hrest := ih hfirst hlater
      rw [hresolution] at hrest
      rwa [hcons, ← List.append_assoc]

end Builder

/-- The code of every unit was last generated when the unit was as it is. -/
def Program.GeneratedBy (p : Program) (past : List Generation) : Prop :=
  ∀ id u, p.units.get? id = some u → u.kind.treatment.makesObject →
    ∃ x, Generation.latest past u.stem = some x ∧ x.unit.kept = u.kept

/-- Where bodies are does not matter for stems. -/
theorem BuildUnit.stem_of_kept {u v : BuildUnit} (h : v.kept = u.kept) : v.stem = u.stem := by
  have hown (u : BuildUnit) : u.stem = u.kept.stem := rfl
  rw [hown v, h, ← hown]

/-- Of no unit the code has to be known. -/
theorem Program.generatedBy_empty {past : List Generation} : empty.GeneratedBy past := by
  intro id u hu
  have hlt := Catalog.lt_size_of_get? hu
  exact absurd hlt (Nat.not_lt_zero id)

/-- Where the bodies are does not matter for the code. -/
theorem Program.GeneratedBy.kept {past : List Generation} {p : Program} (h : p.GeneratedBy past) :
    p.kept.GeneratedBy past := by
  intro id u hu hobject
  rw [get?_kept] at hu
  obtain ⟨v, hv, rfl⟩ := Option.map_eq_some_iff.1 hu
  exact h id v hv hobject

namespace Builder

open BuildM Generation Resolution

variable {b : Builder σ} {s s' t : BuildState σ} {entry : Entry} {entries : List Entry}
  {root id : Nat} {u : BuildUnit} {past : List Generation} {result : EntryResult}
  {results : List EntryResult} {p : Program} {a : Archive} {touched : List Nat}
  {before after : List Step} {records : List StepRecord}

/-- The state in which an entry point is planned, and the unit that it was resolved to. -/
def planned (b : Builder σ) (entry : Entry) (s : BuildState σ) : Option (BuildState σ × Nat) :=
  (b.sought s entry).bind fun definition =>
    match b.analyze entry.name definition s with
    | .ok (some root) t => some (t, root)
    | _ => none

/-- An entry point is planned when it stands for a definition that an analysis resolves. -/
theorem planned_eq_some : b.planned entry s = some (t, root) ↔ ∃ definition,
    b.sought s entry = some definition ∧
      b.analyze entry.name definition s = .ok (some root) t := by
  rw [planned, Option.bind_eq_some_iff]
  refine exists_congr fun definition => and_congr_right fun _ => ?_
  split
  · next root' t' hanalyze =>
    rw [hanalyze]
    simp [and_comm]
  · next hother =>
    constructor
    · intro hnone
      cases hnone
    · intro hanalyze
      exact absurd hanalyze (hother root t)

/-- The units for which code is generated for an entry point. -/
def generations (b : Builder σ) (entry : Entry) (s : BuildState σ) : List Generation :=
  match b.planned entry s with
  | some (t, root) =>
    (b.planFor t root).generations t.resolution.program.units (b.planFor t root).steps
  | none => []

/-- The units for which code is generated for some entry points one after the other. -/
def allGenerations (b : Builder σ) : List Entry → BuildState σ → List Generation
  | [], _ => []
  | entry :: entries, s =>
    b.generations entry s ++
      match b.buildEntry entry s with
      | .ok _ s' => allGenerations b entries s'
      | .error _ _ => []

/-- What a planned entry point comes to is what its unit comes to. -/
theorem buildEntry_of_planned (h : b.planned entry s = some (t, root)) :
    b.buildEntry entry s = b.buildUnit entry.name root t := by
  obtain ⟨definition, hsought, hanalyze⟩ := planned_eq_some.1 h
  have hnamed : b.buildNamed entry.name definition s = b.buildUnit entry.name root t := by
    rw [buildNamed, bind_of_ok hanalyze]
  rw [buildEntry, BuildM.get_bind]
  unfold sought at hsought
  cases hmeaning : b.meaning s entry <;> rw [hmeaning] at hsought <;> cases hsought
  · exact hnamed
  · exact hnamed

/-- An entry point that is not planned changes nothing. -/
theorem eq_of_planned_eq_none (h : b.planned entry s = none)
    (hrun : b.buildEntry entry s = .ok result s') : s' = s := by
  have hnamed {definition : Option Definition} (hsought : b.sought s entry = some definition)
      (hrun : b.buildNamed entry.name definition s = .ok result s') : s' = s := by
    obtain ⟨found, s₁, hanalyze, hrun⟩ := BuildM.bind_eq_ok.1 hrun
    cases found with
    | none =>
      obtain ⟨r, hr, rfl⟩ := analyze_eq_ok hanalyze
      cases hrun
      obtain rfl := eq_of_analyze_none hr
      rfl
    | some root =>
      rw [planned_eq_some.2 ⟨definition, hsought, hanalyze⟩] at h
      cases h
  rw [buildEntry, BuildM.get_bind] at hrun
  cases hmeaning : b.meaning s entry <;> rw [hmeaning] at hrun
  · exact hnamed (by rw [sought, hmeaning]) hrun
  · exact hnamed (by rw [sought, hmeaning]) hrun
  · cases hrun
    rfl

/-- Between two entry points: the code and the forward declarations that there are. -/
structure Tracked (b : Builder σ) (past : List Generation) (s : BuildState σ) : Prop where
  code : s.resolution.program.GeneratedBy past
  declared : Declared b.layout past s.disk

/-- A unit whose code is not generated by a plan is as it was when it was generated. -/
theorem latest_of_not_generated (h : s.resolution.program.GeneratedBy past)
    (hbetween : Between p a touched s) (hplanned : b.planned entry s = some (t, root))
    (hu : t.resolution.program.units.get? id = some u) (hobject : u.kind.treatment.makesObject)
    (hnot : ⟨id, .generate⟩ ∉ (b.planFor t root).steps) :
    ∃ x, latest past u.stem = some x ∧ x.unit.kept = u.kept := by
  obtain ⟨definition, _, hanalyze⟩ := planned_eq_some.1 hplanned
  obtain ⟨r, hr, rfl⟩ := analyze_eq_ok hanalyze
  obtain ⟨_, hevolves, hnoted⟩ := hbetween.analyze hr
  have hlinked := hbetween.linked.evolves hevolves
  have hspared : ¬ r.Due id := fun hdue =>
    hnot (generate_mem_planFor (s := { s with resolution := r }) hlinked hnoted hu hobject hdue)
  obtain ⟨v, hv, hkept, _⟩ := made_of_spared hnoted.same hevolves hu hspared
  obtain ⟨x, hx, hsame⟩ := h id v hv (makesObject_of_kept hkept hobject)
  rw [← BuildUnit.stem_of_kept hkept]
  exact ⟨x, hx, hsame.trans hkept⟩

/-- A planned entry point was resolved to a unit of a program that fits together, and the disk is as
before. -/
theorem Between.linked_of_planned (h : Between p a touched s)
    (hplanned : b.planned entry s = some (t, root)) :
    t.resolution.program.Linked ∧ root < t.resolution.program.units.size ∧ t.disk = s.disk := by
  obtain ⟨definition, _, hanalyze⟩ := planned_eq_some.1 hplanned
  obtain ⟨r, hr, rfl⟩ := analyze_eq_ok hanalyze
  obtain ⟨_, hevolves, hnoted⟩ := h.analyze hr
  exact ⟨h.linked.evolves hevolves, hnoted.known, rfl⟩

/-- Building an entry point adds what it generates to the record. -/
theorem Tracked.buildEntry (h : b.Tracked past s) (hbetween : Between p a touched s)
    (hcareful : b.toolchain.Careful) (htidy : b.toolchain.Tidy)
    (hgenerator : b.generator = Stub.generate) (hrun : b.buildEntry entry s = .ok result s') :
    b.Tracked (past ++ b.generations entry s) s' := by
  rw [generations]
  cases hplanned : b.planned entry s with
  | none =>
    obtain rfl := eq_of_planned_eq_none hplanned hrun
    rw [List.append_nil]
    exact h
  | some found =>
    obtain ⟨t, root⟩ := found
    rw [buildEntry_of_planned hplanned] at hrun
    obtain ⟨s₁, hexecute, _, rfl⟩ := buildUnit_eq_ok hrun
    obtain ⟨hlinked, _, hdisk⟩ := hbetween.linked_of_planned hplanned
    have hprogram := (foldl_markBuilt result.touched s₁.resolution).1.trans
      (congrArg program (leaves_of_steps hcareful hexecute).resolution)
    refine ⟨?_, ?_⟩
    · dsimp only
      rw [hprogram]
      intro id u hu hobject
      rw [latest_append, Plan.latest_generations _ _ hlinked.distinct hu]
      split
      · exact ⟨_, rfl, rfl⟩
      · next hnot =>
        exact latest_of_not_generated h.code hbetween hplanned hu hobject hnot
    · have hdeclared := h.declared
      rw [← hdisk] at hdeclared
      have hafter := declared_execute hdeclared hcareful htidy hgenerator hexecute
      exact hafter

/-- So does building entry points one after the other. -/
theorem Tracked.mapM_buildEntry (h : b.Tracked past s) (hbetween : Between p a touched s)
    (hcareful : b.toolchain.Careful) (htidy : b.toolchain.Tidy)
    (hgenerator : b.generator = Stub.generate)
    (hrun : entries.mapM b.buildEntry s = .ok results s') :
    b.Tracked (past ++ b.allGenerations entries s) s' := by
  induction entries generalizing past touched s results with
  | nil =>
    rw [List.mapM_nil] at hrun
    cases hrun
    rw [allGenerations, List.append_nil]
    exact h
  | cons entry entries ih =>
    rw [List.mapM_cons] at hrun
    obtain ⟨result, s₁, hentry, hrun⟩ := BuildM.bind_eq_ok.1 hrun
    obtain ⟨rest, s₂, hrest, hrun⟩ := BuildM.bind_eq_ok.1 hrun
    cases hrun
    have hfirst := h.buildEntry hbetween hcareful htidy hgenerator hentry
    have hafter := ih hfirst (hbetween.buildEntry hcareful hentry) hrest
    rw [allGenerations, hentry, ← List.append_assoc]
    exact hafter

/-- The units for which code is generated in a build that begins a new run. -/
def buildGenerations (b : Builder σ) (entries : List Entry) (s : BuildState σ) : List Generation :=
  b.allGenerations entries { s with resolution := s.resolution.reset }

/-- A whole build adds what it generates to the record, as keeping the archive generates nothing. -/
theorem Tracked.build {report : Report} (h : b.Tracked past s)
    (hrecords : s.archive.Records s.resolution.program) (hcareful : b.toolchain.Careful)
    (htidy : b.toolchain.Tidy) (hgenerator : b.generator = Stub.generate)
    (hrun : b.build entries s = .ok report s') :
    b.Tracked (past ++ b.buildGenerations entries s) s' := by
  obtain ⟨results, s₁, hentries, hpersist, _⟩ := build_eq_ok.1 hrun
  have hstart : b.Tracked past { s with resolution := s.resolution.reset } := ⟨h.code, h.declared⟩
  have hafter := hstart.mapM_buildEntry (between_start hrecords rfl) hcareful htidy hgenerator
    hentries
  have hsame := b.sameAt_persist (Std.ExtTreeSet.ofList (results.flatMap (·.touched))) s₁
    .forwardSource
  rw [final, hpersist] at hsame
  refine ⟨?_, hafter.declared.sameAt hsame⟩
  rw [(persist_eq_ok hpersist).1]
  exact hafter.code

/-- Two disks have the same archive, and the same forward declarations of every unit or none. -/
structure SameDeclarations (l : Layout) (d d' : Disk) : Prop where
  archive : d'.text? l.cacheFile = d.text? l.cacheFile
  forward : ∀ u, Disk.SameAt (l.path .forwardSource u) d d'

/-- What code was generated in the builds of some processes that share an archive and all succeed,
and the disk that they leave. There are no forward declarations before the first one, and between
two processes anything may change but the archive and the forward declarations. -/
inductive Recorded (l : Layout) : List Generation → Disk → Prop where
  | start {d : Disk} (hnone : d.text? l.cacheFile = none)
      (hforward : ∀ u, ¬ d.hasPath (l.path .forwardSource u)) : Recorded l [] d
  | built {σ : Type} (b : Builder σ) (hcareful : b.toolchain.Careful) (htidy : b.toolchain.Tidy)
      (hgenerator : b.generator = Stub.generate) (hlayout : b.layout = l) {past : List Generation}
      {d d' : Disk} (h : Recorded l past d) (hsame : SameDeclarations l d d') (tools : σ)
      (entries : List Entry) {report : Report} {s' : BuildState σ}
      (hrun : b.build entries (.start b.config d' tools) = .ok report s') :
      Recorded l (past ++ b.buildGenerations entries (.start b.config d' tools)) s'.disk

/-- What a process finds: an archive with the rows of a program, the code of its units, and the
forward declarations that were generated last. -/
structure Settled (l : Layout) (past : List Generation) (d : Disk) : Prop where
  kept : Archive.Kept d l.cacheFile
  code : (Archive.load d l.cacheFile).toProgram.GeneratedBy past
  declared : Declared l past d

/-- What a process finds is found on every disk with the same archive and the same forward
declarations. -/
theorem Settled.sameDeclarations {l : Layout} {d d' : Disk} (h : Settled l past d)
    (hsame : SameDeclarations l d d') : Settled l past d' where
  kept := by
    rw [Archive.Kept, hsame.archive]
    exact h.kept
  code := by
    rw [Archive.load, hsame.archive, ← Archive.load]
    exact h.code
  declared := h.declared.sameAt hsame.forward

/-- A process starts with code and forward declarations that are recorded. -/
theorem Settled.tracked {d : Disk} {tools : σ} (h : Settled b.layout past d) :
    b.Tracked past (.start b.config d tools) := ⟨h.code, h.declared⟩

/-- A process leaves behind what the next one has to find. -/
theorem Settled.build {d : Disk} {tools : σ} {report : Report} (h : Settled b.layout past d)
    (hcareful : b.toolchain.Careful) (htidy : b.toolchain.Tidy)
    (hgenerator : b.generator = Stub.generate)
    (hrun : b.build entries (.start b.config d tools) = .ok report s') :
    Settled b.layout (past ++ b.buildGenerations entries (.start b.config d tools)) s'.disk := by
  obtain ⟨hrecords, htext⟩ := records_build_start hcareful h.kept hrun
  have hafter := h.tracked.build h.kept.load hcareful htidy hgenerator hrun
  refine ⟨.inr ⟨_, _, hrecords, htext⟩, ?_, hafter.declared⟩
  rw [Archive.load, htext]
  dsimp only
  rw [Archive.parseOrEmpty_document _ hrecords.version]
  split
  · rw [hrecords.toProgram_eq]
    exact hafter.code.kept
  · exact Program.generatedBy_empty

/-- After any number of builds a process finds what it has to. -/
theorem Recorded.settled {l : Layout} {d : Disk} (h : Recorded l past d) : Settled l past d := by
  induction h with
  | start hnone hforward =>
    refine ⟨.inl hnone, ?_, ?_⟩
    · rw [Archive.load, hnone]
      exact Program.generatedBy_empty
    · exact ⟨fun _ _ hx => absurd hx (by simp [declaring]), fun u _ => hforward u⟩
  | built b hcareful htidy hgenerator hlayout _ hsame tools entries hrun ih =>
    subst hlayout
    exact (ih.sameDeclarations hsame).build hcareful htidy hgenerator hrun

/-- In the course of a build of some entry points a step is about to be taken, after code was
generated for some units. -/
def FacesAfter (b : Builder σ) (entries : List Entry) (s : BuildState σ) (made : List Generation)
    (step : Step) (t : BuildState σ) : Prop :=
  ∃ former entry rest results s₁ s₂ root before after records,
    entries = former ++ entry :: rest ∧
    former.mapM b.buildEntry { s with resolution := s.resolution.reset } = .ok results s₁ ∧
    b.planned entry s₁ = some (s₂, root) ∧
    (b.planFor s₂ root).steps = before ++ step :: after ∧
    b.execute entry.name (b.planFor s₂ root) ∅ before s₂ = .ok records t ∧
    made = b.allGenerations former { s with resolution := s.resolution.reset } ++
      (b.planFor s₂ root).generations s₂.resolution.program.units before

section

variable (hsteps : (b.planFor t root).steps = before ++ ⟨id, .forwardLink⟩ :: after)

include hsteps

/-- Stand-ins are made only with a module for each unit. -/
theorem mode_of_forwardLink : (b.planningOf t t.resolution.freshness).mode = .perUnit := by
  have hmem : ⟨id, .forwardLink⟩ ∈ (b.planFor t root).steps := by
    rw [hsteps]
    exact List.mem_append_right _ List.mem_cons_self
  rw [planFor_eq] at hmem
  exact Planning.mode_of_mem_steps hmem (by simp [Action.rank]) (by simp)

variable (hlinked : t.resolution.program.Linked) (hroot : root < t.resolution.program.units.size)
  (hu : t.resolution.program.units.get? id = some u)

include hlinked hroot

/-- If the code of a unit is generated at all, then before the stand-in is made. -/
theorem generate_before_forwardLink (hgenerate : ⟨id, .generate⟩ ∈ (b.planFor t root).steps) :
    ⟨id, .generate⟩ ∈ before := by
  have hmode := mode_of_forwardLink hsteps
  rw [planFor_eq] at hsteps hgenerate
  have hearlier : Plan.Earlier _ ⟨id, .generate⟩ ⟨id, .forwardLink⟩ :=
    Planning.earlier_of_rank hlinked.node hroot hmode (by simp [Action.rank])
  exact hearlier.mem_before hsteps hgenerate

include hu

/-- Stand-ins are made only for units with code. -/
theorem makesObject_of_forwardLink : u.kind.treatment.makesObject := by
  have hmem : ⟨id, .forwardLink⟩ ∈ (b.planFor t root).steps := by
    rw [hsteps]
    exact List.mem_append_right _ List.mem_cons_self
  rw [planFor_eq] at hmem
  obtain ⟨_, hobject⟩ := Planning.mem_steps hlinked.node hroot hmem (by simp)
  rwa [makesObject_planningOf hu] at hobject

/-- Forward declarations were generated at some time before a stand-in is made of them. -/
theorem exists_declaring_of_forwardLink (hdeclared : Declared b.layout past t.disk) :
    ∃ w, declaring (past ++ (b.planFor t root).generations t.resolution.program.units before) u.stem =
      some w := by
  have hmode := mode_of_forwardLink hsteps
  have hthere := hsteps
  rw [planFor_eq] at hthere
  rcases Planning.forwardSource_before_forwardLink hlinked.node hroot hmode hthere with
    hold | ⟨hgenerated, hcyclic⟩
  · -- They were there when the plan was made, and nothing else makes such a file.
    rw [hasFile_planningOf hu] at hold
    rw [declaring_append]
    cases hnow : declaring ((b.planFor t root).generations t.resolution.program.units before) u.stem
    · cases hpast : declaring past u.stem with
      | some w => exact ⟨w, rfl⟩
      | none => exact absurd hold (hdeclared.absent u hpast)
    · exact ⟨_, rfl⟩
  · have hlatest := (b.planFor t root).latest_generations before hlinked.distinct hu
    rw [if_pos hgenerated] at hlatest
    rw [declaring_append, declaring_of_latest hlatest hcyclic]
    exact ⟨_, rfl⟩

end

/-- The code of a unit was last generated when the unit was as it is when a stand-in is made. -/
theorem Tracked.latest_of_forwardLink (h : b.Tracked past s) (hbetween : Between p a touched s)
    (hplanned : b.planned entry s = some (t, root))
    (hsteps : (b.planFor t root).steps = before ++ ⟨id, .forwardLink⟩ :: after)
    (hu : t.resolution.program.units.get? id = some u) :
    ∃ x, latest (past ++ (b.planFor t root).generations t.resolution.program.units before) u.stem =
      some x ∧ x.unit.kept = u.kept := by
  obtain ⟨hlinked, hroot, _⟩ := hbetween.linked_of_planned hplanned
  rw [latest_append, Plan.latest_generations _ _ hlinked.distinct hu]
  split
  · exact ⟨_, rfl, rfl⟩
  · next hnot =>
    have hobject := makesObject_of_forwardLink hsteps hlinked hroot hu
    exact latest_of_not_generated h.code hbetween hplanned hu hobject fun hgenerate =>
      hnot (generate_before_forwardLink hsteps hlinked hroot hgenerate)

/-- A stand-in is made of declarations of what the unit exported when its code was last generated in
a cycle. The code was last generated when the unit was as it is, but it need not have been in a cycle
then: if it was, the stand-in defines exactly the symbols of what the unit exports. -/
theorem declarations_of_forwardLink (b : Builder σ) (hcareful : b.toolchain.Careful)
    (htidy : b.toolchain.Tidy) (hgenerator : b.generator = Stub.generate) (past : List Generation)
    (d d' : Disk) (hrecorded : Recorded b.layout past d) (hsame : SameDeclarations b.layout d d')
    (tools : σ) (entries : List Entry) (made : List Generation) (id : Nat) (t : BuildState σ)
    (hfaces : b.FacesAfter entries (.start b.config d' tools) made ⟨id, .forwardLink⟩ t)
    (u : BuildUnit) (hu : t.resolution.program.units.get? id = some u) :
    ∃ w x, declaring (past ++ made) u.stem = some w ∧ latest (past ++ made) u.stem = some x ∧
      x.unit.kept = u.kept ∧
      t.disk.text? (b.layout.path .forwardSource u) =
        some (Stub.emptyFunctions w.unit.display (w.unit.exports.map w.unit.symbol)) ∧
      (x.cyclic → w.unit.exports.map w.unit.symbol = u.exports.map u.symbol) := by
  obtain ⟨former, entry, rest, results, s₁, s₂, root, before, after, records, _, hformer, hplanned,
    hsteps, hrun, rfl⟩ := hfaces
  have hsettled := hrecorded.settled.sameDeclarations hsame
  have hstart : b.Tracked past { BuildState.start b.config d' tools with
      resolution := (BuildState.start b.config d' tools).resolution.reset } :=
    ⟨hsettled.code, hsettled.declared⟩
  have hbetween := between_start (s := .start b.config d' tools) hsettled.kept.load rfl
  have htracked := hstart.mapM_buildEntry hbetween hcareful htidy hgenerator hformer
  have hafter := hbetween.mapM_buildEntry hcareful hformer
  obtain ⟨hlinked, hroot, hdisk⟩ := hafter.linked_of_planned hplanned
  rw [(leaves_of_steps hcareful hrun).resolution] at hu
  have hdeclared := htracked.declared
  rw [← hdisk] at hdeclared
  obtain ⟨w, hw⟩ := exists_declaring_of_forwardLink hsteps hlinked hroot hu hdeclared
  obtain ⟨x, hx, hkept⟩ := htracked.latest_of_forwardLink hafter hplanned hsteps hu
  have hthen := declared_execute hdeclared hcareful htidy hgenerator hrun
  rw [← List.append_assoc]
  refine ⟨w, x, hw, hx, hkept, ?_, fun hcyclic => ?_⟩
  · rw [hthen.text u w hw, Stub.forwardSource_eq]
  · obtain rfl := Option.some.inj (hw.symm.trans (declaring_of_latest hx hcyclic))
    have hown (u : BuildUnit) : u.exports.map u.symbol = u.kept.exports.map u.kept.symbol := rfl
    rw [hown w.unit, hkept, ← hown]

/-- For a single entry point, code is generated as its plan says. -/
theorem allGenerations_singleton (b : Builder σ) (h : b.planned entry s = some (t, root)) :
    b.allGenerations [entry] s =
      (b.planFor t root).generations t.resolution.program.units (b.planFor t root).steps := by
  rw [allGenerations, generations, h]
  cases b.buildEntry entry s <;> exact List.append_nil _

/-- An entry point that is located and can be analyzed is planned. -/
theorem planned_of_located {name : String} {directory : FilePath} {definition : Definition}
    (hmeaning : b.meaning s (.located name directory) = .defined definition)
    (hanalyze : b.analyze name (some definition) s = .ok (some root) t) :
    b.planned (.located name directory) s = some (t, root) :=
  planned_eq_some.2 ⟨_, sought_of_meaning hmeaning, hanalyze⟩

/-- The first unit of the pair is the script f. -/
theorem get?_pair : pairAnalyzed.resolution.program.units.get? 0 = some (pairUnit "f") := by
  rw [analysis_pair.units]
  rfl

/-- In the first build of the pair, code was generated for the first script while it was in a cycle. -/
theorem latest_buildGenerations_pair :
    latest (stubBuilder.buildGenerations [.located "f" ⟨"."⟩] pairStart) (pairUnit "f").stem =
      some ⟨pairUnit "f", true⟩ := by
  have hplanned : stubBuilder.planned (.located "f" ⟨"."⟩) pairReset = some (pairAnalyzed, 0) :=
    planned_of_located analysis_pair.meaning analysis_pair.analyze
  have hgenerations := stubBuilder.allGenerations_singleton hplanned
  rw [analysis_pair.steps_planFor] at hgenerations
  rw [buildGenerations]
  refine (congrArg (latest · _) hgenerations).trans ?_
  rw [Plan.latest_generations _ _ records_pairArchive.linked.distinct get?_pair,
    if_pos (by decide), (analysis_pair.ofMutual _).first]

/-- The first build of the pair records what it generates. -/
theorem recorded_pair {report : Report} {s : BuildState Unit}
    (hrun : stubBuilder.build [.located "f" ⟨"."⟩] pairStart = .ok report s) :
    Recorded stubBuilder.layout (stubBuilder.buildGenerations [.located "f" ⟨"."⟩] pairStart)
      s.disk := by
  have hstart : Recorded stubBuilder.layout [] pairDisk :=
    .start text?_pairDisk (Layout.not_hasPath_path (by decide +kernel))
  exact .built stubBuilder careful_stubBuilder tidy_emptyFiles rfl rfl hstart
    ⟨rfl, fun _ => .refl _ _⟩ () _ hrun

/-- The steps of the second build before its first stand-in is made, if there is a module for each
unit. -/
def redoneSteps : List Step := [⟨1, .generate⟩, ⟨1, .compile⟩]

/-- With a module for each unit, the plan for the edited pair makes stand-ins after all code was
compiled. -/
theorem steps_modules_grown : (modulesBuilder.planFor grownAnalyzed 0).steps =
    redoneSteps ++ ⟨0, .forwardLink⟩ ::
      [⟨1, .forwardLink⟩, ⟨0, .link⟩, ⟨1, .link⟩, ⟨0, .relink⟩, ⟨1, .relink⟩, ⟨0, .emit⟩] := by
  rw [steps_planFor_mutual analysis_grown.size analysis_grown.graph]
  decide +kernel

theorem succeeds_redoneSteps {plan : Plan} (h : OfMutual plan) :
    BuildM.succeeds (modulesBuilder.execute "f" plan ∅ redoneSteps) grownAnalyzed := by
  simp only [redoneSteps, execute, take, generate, h.second]
  decide +kernel

/-- A build of the edited pair comes to the stand-in of the first script. -/
theorem facesAfter_grown : ∃ t, modulesBuilder.FacesAfter [.located "f" ⟨"."⟩]
      (.start modulesBuilder.config (editedDisk grownText) ())
      ((modulesBuilder.planFor grownAnalyzed 0).generations
        grownAnalyzed.resolution.program.units redoneSteps) ⟨0, .forwardLink⟩ t ∧
    t.resolution = grownAnalyzed.resolution := by
  have hstart : .start modulesBuilder.config (editedDisk grownText) () =
      (⟨editedDisk grownText, (), .start pairArchive.toProgram, pairArchive, []⟩ : BuildState Unit) :=
    start_pairArchive (text?_editedDisk grownText)
  have hplanned : modulesBuilder.planned (.located "f" ⟨"."⟩) grownReset = some (grownAnalyzed, 0) := by
    apply planned_of_located
    · rw [meaning_modules]
      exact analysis_grown.meaning
    · rw [analyze_modules]
      exact analysis_grown.analyze
  obtain ⟨records, t, hrun⟩ := BuildM.exists_ok_of_succeeds
    (succeeds_redoneSteps (analysis_grown.ofMutual modulesBuilder))
  have hresolution := (leaves_of_steps (b := modulesBuilder) careful_emptyFiles hrun).resolution
  have hformer : [].mapM modulesBuilder.buildEntry
      { BuildState.start modulesBuilder.config (editedDisk grownText) () with
        resolution := (BuildState.start modulesBuilder.config (editedDisk grownText) ()).resolution.reset } =
        .ok [] grownReset := by
    rw [hstart]
    rfl
  exact ⟨t, ⟨[], .located "f" ⟨"."⟩, [], [], grownReset, grownAnalyzed, 0, redoneSteps, _, records,
    rfl, hformer, hplanned, steps_modules_grown, hrun, (List.nil_append _).symm⟩, hresolution⟩

/-- The pair is built, the second script is edited, and the pair is built again, this time into
modules. The code of the first script is not generated again: its stand-in is made of what was declared
in the first build, which is the function that it still exports. -/
theorem declarations_of_forwardLink_pair : ∃ report s₁ made t,
    stubBuilder.build [.located "f" ⟨"."⟩] pairStart = .ok report s₁ ∧
    Recorded modulesBuilder.layout (stubBuilder.buildGenerations [.located "f" ⟨"."⟩] pairStart)
      s₁.disk ∧
    SameDeclarations modulesBuilder.layout s₁.disk (editedDisk grownText) ∧
    modulesBuilder.FacesAfter [.located "f" ⟨"."⟩]
      (.start modulesBuilder.config (editedDisk grownText) ()) made ⟨0, .forwardLink⟩ t ∧
    latest made (pairUnit "f").stem = none ∧
    t.resolution.program.units.get? 0 = some (pairUnit "f") ∧
    t.disk.text? (modulesBuilder.layout.path .forwardSource (pairUnit "f")) =
      some (Stub.emptyFunctions "f" ["sc_f_0_f"]) := by
  obtain ⟨report, s₁, hfirst, hbuilt⟩ := build_pair
  obtain ⟨t, hfaces, hresolution⟩ := facesAfter_grown
  have hrecorded := recorded_pair hfirst
  have hsame : SameDeclarations modulesBuilder.layout s₁.disk (editedDisk grownText) :=
    ⟨(text?_editedDisk grownText).trans hbuilt.text.symm, hbuilt.files grownText .forwardSource⟩
  have hget : grownAnalyzed.resolution.program.units.get? 0 = some (pairUnit "f") := by
    rw [analysis_grown.units]
    rfl
  have hu : t.resolution.program.units.get? 0 = some (pairUnit "f") := by rw [hresolution, hget]
  have hmade := (modulesBuilder.planFor grownAnalyzed 0).latest_generations redoneSteps
    linked_grown.distinct hget
  rw [if_neg (by decide)] at hmade
  obtain ⟨w, x, hw, -, -, htext, -⟩ := declarations_of_forwardLink modulesBuilder
    careful_emptyFiles tidy_emptyFiles rfl _ s₁.disk (editedDisk grownText) hrecorded hsame () _ _ 0 t
    hfaces _ hu
  have hlatest : latest (stubBuilder.buildGenerations [.located "f" ⟨"."⟩] pairStart ++
      (modulesBuilder.planFor grownAnalyzed 0).generations grownAnalyzed.resolution.program.units
        redoneSteps) (pairUnit "f").stem = some ⟨pairUnit "f", true⟩ := by
    rw [latest_append, hmade, latest_buildGenerations_pair, Option.none_or]
  obtain rfl := Option.some.inj (hw.symm.trans (declaring_of_latest hlatest rfl))
  refine ⟨report, s₁, _, t, hfirst, hrecorded, hsame, hfaces, hmade, hu, htext.trans ?_⟩
  decide +kernel

end Builder

end ScriptBuild
