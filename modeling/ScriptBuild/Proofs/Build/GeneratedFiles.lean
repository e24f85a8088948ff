import ScriptBuild.Proofs.Build.Persistence

namespace ScriptBuild

namespace Stub

variable {r r' : Request} {code : Generated} {u v : BuildUnit}

/-- The source that is generated. -/
def Request.source (r : Request) : String :=
  if r.unit.kind == .globals then tableSource r.unit else functionSource r

/-- If code is generated at all, the header is that of the unit, and the source is the one that the
request asks for. -/
theorem generate_eq_ok (h : generate r = .ok code) :
    code.header = header r.unit ∧ code.source = r.source := by
  unfold generate at h
  rw [Request.source]
  cases hkind : r.unit.kind <;> rw [hkind] at h <;> cases h <;> exact ⟨rfl, rfl⟩

/-- Forward declarations are generated exactly for members of cycles. -/
theorem forward_of_generate (h : generate r = .ok code) :
    code.forward = if r.cyclic then some (forwardSource r.unit) else none := by
  unfold generate at h
  cases hkind : r.unit.kind <;> rw [hkind] at h <;> cases h <;> rfl

/-- Code refers in the same way to the same names of two units. -/
structure Interchangeable (d e : BuildUnit × List String) : Prop where
  kind : e.1.kind = d.1.kind
  stem : e.1.stem = d.1.stem
  names : e.2 = d.2
  exports : ∀ n ∈ d.2, e.1.exports.contains n = d.1.exports.contains n

/-- Each name that both have is used in the same way. -/
theorem Interchangeable.use {d e : BuildUnit × List String} (h : Interchangeable d e) {n : String}
    (hn : n ∈ d.2) : use e.1 n = use d.1 n := by
  rw [Stub.use, Stub.use, h.kind, h.exports n hn, BuildUnit.symbol, BuildUnit.symbol, h.stem]

/-- Units that are interchangeable one by one give the same uses and the same included headers. -/
theorem uses_congr {ds es : List (BuildUnit × List String)}
    (h : List.Forall₂ Interchangeable ds es) :
    (es.filter fun e => isCallable e.1).flatMap (fun e => e.2.map (use e.1)) =
        (ds.filter fun d => isCallable d.1).flatMap (fun d => d.2.map (use d.1)) ∧
      (es.filter fun e => isCallable e.1).map (·.1.includeLine) =
        (ds.filter fun d => isCallable d.1).map (·.1.includeLine) := by
  induction h with
  | nil => exact ⟨rfl, rfl⟩
  | @cons d e ds es hfirst _ ih =>
    have hcallable : isCallable e.1 = isCallable d.1 := by
      rw [isCallable, isCallable, hfirst.kind]
    have huses : e.2.map (use e.1) = d.2.map (use d.1) := by
      rw [hfirst.names]
      exact List.map_congr_left fun n hn => hfirst.use hn
    have hinclude : e.1.includeLine = d.1.includeLine := by
      rw [BuildUnit.includeLine, BuildUnit.includeLine, hfirst.stem]
    rw [List.filter_cons, List.filter_cons, hcallable]
    split
    · rw [List.flatMap_cons, List.flatMap_cons, List.map_cons, List.map_cons, huses, hinclude,
        ih.1, ih.2]
      exact ⟨rfl, rfl⟩
    · exact ih

/-- The source depends on other units by what code refers to. -/
theorem functionSource_congr (hunit : r'.unit.kept = r.unit.kept)
    (hunresolved : r'.unresolved = r.unresolved)
    (hdependencies : List.Forall₂ Interchangeable r.dependencies r'.dependencies) :
    functionSource r' = functionSource r := by
  obtain ⟨huses, hincludes⟩ := uses_congr hdependencies
  have hparts (r : Request) : functionSource r = r.unit.kept.includeLine ++
      concat ((r.dependencies.filter fun d => isCallable d.1).map (·.1.includeLine)) ++
      concat (r.unresolved.map fun name => "/* resolved at run time: " ++ name ++ " */\n") ++
      functions r.unit.kept (concat ((r.dependencies.filter fun d => isCallable d.1).flatMap
        fun d => d.2.map (use d.1))) r.unit.kept.exports := rfl
  rw [hparts, hparts, hunit, hunresolved, huses, hincludes]

/-- The source stays the same if the unit stays as it is, and what it imports can be
interchanged. -/
theorem source_congr (hunit : r'.unit.kept = r.unit.kept)
    (hunresolved : r'.unresolved = r.unresolved)
    (hdependencies : List.Forall₂ Interchangeable r.dependencies r'.dependencies) :
    r'.source = r.source := by
  have htable : tableSource r'.unit = tableSource r.unit := by
    have hkept (u : BuildUnit) : tableSource u = tableSource u.kept := rfl
    rw [hkept, hunit, ← hkept]
  have hkind : r'.unit.kept.kind = r.unit.kept.kind := congrArg BuildUnit.kind hunit
  change r'.unit.kind = r.unit.kind at hkind
  rw [Request.source, Request.source, hkind, htable,
    functionSource_congr hunit hunresolved hdependencies]

end Stub

namespace Catalog

variable {c d e : Catalog}

/-- Every unit stays at its number with its name and its kind. -/
def Keeps (c d : Catalog) : Prop := ∀ id u, c.get? id = some u →
  ∃ v, d.get? id = some v ∧ v.name = u.name ∧ v.overload = u.overload ∧ v.kind = u.kind

theorem Keeps.refl (c : Catalog) : c.Keeps c := fun _ u hget => ⟨u, hget, rfl, rfl, rfl⟩

theorem Keeps.trans (h : c.Keeps d) (h' : d.Keeps e) : c.Keeps e := by
  intro id u hu
  obtain ⟨v, hv, hname, hoverload, hkind⟩ := h id u hu
  obtain ⟨w, hw, hname', hoverload', hkind'⟩ := h' id v hv
  exact ⟨w, hw, hname'.trans hname, hoverload'.trans hoverload, hkind'.trans hkind⟩

/-- Units that grow keep their numbers, names and kinds. -/
theorem Grows.keeps (h : c.Grows d) : c.Keeps d := by
  intro id u hu
  obtain ⟨v, hv, hbecomes⟩ := h id u hu
  exact ⟨v, hv, hbecomes.name, hbecomes.overload, hbecomes.kind⟩

end Catalog

namespace Program

variable {p q : Program} {id other : Nat} {u v : BuildUnit} {n : String} {cyclic : Bool}

/-- What is kept of a program has the units at their numbers, with their names and kinds. -/
theorem keeps_kept (p : Program) : p.units.Keeps p.kept.units := by
  intro id u hu
  exact ⟨u.kept, by rw [get?_kept, hu, Option.map_some], rfl, rfl, rfl⟩

/-- A unit exports a name. -/
def Exports (p : Program) (id : Nat) (n : String) : Prop :=
  ∃ u, p.units.get? id = some u ∧ n ∈ u.exports

/-- The names that a unit imports are exported in one program exactly if they are in another. -/
def SameExports (p q : Program) (id : Nat) : Prop :=
  ∀ other n, p.Takes id (.unit other) n → (q.Exports other n ↔ p.Exports other n)

theorem SameExports.refl (p : Program) (id : Nat) : SameExports p p id := fun _ _ _ => Iff.rfl

/-- Two lists that are made from the same items are related one by one if what is made of each item
is. -/
theorem forall₂_filterMap {α β γ : Type} {f : α → Option β} {g : α → Option γ}
    {R : β → γ → Prop} (items : List α)
    (h : ∀ x ∈ items, ∃ a b, f x = some a ∧ g x = some b ∧ R a b) :
    List.Forall₂ R (items.filterMap f) (items.filterMap g) := by
  induction items with
  | nil => exact .nil
  | cons x items ih =>
    obtain ⟨a, b, hf, hg, hrelated⟩ := h x List.mem_cons_self
    rw [List.filterMap_cons, List.filterMap_cons, hf, hg]
    exact .cons hrelated (ih fun y hy => h y (List.mem_cons_of_mem _ hy))

/-- The source of a unit that stays as it is and imports the same stays the same as long as the
imported names are exported or not as before. -/
theorem source_stubRequest (hlinked : p.Linked) (hkeeps : p.units.Keeps q.units)
    (hunit : v.kept = u.kept) (himports : q.importsOf id = p.importsOf id)
    (hexports : p.SameExports q id) :
    (q.stubRequest id v cyclic).source = (p.stubRequest id u cyclic).source := by
  have hdependencies : List.Forall₂ Stub.Interchangeable (p.stubRequest id u cyclic).dependencies
      (q.stubRequest id v cyclic).dependencies := by
    simp only [stubRequest, himports]
    refine forall₂_filterMap _ fun x hmem => ?_
    obtain ⟨other, names⟩ := x
    have hfound := Std.ExtTreeMap.mem_toList_iff_getElem?_eq_some.1 hmem
    have htakes (n : String) (hn : n ∈ names) : p.Takes id (.unit other) n := by
      simpa [Takes, Imports.Has, Std.ExtTreeMap.getD_eq_getD_getElem?, hfound] using hn
    obtain ⟨n, hn⟩ := Imports.exists_mem_of_ne_empty (hlinked.proper id other names hfound)
    obtain ⟨w, hw⟩ := Catalog.exists_get? (hlinked.lt_of_takes (htakes n hn))
    obtain ⟨x, hx, hname, hoverload, hkind⟩ := hkeeps other w hw
    refine ⟨(w, names.toList), (x, names.toList), by simp [hw], by simp [hx], hkind, ?_, rfl,
      fun n hn => ?_⟩
    · rw [BuildUnit.stem, BuildUnit.stem, hname, hoverload]
    · have hsame := hexports other n (htakes n (Std.ExtTreeSet.mem_toList.1 hn))
      rw [Exports, Exports, hx, hw] at hsame
      rw [Bool.eq_iff_iff, List.contains_iff_mem, List.contains_iff_mem]
      simpa using hsame
  refine Stub.source_congr hunit ?_ hdependencies
  rw [stubRequest, stubRequest, unresolvedNames, unresolvedNames, himports]

end Program

namespace Layout

variable {l : Layout} {d d' d'' : Disk} {u v : BuildUnit} {r : Stub.Request}

/-- The header and the source of a unit are the generated ones. -/
structure Holds (l : Layout) (d : Disk) (r : Stub.Request) : Prop where
  header : d.text? (l.path .header r.unit) = some (Stub.header r.unit)
  source : d.text? (l.path .source r.unit) = some r.source

/-- The header and the source of a unit are the same on two disks. -/
structure SameCode (l : Layout) (d d' : Disk) (u : BuildUnit) : Prop where
  header : d'.text? (l.path .header u) = d.text? (l.path .header u)
  source : d'.text? (l.path .source u) = d.text? (l.path .source u)

theorem SameCode.refl (l : Layout) (d : Disk) (u : BuildUnit) : l.SameCode d d u := ⟨rfl, rfl⟩

theorem SameCode.trans (h : l.SameCode d d' u) (h' : l.SameCode d' d'' u) : l.SameCode d d'' u :=
  ⟨h'.header.trans h.header, h'.source.trans h.source⟩

/-- Code that stays the same is still the generated one. -/
theorem SameCode.holds (h : l.SameCode d d' r.unit) (hholds : l.Holds d r) : l.Holds d' r :=
  ⟨h.header.trans hholds.header, h.source.trans hholds.source⟩

end Layout

namespace Builder

variable {σ : Type} {b : Builder σ} {s s' : BuildState σ} {plan : Plan} {generated : NodeSet}
  {entry : String} {id : Nat} {u v : BuildUnit} {cyclic performed : Bool} {done : Unit}
  {steps : List Step} {step : Step} {records : List StepRecord} {p : FilePath} {text : String}
  {role : FileRole}

/-- A file has the text that was written. -/
theorem text?_writeFile (h : b.writeFile p text s = .ok done s') :
    s'.disk.text? p = some text := by
  unfold writeFile at h
  split at h
  · next disk hwrite =>
    cases h
    exact Disk.text?_write hwrite
  · cases h

/-- Generating the code of a unit makes its header and its source. -/
theorem holds_generate (hgenerator : b.generator = Stub.generate)
    (h : b.generate plan id u s = .ok done s') :
    b.layout.Holds s'.disk (s.resolution.program.stubRequest id u cyclic) := by
  rw [generate, BuildM.get_bind, hgenerator] at h
  cases hcode : Stub.generate (s.resolution.program.stubRequest id u (plan.isCyclic id)) with
  | error fault =>
    rw [hcode] at h
    cases h
  | ok code =>
    rw [hcode] at h
    obtain ⟨hheader, hsource⟩ := Stub.generate_eq_ok hcode
    obtain ⟨_, s₁, hfirst, h⟩ := BuildM.bind_eq_ok.1 h
    obtain ⟨_, s₂, hsecond, h⟩ := BuildM.bind_eq_ok.1 h
    have hafter {role : FileRole} (hrole : role ≠ .forwardSource) :
        s'.disk.text? (b.layout.path role u) = s₂.disk.text? (b.layout.path role u) := by
      cases hforward : code.forward with
      | some text =>
        rw [hforward] at h
        exact ((writeFile_spares fun _ => Layout.apart_path (.inl hrole)).ok h).text
      | none =>
        rw [hforward] at h
        cases h
        rfl
    have hbetween : s₂.disk.text? (b.layout.path .header u) =
        s₁.disk.text? (b.layout.path .header u) :=
      ((writeFile_spares fun _ => Layout.apart_path (.inl (by decide))).ok hsecond).text
    refine ⟨?_, ?_⟩
    · exact (hafter (by decide)).trans (hbetween.trans ((text?_writeFile hfirst).trans
        (congrArg some hheader)))
    · exact (hafter (by decide)).trans ((text?_writeFile hsecond).trans (congrArg some hsource))

/-- A step that does not generate the code of a unit leaves it alone. -/
theorem avoids_code (hrole : role ∈ Action.generate.roles)
    (hother : step.action = .generate → v.name ≠ u.name ∨ v.overload ≠ u.overload) :
    b.Avoids entry step.action v (b.layout.path role u) where
  parts other hmem _ := by
    refine Layout.apart_path ?_
    by_cases hgenerate : step.action = .generate
    · exact .inr ((hother hgenerate).imp Ne.symm Ne.symm)
    · refine .inl fun heq => ?_
      subst heq
      simp only [Action.roles, List.mem_cons, List.not_mem_nil, or_false] at hrole
      cases haction : step.action <;> rw [haction] at hmem hgenerate <;>
        rcases hrole with rfl | rfl | rfl <;> simp [Action.roles] at hmem hgenerate
  output _ _ := by
    simp only [Action.roles, List.mem_cons, List.not_mem_nil, or_false] at hrole
    exact Disk.apart_of_getLast? Layout.getLast?_path Layout.getLast?_outputPath
      (by rcases hrole with rfl | rfl | rfl <;> decide) (by decide)
      (by rcases hrole with rfl | rfl | rfl <;> decide)

/-- A step leaves the code of a unit alone unless it generates that code. -/
theorem sameCode_take (hcareful : b.toolchain.Careful)
    (hother : step.action = .generate → v.name ≠ u.name ∨ v.overload ≠ u.overload) :
    BuildM.Frames (fun s s' => b.layout.SameCode s.disk s'.disk u)
      (b.take entry plan generated step v) := fun s =>
  ⟨(take_spares hcareful (avoids_code (by simp [Action.roles]) hother) s).text,
    (take_spares hcareful (avoids_code (by simp [Action.roles]) hother) s).text⟩

/-- Another step of the same action is for another unit. -/
theorem other_of_ne (hdistinct : s.resolution.program.units.Distinct)
    (hu : s.resolution.program.units.get? id = some u)
    (hv : s.resolution.program.units.get? step.unit = some v) {action : Action}
    (hne : step ≠ ⟨id, action⟩) (haction : step.action = action) :
    v.name ≠ u.name ∨ v.overload ≠ u.overload := by
  by_contra hequal
  push Not at hequal
  have hid := hdistinct step.unit id v u hv hu hequal.1 hequal.2
  exact hne (by rw [← hid, ← haction])

/-- The units for which code was generated. -/
def generatedIn (records : List StepRecord) : List Nat :=
  (records.filter (·.step.action == .generate)).map (·.step.unit)

/-- Code was generated for a unit if the first record says so, or one of the others. -/
theorem mem_generatedIn_cons {record : StepRecord} : id ∈ generatedIn (record :: records) ↔
    record.step = ⟨id, .generate⟩ ∨ id ∈ generatedIn records := by
  obtain ⟨⟨unit, action⟩, display, skipped⟩ := record
  rw [generatedIn, List.filter_cons, Step.mk.injEq]
  split
  · next hgenerate =>
    have haction : action = .generate := beq_iff_eq.1 hgenerate
    rw [List.map_cons, List.mem_cons, ← generatedIn, eq_comm (a := id), and_iff_left haction]
  · next hgenerate =>
    rw [← generatedIn]
    exact (or_iff_right fun h => hgenerate (beq_iff_eq.2 h.2)).symm

/-- The records of two runs of steps tell what was generated in each of them. -/
theorem generatedIn_append (records more : List StepRecord) :
    generatedIn (records ++ more) = generatedIn records ++ generatedIn more := by
  simp only [generatedIn, List.filter_append, List.map_append]

/-- Some steps make the code of a unit if one of them is to generate it, and leave it alone
otherwise. -/
structure Coded (b : Builder σ) (s s' : BuildState σ) (id : Nat) (u : BuildUnit) (steps : List Step)
    (records : List StepRecord) : Prop where
  resolution : s'.resolution = s.resolution
  made : id ∈ generatedIn records → ∀ cyclic,
    b.layout.Holds s'.disk (s.resolution.program.stubRequest id u cyclic)
  same : id ∉ generatedIn records → b.layout.SameCode s.disk s'.disk u
  steps : id ∈ generatedIn records ↔ ⟨id, .generate⟩ ∈ steps

/-- Steps that are taken one after the other make the code of a unit, or leave it alone, as their
records say. -/
theorem coded_execute (hcareful : b.toolchain.Careful) (hgenerator : b.generator = Stub.generate)
    (hdistinct : s.resolution.program.units.Distinct)
    (hu : s.resolution.program.units.get? id = some u)
    (h : b.execute entry plan generated steps s = .ok records s') :
    b.Coded s s' id u steps records := by
  induction steps generalizing s generated records with
  | nil =>
    cases h
    exact ⟨rfl, fun hmem => absurd hmem List.not_mem_nil, fun _ => .refl _ _ _, by simp [generatedIn]⟩
  | cons step steps ih =>
    rw [execute, BuildM.get_bind] at h
    cases hunit : s.resolution.program.units.get? step.unit with
    | none =>
      rw [hunit] at h
      have hrest := ih hdistinct hu h
      have hne : ⟨id, .generate⟩ ≠ step := by
        rintro rfl
        rw [hu] at hunit
        cases hunit
      refine ⟨hrest.resolution, hrest.made, hrest.same, hrest.steps.trans ?_⟩
      rw [List.mem_cons, or_iff_right hne]
    | some v =>
      rw [hunit] at h
      obtain ⟨performed, s₁, htake, h⟩ := BuildM.bind_eq_ok.1 h
      obtain ⟨later, s₂, hlater, h⟩ := BuildM.bind_eq_ok.1 h
      cases h
      have hresolution : s₁.resolution = s.resolution :=
        ((take_spares hcareful (b.avoids_cacheFile entry step.action v)).ok htake).resolution
      obtain ⟨hsame, hmade, hkept, hsteps⟩ :=
        ih (hresolution ▸ hdistinct) (hresolution ▸ hu) hlater
      refine ⟨hsame.trans hresolution, fun hmem cyclic => ?_, fun hmem => ?_, ?_⟩
      · by_cases hagain : id ∈ generatedIn later
        · rw [← hresolution]
          exact hmade hagain cyclic
        · obtain rfl : step = ⟨id, .generate⟩ :=
            (mem_generatedIn_cons.1 hmem).resolve_right hagain
          obtain rfl := Option.some.inj (hu.symm.trans hunit)
          obtain ⟨_, s₀, hgenerate, hrest⟩ := BuildM.bind_eq_ok.1 htake
          cases hrest
          exact Layout.SameCode.holds (hkept hagain) (holds_generate hgenerator hgenerate)
      · rw [mem_generatedIn_cons, not_or] at hmem
        have hother := other_of_ne hdistinct hu hunit hmem.1
        exact ((sameCode_take hcareful hother).ok htake).trans (hkept hmem.2)
      · rw [mem_generatedIn_cons, List.mem_cons, hsteps, eq_comm]

end Builder

/-- What an entry point was built from: the program as it was then, and the units for which code was
generated. -/
structure Moment where
  program : Program
  generated : List Nat

/-- At some moment code was generated for a unit, and not later. -/
def LastGenerated (past : List Moment) (id : Nat) (m : Moment) : Prop :=
  ∃ before after, past = before ++ m :: after ∧ id ∈ m.generated ∧ ∀ x ∈ after, id ∉ x.generated

/-- The files of a unit were made from an earlier program, in which the unit is the same and imports
the same. -/
structure MadeFrom (l : Layout) (q p : Program) (d : Disk) (id : Nat) (u : BuildUnit) : Prop where
  linked : q.Linked
  keeps : q.units.Keeps p.units
  imports : p.importsOf id = q.importsOf id
  made : ∃ v, q.units.get? id = some v ∧ v.kept = u.kept ∧
    ∀ cyclic, l.Holds d (q.stubRequest id v cyclic)

/-- The files of all units with code were made when the code was last generated. -/
def UpToDate (l : Layout) (past : List Moment) (p : Program) (d : Disk) : Prop :=
  ∀ id u, p.units.get? id = some u → u.kind.treatment.makesObject →
    ∃ m, LastGenerated past id m ∧ MadeFrom l m.program p d id u

section

variable {past : List Moment} {m : Moment} {l : Layout} {p q q' : Program} {d d' : Disk} {id : Nat}
  {u v : BuildUnit}

/-- The last generation of a unit is still the last one after a moment at which no code was
generated for it. -/
theorem LastGenerated.append (h : LastGenerated past id m) {x : Moment}
    (hnot : id ∉ x.generated) : LastGenerated (past ++ [x]) id m := by
  obtain ⟨before, after, rfl, hmem, hafter⟩ := h
  refine ⟨before, after ++ [x], by simp, hmem, fun y hy => ?_⟩
  rcases List.mem_append.1 hy with hy | hy
  · exact hafter y hy
  · rwa [List.mem_singleton.1 hy]

/-- What was generated at the last moment was last generated then. -/
theorem lastGenerated_last (hmem : id ∈ m.generated) : LastGenerated (past ++ [m]) id m :=
  ⟨past, [], rfl, hmem, fun _ hx => absurd hx List.not_mem_nil⟩

/-- The files of a unit are where they are whatever its body is. -/
theorem Layout.path_of_kept (l : Layout) (role : FileRole) (h : v.kept = u.kept) :
    l.path role v = l.path role u := by
  have hown (u : BuildUnit) : l.path role u = l.path role u.kept := rfl
  rw [hown v, h, ← hown]

/-- Whose body is where does not matter for the code on the disk. -/
theorem Layout.SameCode.of_kept (h : l.SameCode d d' u) (hkept : v.kept = u.kept) :
    l.SameCode d d' v := by
  refine ⟨?_, ?_⟩
  · rw [l.path_of_kept _ hkept, h.header]
  · rw [l.path_of_kept _ hkept, h.source]

/-- The files stay as old as they are if the unit stays the same and imports the same. -/
theorem MadeFrom.advance (h : MadeFrom l q p d id u) (hkeeps : p.units.Keeps q'.units)
    (hunit : v.kept = u.kept) (himports : q'.importsOf id = p.importsOf id)
    (hsame : l.SameCode d d' v) : MadeFrom l q q' d' id v := by
  obtain ⟨w, hw, hkept, hholds⟩ := h.made
  refine ⟨h.linked, h.keeps.trans hkeeps, himports.trans h.imports, w, hw,
    hkept.trans hunit.symm, fun cyclic => ?_⟩
  exact (hsame.of_kept (hkept.trans hunit.symm)).holds (hholds cyclic)

/-- Whether an object is made is told by what is kept of a unit. -/
theorem makesObject_of_kept (hkept : v.kept = u.kept)
    (hobject : u.kind.treatment.makesObject) : v.kind.treatment.makesObject := by
  have hkind : v.kept.kind = u.kept.kind := congrArg BuildUnit.kind hkept
  exact hkind ▸ hobject

/-- The header is told by what is kept of a unit. -/
theorem stub_header_of_kept (h : v.kept = u.kept) : Stub.header v = Stub.header u := by
  have hown (u : BuildUnit) : Stub.header u = Stub.header u.kept := rfl
  rw [hown v, h, ← hown]

/-- The header is the one that is generated as things stand, and so is the source if the other units
export the imported names as they did when it was made. -/
theorem MadeFrom.files (h : MadeFrom l q p d id u) (hobject : u.kind.treatment.makesObject)
    (cyclic : Bool) :
    ∃ code, Stub.generate (p.stubRequest id u cyclic) = .ok code ∧
      d.text? (l.path .header u) = some code.header ∧
      ∃ v former, q.units.get? id = some v ∧ v.kept = u.kept ∧
        p.importsOf id = q.importsOf id ∧ Stub.generate (q.stubRequest id v cyclic) = .ok former ∧
        d.text? (l.path .source u) = some former.source ∧
        (q.SameExports p id → former.source = code.source) := by
  obtain ⟨v, hv, hkept, hholds⟩ := h.made
  have hvobject : v.kind.treatment.makesObject := makesObject_of_kept hkept hobject
  obtain ⟨code, hcode⟩ := Stub.exists_generate (r := p.stubRequest id u cyclic) hobject
  obtain ⟨former, hformer⟩ := Stub.exists_generate (r := q.stubRequest id v cyclic) hvobject
  obtain ⟨hcodeHeader, hcodeSource⟩ := Stub.generate_eq_ok hcode
  obtain ⟨_, hformerSource⟩ := Stub.generate_eq_ok hformer
  refine ⟨code, hcode, ?_, v, former, hv, hkept, h.imports, hformer, ?_, fun hexports => ?_⟩
  · rw [← l.path_of_kept _ hkept, hcodeHeader]
    exact (hholds cyclic).header.trans (congrArg some (stub_header_of_kept hkept))
  · rw [← l.path_of_kept _ hkept, hformerSource]
    exact (hholds cyclic).source
  · rw [hformerSource, hcodeSource]
    exact (Program.source_stubRequest h.linked h.keeps hkept.symm h.imports hexports).symm

/-- Files that are up to date stay so where the code of all units stays the same. -/
theorem UpToDate.sameCode (h : UpToDate l past p d) (hsame : ∀ u, l.SameCode d d' u) :
    UpToDate l past p d' := by
  intro id u hu hobject
  obtain ⟨m, hlast, hmade⟩ := h id u hu hobject
  exact ⟨m, hlast, hmade.advance (.refl _) rfl rfl (hsame u)⟩

/-- Where the bodies are does not matter for the files. -/
theorem UpToDate.kept (h : UpToDate l past p d) : UpToDate l past p.kept d := by
  intro id u hu hobject
  rw [Program.get?_kept] at hu
  obtain ⟨v, hv, rfl⟩ := Option.map_eq_some_iff.1 hu
  obtain ⟨m, hlast, hmade⟩ := h id v hv hobject
  exact ⟨m, hlast, hmade.advance p.keeps_kept rfl rfl (.refl _ _ _)⟩

/-- Of no units all files are up to date. -/
theorem upToDate_empty : UpToDate l past .empty d := by
  intro id u hu
  have hlt := Catalog.lt_size_of_get? hu
  exact absurd hlt (Nat.not_lt_zero id)

end

namespace Builder

open Resolution

variable {σ : Type} {b : Builder σ} {s s' : BuildState σ} {past : List Moment} {p : Program}
  {a : Archive} {touched : List Nat} {entry : Entry} {entries : List Entry} {result : EntryResult}
  {results : List EntryResult}

/-- The moments of a build, one for each entry point. -/
def moments (b : Builder σ) : List Entry → BuildState σ → List Moment
  | [], _ => []
  | entry :: entries, s =>
    match b.buildEntry entry s with
    | .ok result s' =>
      ⟨s'.resolution.program, generatedIn result.records⟩ :: moments b entries s'
    | .error _ _ => []

/-- The plan of an entry point generates code for all units that are due. -/
theorem generate_mem_planFor (hlinked : s.resolution.program.Linked) {root : Nat}
    (hnoted : Noted p root s.resolution) {id : Nat} {u : BuildUnit}
    (hu : s.resolution.program.units.get? id = some u) (hobject : u.kind.treatment.makesObject)
    (hdue : s.resolution.Due id) : ⟨id, .generate⟩ ∈ (b.planFor s root).steps := by
  rw [planFor_eq]
  refine Planning.generate_mem_steps hlinked.node hnoted.known (hnoted.due id hdue) ?_ ?_
  · rwa [makesObject_planningOf hu]
  · rw [Planning.generates, Bool.or_assoc, Bool.or_eq_true]
    exact .inl hdue

/-- What an analysis has spared is as old as it was. -/
theorem made_of_spared {r : Resolution} {id : Nat} {u : BuildUnit} (hspared : Spared p r)
    (hevolves : p.Evolves r.program) (hu : r.program.units.get? id = some u) (hnot : ¬ r.Due id) :
    ∃ v, p.units.get? id = some v ∧ v.kept = u.kept ∧
      ∀ l d q, MadeFrom l q p d id v → MadeFrom l q r.program d id u := by
  obtain ⟨hunit, himports⟩ := hspared id hnot
  rw [Program.SameUnit, hu, Option.map_some] at hunit
  obtain ⟨v, hv, hkept⟩ := Option.map_eq_some_iff.1 hunit.symm
  exact ⟨v, hv, hkept, fun l d q hmade =>
    hmade.advance (grows_of_evolves hevolves).keeps hkept.symm himports (.refl _ _ _)⟩

/-- Building an entry point makes the code of a unit from the program as it is then, or leaves the
unit and its code as old as they were. -/
theorem code_of_buildEntry (hbetween : Between p a touched s) (hcareful : b.toolchain.Careful)
    (hgenerator : b.generator = Stub.generate) (hrun : b.buildEntry entry s = .ok result s')
    {id : Nat} {u : BuildUnit} (hu : s'.resolution.program.units.get? id = some u)
    (hobject : u.kind.treatment.makesObject) :
    (id ∈ generatedIn result.records ∧
      MadeFrom b.layout s'.resolution.program s'.resolution.program s'.disk id u) ∨
    (id ∉ generatedIn result.records ∧ ∃ v, s.resolution.program.units.get? id = some v ∧
      v.kept = u.kept ∧ v.kind.treatment.makesObject ∧ b.layout.SameCode s.disk s'.disk u ∧
      ∀ q, MadeFrom b.layout q s.resolution.program s.disk id v →
        MadeFrom b.layout q s'.resolution.program s'.disk id u) := by
  rcases buildEntry_eq_ok hrun with ⟨_, hrecords, rfl⟩ | ⟨definition, root, r, hr, hbuild⟩
  · rw [hrecords]
    exact .inr ⟨List.not_mem_nil, u, hu, rfl, hobject, .refl _ _ _, fun _ hmade => hmade⟩
  · obtain ⟨s₁, hexecute, _, rfl⟩ := buildUnit_eq_ok hbuild
    obtain ⟨_, hevolves, hnoted⟩ := hbetween.analyze hr
    have hlinked := hbetween.linked.evolves hevolves
    have hprogram := (foldl_markBuilt result.touched s₁.resolution).1.trans
      (congrArg program (leaves_of_steps hcareful hexecute).resolution)
    dsimp only at hprogram hu ⊢
    rw [hprogram] at hu ⊢
    have hcoded := coded_execute hcareful hgenerator hlinked.distinct hu hexecute
    by_cases hgenerated : id ∈ generatedIn result.records
    · exact .inl ⟨hgenerated, hlinked, .refl _, rfl, u, hu, rfl, hcoded.made hgenerated⟩
    · have hnot : ¬ r.Due id := fun hdue =>
        hgenerated (hcoded.steps.2 (generate_mem_planFor hlinked hnoted hu hobject hdue))
      obtain ⟨v, hv, hkept, hmade⟩ := made_of_spared hnoted.same hevolves hu hnot
      have hsame := hcoded.same hgenerated
      exact .inr ⟨hgenerated, v, hv, hkept, makesObject_of_kept hkept hobject, hsame,
        fun q hformer => (hmade _ _ q hformer).advance (.refl _) rfl rfl hsame⟩

/-- Files are up to date after an entry point if they were before. -/
theorem upToDate_buildEntry (h : UpToDate b.layout past s.resolution.program s.disk)
    (hbetween : Between p a touched s) (hcareful : b.toolchain.Careful)
    (hgenerator : b.generator = Stub.generate) (hrun : b.buildEntry entry s = .ok result s') :
    UpToDate b.layout (past ++ [⟨s'.resolution.program, generatedIn result.records⟩])
      s'.resolution.program s'.disk := by
  intro id u hu hobject
  rcases code_of_buildEntry hbetween hcareful hgenerator hrun hu hobject with
    ⟨hgenerated, hmade⟩ | ⟨hnot, v, hv, _, hvobject, _, hmade⟩
  · exact ⟨_, lastGenerated_last hgenerated, hmade⟩
  · obtain ⟨m, hlast, hformer⟩ := h id v hv hvobject
    exact ⟨m, hlast.append hnot, hmade _ hformer⟩

/-- Files are up to date after entry points that were built one after the other, if they were
before. -/
theorem upToDate_mapM_buildEntry (h : UpToDate b.layout past s.resolution.program s.disk)
    (hbetween : Between p a touched s) (hcareful : b.toolchain.Careful)
    (hgenerator : b.generator = Stub.generate)
    (hrun : entries.mapM b.buildEntry s = .ok results s') :
    UpToDate b.layout (past ++ b.moments entries s) s'.resolution.program s'.disk := by
  induction entries generalizing past touched s results with
  | nil =>
    rw [List.mapM_nil] at hrun
    cases hrun
    rw [moments, List.append_nil]
    exact h
  | cons entry entries ih =>
    rw [List.mapM_cons] at hrun
    obtain ⟨result, s₁, hentry, hrun⟩ := BuildM.bind_eq_ok.1 hrun
    obtain ⟨rest, s₂, hrest, hrun⟩ := BuildM.bind_eq_ok.1 hrun
    cases hrun
    have hfirst := upToDate_buildEntry h hbetween hcareful hgenerator hentry
    have hafter := ih hfirst (hbetween.buildEntry hcareful hentry) hrest
    rw [List.append_assoc, List.singleton_append] at hafter
    rw [moments, hentry]
    exact hafter

/-- The moments of a build that begins a new run. -/
def buildMoments (b : Builder σ) (entries : List Entry) (s : BuildState σ) : List Moment :=
  b.moments entries { s with resolution := s.resolution.reset }

theorem sameCode_persist (ids : NodeSet) (s : BuildState σ) (u : BuildUnit) :
    b.layout.SameCode s.disk (BuildM.final (b.persist ids) s).disk u :=
  ⟨(sameAt_persist ids s .header u).text, (sameAt_persist ids s .source u).text⟩

/-- Files are up to date after a build, if they were before. -/
theorem upToDate_build {report : Report} (h : UpToDate b.layout past s.resolution.program s.disk)
    (hrecords : s.archive.Records s.resolution.program) (hcareful : b.toolchain.Careful)
    (hgenerator : b.generator = Stub.generate) (hrun : b.build entries s = .ok report s') :
    UpToDate b.layout (past ++ b.buildMoments entries s) s'.resolution.program s'.disk := by
  obtain ⟨results, s₁, hentries, hpersist, _⟩ := build_eq_ok.1 hrun
  have hafter := upToDate_mapM_buildEntry (s := { s with resolution := s.resolution.reset }) h
    (between_start hrecords rfl) hcareful hgenerator hentries
  have hsame := b.sameCode_persist (Std.ExtTreeSet.ofList (results.flatMap (·.touched))) s₁
  rw [BuildM.final, hpersist] at hsame
  rw [(persist_eq_ok hpersist).1]
  exact hafter.sameCode hsame

/-- Two disks have the same archive, and the same header and source of every unit. -/
structure SameFiles (l : Layout) (d d' : Disk) : Prop where
  archive : d'.text? l.cacheFile = d.text? l.cacheFile
  code : ∀ u, l.SameCode d d' u

/-- The moments of the builds of some processes that share an archive and all succeed, and the disk
that they leave. Between two processes anything may change but the archive, the headers and the
sources. -/
inductive Maintained (l : Layout) : List Moment → Disk → Prop where
  | start {d : Disk} (hnone : d.text? l.cacheFile = none) : Maintained l [] d
  | built {σ : Type} (b : Builder σ) (hcareful : b.toolchain.Careful)
      (hgenerator : b.generator = Stub.generate) (hlayout : b.layout = l) {past : List Moment}
      {d d' : Disk} (h : Maintained l past d) (hsame : SameFiles l d d') (tools : σ)
      (entries : List Entry) {report : Report} {s' : BuildState σ}
      (hrun : b.build entries (.start b.config d' tools) = .ok report s') :
      Maintained l (past ++ b.buildMoments entries (.start b.config d' tools)) s'.disk

/-- What a process finds: an archive with the rows of a program, and files that are up to date. -/
structure Ready (l : Layout) (past : List Moment) (d : Disk) : Prop where
  kept : Archive.Kept d l.cacheFile
  upToDate : UpToDate l past (Archive.load d l.cacheFile).toProgram d

/-- What a process finds is found on every disk with the same archive and the same code. -/
theorem Ready.sameFiles {l : Layout} {d d' : Disk} (h : Ready l past d)
    (hsame : SameFiles l d d') : Ready l past d' where
  kept := by
    rw [Archive.Kept, hsame.archive]
    exact h.kept
  upToDate := by
    rw [Archive.load, hsame.archive, ← Archive.load]
    exact h.upToDate.sameCode hsame.code

/-- A build that starts on what a process has to find leaves files that are up to date, and what the
next process has to find. -/
theorem Ready.build (h : Ready b.layout past d) (hcareful : b.toolchain.Careful)
    (hgenerator : b.generator = Stub.generate) {tools : σ} {report : Report}
    (hrun : b.build entries (.start b.config d tools) = .ok report s') :
    UpToDate b.layout (past ++ b.buildMoments entries (.start b.config d tools))
        s'.resolution.program s'.disk ∧
      Ready b.layout (past ++ b.buildMoments entries (.start b.config d tools)) s'.disk := by
  obtain ⟨hrecords, htext⟩ := records_build_start hcareful h.kept hrun
  have hafter := upToDate_build (s := .start b.config d tools) h.upToDate h.kept.load hcareful
    hgenerator hrun
  refine ⟨hafter, .inr ⟨_, _, hrecords, htext⟩, ?_⟩
  rw [Archive.load, htext]
  dsimp only
  rw [Archive.parseOrEmpty_document _ hrecords.version]
  split
  · rw [hrecords.toProgram_eq]
    exact hafter.kept
  · exact upToDate_empty

/-- After any number of builds a process finds what it has to. -/
theorem Maintained.ready {l : Layout} {d : Disk} (h : Maintained l past d) : Ready l past d := by
  induction h with
  | start hnone =>
    refine ⟨.inl hnone, ?_⟩
    rw [Archive.load, hnone]
    exact upToDate_empty
  | built b hcareful hgenerator hlayout _ hsame tools entries hrun ih =>
    subst hlayout
    exact ((ih.sameFiles hsame).build hcareful hgenerator hrun).2

/-- After every build, the header of each unit with code is the one that is generated for it as
things stand. Its source was generated when its code was generated last: since then the unit is the
same and imports the same, so the source is the one that is generated as things stand, if the other
units export the imported names as they did then. -/
theorem files_of_build (b : Builder σ) (hcareful : b.toolchain.Careful)
    (hgenerator : b.generator = Stub.generate) (past : List Moment) (d d' : Disk)
    (hmaintained : Maintained b.layout past d) (hsame : SameFiles b.layout d d') (tools : σ)
    (entries : List Entry) (report : Report) (s' : BuildState σ)
    (hrun : b.build entries (.start b.config d' tools) = .ok report s') (id : Nat) (u : BuildUnit)
    (hu : s'.resolution.program.units.get? id = some u) (hobject : u.kind.treatment.makesObject)
    (cyclic : Bool) :
    ∃ code, Stub.generate (s'.resolution.program.stubRequest id u cyclic) = .ok code ∧
      s'.disk.text? (b.layout.path .header u) = some code.header ∧
      ∃ m v former,
        LastGenerated (past ++ b.buildMoments entries (.start b.config d' tools)) id m ∧
        m.program.units.get? id = some v ∧ v.kept = u.kept ∧
        s'.resolution.program.importsOf id = m.program.importsOf id ∧
        Stub.generate (m.program.stubRequest id v cyclic) = .ok former ∧
        s'.disk.text? (b.layout.path .source u) = some former.source ∧
        (m.program.SameExports s'.resolution.program id → former.source = code.source) := by
  obtain ⟨hafter, _⟩ := (hmaintained.ready.sameFiles hsame).build hcareful hgenerator hrun
  obtain ⟨m, hlast, hmade⟩ := hafter id u hu hobject
  obtain ⟨code, hcode, hheader, v, former, hv, hkept, hrest⟩ := hmade.files hobject cyclic
  exact ⟨code, hcode, hheader, m, v, former, hlast, hv, hkept, hrest⟩

/-- The plan of a unit that needs no other has its own steps only. -/
theorem planFor_alone {root : Nat} {t : BuildState σ} (hlinked : t.resolution.program.Linked)
    (hgraph : t.resolution.program.graph = Digraph.empty.addNode root) :
    (b.planFor t root).units = [root] ∧ (b.planFor t root).steps =
      (b.planningOf t t.resolution.freshness).unitSteps root ++
        if (b.planningOf t t.resolution.freshness).treatment root == .translate then
          [⟨root, .emit⟩] else [] := by
  have hroot : root < t.resolution.program.units.size := by
    rw [← hlinked.hasNode_iff, hgraph, Digraph.hasNode_addNode]
    exact .inl rfl
  have horder : (b.planFor t root).order = [.unit root] := by
    rw [planFor_eq]
    refine Planning.order_alone hlinked.node hroot fun v hedge => ?_
    rw [hgraph, Digraph.edge_addNode] at hedge
    exact Digraph.not_edge_empty hedge
  refine ⟨by rw [Plan.units, horder]; rfl, ?_⟩
  rw [planFor_eq] at horder ⊢
  rw [Planning.steps_plan, horder, List.flatMap_singleton, Planning.nodeSteps]

/-- A unit that needs no other is built if its own steps can be taken, whatever its plan says about
other units. -/
theorem exists_build_alone (hcareful : b.toolchain.Careful) {name : String} {directory : FilePath}
    {definition : Definition} {root : Nat} {t : BuildState σ} {steps : List Step}
    (hmeaning : b.meaning { s with resolution := s.resolution.reset } (.located name directory) =
      .defined definition)
    (hanalyze : b.analyze name (some definition) { s with resolution := s.resolution.reset } =
      .ok (some root) t)
    (hlinked : t.resolution.program.Linked)
    (hgraph : t.resolution.program.graph = Digraph.empty.addNode root)
    (hsteps : (b.planningOf t t.resolution.freshness).unitSteps root ++
      (if (b.planningOf t t.resolution.freshness).treatment root == .translate then
        [⟨root, .emit⟩] else []) = steps)
    (hfinish : ∀ plan : Plan, plan.units = [root] → BuildM.succeeds (b.finish name plan steps) t) :
    ∃ report s', b.build [.located name directory] s = .ok report s' ∧
      s'.resolution.program = t.resolution.program ∧
      ∃ plan t', b.execute name plan ∅ steps t = .ok report.records t' := by
  obtain ⟨hunits, hplan⟩ := b.planFor_alone hlinked hgraph
  rw [hsteps] at hplan
  obtain ⟨report, s', hrun, hprogram, t', hexecute, -⟩ :=
    exists_build_of_located hcareful hmeaning hanalyze hplan (hfinish _ hunits)
  exact ⟨report, s', hrun, hprogram, _, t', hexecute⟩

/-- A build of one entry point has one moment. -/
theorem buildMoments_singleton {report : Report} (hrun : b.build [entry] s = .ok report s') :
    b.buildMoments [entry] s = [⟨s'.resolution.program, generatedIn report.records⟩] := by
  obtain ⟨results, s₁, hentries, hpersist, rfl⟩ := build_eq_ok.1 hrun
  rw [List.mapM_cons, List.mapM_nil] at hentries
  obtain ⟨result, s₂, hentry, hentries⟩ := BuildM.bind_eq_ok.1 hentries
  cases hentries
  rw [buildMoments, moments, hentry, (persist_eq_ok hpersist).1, reportOf, List.flatMap_singleton]
  rfl

/-- Tools that make empty files touch no other file. -/
theorem careful_stubBuilder : stubBuilder.toolchain.Careful := careful_emptyFiles

/-- What each script of the pair takes from the other is exported before and after the edit. -/
theorem sameExports_pair {id : Nat} (hid : id < 2) :
    pairAnalyzed.resolution.program.SameExports grownAnalyzed.resolution.program id := by
  intro other n htakes
  unfold Program.Exports
  rw [analysis_pair.units, analysis_grown.units]
  obtain rfl | rfl : id = 0 ∨ id = 1 := by omega
  · rw [Program.Takes, analysis_pair.first, Imports.has_insert] at htakes
    obtain ⟨⟨⟩, rfl⟩ := htakes.resolve_right Imports.not_has_empty
    exact iff_of_true ⟨grownUnit, rfl, by decide⟩ ⟨pairUnit "g", rfl, by decide⟩
  · rw [Program.Takes, analysis_pair.second, Imports.has_insert] at htakes
    obtain ⟨⟨⟩, rfl⟩ := htakes.resolve_right Imports.not_has_empty
    exact iff_of_true ⟨pairUnit "f", rfl, by decide⟩ ⟨pairUnit "f", rfl, by decide⟩

/-- A first build of the pair keeps its files up to date. -/
theorem maintained_pair {report : Report} {s : BuildState Unit}
    (hrun : stubBuilder.build [.located "f" ⟨"."⟩] pairStart = .ok report s) :
    Maintained stubBuilder.layout (stubBuilder.buildMoments [.located "f" ⟨"."⟩] pairStart) s.disk :=
  .built stubBuilder careful_stubBuilder rfl rfl (.start text?_pairDisk)
    ⟨rfl, fun _ => .refl _ _ _⟩ () _ hrun

/-- An edit of the second script leaves the archive and the code of both. -/
theorem sameFiles_pair {s : BuildState Unit} (h : PairBuilt s) (text : String) :
    SameFiles stubBuilder.layout s.disk (editedDisk text) where
  archive := (text?_editedDisk text).trans h.text.symm
  code u := ⟨(h.files text .header u).text, (h.files text .source u).text⟩

/-- The second build does not generate the code of the first script. -/
theorem not_generated_grown {records : List StepRecord} {t : BuildState Unit}
    (h : stubBuilder.execute "f" (stubBuilder.planFor grownAnalyzed 0) ∅ grownSteps grownAnalyzed =
      .ok records t) : 0 ∉ generatedIn records := by
  have hunit : grownAnalyzed.resolution.program.units.get? 0 = some (pairUnit "f") := by
    rw [analysis_grown.units]
    rfl
  have hcoded := coded_execute careful_stubBuilder rfl linked_grown.distinct hunit h
  rw [hcoded.steps]
  decide

/-- Each unit of the edited pair has code. -/
theorem makesObject_grown {id : Nat} {u : BuildUnit}
    (hu : grownAnalyzed.resolution.program.units.get? id = some u) :
    id < 2 ∧ u.kind.treatment.makesObject := by
  have hlt := Catalog.lt_size_of_get? hu
  rw [analysis_grown.size] at hlt
  rw [analysis_grown.units] at hu
  obtain rfl | rfl : id = 0 ∨ id = 1 := by omega
  · cases hu
    exact ⟨hlt, by decide⟩
  · cases hu
    exact ⟨hlt, by decide⟩

/-- The pair is built, the second script is edited, and the pair is built again. The code of the first
script is not generated again, but the header and the source of both are the ones that are generated
for them as they are then. -/
theorem files_of_build_pair : ∃ report s₁ report' s',
    stubBuilder.build [.located "f" ⟨"."⟩] pairStart = .ok report s₁ ∧
    Maintained stubBuilder.layout (stubBuilder.buildMoments [.located "f" ⟨"."⟩] pairStart) s₁.disk ∧
    SameFiles stubBuilder.layout s₁.disk (editedDisk grownText) ∧
    stubBuilder.build [.located "f" ⟨"."⟩]
      (.start stubBuilder.config (editedDisk grownText) ()) = .ok report' s' ∧
    0 ∉ generatedIn report'.records ∧
    ∀ id u, s'.resolution.program.units.get? id = some u →
      ∃ code, Stub.generate (s'.resolution.program.stubRequest id u true) = .ok code ∧
        s'.disk.text? (stubBuilder.layout.path .header u) = some code.header ∧
        s'.disk.text? (stubBuilder.layout.path .source u) = some code.source := by
  obtain ⟨report, s₁, hfirst, hbuilt⟩ := build_pair
  obtain ⟨report', s', hsecond, hprogram, t, hexecute⟩ := build_grown
  have hmaintained := maintained_pair hfirst
  have hsame := sameFiles_pair hbuilt grownText
  refine ⟨report, s₁, report', s', hfirst, hmaintained, hsame, hsecond,
    not_generated_grown hexecute, fun id u hu => ?_⟩
  obtain ⟨hid, hobject⟩ := makesObject_grown (hprogram ▸ hu)
  obtain ⟨code, hcode, hheader, m, v, former, hlast, -, -, -, -, hsource, hcurrent⟩ :=
    files_of_build stubBuilder careful_stubBuilder rfl _ s₁.disk (editedDisk grownText) hmaintained
      hsame () _ report' s' hsecond id u hu hobject true
  refine ⟨code, hcode, hheader, ?_⟩
  rw [hsource, hcurrent]
  -- The code was generated in one of the two builds, whichever it was.
  obtain ⟨before, after, hmoments, -⟩ := hlast
  have hmem : m ∈ before ++ m :: after := by simp
  rw [← hmoments, buildMoments_singleton hfirst, buildMoments_singleton hsecond, hbuilt.program,
    hprogram] at hmem
  rw [hprogram]
  have hbefore := sameExports_pair hid
  have hafter := Program.SameExports.refl grownAnalyzed.resolution.program id
  rcases List.mem_pair.1 hmem with heq | heq <;> rw [heq] <;> dsimp only
  · exact hbefore
  · exact hafter

end Builder

end ScriptBuild
