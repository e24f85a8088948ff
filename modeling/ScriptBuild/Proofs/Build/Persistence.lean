import ScriptBuild.Proofs.Archive.Update
import ScriptBuild.Proofs.Build.Frame
import ScriptBuild.Proofs.Build.Headers
import ScriptBuild.Proofs.Resolution.Tracking

namespace ScriptBuild

variable {σ : Type}

namespace Archive

variable {a : Archive} {p : Program} {d : Disk} {path : FilePath}

/-- An archive in the format that is written has the rows of a program. -/
structure Records (a : Archive) (p : Program) : Prop where
  linked : p.Linked
  permitted : p.Permitted
  units : a.units = (ofProgram p).units
  version : a.version = formatVersion

/-- The archive of no units has the rows of the program without units. -/
theorem records_empty : empty.Records .empty :=
  ⟨Program.linked_empty, Program.permitted_empty, rfl, rfl⟩

/-- Where the bodies are is not in the rows. -/
theorem row?_kept (p : Program) (id : Nat) : row? p.kept id = row? p id := by
  have hrow (u : BuildUnit) : Row.ofUnit p.kept id u.kept = Row.ofUnit p id u := by
    rw [Row.ofUnit, Row.ofUnit]
    congr 1
    refine List.filterMap_congr fun dependency _ => ?_
    obtain ⟨other, symbols⟩ := dependency
    dsimp only
    rw [Program.get?_kept, Option.map_map]
    rfl
  rw [row?, row?, Program.get?_kept, Option.map_map]
  exact congrArg (Option.map · (p.units.get? id)) (funext hrow)

/-- What is restored from an archive with the rows of a program is what is kept of that program. -/
theorem Records.toProgram_eq (h : a.Records p) : a.toProgram = p.kept := by
  rw [← toProgram_ofProgram h.linked, Archive.toProgram, h.units, Archive.toProgram]

/-- What is restored from an archive has the rows of the archive. -/
theorem Records.toProgram (h : a.Records p) : a.Records a.toProgram := by
  rw [h.toProgram_eq]
  refine ⟨h.linked.kept, h.permitted.kept, ?_, h.version⟩
  rw [h.units, units_ofProgram, units_ofProgram, Program.size_kept]
  exact List.filterMap_congr fun id _ => (row?_kept p id).symm

/-- There is no archive at a path, or one that has the rows of a program. -/
def Kept (d : Disk) (path : FilePath) : Prop :=
  d.text? path = none ∨ ∃ a p, Records a p ∧ d.text? path = some a.document

/-- What is found at a path with such an archive, or with none, has the rows of what is restored
from it. -/
theorem Kept.load (h : Kept d path) : (load d path).Records (load d path).toProgram := by
  rcases h with hnone | ⟨a, p, hrecords, hsome⟩
  · rw [Archive.load, hnone]
    exact records_empty.toProgram
  · rw [Archive.load, hsome]
    dsimp only
    rw [parseOrEmpty_document a hrecords.version]
    split
    · exact hrecords.toProgram
    · exact records_empty.toProgram

/-- An archive that fits into its format is read back as it was. -/
theorem Records.load_eq (h : a.Records p) (htext : d.text? path = some a.document) (hfits : a.fits) :
    load d path = a := by
  rw [Archive.load, htext]
  dsimp only
  rw [parseOrEmpty_document a h.version, if_pos hfits]

end Archive

namespace Resolution

variable {r : Resolution} {id : Nat} {ids : List Nat}

theorem calm_start (p : Program) : (start p).Calm where
  waiting := rfl
  due _ hdue := absurd hdue.met Std.ExtTreeMap.not_mem_empty

/-- Noting that some units are built changes nothing else. -/
theorem foldl_markBuilt (ids : List Nat) (r : Resolution) :
    (ids.foldl markBuilt r).program = r.program ∧
      (ids.foldl markBuilt r).run.waiting = r.run.waiting ∧
      (ids.foldl markBuilt r).run.found = r.run.found ∧
      ∀ id, (ids.foldl markBuilt r).Due id ↔ r.Due id ∧ id ∉ ids := by
  induction ids generalizing r with
  | nil => simp
  | cons first ids ih =>
    obtain ⟨hprogram, hwaiting, hfound, hdue⟩ := ih (r.markBuilt first)
    refine ⟨hprogram, hwaiting, hfound, fun id => ?_⟩
    rw [List.foldl_cons, hdue, Due, markBuilt, freshness_setFreshness, List.mem_cons, not_or]
    by_cases heq : id = first
    · simp [heq, Freshness.needsBuild]
    · rw [if_neg heq, ← Due]
      simp [heq]

end Resolution

namespace Builder

open Resolution

variable {b : Builder σ} {s s' : BuildState σ} {p : Program} {a : Archive} {touched : List Nat}
  {name : String} {root : Nat} {result : EntryResult} {results : List EntryResult} {entry : Entry}
  {entries : List Entry} {definition : Option Definition} {report : Report} {fault : Fault}

/-- The state between two entry points of a build that started with a program and its archive:
nothing is due, and only the touched units differ from the archive, which has not changed yet. -/
structure Between (p : Program) (a : Archive) (touched : List Nat) (s : BuildState σ) : Prop where
  sane : s.resolution.Sane
  linked : s.resolution.program.Linked
  permitted : s.resolution.program.Permitted
  calm : s.resolution.Calm
  grows : p.units.Grows s.resolution.program.units
  known : ∀ id ∈ touched, id < s.resolution.program.units.size
  same : ∀ id, id ∉ touched → p.SameUnit s.resolution.program id ∧
    s.resolution.program.importsOf id = p.importsOf id
  units : s.archive.units = a.units
  version : s.archive.version = a.version

/-- What an entry point was resolved to is built, and what was due is touched. -/
theorem Between.settle {r : Resolution} (h : Between p a touched s) (hsane : r.Sane)
    (hevolves : s.resolution.program.Evolves r.program)
    (hnoted : Noted s.resolution.program root r) (plan : Plan)
    (hplan : ∀ id, id ∈ plan.units ↔ r.program.graph.Reaches root id)
    (hresolution : s'.resolution = (plan.units.filter fun id => (r.freshness id).needsBuild).foldl
      markBuilt r)
    (hunits : s'.archive.units = a.units) (hversion : s'.archive.version = a.version) :
    Between p a (touched ++ plan.units.filter fun id => (r.freshness id).needsBuild) s' := by
  obtain ⟨hprogram, hwaiting, hfound, hdue⟩ := foldl_markBuilt
    (plan.units.filter fun id => (r.freshness id).needsBuild) r
  rw [← hresolution] at hprogram hwaiting hfound hdue
  have hlinked := h.linked.evolves hevolves
  have hgrows := grows_of_evolves hevolves
  have hbuilt {id : Nat} : id ∈ plan.units.filter (fun id => (r.freshness id).needsBuild) ↔
      r.Due id := by
    rw [List.mem_filter, hplan]
    exact and_iff_right_of_imp (hnoted.due id)
  refine ⟨?_, hprogram ▸ hlinked, hprogram ▸ h.permitted.evolves hevolves, ⟨?_, fun id hid => ?_⟩,
    hprogram ▸ h.grows.trans hgrows, fun id hid => ?_, fun id hid => ?_, hunits, hversion⟩
  · refine ⟨fun work hwork => ?_, fun directory n id heq => ?_⟩
    · rw [hwaiting] at hwork
      rw [Resolution.IsUnit, hprogram]
      exact hsane.waiting work hwork
    · rw [foundFrom, hfound] at heq
      rw [Resolution.Lists, hprogram]
      exact hsane.found directory n id heq
  · rw [hwaiting, hnoted.waiting]
  · exact ((hdue id).1 hid).2 (hbuilt.2 ((hdue id).1 hid).1)
  · rw [hprogram]
    rcases List.mem_append.1 hid with hid | hid
    · exact Nat.lt_of_lt_of_le (h.known id hid) hgrows.size_le
    · have hreaches := (hplan id).1 (List.mem_filter.1 hid).1
      exact hlinked.hasNode_iff.1 (hreaches.hasNode (hlinked.known root hnoted.known))
  · rw [List.mem_append, not_or] at hid
    obtain ⟨hunit, himports⟩ := h.same id hid.1
    obtain ⟨hunit', himports'⟩ := hnoted.same id fun hdue => hid.2 (hbuilt.2 hdue)
    rw [hprogram]
    exact ⟨hunit.trans hunit', himports'.trans himports⟩

/-- No step of a plan makes the archive. -/
theorem avoids_cacheFile (b : Builder σ) (entry : String) (action : Action) (u : BuildUnit) :
    b.Avoids entry action u b.layout.cacheFile where
  parts role _ _ := Disk.apart_of_getLast? Layout.getLast?_cacheFile Layout.getLast?_path
    (by decide) (by cases role <;> decide) (by cases role <;> decide)
  output _ _ := Disk.apart_of_getLast? Layout.getLast?_cacheFile Layout.getLast?_outputPath
    (by decide) (by decide) (by decide)

/-- An analysis that succeeds is the one of the resolution, and changes nothing else. -/
theorem analyze_eq_ok {found : Option Nat} (h : b.analyze name definition s = .ok found s') :
    ∃ r, s.resolution.analyze (b.world s.disk) name definition = (r, .ok found) ∧
      s' = { s with resolution := r } := by
  unfold analyze at h
  generalize s.resolution.analyze (b.world s.disk) name definition = k at h ⊢
  obtain ⟨r, result⟩ := k
  cases result with
  | ok id =>
    cases h
    exact ⟨r, rfl, rfl⟩
  | error fault => cases h

/-- If the resolution finds what an entry point is, the analysis succeeds with it. -/
theorem analyze_of_result {found : Option Nat} (hresult : (s.resolution.analyze (b.world s.disk) name
      definition).2.toOption = some found) : b.analyze name definition s =
    .ok found { s with resolution :=
      (s.resolution.analyze (b.world s.disk) name definition).1 } := by
  rw [analyze]
  generalize s.resolution.analyze (b.world s.disk) name definition = k at hresult ⊢
  obtain ⟨r, result⟩ := k
  cases result with
  | ok id =>
    obtain rfl := Option.some.inj hresult
    rfl
  | error fault => cases hresult

/-- What an entry point was resolved to is built by the steps of its plan, and then noted. -/
theorem buildUnit_eq_ok (h : b.buildUnit name root s = .ok result s') : ∃ s₁,
    b.execute name (b.planFor s root) ∅ (b.planFor s root).steps s = .ok result.records s₁ ∧
      result.touched =
        (b.planFor s root).units.filter (fun id => (s₁.resolution.freshness id).needsBuild) ∧
      s' = { s₁ with resolution := result.touched.foldl markBuilt s₁.resolution } := by
  rw [buildUnit, BuildM.get_bind] at h
  obtain ⟨records, s₁, hexecute, h⟩ := BuildM.bind_eq_ok.1 h
  obtain ⟨touched, s₂, hsettle, h⟩ := BuildM.bind_eq_ok.1 h
  cases h
  cases hsettle
  exact ⟨s₁, hexecute, rfl, rfl⟩

/-- Steps leave alone the program and the archive. -/
theorem leaves_of_steps (hcareful : b.toolchain.Careful) {plan : Plan} {generated : NodeSet}
    {steps : List Step} {records : List StepRecord}
    (h : b.execute name plan generated steps s = .ok records s') :
    s.Leaves b.layout.cacheFile s' :=
  (execute_spares hcareful fun step _ u => b.avoids_cacheFile name step.action u).ok h

/-- A plan is about all units that its root reaches, and no others. -/
theorem mem_units_planFor (hlinked : s.resolution.program.Linked)
    (hroot : root < s.resolution.program.units.size) {id : Nat} :
    id ∈ (b.planFor s root).units ↔ s.resolution.program.graph.Reaches root id :=
  Planning.mem_units_plan (fun _ hnode => hlinked.hasNode_iff.1 hnode) hroot

/-- An entry point that stands for nothing changes nothing; any other one is analyzed and built. -/
theorem buildEntry_eq_ok (h : b.buildEntry entry s = .ok result s') :
    (result.touched = [] ∧ result.records = [] ∧ s' = s) ∨
      ∃ definition root r,
        s.resolution.analyze (b.world s.disk) entry.name definition = (r, .ok (some root)) ∧
          b.buildUnit entry.name root { s with resolution := r } = .ok result s' := by
  have hnamed {definition : Option Definition}
      (h : b.buildNamed entry.name definition s = .ok result s') :
      (result.touched = [] ∧ result.records = [] ∧ s' = s) ∨ ∃ definition root r,
        s.resolution.analyze (b.world s.disk) entry.name definition = (r, .ok (some root)) ∧
          b.buildUnit entry.name root { s with resolution := r } = .ok result s' := by
    obtain ⟨found, s₁, hanalyze, h⟩ := BuildM.bind_eq_ok.1 h
    obtain ⟨r, hr, rfl⟩ := analyze_eq_ok hanalyze
    cases found with
    | none =>
      cases h
      obtain rfl := eq_of_analyze_none hr
      exact .inl ⟨rfl, rfl, rfl⟩
    | some root => exact .inr ⟨definition, root, r, hr, h⟩
  rw [Builder.buildEntry, BuildM.get_bind] at h
  cases hmeaning : b.meaning s entry <;> rw [hmeaning] at h
  case byName => exact hnamed h
  case defined => exact hnamed h
  case missingIn =>
    cases h
    exact .inl ⟨rfl, rfl, rfl⟩

/-- An analysis between two entry points lets the program grow, and notes which units are due. -/
theorem Between.analyze (h : Between p a touched s) {w : World} {r : Resolution}
    (hr : s.resolution.analyze w name definition = (r, .ok (some root))) :
    r.Sane ∧ s.resolution.program.Evolves r.program ∧ Noted s.resolution.program root r := by
  have hanalyze := h.sane.analyze w name definition
  rw [hr] at hanalyze
  exact ⟨hanalyze.1, hanalyze.2, noted_analyze h.sane h.linked.toSound h.calm hr⟩

/-- After an entry point only the units differ from the archive that were touched before, or by
it. -/
theorem Between.buildEntry (h : Between p a touched s) (hcareful : b.toolchain.Careful)
    (hrun : b.buildEntry entry s = .ok result s') :
    Between p a (touched ++ result.touched) s' := by
  rcases buildEntry_eq_ok hrun with ⟨hnone, _, rfl⟩ | ⟨definition, root, r, hr, hbuild⟩
  · rw [hnone, List.append_nil]
    exact h
  · obtain ⟨s₁, hexecute, htouched, rfl⟩ := buildUnit_eq_ok hbuild
    have hleaves := leaves_of_steps hcareful hexecute
    obtain ⟨hsane, hevolves, hnoted⟩ := h.analyze hr
    rw [hleaves.resolution] at htouched ⊢
    rw [htouched]
    exact h.settle hsane hevolves hnoted _
      (fun id => mem_units_planFor (h.linked.evolves hevolves) hnoted.known) rfl
      (hleaves.units.trans h.units) (hleaves.version.trans h.version)

/-- After some entry points only the units differ from the archive that one of them touched. -/
theorem Between.mapM_buildEntry (h : Between p a touched s) (hcareful : b.toolchain.Careful)
    (hrun : entries.mapM b.buildEntry s = .ok results s') :
    Between p a (touched ++ results.flatMap (·.touched)) s' := by
  induction entries generalizing touched s results with
  | nil =>
    rw [List.mapM_nil] at hrun
    cases hrun
    rw [List.flatMap_nil, List.append_nil]
    exact h
  | cons entry entries ih =>
    rw [List.mapM_cons] at hrun
    obtain ⟨result, s₁, hentry, hrun⟩ := BuildM.bind_eq_ok.1 hrun
    obtain ⟨rest, s₂, hrest, hrun⟩ := BuildM.bind_eq_ok.1 hrun
    cases hrun
    rw [List.flatMap_cons, ← List.append_assoc]
    exact ih (h.buildEntry hcareful hentry) hrest

/-- What a build reports of its entry points, and of the names that were not found. -/
def reportOf (results : List EntryResult) (unresolved : List UnresolvedReference) : Report :=
  ⟨results.map (·.outcome), results.flatMap (·.records), results.flatMap (·.warnings), unresolved⟩

/-- A build succeeds if its entry points do, and the archive can be kept. -/
theorem build_eq_ok : b.build entries s = .ok report s' ↔ ∃ results s₁,
    entries.mapM b.buildEntry { s with resolution := s.resolution.reset } = .ok results s₁ ∧
      b.persist (Std.ExtTreeSet.ofList (results.flatMap (·.touched))) s₁ = .ok () s' ∧
      report = reportOf results s₁.resolution.run.unresolved := by
  constructor
  · intro hrun
    obtain ⟨_, s₀, hstart, hrun⟩ := BuildM.bind_eq_ok.1 hrun
    cases hstart
    obtain ⟨results, s₁, hentries, hrun⟩ := BuildM.bind_eq_ok.1 hrun
    rw [BuildM.get_bind] at hrun
    obtain ⟨_, s₂, hpersist, hrun⟩ := BuildM.bind_eq_ok.1 hrun
    cases hrun
    exact ⟨results, s₁, hentries, hpersist, rfl⟩
  · rintro ⟨results, s₁, hentries, hpersist, rfl⟩
    refine BuildM.bind_eq_ok.2 ⟨(), _, rfl, BuildM.bind_eq_ok.2 ⟨results, s₁, hentries, ?_⟩⟩
    rw [BuildM.get_bind]
    exact BuildM.bind_eq_ok.2 ⟨(), s', hpersist, rfl⟩

/-- An archive that can be kept has the rows of the touched units, and its document is on the
disk. -/
theorem persist_eq_ok {ids : NodeSet} {done : Unit} (h : b.persist ids s = .ok done s') :
    s'.resolution = s.resolution ∧
      s'.archive = s.archive.updateRows s.resolution.program ids.toList ∧
      s'.disk.text? b.layout.cacheFile = some s'.archive.document := by
  unfold persist at h
  dsimp only at h
  generalize hstore : Archive.store _ s.disk b.layout.cacheFile b.now = k at h
  obtain ⟨disk, result⟩ := k
  cases result with
  | ok done =>
    cases h
    exact ⟨rfl, rfl, Archive.text?_store hstore⟩
  | error fault => cases h

/-- If only touched units differ from the archive and their rows are brought up to date, all rows
are. -/
theorem Between.records (h : Between p a touched s) (hrecords : a.Records p) :
    (s.archive.updateRows s.resolution.program
      (Std.ExtTreeSet.ofList touched : NodeSet).toList).Records s.resolution.program where
  linked := h.linked
  permitted := h.permitted
  units := by
    have hmem {id : Nat} : id ∈ (Std.ExtTreeSet.ofList touched : NodeSet) ↔ id ∈ touched := by
      simp [Std.ExtTreeSet.mem_ofList]
    refine Archive.units_updateRows h.grows h.linked.distinct
      (fun id hid => h.known id (hmem.1 hid)) (fun id hid => ?_) (h.units.trans hrecords.units)
    obtain ⟨hunit, himports⟩ := h.same id fun hid' => hid (hmem.2 hid')
    exact Archive.row?_congr hrecords.linked h.grows hunit himports
  version := h.version.trans hrecords.version

/-- At the start of a new run nothing differs from the program as it is. -/
theorem between_reset (hlinked : s.resolution.program.Linked)
    (hpermitted : s.resolution.program.Permitted) :
    Between s.resolution.program s.archive [] { s with resolution := s.resolution.reset } where
  sane := sane_start _
  linked := hlinked
  permitted := hpermitted
  calm := calm_start _
  grows := .refl _
  known _ hid := absurd hid List.not_mem_nil
  same _ _ := ⟨.of_eq rfl, rfl⟩
  units := rfl
  version := rfl

/-- At the start of a build nothing differs from an archive that has the rows of the program. -/
theorem between_start (hrecords : s.archive.Records p) (hprogram : s.resolution.program = p) :
    Between p s.archive [] { s with resolution := s.resolution.reset } := by
  subst hprogram
  exact between_reset hrecords.linked hrecords.permitted

/-- A build that succeeds in a session leaves an archive with the rows of the whole program. -/
theorem records_build (hcareful : b.toolchain.Careful) (hrecords : s.archive.Records p)
    (hprogram : s.resolution.program = p) (hrun : b.build entries s = .ok report s') :
    s'.archive.Records s'.resolution.program ∧
      s'.disk.text? b.layout.cacheFile = some s'.archive.document := by
  obtain ⟨results, s₁, hentries, hpersist, _⟩ := build_eq_ok.1 hrun
  have hbetween := between_start hrecords hprogram
  have hafter := (hbetween.mapM_buildEntry hcareful hentries).records hrecords
  rw [List.nil_append] at hafter
  obtain ⟨hresolution, harchive, htext⟩ := persist_eq_ok hpersist
  rw [harchive, hresolution] at *
  exact ⟨hafter, htext⟩

/-- A computation leaves alone the text of the archive. -/
abbrev Keeps (b : Builder σ) {α : Type} (x : BuildM σ α) : Prop :=
  BuildM.Frames (fun s s' => s'.disk.text? b.layout.cacheFile = s.disk.text? b.layout.cacheFile) x

/-- Two parts that leave the archive alone do so together. -/
theorem Keeps.bind {α β : Type} {x : BuildM σ α} {f : α → BuildM σ β} (hx : b.Keeps x)
    (hf : ∀ a, b.Keeps (f a)) : b.Keeps (x >>= f) :=
  BuildM.Frames.bind (fun _ _ _ h h' => h'.trans h) hx hf

/-- An analysis leaves the archive alone, also if it fails. -/
theorem analyze_keeps : b.Keeps (b.analyze name definition) := fun s => by rw [final_analyze]

theorem Keeps.pure {α : Type} (a : α) : b.Keeps (Pure.pure a : BuildM σ α) :=
  fun _ => rfl

/-- Noting what is built leaves the archive alone. -/
theorem settle_keeps (plan : Plan) : b.Keeps (settle plan) := fun _ => rfl

/-- What an entry point was resolved to is built without a change to the archive. -/
theorem buildUnit_keeps (hcareful : b.toolchain.Careful) : b.Keeps (b.buildUnit name root) := by
  refine BuildM.Frames.get fun s => ?_
  have hexecute : b.Keeps (b.execute name (b.planFor s root) ∅ (b.planFor s root).steps) :=
    (execute_spares hcareful fun step _ u => b.avoids_cacheFile name step.action u).mono
      fun _ _ => BuildState.Leaves.text
  exact hexecute.bind (fun _ => (settle_keeps _).bind fun _ => .pure _) s

/-- So is an entry point that was found. -/
theorem buildNamed_keeps (hcareful : b.toolchain.Careful) :
    b.Keeps (b.buildNamed name definition) := by
  refine analyze_keeps.bind fun found => ?_
  cases found with
  | none => exact .pure _
  | some root => exact buildUnit_keeps hcareful

/-- So is any entry point. -/
theorem buildEntry_keeps (hcareful : b.toolchain.Careful) : b.Keeps (b.buildEntry entry) := by
  refine BuildM.Frames.get fun s => ?_
  cases b.meaning s entry with
  | byName => exact buildNamed_keeps hcareful s
  | defined definition => exact buildNamed_keeps hcareful s
  | missingIn directory => rfl

/-- So are entry points that are built one after the other. -/
theorem mapM_buildEntry_keeps (hcareful : b.toolchain.Careful) (entries : List Entry) :
    b.Keeps (entries.mapM b.buildEntry) := by
  induction entries with
  | nil => exact .pure []
  | cons entry entries ih =>
    rw [List.mapM_cons]
    exact (buildEntry_keeps hcareful).bind fun _ => ih.bind fun _ => .pure _

/-- If the archive cannot be kept, the former one stays. -/
theorem persist_eq_error {ids : NodeSet} (h : b.persist ids s = .error fault s') :
    s'.disk.text? b.layout.cacheFile = s.disk.text? b.layout.cacheFile := by
  have hapart : s.disk.Apart b.layout.cacheFile (Archive.draftPath b.layout.cacheFile) :=
    Disk.apart_of_getLast? Layout.getLast?_cacheFile Layout.getLast?_draftPath (by decide)
      (by decide) (by decide)
  unfold persist at h
  dsimp only at h
  generalize hstore : Archive.store _ s.disk b.layout.cacheFile b.now = k at h
  obtain ⟨disk, result⟩ := k
  cases result with
  | ok done => cases h
  | error fault =>
    cases h
    exact Archive.text?_store_error hapart hstore

/-- A build that fails leaves the archive on the disk as it was. -/
theorem text_of_build_error (hcareful : b.toolchain.Careful)
    (hrun : b.build entries s = .error fault s') :
    s'.disk.text? b.layout.cacheFile = s.disk.text? b.layout.cacheFile := by
  have hkeeps := mapM_buildEntry_keeps hcareful entries
  rcases BuildM.bind_eq_error.1 hrun with hstart | ⟨_, s₀, hstart, hrun⟩
  · cases hstart
  cases hstart
  rcases BuildM.bind_eq_error.1 hrun with hrun | ⟨results, s₁, hrun, hrest⟩
  · have htext := hkeeps.error hrun
    exact htext
  have htext := hkeeps.ok hrun
  rw [BuildM.get_bind] at hrest
  rcases BuildM.bind_eq_error.1 hrest with hpersist | ⟨_, s₂, _, hpure⟩
  · exact (persist_eq_error hpersist).trans htext
  · cases hpure

/-- The disks that processes leave which share an archive and build once each. At first there is no
archive, and between two processes anything but the archive may change. -/
inductive Left (path : FilePath) : Disk → Prop where
  | start {d : Disk} (hnone : d.text? path = none) : Left path d
  /-- A build, which may succeed or fail, on a disk with the archive that was left. -/
  | built {σ : Type} (b : Builder σ) (hcareful : b.toolchain.Careful)
      (hpath : b.layout.cacheFile = path) {d d' : Disk} (hleft : Left path d)
      (hsame : d'.text? path = d.text? path) (tools : σ) (entries : List Entry) :
      Left path (BuildM.final (b.build entries) (.start b.config d' tools)).disk

/-- A process that starts on an archive with the rows of some program, or on none, and builds with
success leaves one with the rows of the whole program. -/
theorem records_build_start (hcareful : b.toolchain.Careful) {d : Disk} {tools : σ}
    (hkept : Archive.Kept d b.layout.cacheFile)
    (hrun : b.build entries (.start b.config d tools) = .ok report s') :
    s'.archive.Records s'.resolution.program ∧
      s'.disk.text? b.layout.cacheFile = some s'.archive.document :=
  records_build hcareful hkept.load rfl hrun

/-- Whatever processes worked on a disk, the archive there has the rows of some program. -/
theorem Left.kept {path : FilePath} {d : Disk} (h : Left path d) : Archive.Kept d path := by
  induction h with
  | start hnone => exact .inl hnone
  | built b hcareful hpath _ hsame tools entries ih =>
    subst hpath
    rw [Archive.Kept, ← hsame, ← Archive.Kept] at ih
    rw [BuildM.final]
    split
    · next report s' hrun =>
      obtain ⟨hrecords, htext⟩ := records_build_start hcareful ih hrun
      exact .inr ⟨_, _, hrecords, htext⟩
    · next fault s' hrun =>
      rw [Archive.Kept, text_of_build_error hcareful hrun]
      exact ih

/-- After a build that succeeds, the archive has exactly the rows of the whole program, in their
order, and is what the disk holds, whatever earlier processes built and wherever they failed. -/
theorem units_of_build (b : Builder σ) (hcareful : b.toolchain.Careful) (d d' : Disk)
    (hleft : Left b.layout.cacheFile d)
    (hsame : d'.text? b.layout.cacheFile = d.text? b.layout.cacheFile) (tools : σ)
    (entries : List Entry) (report : Report) (s' : BuildState σ)
    (hrun : b.build entries (.start b.config d' tools) = .ok report s') :
    s'.archive.units = (Archive.ofProgram s'.resolution.program).units ∧
      s'.disk.text? b.layout.cacheFile = some s'.archive.document := by
  have hkept := hleft.kept
  rw [Archive.Kept, ← hsame] at hkept
  obtain ⟨hrecords, htext⟩ := records_build_start hcareful hkept hrun
  exact ⟨hrecords.units, htext⟩

/-- Tools that make empty files touch no other file. -/
theorem careful_emptyFiles : emptyFiles.Careful := by
  intro i tools d p hapart
  rw [emptyFiles]
  dsimp only
  split
  · next disk hwrite => exact Disk.text?_write_of_apart hwrite hapart
  · rfl

/-- An entry point that its directory has is built as the unit that it was resolved to. -/
theorem buildEntry_of_located {directory : FilePath} {definition : Definition} {t : BuildState σ}
    (hmeaning : b.meaning s (.located name directory) = .defined definition)
    (hanalyze : b.analyze name (some definition) s = .ok (some root) t) :
    b.buildEntry (.located name directory) s = b.buildUnit name root t := by
  rw [buildEntry, BuildM.get_bind, hmeaning]
  exact BuildM.bind_of_ok hanalyze

/-- Keeping the archive leaves the program alone, and writes nothing but the archive, also if it
fails. -/
theorem final_persist (ids : NodeSet) (s : BuildState σ) :
    (BuildM.final (b.persist ids) s).resolution = s.resolution ∧
      (BuildM.final (b.persist ids) s).tools = s.tools ∧
      (BuildM.final (b.persist ids) s).disk = ((s.archive.updateRows s.resolution.program
        ids.toList).store s.disk b.layout.cacheFile b.now).1 := by
  unfold BuildM.final persist
  dsimp only
  generalize Archive.store _ s.disk b.layout.cacheFile b.now = k
  obtain ⟨disk, stored⟩ := k
  cases stored <;> exact ⟨rfl, rfl, rfl⟩

/-- Keeping the archive leaves the files of all units alone, also if it fails. -/
theorem sameAt_persist (ids : NodeSet) (s : BuildState σ) (role : FileRole) (u : BuildUnit) :
    Disk.SameAt (b.layout.path role u) s.disk (BuildM.final (b.persist ids) s).disk := by
  have hbeside : b.layout.BesideArchive (b.layout.path role u) := Layout.besideArchive_path
  rw [(final_persist ids s).2.2]
  exact Archive.sameAt_store_of_apart hbeside.draft hbeside.file

/-- What is left to do for an entry point once its plan is made. -/
def finish (b : Builder σ) (name : String) (plan : Plan) (steps : List Step) : BuildM σ Unit := do
  let _ ← b.execute name plan ∅ steps
  let touched ← settle plan
  b.persist (Std.ExtTreeSet.ofList touched)

/-- An entry point is built if it is resolved and the rest can be done. The build leaves the program
as it was planned, and the files that its steps made. -/
theorem exists_build_of_located (hcareful : b.toolchain.Careful) {directory : FilePath}
    {definition : Definition} {t : BuildState σ} {steps : List Step}
    (hmeaning : b.meaning { s with resolution := s.resolution.reset } (.located name directory) =
      .defined definition)
    (hanalyze : b.analyze name (some definition) { s with resolution := s.resolution.reset } =
      .ok (some root) t)
    (hsteps : (b.planFor t root).steps = steps)
    (hfinish : BuildM.succeeds (b.finish name (b.planFor t root) steps) t) :
    ∃ report s', b.build [.located name directory] s = .ok report s' ∧
      s'.resolution.program = t.resolution.program ∧
      ∃ t', b.execute name (b.planFor t root) ∅ steps t = .ok report.records t' ∧
        s'.archive.registry = t'.archive.registry ∧
        ∀ role u, Disk.SameAt (b.layout.path role u) t'.disk s'.disk := by
  subst hsteps
  obtain ⟨_, s', hfinish⟩ := BuildM.exists_ok_of_succeeds hfinish
  obtain ⟨records, s₁, hexecute, hfinish⟩ := BuildM.bind_eq_ok.1 hfinish
  obtain ⟨touched, s₂, hsettle, hpersist⟩ := BuildM.bind_eq_ok.1 hfinish
  obtain ⟨result, hentry, htouched, hrecords⟩ : ∃ result,
      b.buildEntry (.located name directory) { s with resolution := s.resolution.reset } =
        .ok result s₂ ∧ result.touched = touched ∧ result.records = records := by
    refine ⟨⟨if (b.planFor t root).hasStep root .emit then .built name root (b.config.outputPath name)
      else .notBuildable name root, records, (b.planFor t root).warnings, touched⟩, ?_, rfl, rfl⟩
    rw [buildEntry_of_located hmeaning hanalyze, buildUnit, BuildM.get_bind]
    exact BuildM.bind_eq_ok.2 ⟨_, _, hexecute, BuildM.bind_eq_ok.2 ⟨_, _, hsettle, rfl⟩⟩
  have hentries : [.located name directory].mapM b.buildEntry
      { s with resolution := s.resolution.reset } = .ok [result] s₂ := by
    rw [List.mapM_cons, List.mapM_nil]
    exact BuildM.bind_eq_ok.2 ⟨_, _, hentry, rfl⟩
  have hrun : b.build [.located name directory] s =
      .ok (reportOf [result] s₂.resolution.run.unresolved) s' := by
    refine build_eq_ok.2 ⟨_, s₂, hentries, ?_, rfl⟩
    rw [List.flatMap_singleton, htouched]
    exact hpersist
  have hsame := b.sameAt_persist (Std.ExtTreeSet.ofList touched) s₂
  rw [BuildM.final, hpersist] at hsame
  obtain ⟨hresolution, harchive, -⟩ := persist_eq_ok hpersist
  cases hsettle
  refine ⟨_, s', hrun, ?_, s₁, ?_, ?_, hsame⟩
  · rw [hresolution]
    dsimp only
    rw [(foldl_markBuilt _ _).1, (leaves_of_steps hcareful hexecute).resolution]
  · rw [hexecute, reportOf, List.flatMap_singleton, hrecords]
  · rw [harchive]
    rfl

/-- A build fails if a step of an entry point fails. -/
theorem exists_build_error {directory : FilePath} {definition : Definition} {t : BuildState σ}
    {steps : List Step}
    (hmeaning : b.meaning { s with resolution := s.resolution.reset } (.located name directory) =
      .defined definition)
    (hanalyze : b.analyze name (some definition) { s with resolution := s.resolution.reset } =
      .ok (some root) t)
    (hsteps : (b.planFor t root).steps = steps)
    (hfails : BuildM.succeeds (b.execute name (b.planFor t root) ∅ steps) t = false) :
    ∃ fault s', b.build [.located name directory] s = .error fault s' := by
  subst hsteps
  obtain ⟨fault, hexecute⟩ := BuildM.exists_error_of_fails hfails
  generalize BuildM.final _ t = s' at hexecute
  have hentry : b.buildEntry (.located name directory) { s with resolution := s.resolution.reset } =
      .error fault s' := by
    rw [buildEntry_of_located hmeaning hanalyze, buildUnit, BuildM.get_bind]
    exact BuildM.bind_eq_error.2 (.inl hexecute)
  have hentries : [.located name directory].mapM b.buildEntry
      { s with resolution := s.resolution.reset } = .error fault s' := by
    rw [List.mapM_cons]
    exact BuildM.bind_eq_error.2 (.inl hentry)
  exact ⟨fault, s', BuildM.bind_eq_error.2 (.inr ⟨(), _, rfl, BuildM.bind_eq_error.2 (.inl hentries)⟩)⟩

/-- Two units that need each other are planned as a cycle. -/
theorem ofMutual_planFor {t : BuildState σ} (hsize : t.resolution.program.units.size = 2)
    (hgraph : t.resolution.program.graph = mutualGraph) : OfMutual (b.planFor t 0) := by
  rw [planFor_eq, hgraph]
  exact ofMutual_plan hsize

/-- The steps for two units that need each other. -/
theorem steps_planFor_mutual {t : BuildState σ} (hsize : t.resolution.program.units.size = 2)
    (hgraph : t.resolution.program.graph = mutualGraph) :
    (b.planFor t 0).steps = mutualSteps (b.planningOf t t.resolution.freshness) := by
  rw [planFor_eq, hgraph]
  exact steps_plan_mutual hsize

/-- A file with a text that was written at a time. -/
def textFile (time : Int) (text : String) : Node := .file (.text text) time

/-- Two scripts that call each other, and places for what a build makes. -/
def pairNodes : List (Place × Node) :=
  [(["c"], .directory 0), (["c", "objects"], .directory 0),
    (["f.m"], textFile 1 "function f()\n  g();\nend\n"),
    (["g.m"], textFile 1 "function g()\n  f();\nend\n")]

/-- The disk of the pair before the first build. -/
def pairDisk : Disk := ⟨.ofList pairNodes, 0, 0⟩

/-- The first session of the pair. -/
def pairStart : BuildState Unit := .start stubBuilder.config pairDisk ()

/-- The state in which the entry point is looked at. -/
def pairReset : BuildState Unit := { pairStart with resolution := pairStart.resolution.reset }

/-- What the entry point stands for. -/
def pairDefinition : Definition := ⟨.script ⟨"./f.m"⟩, 1, .file ⟨"./f.m"⟩⟩

/-- The state in which the scripts are planned. -/
def pairAnalyzed : BuildState Unit :=
  { pairReset with resolution := (pairReset.resolution.analyze
      (stubBuilder.world pairReset.disk) "f" (some pairDefinition)).1 }

/-- A script of the pair as a unit. -/
def pairUnit (name : String) : BuildUnit :=
  ⟨name, 0, .script ⟨"./" ++ name ++ ".m"⟩, 1, some (.file ⟨"./" ++ name ++ ".m"⟩), [name]⟩

/-- The archive after both were built. -/
def pairArchive : Archive where
  version := Archive.formatVersion
  units := [⟨"f", 0, some ⟨"./f.m"⟩, 1, .script, ["f"], [⟨"g", 0, ["g"]⟩], []⟩,
    ⟨"g", 0, some ⟨"./g.m"⟩, 1, .script, ["g"], [⟨"f", 0, ["f"]⟩], []⟩]
  registry := []

/-- The steps of the first build. -/
def pairSteps : List Step :=
  [⟨0, .generate⟩, ⟨0, .compile⟩, ⟨1, .generate⟩, ⟨1, .compile⟩, ⟨0, .emit⟩]

/-- The pair is analyzed: its units, the rows they are given and the steps they are planned with. -/
structure PairAnalysis (s t : BuildState Unit) (second : BuildUnit) (rows : List Archive.Row)
    (steps : List Step) : Prop where
  meaning : stubBuilder.meaning s (.located "f" ⟨"."⟩) = .defined pairDefinition
  analyze : stubBuilder.analyze "f" (some pairDefinition) s = .ok (some 0) t
  units : t.resolution.program.units = .ofList [pairUnit "f", second]
  graph : t.resolution.program.graph = mutualGraph
  first : t.resolution.program.importsOf 0 = Imports.empty.insert (.unit 1) "g"
  second : t.resolution.program.importsOf 1 = Imports.empty.insert (.unit 0) "f"
  rows : (Archive.ofProgram t.resolution.program).units = rows
  steps : mutualSteps (stubBuilder.planningOf t t.resolution.freshness) = steps

namespace PairAnalysis

variable {s t : BuildState Unit} {second : BuildUnit} {rows : List Archive.Row} {steps : List Step}

theorem size (h : PairAnalysis s t second rows steps) : t.resolution.program.units.size = 2 := by
  rw [h.units]
  rfl

/-- Each builder plans the pair as a cycle. -/
theorem ofMutual (h : PairAnalysis s t second rows steps) (b : Builder Unit) :
    OfMutual (b.planFor t 0) := ofMutual_planFor h.size h.graph

/-- The steps of the plan are the expected ones. -/
theorem steps_planFor (h : PairAnalysis s t second rows steps) :
    (stubBuilder.planFor t 0).steps = steps := by
  rw [steps_planFor_mutual h.size h.graph, h.steps]

/-- The units and dependencies of the pair fit together, as they do after every analysis. -/
theorem linked (h : PairAnalysis s t second rows steps) (hsane : s.resolution.Sane)
    (hlinked : s.resolution.program.Linked) : t.resolution.program.Linked := by
  obtain ⟨r, hr, rfl⟩ := analyze_eq_ok h.analyze
  have hlater := (hsane.analyze (stubBuilder.world s.disk) "f" (some pairDefinition)).2
  rw [hr] at hlater
  exact hlinked.evolves hlater

end PairAnalysis

/-- The first analysis of the pair finds both scripts and that they need each other. -/
theorem analysis_pair :
    PairAnalysis pairReset pairAnalyzed (pairUnit "g") pairArchive.units pairSteps := by
  -- One evaluation for all of it, as each has to analyze the pair first.
  have hall : stubBuilder.meaning pairReset (.located "f" ⟨"."⟩) = .defined pairDefinition ∧
      (pairReset.resolution.analyze (stubBuilder.world pairReset.disk) "f"
        (some pairDefinition)).2.toOption = some (some 0) ∧
      pairAnalyzed.resolution.program.units = .ofList [pairUnit "f", pairUnit "g"] ∧
      pairAnalyzed.resolution.program.graph = mutualGraph ∧
      pairAnalyzed.resolution.program.importsOf 0 = Imports.empty.insert (.unit 1) "g" ∧
      pairAnalyzed.resolution.program.importsOf 1 = Imports.empty.insert (.unit 0) "f" ∧
      (Archive.ofProgram pairAnalyzed.resolution.program).units = pairArchive.units ∧
      mutualSteps (stubBuilder.planningOf pairAnalyzed pairAnalyzed.resolution.freshness) =
        pairSteps := by
    decide +kernel
  obtain ⟨hmeaning, hroot, hrest⟩ := hall
  obtain ⟨hunits, hgraph, hfirst, hsecond, hrows, hsteps⟩ := hrest
  exact ⟨hmeaning, analyze_of_result hroot, hunits, hgraph, hfirst, hsecond, hrows, hsteps⟩

/-- What the first build of the pair makes: code for both, with forward declarations as they are in
a cycle, their objects, and the module of the entry point. -/
def madeNodes : List (Place × Node) :=
  [(["c", "objects", "f_0.h"], textFile 0
      "/* f */\n#ifndef SC_f_0_H\n#define SC_f_0_H\nvoid sc_f_0_f(void);\n#endif\n"),
    (["c", "objects", "f_0.c"], textFile 0
      "#include \"f_0.h\"\n#include \"g_0.h\"\n\nvoid sc_f_0_f(void)\n\x7b\n    sc_g_0_g();\n\x7d\n"),
    (["c", "objects", "f_0_fwd.c"], textFile 0
      "/* forward declarations of f */\nvoid sc_f_0_f(void) \x7b\x7d\n"),
    (["c", "objects", "f_0.o"], textFile 0 ""),
    (["c", "objects", "g_0.h"], textFile 0
      "/* g */\n#ifndef SC_g_0_H\n#define SC_g_0_H\nvoid sc_g_0_g(void);\n#endif\n"),
    (["c", "objects", "g_0.c"], textFile 0
      "#include \"g_0.h\"\n#include \"f_0.h\"\n\nvoid sc_g_0_g(void)\n\x7b\n    sc_f_0_f();\n\x7d\n"),
    (["c", "objects", "g_0_fwd.c"], textFile 0
      "/* forward declarations of g */\nvoid sc_g_0_g(void) \x7b\x7d\n"),
    (["c", "objects", "g_0.o"], textFile 0 ""),
    (["f.so"], textFile 0 "")]

/-- The disk after the first build, before the archive is kept. -/
def madeDisk : Disk := ⟨.ofList (pairNodes ++ madeNodes), 0, 0⟩

/-- The first build by any plan that has the pair as a cycle. -/
theorem finish_pair {plan : Plan} (h : OfMutual plan) :
    BuildM.succeeds (stubBuilder.finish "f" plan pairSteps) pairAnalyzed ∧
      (BuildM.final (stubBuilder.execute "f" plan ∅ pairSteps) pairAnalyzed).disk = madeDisk ∧
      (BuildM.final (stubBuilder.execute "f" plan ∅ pairSteps) pairAnalyzed).archive.registry = [] := by
  have hunits : plan.units = [0, 1] := by rw [Plan.units, h.order]; rfl
  unfold finish settle pairSteps
  simp only [execute, take, generate, emit, BuildConfig.entryLinkage, hunits, h.first, h.second]
  decide +kernel

/-- The disk on which the pair was built, with its archive. -/
def archivedDisk : Disk :=
  madeDisk.give ["c"] "build-cache.json" (textFile 0 pairArchive.document) 0

/-- The same disk after another text was written for the second script. -/
def editedDisk (text : String) : Disk := archivedDisk.give [] "g.m" (textFile 2 text) 2

/-- Keeping the archive writes it beside what was made. -/
theorem write_archivedDisk : madeDisk.write stubBuilder.layout.cacheFile
    (.text pairArchive.document) 0 = .ok archivedDisk := by
  have hnamed : madeDisk.named (.inside ["c"]) "build-cache.json" = .ok none := by decide
  apply Disk.write_eq_give (by decide) (by decide) hnamed
  simp

theorem write_editedDisk (text : String) :
    archivedDisk.write ⟨"g.m"⟩ (.text text) 2 = .ok (editedDisk text) := by
  have hnamed : archivedDisk.named (.inside []) "g.m" =
      .ok (some (textFile 1 "function g()\n  f();\nend\n")) := by
    decide
  apply Disk.write_eq_give (by decide) (by decide) hnamed
  simp [textFile]

/-- An edit of the script leaves all files of units as they were made. -/
theorem sameAt_editedDisk (text : String) (role : FileRole) (u : BuildUnit) :
    Disk.SameAt (stubBuilder.layout.path role u) madeDisk (editedDisk text) := by
  have harchive : madeDisk.Apart (stubBuilder.layout.path role u) stubBuilder.layout.cacheFile :=
    Disk.apart_of_getLast? Layout.getLast?_path Layout.getLast?_cacheFile
      (by cases role <;> decide) (by decide) (by cases role <;> decide)
  have hscript : archivedDisk.Apart (stubBuilder.layout.path role u) ⟨"g.m"⟩ :=
    Disk.apart_of_getLast? Layout.getLast?_path (e := 'm') (by decide)
      (by cases role <;> decide) (by decide) (by cases role <;> decide)
  exact (Disk.sameAt_write_of_apart write_archivedDisk harchive).trans
    (Disk.sameAt_write_of_apart (write_editedDisk text) hscript)

/-- An edit of the script leaves the archive as it was. -/
theorem text?_editedDisk (text : String) :
    (editedDisk text).text? stubBuilder.layout.cacheFile = some pairArchive.document := by
  have hapart : archivedDisk.Apart stubBuilder.layout.cacheFile ⟨"g.m"⟩ :=
    Disk.apart_of_getLast? Layout.getLast?_cacheFile (e := 'm') (by decide) (by decide) (by decide)
      (by decide)
  rw [Disk.text?_write_of_apart (write_editedDisk text) hapart, Disk.text?_write write_archivedDisk]

/-- What is left by a build of the pair on which nothing was built before. -/
structure PairBuilt (s : BuildState Unit) : Prop where
  program : s.resolution.program = pairAnalyzed.resolution.program
  archive : s.archive = pairArchive
  text : s.disk.text? stubBuilder.layout.cacheFile = some pairArchive.document
  files : ∀ text role u, Disk.SameAt (stubBuilder.layout.path role u) s.disk (editedDisk text)

/-- There is no archive before the first build. -/
theorem text?_pairDisk : pairDisk.text? stubBuilder.layout.cacheFile = none := by decide

theorem kept_pairStart : Archive.Kept pairStart.disk stubBuilder.layout.cacheFile :=
  .inl text?_pairDisk

/-- The pair can be built. -/
theorem build_pair : ∃ report s',
    stubBuilder.build [.located "f" ⟨"."⟩] pairStart = .ok report s' ∧ PairBuilt s' := by
  obtain ⟨hsucceeds, hdisk, hregistry⟩ := finish_pair (analysis_pair.ofMutual stubBuilder)
  obtain ⟨report, s', hrun, hprogram, t, hexecute, hkept, hsame⟩ := exists_build_of_located
    (b := stubBuilder) (s := pairStart) careful_emptyFiles analysis_pair.meaning analysis_pair.analyze
    analysis_pair.steps_planFor hsucceeds
  rw [BuildM.final, hexecute] at hdisk hregistry
  obtain ⟨hrecords, htext⟩ :=
    records_build_start (b := stubBuilder) careful_emptyFiles kept_pairStart hrun
  have harchive : s'.archive = ⟨Archive.formatVersion, pairArchive.units, []⟩ := by
    rw [← analysis_pair.rows, ← hprogram, ← hrecords.units, ← hrecords.version, ← hregistry,
      ← hkept]
  refine ⟨report, s', hrun, hprogram, harchive, ?_, fun text role u => ?_⟩
  · rw [htext, harchive]
    rfl
  · have hmade := sameAt_editedDisk text role u
    rw [← hdisk] at hmade
    exact (hsame role u).symm.trans hmade

/-- The archive of the first build has the rows of the pair. -/
theorem records_pairArchive : pairArchive.Records pairAnalyzed.resolution.program := by
  obtain ⟨report, s', hrun, hbuilt⟩ := build_pair
  obtain ⟨hrecords, -⟩ :=
    records_build_start (b := stubBuilder) careful_emptyFiles kept_pairStart hrun
  rwa [hbuilt.archive, hbuilt.program] at hrecords

/-- A session on a disk with the archive of the pair starts from that. -/
theorem start_pairArchive {d : Disk}
    (htext : d.text? stubBuilder.layout.cacheFile = some pairArchive.document) :
    .start stubBuilder.config d () =
      (⟨d, (), .start pairArchive.toProgram, pairArchive, []⟩ : BuildState Unit) := by
  have hload := records_pairArchive.load_eq htext (by decide)
  rw [BuildState.start, ← layout, hload]

/-- The second script with another function. -/
def grownText : String := "function g()\n  f();\nend\nfunction h()\nend\n"

/-- The state in which the entry point is looked at after that edit. -/
def grownReset : BuildState Unit where
  disk := editedDisk grownText
  tools := ()
  resolution := (Resolution.start pairArchive.toProgram).reset
  archive := pairArchive
  log := []

/-- The state in which the edited pair is planned. -/
def grownAnalyzed : BuildState Unit :=
  { grownReset with resolution := (grownReset.resolution.analyze
      (stubBuilder.world grownReset.disk) "f" (some pairDefinition)).1 }

/-- The second script as it is after the edit. -/
def grownUnit : BuildUnit :=
  ⟨"g", 0, .script ⟨"./g.m"⟩, 2, some (.file ⟨"./g.m"⟩), ["g", "h"]⟩

/-- The rows of the edited pair. -/
def grownRows : List Archive.Row :=
  [⟨"f", 0, some ⟨"./f.m"⟩, 1, .script, ["f"], [⟨"g", 0, ["g"]⟩], []⟩,
    ⟨"g", 0, some ⟨"./g.m"⟩, 2, .script, ["g", "h"], [⟨"f", 0, ["f"]⟩], []⟩]

/-- The steps of the second build: the first script has not changed. -/
def grownSteps : List Step := [⟨1, .generate⟩, ⟨1, .compile⟩, ⟨0, .emit⟩]

/-- The second analysis finds the new function of the second script, and that the first one is
old. -/
theorem analysis_grown : PairAnalysis grownReset grownAnalyzed grownUnit grownRows grownSteps := by
  have hall : stubBuilder.meaning grownReset (.located "f" ⟨"."⟩) = .defined pairDefinition ∧
      (grownReset.resolution.analyze (stubBuilder.world grownReset.disk) "f"
        (some pairDefinition)).2.toOption = some (some 0) ∧
      grownAnalyzed.resolution.program.units = .ofList [pairUnit "f", grownUnit] ∧
      grownAnalyzed.resolution.program.graph = mutualGraph ∧
      grownAnalyzed.resolution.program.importsOf 0 = Imports.empty.insert (.unit 1) "g" ∧
      grownAnalyzed.resolution.program.importsOf 1 = Imports.empty.insert (.unit 0) "f" ∧
      (Archive.ofProgram grownAnalyzed.resolution.program).units = grownRows ∧
      mutualSteps (stubBuilder.planningOf grownAnalyzed grownAnalyzed.resolution.freshness) =
        grownSteps := by
    decide +kernel
  obtain ⟨hmeaning, hroot, hrest⟩ := hall
  obtain ⟨hunits, hgraph, hfirst, hsecond, hrows, hsteps⟩ := hrest
  exact ⟨hmeaning, analyze_of_result hroot, hunits, hgraph, hfirst, hsecond, hrows, hsteps⟩

/-- The units and dependencies of the edited pair fit together. -/
theorem linked_grown : grownAnalyzed.resolution.program.Linked :=
  analysis_grown.linked (sane_start _) records_pairArchive.toProgram.linked

/-- Tools that fail to make one file. -/
def failingAt (t : Toolchain σ) (p : FilePath) : Toolchain σ where
  run i state :=
    if i.output = p then (state, .error (.toolFailed "cc" i.subject (.exited 1) "")) else t.run i state

/-- Tools that fail touch no more than they would otherwise. -/
theorem careful_failingAt {t : Toolchain σ} (h : t.Careful) (p : FilePath) : (failingAt t p).Careful := by
  intro i tools d q hapart
  by_cases hfails : i.output = p
  · simp only [failingAt, if_pos hfails]
  · simp only [failingAt, if_neg hfails]
    exact h i tools d q hapart

/-- A builder that does not get the object of the second script. -/
def brokenBuilder : Builder Unit :=
  { stubBuilder with toolchain := failingAt emptyFiles ⟨"c/objects/g_0.o"⟩ }

/-- The second build by any plan that has the pair as a cycle, with tools that work and with others. -/
theorem finish_grown {plan : Plan} (h : OfMutual plan) :
    BuildM.succeeds (stubBuilder.finish "f" plan grownSteps) grownAnalyzed ∧
      BuildM.succeeds (brokenBuilder.execute "f" plan ∅ grownSteps) grownAnalyzed = false := by
  have hunits : plan.units = [0, 1] := by rw [Plan.units, h.order]; rfl
  unfold finish settle grownSteps
  simp only [execute, take, generate, emit, BuildConfig.entryLinkage, hunits, h.second]
  decide +kernel

/-- The edited pair can be built. -/
theorem build_grown : ∃ report s', stubBuilder.build [.located "f" ⟨"."⟩]
      (.start stubBuilder.config (editedDisk grownText) ()) = .ok report s' ∧
    s'.resolution.program = grownAnalyzed.resolution.program ∧
    ∃ t, stubBuilder.execute "f" (stubBuilder.planFor grownAnalyzed 0) ∅ grownSteps grownAnalyzed =
      .ok report.records t := by
  rw [start_pairArchive (text?_editedDisk grownText)]
  obtain ⟨report, s', hrun, hprogram, t, hexecute, -⟩ := exists_build_of_located (b := stubBuilder)
    (s := ⟨editedDisk grownText, (), .start pairArchive.toProgram, pairArchive, []⟩)
    careful_emptyFiles analysis_grown.meaning analysis_grown.analyze analysis_grown.steps_planFor
    (finish_grown (analysis_grown.ofMutual stubBuilder)).1
  exact ⟨report, s', hrun, hprogram, t, hexecute⟩

/-- The edited pair cannot be built with tools that fail. -/
theorem build_grown_error : ∃ fault s', brokenBuilder.build [.located "f" ⟨"."⟩]
    (.start brokenBuilder.config (editedDisk grownText) ()) = .error fault s' := by
  have hstart : (.start brokenBuilder.config (editedDisk grownText) () : BuildState Unit) =
      .start stubBuilder.config (editedDisk grownText) () := rfl
  have hmeaning : brokenBuilder.meaning = stubBuilder.meaning := rfl
  have hanalyze : brokenBuilder.analyze = stubBuilder.analyze := rfl
  have hplan : brokenBuilder.planFor = stubBuilder.planFor := rfl
  have hfails := (finish_grown (analysis_grown.ofMutual brokenBuilder)).2
  rw [hstart, start_pairArchive (text?_editedDisk grownText)]
  exact exists_build_error (b := brokenBuilder)
    (s := ⟨editedDisk grownText, (), .start pairArchive.toProgram, pairArchive, []⟩)
    (by rw [hmeaning]; exact analysis_grown.meaning) (by rw [hanalyze]; exact analysis_grown.analyze)
    (by rw [hplan]; exact analysis_grown.steps_planFor) hfails

/-- The pair is built, then a build of the edited pair fails, and at last one succeeds: its archive has
the row of the first script as it was, and a new one of the second. -/
theorem units_of_build_pair : ∃ report s₁ fault s₂ report' s',
    stubBuilder.build [.located "f" ⟨"."⟩] pairStart = .ok report s₁ ∧
    brokenBuilder.build [.located "f" ⟨"."⟩]
      (.start brokenBuilder.config (editedDisk grownText) ()) = .error fault s₂ ∧
    Left stubBuilder.layout.cacheFile s₂.disk ∧
    stubBuilder.build [.located "f" ⟨"."⟩]
      (.start stubBuilder.config (editedDisk grownText) ()) = .ok report' s' ∧
    s'.archive.units = grownRows ∧
    s'.disk.text? stubBuilder.layout.cacheFile = some s'.archive.document := by
  obtain ⟨report, s₁, hfirst, hbuilt⟩ := build_pair
  obtain ⟨fault, s₂, hsecond⟩ := build_grown_error
  obtain ⟨report', s', hthird, hprogram, -⟩ := build_grown
  have hleft : Left stubBuilder.layout.cacheFile s₁.disk := by
    have hleft : Left _ (BuildM.final (stubBuilder.build [.located "f" ⟨"."⟩]) pairStart).disk :=
      .built stubBuilder careful_emptyFiles rfl (.start text?_pairDisk) rfl () _
    rwa [BuildM.final, hfirst] at hleft
  have hcareful : brokenBuilder.toolchain.Careful := careful_failingAt careful_emptyFiles _
  have hafter : Left stubBuilder.layout.cacheFile s₂.disk := by
    have hleft := Left.built brokenBuilder hcareful rfl hleft
      ((text?_editedDisk grownText).trans hbuilt.text.symm) () [.located "f" ⟨"."⟩]
    rwa [BuildM.final, hsecond] at hleft
  have hsame := text_of_build_error hcareful hsecond
  obtain ⟨hunits, htext⟩ := units_of_build stubBuilder careful_emptyFiles s₂.disk
    (editedDisk grownText) hafter hsame.symm () [.located "f" ⟨"."⟩] report' s' hthird
  refine ⟨report, s₁, fault, s₂, report', s', hfirst, hsecond, hafter, hthird, ?_, htext⟩
  rw [hunits, hprogram, analysis_grown.rows]

end Builder

end ScriptBuild
