import ScriptBuild.Proofs.Build.Lasting
import ScriptBuild.Proofs.Disk.Writable

namespace ScriptBuild

variable {σ : Type}

/-- What is related to something in a list is in the other list. -/
theorem exists_mem_of_forall₂ {α β : Type} {R : α → β → Prop} {xs : List α} {ys : List β} {y : β}
    (h : List.Forall₂ R xs ys) (hy : y ∈ ys) : ∃ x ∈ xs, R x y := by
  induction h with
  | nil => exact absurd hy List.not_mem_nil
  | @cons x _ xs _ hfirst _ ih =>
    rcases List.mem_cons.1 hy with rfl | hy
    · exact ⟨x, List.mem_cons_self, hfirst⟩
    · obtain ⟨x', hx', hrelated⟩ := ih hy
      exact ⟨x', List.mem_cons_of_mem _ hx', hrelated⟩

namespace EntryResult

/-- Some entry points that were built lead to a unit. -/
def Covers (results : List EntryResult) (p : Program) (id : Nat) : Prop :=
  ∃ result ∈ results, ∃ root, result.outcome.unit? = some root ∧ p.graph.Reaches root id

/-- A module was made for a unit by the name of an entry point. -/
def Yields (results : List EntryResult) (name : String) (root : Nat) : Prop :=
  ∃ result ∈ results, ∃ artifact, result.outcome = .built name root artifact

variable {results : List EntryResult} {result : EntryResult} {p : Program} {id other root : Nat}
  {name : String}

theorem Covers.edge (h : Covers results p id) (hedge : p.graph.Edge id other) :
    Covers results p other := by
  obtain ⟨result, hmem, root, hroot, hreaches⟩ := h
  exact ⟨result, hmem, root, hroot, hreaches.tail hedge⟩

/-- An entry point for which a module was made leads to its own unit. -/
theorem Yields.covers (h : Yields results name root) : Covers results p root := by
  obtain ⟨result, hmem, artifact, hbuilt⟩ := h
  exact ⟨result, hmem, root, by rw [hbuilt]; rfl, .refl⟩

/-- A further entry point covers what its unit reaches. -/
theorem covers_append : Covers (results ++ [result]) p id ↔
    Covers results p id ∨ ∃ root, result.outcome.unit? = some root ∧ p.graph.Reaches root id := by
  simp [Covers, or_and_right, exists_or]

/-- A further entry point yields a module if one was built for it. -/
theorem yields_append : Yields (results ++ [result]) name root ↔
    Yields results name root ∨ ∃ artifact, result.outcome = .built name root artifact := by
  simp [Yields, or_and_right, exists_or]

end EntryResult

namespace Builder

open BuildM BuildState Program Resolution
open EntryResult (Covers Yields)

variable {b : Builder σ} {clock : σ → Int} {s s₀ t : BuildState σ} {entry : Entry} {name : String}
  {entries : List Entry} {steps : List Step} {records : List StepRecord} {plan : Plan}
  {generated : NodeSet} {u : BuildUnit} {id root : Nat} {p : Program} {names : String → Prop}
  {result : EntryResult} {former results : List EntryResult} {spelling : DirectoryKey → FilePath}

/-- What is up to date after some entry points were built. -/
structure Current (b : Builder σ) (p : Program) (names : String → Prop) (results : List EntryResult)
    (s : BuildState σ) : Prop where
  file : ∀ path, b.Involved p path → s.disk.isDirectory path = false
  output : ∀ name, names name → s.disk.isDirectory (b.config.outputPath name) = false
  named : ∀ name root, Yields results name root → names name
  modules : b.config.mode = .perUnit → ∀ id u, Covers results s.resolution.program id →
    s.resolution.program.units.get? id = some u → u.kind.treatment.makesObject →
    s.disk.NoOlder (b.layout.path .artifact u) (s.resolution.program.Watches b.config id)
  emitted : b.config.mode = .single → ∀ name root, Yields results name root →
    s.disk.NoOlder (b.config.outputPath name) (s.resolution.program.Holds b.config root)
  /-- Modules that were copied can be copied again. -/
  writable : b.config.mode = .perUnit → ∀ name root, Yields results name root →
    s.disk.Writable (b.config.outputPath name)

theorem Current.nil (h : b.Timely p names clock s) : b.Current p names [] s where
  file := h.file
  output := h.output
  named _ _ h := absurd h.choose_spec.1 List.not_mem_nil
  modules _ _ _ h := absurd h.choose_spec.1 List.not_mem_nil
  emitted _ _ _ h := absurd h.choose_spec.1 List.not_mem_nil
  writable _ _ _ h := absurd h.choose_spec.1 List.not_mem_nil

/-- An entry point that comes to nothing changes nothing. -/
theorem Current.unresolved (h : b.Current p names former s) {message warning : String} :
    b.Current p names (former ++ [.unresolved message warning]) s := by
  have hcovers {p : Program} {id : Nat}
      (h : Covers (former ++ [.unresolved message warning]) p id) : Covers former p id := by
    rcases EntryResult.covers_append.1 h with h | ⟨root, hroot, -⟩
    · exact h
    · cases hroot
  have hyields {name : String} {root : Nat}
      (h : Yields (former ++ [.unresolved message warning]) name root) : Yields former name root := by
    rcases EntryResult.yields_append.1 h with h | ⟨artifact, hbuilt⟩
    · exact h
    · cases hbuilt
  exact ⟨h.file, h.output, fun name root hname => h.named name root (hyields hname),
    fun hmode id u hid => h.modules hmode id u (hcovers hid),
    fun hmode name root hname => h.emitted hmode name root (hyields hname),
    fun hmode name root hname => h.writable hmode name root (hyields hname)⟩

/-- Resolving further entry points leaves what was built up to date. -/
theorem Current.resolve {r : Resolution} (h : b.Current p names former s) (hs : Rests s)
    (ht : Rests { s with resolution := r }) (hproceeds : Proceeds s { s with resolution := r })
    (hknown : ∀ earlier ∈ former, ∀ root, earlier.outcome.unit? = some root →
      root ∈ s.resolution.run.handled ∧ root < s.resolution.program.units.size) :
    b.Current p names former { s with resolution := r } where
  file := h.file
  output := h.output
  named := h.named
  modules hmode id v hcovers hv hobject := by
    obtain ⟨earlier, hmem, root, hroot, hid⟩ := hcovers
    obtain ⟨hhandled, hsize⟩ := hknown earlier hmem root hroot
    have hkept := hs.keptBelow ht hproceeds hhandled
    have hid := (hkept.reaches_iff .refl).1 hid
    obtain ⟨u, hu⟩ :=
      Catalog.exists_get? (hs.linked.node id (hid.hasNode (hs.linked.known root hsize)))
    obtain ⟨v', hv', huv⟩ := hproceeds.resumes.units id u hu
    obtain rfl := Option.some.inj (hv.symm.trans hv')
    rw [b.layout.path_of_becomes huv]
    refine (h.modules hmode id u ⟨earlier, hmem, root, hroot, hid⟩ hu (huv.kind ▸ hobject)).congr
      fun path hpath => ?_
    exact (hkept.watches_iff hs.linked hsize hid).1 hpath
  emitted hmode name root hyields := by
    obtain ⟨earlier, hmem, artifact, hbuilt⟩ := hyields
    obtain ⟨hhandled, hsize⟩ := hknown earlier hmem root (by rw [hbuilt]; rfl)
    refine (h.emitted hmode name root ⟨earlier, hmem, artifact, hbuilt⟩).congr fun path hpath => ?_
    exact ((hs.keptBelow ht hproceeds hhandled).holds_iff hs.linked hsize).1 hpath
  writable := h.writable

/-- Between two disks no file that matters has been made, nor has a directory come or gone. Modules of
entry points may be copied anew. -/
structure SameDates (b : Builder σ) (p : Program) (names : String → Prop) (d d' : Disk) : Prop where
  directories : d.SameDirectories d'
  dates : ∀ path, b.Involved p path → d'.date? path = d.date? path
  outputs : b.config.mode = .single → ∀ name, names name →
    d'.date? (b.config.outputPath name) = d.date? (b.config.outputPath name)

theorem SameDates.refl (d : Disk) : b.SameDates p names d d := ⟨.refl d, fun _ _ => rfl, fun _ _ _ => rfl⟩

/-- If nothing that matters is made between two disks and on to a third one, nothing is made
altogether. -/
theorem SameDates.trans {d d' d'' : Disk} (h : b.SameDates p names d d')
    (h' : b.SameDates p names d' d'') : b.SameDates p names d d'' where
  directories := h.directories.trans h'.directories
  dates path hpath := (h'.dates path hpath).trans (h.dates path hpath)
  outputs hmode name hname := (h'.outputs hmode name hname).trans (h.outputs hmode name hname)

/-- What was up to date stays so where no file that matters is made. -/
theorem Current.of_sameDates (h : b.Current p names results s)
    (hsame : b.SameDates p names s.disk t.disk)
    (hprogram : t.resolution.program = s.resolution.program)
    (hgrows : s.resolution.program.units.Grows p.units) : b.Current p names results t where
  file path hpath := by
    rw [hsame.directories.isDirectory_eq]
    exact h.file path hpath
  output name hname := by
    rw [hsame.directories.isDirectory_eq]
    exact h.output name hname
  named := h.named
  modules hmode id u hid hu hobject := by
    rw [hprogram] at hid hu ⊢
    obtain ⟨v, hv, huv⟩ := hgrows id u hu
    refine (h.modules hmode id u hid hu hobject).of_dates (hsame.dates _ ?_) fun path hpath =>
      hsame.dates path (hpath.involved.grows hgrows)
    exact .inl ⟨id, v, .artifact, hv, .inr rfl, (b.layout.path_of_becomes huv).symm⟩
  emitted hmode name root hyields := by
    rw [hprogram]
    exact (h.emitted hmode name root hyields).of_dates
      (hsame.outputs hmode name (h.named name root hyields)) fun path hpath =>
        hsame.dates path (hpath.involved.grows hgrows)
  writable hmode name root hyields :=
    (h.writable hmode name root hyields).of_sameDirectories hsame.directories

/-- Keeping the archive makes no file that matters. -/
theorem sameDates_persist {ids : NodeSet} (hseparate : b.Separate p names)
    (hrun : b.persist ids s = .ok () t) : b.SameDates p names s.disk t.disk := by
  have hdisk := (final_persist (b := b) ids s).2.2
  rw [final, hrun] at hdisk
  have hsame {path : FilePath} (hbeside : b.layout.BesideArchive path) :
      t.disk.date? path = s.disk.date? path := by
    refine congrArg (Option.map Node.changed) ?_
    rw [hdisk]
    exact Archive.file?_store_of_apart hbeside.draft hbeside.file
  refine ⟨(sameNames_persist hrun).entries.directories, fun path hpath => ?_, fun _ name _ =>
    hsame Layout.besideArchive_outputPath⟩
  rcases hpath with ⟨id, u, role, -, -, rfl⟩ | hforeign
  · exact hsame Layout.besideArchive_path
  · exact hsame (hseparate.foreign_archive path hforeign)

theorem sameDirectories_execute (htidy : b.toolchain.Tidy)
    (hrun : b.execute name plan generated steps s = .ok records t) :
    s.disk.SameDirectories t.disk :=
  fun _ _ => (execute_makes htidy hrun).1.disk.isDirectoryAt_iff

/-- Where a module was copied to, it can be copied again. -/
theorem writable_execute (htidy : b.toolchain.Tidy) (hmode : b.config.mode = .perUnit)
    (hmem : ⟨id, .emit⟩ ∈ steps) (hu : s.resolution.program.units.get? id = some u)
    (hrun : b.execute name plan generated steps s = .ok records t) :
    t.disk.Writable (b.config.outputPath name) := by
  induction steps generalizing s generated records with
  | nil => exact absurd hmem List.not_mem_nil
  | cons x steps ih =>
    have hsame := sameDirectories_execute htidy hrun
    rw [execute, BuildM.get_bind] at hrun
    cases hunit : s.resolution.program.units.get? x.unit with
    | none =>
      rw [hunit] at hrun
      refine ih ((List.mem_cons.1 hmem).resolve_left ?_) hu hrun
      rintro rfl
      rw [hu] at hunit
      cases hunit
    | some v =>
      rw [hunit] at hrun
      obtain ⟨performed, s₁, htake, hrun⟩ := BuildM.bind_eq_ok.1 hrun
      obtain ⟨later, s₂, hrest, hrun⟩ := BuildM.bind_eq_ok.1 hrun
      cases hrun
      rcases List.mem_cons.1 hmem with rfl | hmem
      · unfold take at htake
        dsimp only at htake
        rw [emit, hmode] at htake
        obtain ⟨_, s₃, hcopy, -⟩ := BuildM.bind_eq_ok.1 htake
        unfold copyFile at hcopy
        split at hcopy
        · next disk hdone => exact (Disk.writable_of_copy hdone).of_sameDirectories hsame
        · cases hcopy
      · exact ih hmem (by rw [(take_makes htidy htake).1.resolution]; exact hu) hrest

/-- When an entry point was built by its plan, its modules are up to date, and those of the former entry
points still are. -/
theorem Current.buildUnit (h : b.Current p names former s) (htimely : b.Timely p names clock s)
    (hset : b.Setting p names clock s root name (Covers former s.resolution.program) (Yields former))
    (hrun : b.buildUnit name root s = .ok result t) :
    b.Timely p names clock t ∧ b.Current p names (former ++ [result]) t := by
  have houtcome := outcome_buildUnit hrun
  obtain ⟨s₁, hexecute, -, rfl⟩ := buildUnit_eq_ok hrun
  have hstart : b.Lasts p names clock s root name (Covers former s.resolution.program)
      (Yields former) [] ∅ s :=
    { stocked := .refl _ _ _
      timely := htimely
      generated := fun _ hid => absurd hid Std.ExtTreeSet.not_mem_empty
      modules := fun hmode id u hid =>
        h.modules hmode id u (hid.resolve_right List.not_mem_nil)
      emitted := fun hmode name other hother =>
        h.emitted hmode name other (hother.resolve_right fun hnew => List.not_mem_nil hnew.2.2) }
  obtain ⟨last, hlast⟩ := hstart.execute hset htimely (List.nil_append _).symm hexecute
  rw [List.nil_append] at hlast
  have hprogram : (result.touched.foldl Resolution.markBuilt s₁.resolution).program =
      s.resolution.program := by
    rw [(foldl_markBuilt _ _).1, hlast.stocked.gains.resolution]
  have hunit {other : Nat} (hother : result.outcome.unit? = some other) : other = root := by
    rw [houtcome] at hother
    split at hother <;> exact (Option.some.inj hother).symm
  have hbuilt {title : String} {other : Nat} {artifact : FilePath}
      (hother : result.outcome = .built title other artifact) :
      title = name ∧ other = root ∧ ⟨root, .emit⟩ ∈ (b.planFor s root).steps := by
    rw [houtcome] at hother
    split at hother
    · next hemit =>
      cases hother
      exact ⟨rfl, rfl, by simpa [Plan.hasStep] using hemit⟩
    · cases hother
  refine ⟨⟨hlast.timely.file, hlast.timely.output, hlast.timely.time, hlast.timely.foreign⟩,
    hlast.timely.file, hlast.timely.output, fun title other hyields => ?_,
    fun hmode id u hcovers hu hobject => ?_,
    fun hmode title other hyields => ?_, fun hmode title other hyields => ?_⟩
  · rcases EntryResult.yields_append.1 hyields with hformer | ⟨artifact, hother⟩
    · exact h.named title other hformer
    · rw [(hbuilt hother).1]
      exact hset.entry
  · dsimp only at hcovers hu ⊢
    rw [hprogram] at hcovers hu ⊢
    refine hlast.modules hmode id u ((EntryResult.covers_append.1 hcovers).imp_right ?_) hu hobject
    rintro ⟨other, hother, hid⟩
    obtain rfl := hunit hother
    have hobject : (b.planningOf s s.resolution.freshness).makesObject id := by
      rwa [makesObject_planningOf hu]
    exact (Planning.isStocked_or_mem_steps (c := b.planningOf s s.resolution.freshness)
      hset.linked.node hset.known hid hobject).2.2.2 hmode
  · dsimp only
    rw [hprogram]
    refine hlast.emitted hmode title other ((EntryResult.yields_append.1 hyields).imp_right ?_)
    rintro ⟨artifact, hother⟩
    exact hbuilt hother
  · rcases EntryResult.yields_append.1 hyields with hformer | ⟨artifact, hother⟩
    · have hsame := sameDirectories_execute hset.tidy hexecute
      exact (h.writable hmode title other hformer).of_sameDirectories hsame
    · obtain ⟨rfl, rfl, hemit⟩ := hbuilt hother
      have hknown := Planning.isSome_get?_of_mem_steps (c := b.planningOf s s.resolution.freshness)
        hemit
      obtain ⟨u, hu⟩ := Option.isSome_iff_exists.1 hknown
      have hwritable := writable_execute hset.tidy hmode hemit hu hexecute
      exact hwritable

/-- No entry point generates the code of a unit to which an earlier one leads. -/
def Undisturbed (b : Builder σ) (entries : List Entry) (s : BuildState σ) : Prop :=
  ∀ before entry after former s₁ result t, entries = before ++ entry :: after →
    before.mapM b.buildEntry { s with resolution := s.resolution.reset } = .ok former s₁ →
    b.buildEntry entry s₁ = .ok result t →
    ∀ id, Covers former t.resolution.program id → id ∉ generatedIn result.records

/-- What a build is made with whose modules are to be up to date in the end. -/
structure Regular (b : Builder σ) (p : Program) (names : String → Prop) (clock : σ → Int)
    (spelling : DirectoryKey → FilePath) : Prop where
  tidy : b.toolchain.Tidy
  confined : b.toolchain.Confined
  stamps : b.toolchain.Stamps clock
  generator : b.generator = Stub.generate
  separate : b.Separate p names
  lies : p.LiesIn fun d => spelling d.key = d

/-- An entry point leaves the former ones up to date if it generates the code of none of their units. -/
theorem Current.buildEntry (h : b.Current p names former s) (htimely : b.Timely p names clock s)
    (hregular : b.Regular p names clock spelling) (hmidway : b.Midway s₀.disk spelling s)
    (hfinished : ∀ earlier ∈ former, ∃ entry, b.Finished s₀ s entry earlier.outcome)
    (hfile : ∀ name text, entry ≠ .snippet name text) (hname : names entry.name)
    (hgrows : t.resolution.program.units.Grows p.units)
    (hundisturbed : ∀ id, Covers former t.resolution.program id → id ∉ generatedIn result.records)
    (hrun : b.buildEntry entry s = .ok result t) :
    b.Timely p names clock t ∧ b.Current p names (former ++ [result]) t := by
  obtain ⟨htidy, hconfined, hstamps, hgenerator, hseparate, hlies⟩ := hregular
  rcases buildEntry_cases hrun with ⟨-, rfl, warning, rfl⟩ | ⟨d, root, r, hstands, hr, hbuild⟩
  · exact ⟨htimely, h.unresolved⟩
  · have hanalyze : b.analyze entry.name (some d) s = .ok (some root) { s with resolution := r } := by
      rw [Builder.analyze, hr]
    have hproceeds := (hmidway.rests.analyze hanalyze).1.buildUnit hconfined hbuild
    have hr' : r.program.units.Grows p.units := hproceeds.2.resumes.units.trans hgrows
    obtain ⟨hplanned, hfirst, hbefore, -, hdenotes⟩ := hmidway.analyze hfile hstands
      (hlies.of_grows hr') hr
    obtain ⟨u, hu, -⟩ := hdenotes.exists_unit
    have hresolved := h.resolve hmidway.rests hplanned.rests hfirst fun earlier hmem root hroot =>
      (hfinished earlier hmem).choose_spec.came.known hroot
    obtain ⟨s₁, hexecute, -, heq⟩ := buildUnit_eq_ok hbuild
    have hprogram : t.resolution.program = r.program := by
      rw [heq, (foldl_markBuilt _ _).1, (execute_makes htidy hexecute).1.resolution]
    rw [hprogram] at hundisturbed
    refine hresolved.buildUnit (htimely.congr rfl rfl) ⟨htidy, hconfined, hstamps, hgenerator,
      hseparate, hr', hplanned.rests.linked, Catalog.lt_size_of_get? hu, hname, ?_,
      fun title other hyields => ⟨hresolved.named title other hyields, hyields.covers⟩⟩ hbuild
    refine ⟨fun id other hid hedge => hid.edge hedge, fun id v hid hv hobject => ?_, fun id hid => ?_⟩
    · obtain ⟨earlier, hmem, top, htop, hreaches⟩ := hid
      obtain ⟨title, hearlier⟩ := hfinished earlier hmem
      exact (hearlier.advance hmidway.rests hplanned.rests hfirst hbefore fun _ hp => hp).stored top
        htop id v hreaches hv hobject
    · intro hgenerate
      have hknown := Planning.isSome_get?_of_mem_steps
        (c := b.planningOf { s with resolution := r } r.freshness) hgenerate
      obtain ⟨v, hv⟩ := Option.isSome_iff_exists.1 hknown
      have hcoded := coded_execute hconfined.careful hgenerator hplanned.rests.linked.distinct hv
        hexecute
      exact hundisturbed id hid (hcoded.steps.2 hgenerate)

/-- All entry points of a build are up to date in the end if none of them disturbs an earlier one. -/
theorem current_mapM_buildEntry (hregular : b.Regular p names clock spelling)
    (hstart : b.Midway s.disk spelling { s with resolution := s.resolution.reset })
    (htimely : b.Timely p names clock s) (hundisturbed : b.Undisturbed entries s)
    (hfiles : ∀ entry ∈ entries, ∀ name text, entry ≠ .snippet name text)
    (hnames : ∀ entry ∈ entries, names entry.name)
    (hgrows : t.resolution.program.units.Grows p.units)
    (hrun : entries.mapM b.buildEntry { s with resolution := s.resolution.reset } = .ok results t) :
    b.Timely p names clock t ∧ b.Current p names results t := by
  -- The last entry point comes after all the others, which are a build of their own.
  induction entries using List.reverseRecOn generalizing results t with
  | nil =>
    rw [List.mapM_nil] at hrun
    cases hrun
    have hsame := htimely.congr (t := { s with resolution := s.resolution.reset }) rfl rfl
    exact ⟨hsame, .nil hsame⟩
  | append_singleton before entry ih =>
    obtain ⟨former, s₁, result, s₂, later, hbefore, hentry, hafter, rfl⟩ :=
      mapM_buildEntry_append hrun
    rw [List.mapM_nil] at hafter
    cases hafter
    have hlast : entry ∈ before ++ [entry] := List.mem_append_right _ (List.mem_singleton_self _)
    have hfirst (other : Entry) (hother : other ∈ before) : other ∈ before ++ [entry] :=
      List.mem_append_left _ hother
    obtain ⟨-, hproceeds⟩ := (hstart.rests.mapM_buildEntry hregular.confined hbefore).1.buildEntry
      hregular.confined hentry
    have hgrows' := hproceeds.resumes.units.trans hgrows
    have hcalm : b.Undisturbed before s := by
      intro front other back former s' result' t' heq
      refine hundisturbed front other (back ++ [entry]) former s' result' t' ?_
      rw [heq, List.append_assoc, List.cons_append]
    have hfiles' (other : Entry) (hother : other ∈ before) := hfiles other (hfirst other hother)
    obtain ⟨htimely, hcurrent⟩ := ih hcalm hfiles'
      (fun other hother => hnames other (hfirst other hother)) hgrows' hbefore
    obtain ⟨hmidway, -, -, hfinished⟩ := finished_mapM_buildEntry
      (hregular.stamps.reliable hregular.tidy) hregular.tidy hregular.confined hregular.generator
      hstart hfiles' (hregular.lies.of_grows hgrows') hbefore
    refine hcurrent.buildEntry htimely hregular hmidway (fun earlier hmem => ?_) (hfiles entry hlast)
      (hnames entry hlast) hgrows
      (hundisturbed before entry [] former s₁ result t rfl hbefore hentry) hentry
    obtain ⟨other, -, hother⟩ := exists_mem_of_forall₂ hfinished hmem
    exact ⟨other, hother⟩

end Builder

end ScriptBuild
