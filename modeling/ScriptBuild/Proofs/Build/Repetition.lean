import ScriptBuild.Proofs.Build.Current

namespace ScriptBuild

variable {σ : Type}

/-- A step had nothing to do, or has copied the module of an entry point. -/
def StepRecord.IsIdle (mode : ArtifactMode) (record : StepRecord) : Prop :=
  record.skipped = true ∨ mode = .perUnit ∧ record.step.action = .emit

/-- The start of a session that knows all that another one knew of the program in the end. -/
def BuildState.anew (t : BuildState σ) (tools : σ) : BuildState σ :=
  ⟨t.disk, tools, .start t.resolution.program, t.archive, []⟩

namespace Builder

open BuildM BuildState Program Resolution
open EntryResult (Covers Yields)

variable {b : Builder σ} {clock : σ → Int} {s s₀ s₁ t v w : BuildState σ} {entry : Entry}
  {name : String} {entries : List Entry} {steps : List Step} {u : BuildUnit} {id root now : Nat}
  {p : Program} {names : String → Prop} {results : List EntryResult} {outcome : Outcome}
  {spelling : DirectoryKey → FilePath} {report : Report}

/-- Copying the module of an entry point makes no file that matters. -/
theorem sameDates_copy {d d' : Disk} {source : FilePath} {time : Int} (hseparate : b.Separate p names)
    (hmode : b.config.mode = .perUnit) (hname : names name)
    (h : d.copy source (b.config.outputPath name) time = .ok d') : b.SameDates p names d d' where
  directories _ _ := (Disk.adds_copy h).isDirectoryAt_iff
  dates path hpath := by
    refine congrArg (Option.map Node.changed) (Disk.file?_copy_of_apart h ?_)
    rcases hpath with ⟨id, u, role, hu, -, rfl⟩ | hforeign
    · exact (hseparate.output_own name id u role hname hu d).symm
    · exact hseparate.foreign_output path name hforeign hname d
  outputs hsingle _ _ := by
    rw [hmode] at hsingle
    cases hsingle

/-- No tool was asked for anything, and no file that matters was made. -/
structure Idles (b : Builder σ) (p : Program) (names : String → Prop) (s t : BuildState σ) : Prop where
  disk : b.SameDates p names s.disk t.disk
  archive : t.archive = s.archive
  log : t.log = s.log

theorem Idles.refl (s : BuildState σ) : b.Idles p names s s := ⟨.refl _, rfl, rfl⟩

theorem Idles.trans (h : b.Idles p names s t) (h' : b.Idles p names t v) : b.Idles p names s v :=
  ⟨h.disk.trans h'.disk, h'.archive.trans h.archive, h'.log.trans h.log⟩

/-- An entry point that was built before is planned again, and its plan links only. -/
structure Resumes (b : Builder σ) (p : Program) (names : String → Prop) (results : List EntryResult)
    (name : String) (root : Nat) (v : BuildState σ) : Prop where
  separate : b.Separate p names
  grows : v.resolution.program.units.Grows p.units
  linked : v.resolution.program.Linked
  known : root < v.resolution.program.units.size
  named : names name
  covers : Covers results v.resolution.program root
  yields : ⟨root, .emit⟩ ∈ (b.planFor v root).steps → Yields results name root
  links : ∀ x ∈ (b.planFor v root).steps, x.action = .link ∨ x.action = .emit

namespace Resumes

variable (h : b.Resumes p names results name root v) (hw : b.Current p names results w)
  (hresolution : w.resolution = v.resolution)

include h hw hresolution

/-- A module that is up to date is there. -/
theorem noOlder (hmode : b.config.mode = .perUnit) (hid : v.resolution.program.graph.Reaches root id)
    (hu : v.resolution.program.units.get? id = some u) (hobject : u.kind.treatment.makesObject) :
    w.disk.NoOlder (b.layout.path .artifact u) (v.resolution.program.Watches b.config id) := by
  obtain ⟨result, hmem, top, htop, hreaches⟩ := h.covers
  have hmodules := hw.modules
  rw [hresolution] at hmodules
  exact hmodules hmode id u ⟨result, hmem, top, htop, hreaches.trans hid⟩ hu hobject

/-- The link of a unit to which the entry point leads has nothing to do. -/
theorem take_link (hmem : ⟨id, .link⟩ ∈ (b.planFor v root).steps)
    (hu : v.resolution.program.units.get? id = some u) :
    b.take name (b.planFor v root) ∅ ⟨id, .link⟩ u w = .ok false w := by
  have hmode : b.config.mode = .perUnit :=
    Planning.mode_of_mem_steps (c := b.planningOf v v.resolution.freshness) hmem
      (by simp [Action.rank]) (by simp)
  obtain ⟨hid, hobject⟩ : v.resolution.program.graph.Reaches root id ∧
      (b.planningOf v v.resolution.freshness).makesObject id :=
    Planning.mem_steps h.linked.node h.known hmem (by simp)
  rw [makesObject_planningOf hu] at hobject
  have hforward : (b.planFor v root).hasStep id .forwardLink = false := by
    rw [Plan.hasStep, List.contains_eq_mem, decide_eq_false_iff_not]
    intro hforward
    rcases h.links _ hforward with haction | haction <;> cases haction
  have hwatched {path : FilePath} := mem_watched_planFor (b := b) path false h.linked h.known hid hu
  have hinvolved {path : FilePath} (hpath : v.resolution.program.Watches b.config id path) :
      b.Involved p path := hpath.involved.grows h.grows
  obtain ⟨v', hv', huv⟩ := h.grows id u hu
  have hartifact : b.Involved p (b.layout.path .artifact u) :=
    .inl ⟨id, v', .artifact, hv', .inr rfl, (b.layout.path_of_becomes huv).symm⟩
  refine take_link_of_upToDate hforward (fun _ _ hnew => Std.ExtTreeSet.not_mem_empty hnew) rfl ?_
  rw [hresolution, output_unitLinkage, Disk.isUpToDate_iff (hw.file _ hartifact) fun path hpath =>
    hw.file path (hinvolved (hwatched.1 hpath))]
  exact (h.noOlder hw hresolution hmode hid hu hobject).congr fun path hpath => hwatched.1 hpath

/-- With one module for all units, the module of the entry point is up to date. -/
theorem take_emit_single (hmode : b.config.mode = .single)
    (hmem : ⟨root, .emit⟩ ∈ (b.planFor v root).steps) :
    b.take name (b.planFor v root) ∅ ⟨root, .emit⟩ u w = .ok false w := by
  have hwatched {path : FilePath} := mem_watched_entryLinkage_planFor (b := b) name path h.linked
    h.known
  have hinvolved {path : FilePath} (hpath : v.resolution.program.Holds b.config root path) :
      b.Involved p path := hpath.involved.grows h.grows
  have hemitted := hw.emitted hmode name root (h.yields hmem)
  rw [hresolution] at hemitted
  have houtput : (b.config.entryLinkage v.resolution.program.units (b.planFor v root) name).output =
      b.config.outputPath name := rfl
  refine take_emit_of_upToDate hmode rfl ?_
  rw [hresolution, houtput, Disk.isUpToDate_iff (hw.output name h.named) fun path hpath =>
    hw.file path (hinvolved (hwatched.1 hpath))]
  exact hemitted.congr fun path hpath => hwatched.1 hpath

/-- With a module for each unit, that of the entry point is copied once more, which changes no other
file. -/
theorem take_emit_perUnit (hmode : b.config.mode = .perUnit)
    (hmem : ⟨root, .emit⟩ ∈ (b.planFor v root).steps)
    (hu : v.resolution.program.units.get? root = some u) :
    ∃ disk, b.take name (b.planFor v root) ∅ ⟨root, .emit⟩ u w = .ok true { w with disk } ∧
      b.SameDates p names w.disk disk := by
  have htranslate : (b.planningOf v v.resolution.freshness).treatment root = .translate :=
    hasStep_emit_iff.1 (by simpa [Plan.hasStep] using hmem)
  have hobject : (b.planningOf v v.resolution.freshness).makesObject root := by
    rw [Planning.makesObject, htranslate]
    rfl
  rw [makesObject_planningOf hu] at hobject
  obtain ⟨made, hmade, -⟩ := h.noOlder hw hresolution hmode .refl hu hobject
  obtain ⟨node, hnode, -⟩ := Option.map_eq_some_iff.1 hmade
  obtain ⟨disk, hcopy⟩ := (hw.writable hmode name root (h.yields hmem)).exists_copy
    (Option.isSome_of_mem hnode) b.now
  refine ⟨disk, ?_, sameDates_copy h.separate hmode h.named hcopy⟩
  have hdone : b.copyFile (b.layout.path .artifact u) (b.config.outputPath name) w =
      .ok () { w with disk } := by
    rw [copyFile, hcopy]
  unfold take
  dsimp only
  rw [emit, hmode]
  exact bind_of_ok hdone

omit hw hresolution

/-- All steps are idle, one after the other. -/
theorem exists_execute (hv : b.Current p names results v)
    (hsteps : ∀ x ∈ steps, x ∈ (b.planFor v root).steps) (hidles : b.Idles p names v w)
    (hresolution : w.resolution = v.resolution) :
    ∃ records t, b.execute name (b.planFor v root) ∅ steps w = .ok records t ∧
      b.Idles p names v t ∧ t.resolution = v.resolution ∧
      ∀ record ∈ records, record.IsIdle b.config.mode := by
  induction steps generalizing w with
  | nil => exact ⟨[], w, rfl, hidles, hresolution, fun _ hmem => absurd hmem List.not_mem_nil⟩
  | cons x steps ih =>
    have hmem := hsteps x List.mem_cons_self
    have hw := hv.of_sameDates hidles.disk (congrArg Resolution.program hresolution) h.grows
    have hknown := Planning.isSome_get?_of_mem_steps (c := b.planningOf v v.resolution.freshness) hmem
    obtain ⟨u, hu⟩ := Option.isSome_iff_exists.1 hknown
    have hu : v.resolution.program.units.get? x.unit = some u := hu
    obtain ⟨performed, disk, htake, hsame, hidle⟩ : ∃ performed disk,
        b.take name (b.planFor v root) ∅ x u w = .ok performed { w with disk } ∧
          b.SameDates p names w.disk disk ∧
          StepRecord.IsIdle b.config.mode ⟨x, u.display, !performed⟩ := by
      obtain ⟨unit, action⟩ := x
      rcases h.links _ hmem with rfl | rfl
      · exact ⟨false, w.disk, h.take_link hw hresolution hmem hu, .refl _, .inl rfl⟩
      · obtain ⟨heq, -⟩ := Planning.unit_of_emit (c := b.planningOf v v.resolution.freshness) hmem rfl
        obtain rfl : unit = root := (Step.mk.inj heq).1
        cases hmode : b.config.mode with
        | single =>
          exact ⟨false, w.disk, h.take_emit_single hw hresolution hmode hmem, .refl _, .inl rfl⟩
        | perUnit =>
          obtain ⟨disk, htake, hsame⟩ := h.take_emit_perUnit hw hresolution hmode hmem hu
          exact ⟨true, disk, htake, hsame, .inr ⟨rfl, rfl⟩⟩
    obtain ⟨records, t, hrest, hidles', hresolution', hrecords⟩ :=
      ih (w := { w with disk }) (fun y hy => hsteps y (List.mem_cons_of_mem _ hy))
        (hidles.trans ⟨hsame, rfl, rfl⟩) hresolution
    have hnew : (x.action == .generate) = false := by
      rcases h.links _ hmem with haction | haction <;> rw [haction] <;> rfl
    refine ⟨⟨x, u.display, !performed⟩ :: records, t, ?_, hidles', hresolution', fun record hrecord => ?_⟩
    · rw [execute, BuildM.get_bind, hresolution, hu]
      dsimp only
      rw [bind_of_ok htake, hnew]
      exact bind_of_ok hrest
    · rcases List.mem_cons.1 hrecord with rfl | hrecord
      · exact hidle
      · exact hrecords record hrecord

/-- A unit of which nothing is new is built by idle steps. -/
theorem exists_buildUnit (hv : b.Current p names results v) :
    ∃ result t, b.buildUnit name root v = .ok result t ∧ b.Idles p names v t ∧
      ∀ record ∈ result.records, record.IsIdle b.config.mode := by
  obtain ⟨records, t, hexecute, hidles, -, hrecords⟩ :=
    h.exists_execute hv (fun _ hx => hx) (.refl v) rfl
  obtain ⟨touched, t', hsettle⟩ : ∃ touched t', settle (b.planFor v root) t = .ok touched t' :=
    ⟨_, _, rfl⟩
  have hsettled : b.Idles p names v t' := by
    cases hsettle
    exact ⟨hidles.disk, hidles.archive, hidles.log⟩
  refine ⟨⟨if (b.planFor v root).hasStep root .emit then .built name root (b.config.outputPath name)
    else .notBuildable name root, records, (b.planFor v root).warnings, touched⟩, t', ?_, hsettled,
    hrecords⟩
  rw [buildUnit, BuildM.get_bind, bind_of_ok hexecute, bind_of_ok hsettle]
  rfl

end Resumes

/-- What is up to date is so for the same builder at any time. -/
theorem Current.later (h : b.Current p names results v) (now : Nat) :
    (b.later now).Current p names results v :=
  ⟨h.file, h.output, h.named, h.modules, h.emitted, h.writable⟩

/-- An entry point that was built before is built again by idle steps. -/
theorem Retraces.exists_buildEntry
    (h : (b.later now).Retraces s₀.disk spelling t.resolution v) (ht : b.Midway s₀.disk spelling t)
    (hseparate : b.Separate t.resolution.program names)
    (hsize : t.resolution.program.units.size ≤ workLimit)
    (hlies : t.resolution.program.LiesIn fun d => spelling d.key = d)
    (hfile : ∀ name text, entry ≠ .snippet name text) (hname : names entry.name)
    (hfinished : b.Finished s₀ t entry outcome) (hretains : t.disk.Retains v.disk)
    (hcurrent : (b.later now).Current t.resolution.program names results v)
    (houtcome : ∃ result ∈ results, result.outcome = outcome) :
    ∃ result w, (b.later now).buildEntry entry v = .ok result w ∧
      (b.later now).Idles t.resolution.program names v w ∧
      ∀ record ∈ result.records, record.IsIdle b.config.mode := by
  rcases h.resolved ht hsize hlies hfile hfinished.came with
    ⟨warning, -, hnone⟩ | ⟨d, root, r, rfl, hdenotes, hplanned, hbuild⟩
  · exact ⟨_, v, hnone, .refl v, fun _ hmem => absurd hmem List.not_mem_nil⟩
  · obtain ⟨u, hu, htag⟩ := hdenotes.exists_unit
    have hprogram : r.program = t.resolution.program := hplanned.repeats.program
    have hstays : r.program = v.resolution.program := hprogram.trans h.repeats.program.symm
    have hknown : root < r.program.units.size := hprogram ▸ Catalog.lt_size_of_get? hu
    have hstored : (b.later now).StoredBelow r.program v.disk root := by
      rw [hprogram]
      exact ((hfinished.stored root (b.unit?_outcomeOf _ _ _)).retains hretains).later now
    obtain ⟨result, hmem, hresult⟩ := houtcome
    have hresumes : (b.later now).Resumes t.resolution.program names results entry.name root
        { v with resolution := r } := by
      refine ⟨⟨hseparate.foreign_own, hseparate.foreign_output, hseparate.foreign_archive,
        hseparate.output_own⟩, hprogram ▸ .refl _, hplanned.rests.linked, hknown, hname,
        ⟨result, hmem, root, by rw [hresult, unit?_outcomeOf], .refl⟩, fun hemit => ?_, fun x hx => ?_⟩
      · have htranslate := (hasStep_emit_iff (b := b.later now) (s := { v with resolution := r })).1
          (by simpa [Plan.hasStep] using hemit)
        have hkind : d.kind.treatment = .translate := by
          rwa [Planning.treatment, planningOf, hprogram, hu, Option.map_some, Option.getD_some,
            UnitKind.treatment_eq_of_tag htag] at htranslate
        exact ⟨result, hmem, _, hresult.trans (if_pos hkind)⟩
      · exact links_of_storedBelow hplanned.rests.linked hknown hplanned.repeats.old hstored hx
    have hcurrent : (b.later now).Current t.resolution.program names results
        { v with resolution := r } :=
      hcurrent.of_sameDates (.refl _) hstays (h.repeats.program ▸ .refl _)
    obtain ⟨again, w, hrun, hidles, hrecords⟩ := hresumes.exists_buildUnit hcurrent
    exact ⟨again, w, hbuild.trans hrun, ⟨hidles.disk, hidles.archive, hidles.log⟩, hrecords⟩

/-- All entry points that were built before are built again by idle steps. -/
theorem Retraces.exists_mapM_buildEntry {all : List EntryResult}
    (h : (b.later now).Retraces s₀.disk spelling t.resolution v) (ht : b.Midway s₀.disk spelling t)
    (hreliable : b.toolchain.Reliable) (htidy : b.toolchain.Tidy) (hconfined : b.toolchain.Confined)
    (hseparate : b.Separate t.resolution.program names)
    (hsize : t.resolution.program.units.size ≤ workLimit)
    (hlies : t.resolution.program.LiesIn fun d => spelling d.key = d)
    (hfiles : ∀ entry ∈ entries, ∀ name text, entry ≠ .snippet name text)
    (hnames : ∀ entry ∈ entries, names entry.name)
    (hfinished : List.Forall₂ (fun entry result => b.Finished s₀ t entry result.outcome) entries results)
    (hretains : t.disk.Retains v.disk)
    (hcurrent : (b.later now).Current t.resolution.program names all v)
    (hall : ∀ result ∈ results, result ∈ all) :
    ∃ again w, entries.mapM (b.later now).buildEntry v = .ok again w ∧
      (b.later now).Idles t.resolution.program names v w ∧
      ∀ record ∈ again.flatMap (·.records), record.IsIdle b.config.mode := by
  induction hfinished generalizing v with
  | nil => exact ⟨[], v, rfl, .refl v, fun _ hmem => absurd hmem List.not_mem_nil⟩
  | @cons entry result entries results hfirst hrest ih =>
    have hfile := hfiles entry List.mem_cons_self
    obtain ⟨first, w, hentry, hidles, hrecords⟩ := h.exists_buildEntry ht hseparate hsize hlies hfile
      (hnames entry List.mem_cons_self) hfirst hretains hcurrent
      ⟨result, hall result List.mem_cons_self, rfl⟩
    obtain ⟨-, -, -, hnext, hkept⟩ := h.buildEntry ht hreliable htidy hconfined hsize hlies hfile hfirst
      hretains hentry
    have hstays : w.resolution.program = v.resolution.program :=
      hnext.repeats.program.trans h.repeats.program.symm
    obtain ⟨rest, w', hothers, hidles', hrecords'⟩ := ih hnext
      (fun other hother => hfiles other (List.mem_cons_of_mem _ hother))
      (fun other hother => hnames other (List.mem_cons_of_mem _ hother)) hkept
      (hcurrent.of_sameDates hidles.disk hstays (h.repeats.program ▸ .refl _))
      fun other hother => hall other (List.mem_cons_of_mem _ hother)
    refine ⟨first :: rest, w', ?_, hidles.trans hidles', fun record hrecord => ?_⟩
    · rw [List.mapM_cons, bind_of_ok hentry, bind_of_ok hothers]
      rfl
    · rw [List.flatMap_cons, List.mem_append] at hrecord
      exact hrecord.elim (hrecords record) (hrecords' record)

/-- Keeping the archive is no change to where the entry points are. -/
theorem Midway.persist {disk : Disk} {ids : NodeSet} (h : b.Midway disk spelling s)
    (hrun : b.persist ids s = .ok () t) : b.Midway disk spelling t := by
  have hresolution := (persist_eq_ok hrun).1
  refine ⟨⟨?_, ?_, ?_⟩, ?_, h.names.trans (sameNames_persist hrun)⟩ <;> rw [hresolution]
  · exact h.rests.closing
  · exact h.rests.linked
  · exact h.rests.waiting
  · exact h.sweep

/-- Keeping the archive is no change to what an entry point came to. -/
theorem Finished.persist {ids : NodeSet} (h : b.Finished s₀ s entry outcome)
    (hrun : b.persist ids s = .ok () t) : b.Finished s₀ t entry outcome := by
  have hresolution := (persist_eq_ok hrun).1
  refine ⟨hresolution ▸ h.came, fun root hroot id u hid hu hobject => ?_⟩
  rw [hresolution] at hid hu ⊢
  have hstored := h.stored root hroot id u hid hu hobject
  have hthere {role : FileRole} (hpath : s.disk.hasPath (b.layout.path role u)) :
      t.disk.hasPath (b.layout.path role u) := by
    have hsame := sameAt_persist (b := b) ids s role u
    rw [final, hrun] at hsame
    exact hsame.there.trans hpath
  exact ⟨hthere hstored.source, hthere hstored.object, fun hmode hcycle =>
    hthere (hstored.forwardSource hmode hcycle), fun hmode => hthere (hstored.artifact hmode)⟩

/-- An archive that was kept can be kept again. -/
theorem exists_persist {ids : NodeSet} (hrun : b.persist ids s = .ok () t)
    (hsame : t.disk.SameDirectories v.disk) (more : NodeSet) (now : Nat) :
    ∃ disk, (b.later now).persist more v = .ok () { v with
      archive := v.archive.updateRows v.resolution.program more.toList, disk } := by
  have hdirectories := (sameNames_persist hrun).entries.directories.trans hsame
  unfold persist at hrun ⊢
  dsimp only at hrun ⊢
  generalize hstore : Archive.store _ s.disk b.layout.cacheFile b.now = k at hrun
  obtain ⟨disk, result⟩ := k
  cases result with
  | error fault => cases hrun
  | ok done =>
    obtain ⟨disk', hstored⟩ := Archive.exists_store hdirectories hstore
      (v.archive.updateRows v.resolution.program more.toList) now
    refine ⟨disk', ?_⟩
    have hagain : Archive.store _ v.disk (b.later now).layout.cacheFile (b.later now).now =
      (disk', .ok ()) := hstored
    rw [hagain]

/-- What a build leaves behind: where its entry points went, and an archive that is read back as it
was. -/
structure Completed (b : Builder σ) (s : BuildState σ) (spelling : DirectoryKey → FilePath)
    (entries : List Entry) (results : List EntryResult) (t : BuildState σ) : Prop where
  midway : b.Midway s.disk spelling t
  finished : List.Forall₂ (fun entry result => b.Finished s t entry result.outcome) entries results
  records : t.archive.Records t.resolution.program
  stored : ∃ ids middle, b.persist ids middle = .ok () t
  fits : t.archive.fits
  size : t.resolution.program.units.size ≤ workLimit
  lies : t.resolution.program.LiesIn fun d => spelling d.key = d

namespace Completed

variable {tools : σ} (h : b.Completed s spelling entries results t)

include h

/-- The document on the disk is that of the archive. -/
theorem text : t.disk.text? b.layout.cacheFile = some t.archive.document := by
  obtain ⟨ids, middle, hpersist⟩ := h.stored
  exact (persist_eq_ok hpersist).2.2

/-- A session on what the build left behind goes the same way again. -/
theorem retraces (now : Nat) (tools : σ) :
    (b.later now).Retraces s.disk spelling t.resolution (t.anew tools) where
  repeats := .start t.resolution
  rests := ⟨closing_start h.midway.rests.closing.code, h.midway.rests.linked, rfl⟩
  names := h.midway.names

/-- A session that reads the archive fares like one that knows all units. -/
theorem sameEnd (hgenerator : b.generator = Stub.generate) (now : Nat) (tools : σ) :
    SameEnd (BuildState.Alike Eq) ((b.later now).build entries (t.anew tools))
      ((b.later now).build entries (.start b.config t.disk tools)) := by
  have hignores : (b.later now).IgnoresBodies := fun request => by
    have hstub : (b.later now).generator = Stub.generate := hgenerator
    rw [hstub, Stub.generate_kept]
  have harchive : Archive.load t.disk b.layout.cacheFile = t.archive := h.records.load_eq h.text h.fits
  refine build_alike (s := t.anew tools) (t := .start b.config t.disk tools)
    (b.later now).toolchain.matches_self hignores rfl rfl harchive rfl ?_ entries
  have hprogram : (BuildState.start b.config t.disk tools).resolution.program =
      (Archive.load t.disk b.layout.cacheFile).toProgram := rfl
  rw [hprogram, harchive, h.records.toProgram_eq]
  exact Program.kept_kept _

/-- The same build again comes to the same by links alone, without a look at any body. -/
theorem replay {again : Report} (hreliable : b.toolchain.Reliable) (htidy : b.toolchain.Tidy)
    (hconfined : b.toolchain.Confined)
    (hfiles : ∀ entry ∈ entries, ∀ name text, entry ≠ .snippet name text)
    (hrun : (b.later now).build entries (t.anew tools) = .ok again v) :
    again.outcomes = results.map (·.outcome) ∧
      (∀ record ∈ again.records, record.step.action = .link ∨ record.step.action = .emit) ∧
      v.resolution.run.readings = 0 ∧ v.archive.units = t.archive.units := by
  obtain ⟨others, w, hentries, hpersist, rfl⟩ := build_eq_ok.1 hrun
  obtain ⟨houtcomes, hrecords, -, hend⟩ := (h.retraces now tools).mapM_buildEntry h.midway hreliable
    htidy hconfined h.size h.lies hfiles h.finished (fun _ hp => hp) hentries
  have hresolution := (persist_eq_ok hpersist).1
  have hkept := (records_build (b := b.later now) (s := t.anew tools) hconfined.careful h.records rfl
    hrun).1
  rw [hresolution, hend.repeats.program] at hkept
  refine ⟨houtcomes, hrecords, ?_, hkept.units.trans h.records.units.symm⟩
  rw [hresolution]
  exact hend.repeats.readings

/-- The same build again succeeds and does nothing if everything is up to date. -/
theorem exists_replay (hreliable : b.toolchain.Reliable) (htidy : b.toolchain.Tidy)
    (hconfined : b.toolchain.Confined) (hseparate : b.Separate t.resolution.program names)
    (hcurrent : b.Current t.resolution.program names results t)
    (hfiles : ∀ entry ∈ entries, ∀ name text, entry ≠ .snippet name text)
    (hnames : ∀ entry ∈ entries, names entry.name) (now : Nat) (tools : σ) :
    ∃ again v, (b.later now).build entries (t.anew tools) = .ok again v ∧ v.log = [] ∧
      (∀ record ∈ again.records, record.IsIdle b.config.mode) ∧
      v.disk.text? b.layout.cacheFile = t.disk.text? b.layout.cacheFile := by
  have hstart : (b.later now).Current t.resolution.program names results (t.anew tools) :=
    (hcurrent.of_sameDates (t := t.anew tools) (.refl _) rfl (.refl _)).later now
  obtain ⟨others, w, hentries, hidles, hrecords⟩ := (h.retraces now tools).exists_mapM_buildEntry
    h.midway hreliable htidy hconfined hseparate h.size h.lies hfiles hnames h.finished
    (fun _ hp => hp) hstart fun _ hmem => hmem
  obtain ⟨-, -, htouched, -⟩ := (h.retraces now tools).mapM_buildEntry h.midway hreliable htidy
    hconfined h.size h.lies hfiles h.finished (fun _ hp => hp) hentries
  obtain ⟨ids, middle, hpersist⟩ := h.stored
  obtain ⟨disk, hagain⟩ := exists_persist hpersist hidles.disk.directories
    (Std.ExtTreeSet.ofList (others.flatMap (·.touched))) now
  refine ⟨_, _, build_eq_ok.2 ⟨others, w, hentries, hagain, rfl⟩, hidles.log, hrecords,
    (persist_eq_ok hagain).2.2.trans ?_⟩
  -- No unit was built, so the archive is written as it was.
  have harchive : w.archive = t.archive := hidles.archive
  rw [h.text, htouched, harchive]
  rfl

end Completed

/-- A build whose entry points succeed and whose archive can be kept leaves behind what a later
session needs to go the same way again. -/
theorem completed_of_build {ids : NodeSet} (hreliable : b.toolchain.Reliable)
    (htidy : b.toolchain.Tidy) (hconfined : b.toolchain.Confined)
    (hgenerator : b.generator = Stub.generate)
    (hstart : b.Midway s.disk spelling { s with resolution := s.resolution.reset })
    (hfiles : ∀ entry ∈ entries, ∀ name text, entry ≠ .snippet name text)
    (hentries : entries.mapM b.buildEntry { s with resolution := s.resolution.reset } = .ok results s₁)
    (hpersist : b.persist ids s₁ = .ok () t) (hrecords : t.archive.Records t.resolution.program)
    (hfits : t.archive.fits) (hsize : t.resolution.program.units.size ≤ workLimit)
    (hlies : t.resolution.program.LiesIn fun d => spelling d.key = d) :
    b.Completed s spelling entries results t := by
  have hresolution := (persist_eq_ok hpersist).1
  obtain ⟨hmidway, -, -, hfinished⟩ := finished_mapM_buildEntry hreliable htidy hconfined hgenerator
    hstart hfiles (by rw [← hresolution]; exact hlies) hentries
  exact ⟨hmidway.persist hpersist, hfinished.imp fun _ _ h => h.persist hpersist, hrecords,
    ⟨ids, s₁, hpersist⟩, hfits, hsize, hlies⟩

/-- The same build over again, in a new session and on unchanged files. If it succeeds it comes to the
same: it generates and compiles nothing, links no stand-in and nothing twice, reads no body, and leaves
the rows of the archive as they were. What remains are links, and they all find their modules up to
date, so that no tool runs at all and the archive is written just as it was, if no entry point of the
first build generated code of a unit to which an earlier one leads. The shared tables are such units:
an entry point that declares a new global leaves the modules of earlier ones older than the table. -/
theorem build_again (b : Builder σ) (clock : σ → Int) (htidy : b.toolchain.Tidy)
    (hconfined : b.toolchain.Confined) (hstamps : b.toolchain.Stamps clock)
    (hgenerator : b.generator = Stub.generate) (s : BuildState σ)
    (hrecords : s.archive.Records s.resolution.program) (hcode : s.resolution.program.TakenByCode)
    (entries : List Entry) (hfiles : ∀ entry ∈ entries, ∀ name text, entry ≠ .snippet name text)
    (report : Report) (s' : BuildState σ) (hrun : b.build entries s = .ok report s')
    (hsize : s'.resolution.program.units.size ≤ workLimit)
    (hspelled : s'.resolution.program.SpelledOnce) (hfits : s'.archive.fits) (now : Nat) (tools : σ) :
    (∀ again t, (b.later now).build entries (.start b.config s'.disk tools) = .ok again t →
      again.outcomes = report.outcomes ∧
      (∀ record ∈ again.records, record.step.action = .link ∨ record.step.action = .emit) ∧
      t.resolution.run.readings = 0 ∧ t.archive.units = s'.archive.units) ∧
    (b.Undisturbed entries s →
      b.Separate s'.resolution.program (fun name => ∃ entry ∈ entries, entry.name = name) →
      b.Timely s'.resolution.program (fun name => ∃ entry ∈ entries, entry.name = name) clock s →
      ∃ again t, (b.later now).build entries (.start b.config s'.disk tools) = .ok again t ∧
        t.log = [] ∧ (∀ record ∈ again.records, record.IsIdle b.config.mode) ∧
        t.disk.text? b.layout.cacheFile = s'.disk.text? b.layout.cacheFile) := by
  have hreliable := hstamps.reliable htidy
  obtain ⟨spelling, hlies⟩ := hspelled.exists_spelling
  obtain ⟨results, s₁, hentries, hpersist, rfl⟩ := build_eq_ok.1 hrun
  have hprogram : s'.resolution.program = s₁.resolution.program := by rw [(persist_eq_ok hpersist).1]
  have hstart : b.Midway s.disk spelling { s with resolution := s.resolution.reset } :=
    ⟨⟨closing_start hcode, hrecords.linked, rfl⟩, Sweep.start hcode, .refl _⟩
  have hcompleted := completed_of_build hreliable htidy hconfined hgenerator hstart hfiles hentries
    hpersist (records_build hconfined.careful hrecords rfl hrun).1 hfits hsize hlies
  have hsame := hcompleted.sameEnd hgenerator now tools
  refine ⟨fun again t hagain => ?_, fun hundisturbed hseparate htimely => ?_⟩
  · obtain ⟨v, hv, halike⟩ := exists_ok_of_sameEnd hsame hagain
    obtain ⟨houtcomes, hlinks, hreadings, hunits⟩ := hcompleted.replay hreliable htidy hconfined hfiles hv
    refine ⟨houtcomes, hlinks, ?_, ?_⟩
    · rw [halike.resolution.run]
      exact hreadings
    · rw [halike.archive]
      exact hunits
  · obtain ⟨-, hcurrent⟩ := current_mapM_buildEntry
      ⟨htidy, hconfined, hstamps, hgenerator, hseparate, hlies⟩ hstart htimely hundisturbed hfiles
      (fun entry hentry => ⟨entry, hentry, rfl⟩) (by rw [hprogram]; exact .refl _) hentries
    obtain ⟨again, v, hv, hlog, hidle, htext⟩ := hcompleted.exists_replay hreliable htidy hconfined
      hseparate (hcurrent.of_sameDates (sameDates_persist hseparate hpersist) hprogram
        (by rw [hprogram]; exact .refl _)) hfiles (fun entry hentry => ⟨entry, hentry, rfl⟩) now tools
    obtain ⟨t, ht, halike⟩ := exists_ok_of_sameEnd hsame.symm hv
    refine ⟨again, t, ht, halike.log.trans hlog, hidle, ?_⟩
    rw [halike.disk]
    exact htext

/-- Tools that make empty files have a clock that stands still. -/
theorem stamps_emptyFiles : emptyFiles.Stamps fun _ => 0 where
  forward _ _ _ := le_refl 0
  stamps i tools d h := by
    rw [emptyFiles] at h ⊢
    dsimp only at h ⊢
    split at h
    · next disk hwrite => exact ⟨0, Disk.date?_write hwrite, le_refl 0, le_refl 0⟩
    · cases h

/-- The pair has no other units than its two scripts. -/
theorem eq_of_get?_pair (hu : pairAnalyzed.resolution.program.units.get? id = some u) :
    u = pairUnit "f" ∨ u = pairUnit "g" := by
  have hid := Catalog.lt_size_of_get? hu
  rw [analysis_pair.size] at hid
  rw [analysis_pair.units] at hu
  obtain rfl | rfl : id = 0 ∨ id = 1 := by omega
  · cases hu
    exact .inl rfl
  · cases hu
    exact .inr rfl

/-- The pair needs nothing that was built elsewhere. -/
theorem not_foreign_pair (path : FilePath) :
    ¬ stubBuilder.Foreign pairAnalyzed.resolution.program path := by
  rintro (hruntime | ⟨id, u, hu, hkind⟩)
  · cases hruntime
  · rcases eq_of_get?_pair hu with rfl | rfl <;> cases hkind

/-- The times of two files each count for the pair. -/
theorem involved_pair {path : FilePath}
    (h : stubBuilder.Involved pairAnalyzed.resolution.program path) :
    ∃ role ∈ [FileRole.object, .artifact], ∃ name ∈ ["f", "g"],
      path = stubBuilder.layout.path role (pairUnit name) := by
  rcases h with ⟨id, u, role, hu, hrole, rfl⟩ | h
  · have hmem : role ∈ [FileRole.object, .artifact] := by simpa using hrole
    rcases eq_of_get?_pair hu with rfl | rfl
    · exact ⟨role, hmem, "f", by decide, rfl⟩
    · exact ⟨role, hmem, "g", by decide, rfl⟩
  · exact absurd h (not_foreign_pair path)

theorem separate_pair : stubBuilder.Separate pairAnalyzed.resolution.program (· = "f") where
  foreign_own path _ _ _ h := absurd h (not_foreign_pair path)
  foreign_output path _ h := absurd h (not_foreign_pair path)
  foreign_archive path h := absurd h (not_foreign_pair path)
  output_own name id u role hname hu := by
    rw [hname]
    refine apart_outputPath ⟨by decide, by decide, by decide,
      by decide⟩ (by decide) ?_
    rcases eq_of_get?_pair hu with rfl | rfl <;> cases role <;> decide

/-- Nothing that counts is there before the pair is built. -/
theorem absent_pairStart {path : FilePath}
    (h : stubBuilder.Involved pairAnalyzed.resolution.program path) :
    pairStart.disk.isDirectory path = false ∧ pairStart.disk.date? path = none := by
  have hall : ∀ role ∈ [FileRole.object, .artifact], ∀ name ∈ ["f", "g"],
      pairStart.disk.isDirectory (stubBuilder.layout.path role (pairUnit name)) = false ∧
        pairStart.disk.date? (stubBuilder.layout.path role (pairUnit name)) = none := by
    decide
  obtain ⟨role, hrole, name, hname, rfl⟩ := involved_pair h
  exact hall role hrole name hname

/-- No file of the pair is newer than the clock. -/
theorem timely_pair : stubBuilder.Timely pairAnalyzed.resolution.program (· = "f") (fun _ => 0)
    pairStart where
  file path hpath := (absent_pairStart hpath).1
  output name hname := by
    rw [hname]
    decide
  time path time hpath htime := by
    rw [(absent_pairStart hpath).2] at htime
    cases htime
  foreign path h := absurd h (not_foreign_pair path)

theorem undisturbed_singleton (b : Builder σ) (entry : Entry) (s : BuildState σ) :
    b.Undisturbed [entry] s := by
  intro before other after former s₁ result t heq hformer _ id hid
  cases before with
  | nil =>
    cases hformer
    exact absurd hid.choose_spec.1 List.not_mem_nil
  | cons first before => simp at heq

/-- The pair that was built is built again without any work. -/
theorem build_again_pair : ∃ report s', stubBuilder.build [.located "f" ⟨"."⟩] pairStart =
      .ok report s' ∧
    ∃ again t, (stubBuilder.later 7).build [.located "f" ⟨"."⟩]
        (.start stubBuilder.config s'.disk ()) = .ok again t ∧
      again.outcomes = report.outcomes ∧ t.log = [] ∧ t.resolution.run.readings = 0 ∧
      t.disk.text? stubBuilder.layout.cacheFile = s'.disk.text? stubBuilder.layout.cacheFile := by
  obtain ⟨report, s', hrun, hbuilt⟩ := build_pair
  have hprogram := hbuilt.program
  have hfits : s'.archive.fits := by
    rw [hbuilt.archive]
    decide
  have hspelled : s'.resolution.program.SpelledOnce := by
    rw [hprogram]
    intro id other u v d d' hu hv hd hd' _
    have hdirectory {w : BuildUnit} (h : w = pairUnit "f" ∨ w = pairUnit "g") :
        w.directory? = some ⟨"."⟩ := by
      rcases h with rfl | rfl <;> decide
    rw [hdirectory (eq_of_get?_pair hu)] at hd
    rw [hdirectory (eq_of_get?_pair hv)] at hd'
    exact Option.some.inj (hd.symm.trans hd')
  have hsize : s'.resolution.program.units.size ≤ workLimit := by
    rw [hprogram, analysis_pair.size]
    decide
  have hnames : (fun name => ∃ entry ∈ [Entry.located "f" ⟨"."⟩], entry.name = name) = (· = "f") := by
    simp [Entry.name, eq_comm]
  obtain ⟨hreplay, hidle⟩ := build_again stubBuilder (fun _ => 0) tidy_emptyFiles confined_stubBuilder
    stamps_emptyFiles rfl pairStart kept_pairStart.load
    (Program.takenByCode_of_imports (by decide)) [.located "f" ⟨"."⟩] (by simp) report s' hrun
    hsize hspelled hfits 7 ()
  rw [hnames, hprogram] at hidle
  obtain ⟨again, t, hagain, hlog, -, htext⟩ := hidle (undisturbed_singleton _ _ _) separate_pair
    timely_pair
  obtain ⟨houtcomes, -, hreadings, -⟩ := hreplay again t hagain
  exact ⟨report, s', hrun, again, t, hagain, houtcomes, hlog, hreadings, htext⟩

end Builder

end ScriptBuild
