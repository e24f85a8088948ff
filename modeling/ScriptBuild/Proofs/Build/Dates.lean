import ScriptBuild.Proofs.Build.Lookups
import ScriptBuild.Proofs.Build.Inputs
import ScriptBuild.Proofs.Plan.Causes
import ScriptBuild.Proofs.Plan.Watched

namespace ScriptBuild

variable {σ : Type}

namespace Disk

variable {d d' : Disk} {p q : FilePath} {inputs : List FilePath} {W : FilePath → Prop} {time : Int}

/-- The time at which a file was changed last. Directories do not count. -/
def date? (d : Disk) (p : FilePath) : Option Int := (d.file? p).map Node.changed

/-- A file is there, and no older than any of some others, which are there as well. -/
def NoOlder (d : Disk) (p : FilePath) (W : FilePath → Prop) : Prop :=
  ∃ made, d.date? p = some made ∧ ∀ q, W q → ∃ time, d.date? q = some time ∧ time ≤ made

/-- A file that is no older than some others is no older than part of them. -/
theorem NoOlder.congr (h : d.NoOlder p W) {W' : FilePath → Prop} (hW : ∀ q, W' q → W q) :
    d.NoOlder p W' := by
  obtain ⟨made, hmade, hothers⟩ := h
  exact ⟨made, hmade, fun q hq => hothers q (hW q hq)⟩

/-- A file stays no older than others where none of the times changes. -/
theorem NoOlder.of_dates (h : d.NoOlder p W) (hp : d'.date? p = d.date? p)
    (hW : ∀ q, W q → d'.date? q = d.date? q) : d'.NoOlder p W := by
  obtain ⟨made, hmade, hothers⟩ := h
  refine ⟨made, hp.trans hmade, fun q hq => ?_⟩
  rw [hW q hq]
  exact hothers q hq

/-- Where there is no directory, the time of the file is what the system tells. -/
theorem date?_eq_changed? (h : d.isDirectory p = false) : d.date? p = d.changed? p := by
  unfold isDirectory at h
  unfold date? file? changed?
  cases hlookup : d.lookup p with
  | none => rfl
  | some node =>
    rw [hlookup, Option.any_some] at h
    simp [h]

/-- What is there and is no directory has a time. -/
theorem exists_date? (h : d.isDirectory p = false) (hthere : d.hasPath p) :
    ∃ time, d.date? p = some time := by
  rw [date?_eq_changed? h]
  unfold hasPath at hthere
  unfold changed?
  obtain ⟨node, hnode⟩ := Option.isSome_iff_exists.1 hthere
  exact ⟨node.changed, by rw [hnode, Option.map_some]⟩

/-- A file that is written gets the time of the writing. -/
theorem date?_write {content : Content} {now : Int} (h : d.write p content now = .ok d') :
    d'.date? p = some now := by
  rw [date?, file?_write h]
  rfl

theorem hasPath_of_date? (h : d.date? p = some time) : d.hasPath p := by
  obtain ⟨node, hfile, -⟩ := Option.map_eq_some_iff.1 h
  rw [hasPath, (Option.filter_eq_some_iff.1 hfile).1]
  rfl

/-- Where there are no directories, a file is up to date if it is no older than the others. -/
theorem isUpToDate_iff (hp : d.isDirectory p = false)
    (hinputs : ∀ q ∈ inputs, d.isDirectory q = false) :
    d.isUpToDate p inputs ↔ d.NoOlder p (· ∈ inputs) := by
  rw [isUpToDate, Option.any_eq_true, ← date?_eq_changed? hp]
  refine exists_congr fun made => and_congr_right fun _ => ?_
  rw [List.all_eq_true]
  refine forall₂_congr fun q hq => ?_
  rw [Option.any_eq_true, ← date?_eq_changed? (hinputs q hq)]
  simp only [decide_eq_true_eq]

/-- A file that is there is not where a path leads that is apart from it. -/
theorem ne_of_apart (h : d.Apart p q) (hthere : d.date? q = some time) : p ≠ q := by
  rintro rfl
  obtain ⟨node, hfile, -⟩ := Option.map_eq_some_iff.1 hthere
  obtain ⟨spot, hleads, -⟩ := file?_eq_some.1 hfile
  exact h spot hleads hleads

/-- Of two paths that are apart it does not matter which one is named first. -/
theorem Apart.symm (h : d.Apart p q) : d.Apart q p := fun spot hq hp => h spot hp hq

end Disk

/-- Tools with a clock that never goes back, of which each file that they make gets the time. -/
structure Toolchain.Stamps (t : Toolchain σ) (clock : σ → Int) : Prop where
  forward : ∀ i tools (d : Disk), clock tools ≤ clock (t.run i (tools, d)).1.1
  stamps : ∀ i tools (d : Disk), (t.run i (tools, d)).2 = .ok () →
    ∃ time, (t.run i (tools, d)).1.2.date? i.output = some time ∧ clock tools ≤ time ∧
      time ≤ clock (t.run i (tools, d)).1.1

/-- Tools with a clock make what they are asked for, also if it was there before. -/
theorem Toolchain.Stamps.reliable {t : Toolchain σ} {clock : σ → Int} (h : t.Stamps clock)
    (htidy : t.Tidy) : t.Reliable where
  retains i tools d := (htidy i tools d).retains
  makes i tools d hok := by
    obtain ⟨time, hdate, -⟩ := h.stamps i tools d hok
    exact Disk.hasPath_of_date? hdate

/-- A file was made between two states, and has a time in between. -/
def BuildState.Stamped (clock : σ → Int) (s s' : BuildState σ) (p : FilePath) : Prop :=
  ∃ time, s'.disk.date? p = some time ∧ clock s.tools ≤ time ∧ time ≤ clock s'.tools

/-- The file of a unit that a step makes by one run of a tool. -/
def Action.product? : Action → Option FileRole
  | .compile => some .object
  | .link | .relink => some .artifact
  | .generate | .forwardLink | .emit => none

namespace Builder

open BuildM BuildState

variable {b : Builder σ} {clock : σ → Int} {s s' t t' : BuildState σ} {entry : String} {plan : Plan}
  {generated : NodeSet} {step : Step} {u v : BuildUnit} {id : Nat} {i : Invocation} {done : Unit}
  {performed : Bool} {role : FileRole} {p : FilePath} {l : Linkage}

theorem respects_clock (hstamps : b.toolchain.Stamps clock) :
    b.Respects (fun s s' => clock s.tools ≤ clock s'.tools) fun _ => True where
  refl _ := le_refl _
  trans _ _ _ := le_trans
  run i _ s := by
    have hforward := hstamps.forward i s.tools s.disk
    unfold final run
    generalize b.toolchain.run i (s.tools, s.disk) = k at hforward ⊢
    obtain ⟨⟨tools, disk⟩, result⟩ := k
    cases result <;> exact hforward
  write q text _ s := by
    simp only [final, writeFile]
    cases s.disk.write q (.text text) b.now <;> exact le_refl _
  copy source q _ s := by
    simp only [final, copyFile]
    cases s.disk.copy source q b.now <;> exact le_refl _
  register _ _ _ _ := le_refl _

/-- No step turns the clock back. -/
theorem clock_take (hstamps : b.toolchain.Stamps clock)
    (hrun : b.take entry plan generated step u s = .ok performed s') :
    clock s.tools ≤ clock s'.tools :=
  (take_frames (respects_clock hstamps) ⟨fun _ _ => trivial, fun _ => trivial⟩).ok hrun

/-- A run of a tool puts a time on what it makes that lies between the times before and after. -/
theorem stamped_run (hstamps : b.toolchain.Stamps clock) (hrun : b.run i s = .ok done s') :
    s.Stamped clock s' i.output := by
  have hmade := hstamps.stamps i s.tools s.disk
  unfold run at hrun
  generalize b.toolchain.run i (s.tools, s.disk) = k at hmade hrun
  obtain ⟨⟨tools, disk⟩, result⟩ := k
  cases result with
  | error fault => cases hrun
  | ok _ =>
    cases hrun
    exact hmade rfl

theorem stamped_linkNow (hstamps : b.toolchain.Stamps clock) (hrun : b.linkNow u l s = .ok done s') :
    s.Stamped clock s' l.output := by
  obtain ⟨_, s₁, hrun, h⟩ := BuildM.bind_eq_ok.1 hrun
  have hmade := stamped_run hstamps hrun
  cases h
  exact hmade

/-- A step that has something to do puts the time of the clock on what it makes. -/
theorem stamped_take (hstamps : b.toolchain.Stamps clock) (hrole : step.action.product? = some role)
    (hrun : b.take entry plan generated step u s = .ok true s') :
    s.Stamped clock s' (b.layout.path role u) := by
  unfold take at hrun
  cases haction : step.action <;> simp only [haction] at hrun <;>
    simp only [haction, Action.product?, Option.some.injEq, reduceCtorEq] at hrole <;> subst hrole
  case compile =>
    obtain ⟨_, s₁, hcompile, h⟩ := BuildM.bind_eq_ok.1 hrun
    cases h
    have hmade := stamped_run hstamps hcompile
    rwa [Invocation.output] at hmade
  case link =>
    rw [link, BuildM.get_bind] at hrun
    split at hrun
    · cases hrun
    · obtain ⟨_, s₁, hlink, h⟩ := BuildM.bind_eq_ok.1 hrun
      cases h
      have hmade := stamped_linkNow hstamps hlink
      rwa [output_unitLinkage] at hmade
  case relink =>
    obtain ⟨_, s₁, hlink, h⟩ := BuildM.bind_eq_ok.1 hrun
    cases h
    rw [relink, BuildM.get_bind] at hlink
    have hmade := stamped_linkNow hstamps hlink
    rwa [output_unitLinkage] at hmade

/-- So does the making of a final module that holds all units. -/
theorem stamped_emit (hstamps : b.toolchain.Stamps clock) (hmode : b.config.mode = .single)
    (hemit : step.action = .emit) (hrun : b.take entry plan generated step u s = .ok true s') :
    s.Stamped clock s' (b.config.outputPath entry) := by
  unfold take at hrun
  simp only [hemit] at hrun
  rw [emit, hmode] at hrun
  dsimp only at hrun
  rw [BuildM.get_bind] at hrun
  split at hrun
  · cases hrun
  · obtain ⟨_, s₁, hlink, h⟩ := BuildM.bind_eq_ok.1 hrun
    cases h
    have hmade := stamped_run hstamps hlink
    rwa [output_entryLinkage] at hmade

/-- A step that has nothing to do changes nothing, and found its module up to date. -/
theorem skipped_take (hrun : b.take entry plan generated step u s = .ok false s') :
    s' = s ∧
      (step.action = .link ∧
        (∀ l, l = b.config.unitLinkage s.resolution.program.units plan step.unit u
          (plan.hasStep step.unit .forwardLink) → s.disk.isUpToDate l.output l.watched) ∨
      step.action = .emit ∧ b.config.mode = .single ∧
        ∀ l, l = b.config.entryLinkage s.resolution.program.units plan entry →
          s.disk.isUpToDate l.output l.watched) := by
  unfold take at hrun
  cases haction : step.action <;> simp only [haction] at hrun
  case generate | compile | forwardLink | relink =>
    obtain ⟨_, s₁, -, h⟩ := BuildM.bind_eq_ok.1 hrun
    cases h
  case link =>
    rw [link, BuildM.get_bind] at hrun
    split at hrun
    · next hskip =>
      cases hrun
      simp only [Bool.and_eq_true] at hskip
      exact ⟨rfl, .inl ⟨rfl, fun l hl => hl ▸ hskip.2⟩⟩
    · obtain ⟨_, s₁, -, h⟩ := BuildM.bind_eq_ok.1 hrun
      cases h
  case emit =>
    rw [emit] at hrun
    cases hmode : b.config.mode with
    | perUnit =>
      rw [hmode] at hrun
      obtain ⟨_, s₁, -, h⟩ := BuildM.bind_eq_ok.1 hrun
      cases h
    | single =>
      rw [hmode] at hrun
      dsimp only at hrun
      rw [BuildM.get_bind] at hrun
      split at hrun
      · next hskip =>
        cases hrun
        simp only [Bool.and_eq_true] at hskip
        exact ⟨rfl, .inr ⟨rfl, rfl, fun l hl => hl ▸ hskip.2⟩⟩
      · obtain ⟨_, s₁, -, h⟩ := BuildM.bind_eq_ok.1 hrun
        cases h

/-- A link of a unit that is up to date has nothing to do if nothing that it depends on is new. -/
theorem take_link_of_upToDate (hforward : plan.hasStep id .forwardLink = false)
    (hrenewed : ∀ other ∈ (plan.subgraph.subgraph id).nodes, other ∉ generated)
    (hl : l = b.config.unitLinkage s.resolution.program.units plan id u false)
    (huptodate : s.disk.isUpToDate l.output l.watched) :
    b.take entry plan generated ⟨id, .link⟩ u s = .ok false s := by
  have hnone : (plan.subgraph.subgraph id).nodes.any generated.contains = false := by
    rw [List.any_eq_false]
    exact fun other hother => by simpa using hrenewed other hother
  unfold take
  dsimp only
  rw [link, BuildM.get_bind, hforward, hnone, ← hl, huptodate]
  rfl

/-- The making of a final module that holds all units has nothing to do if nothing is new and it is up
to date. -/
theorem take_emit_of_upToDate (hmode : b.config.mode = .single)
    (hl : l = b.config.entryLinkage s.resolution.program.units plan entry)
    (huptodate : s.disk.isUpToDate l.output l.watched) :
    b.take entry plan ∅ ⟨id, .emit⟩ u s = .ok false s := by
  unfold take
  dsimp only
  rw [emit, hmode]
  dsimp only
  rw [BuildM.get_bind, ← hl, huptodate]
  rfl

/-- A file from elsewhere that modules are linked with: the runtime, or a precompiled module. -/
def Foreign (b : Builder σ) (p : Program) (path : FilePath) : Prop :=
  b.config.runtime = some path ∨ ∃ id u, p.units.get? id = some u ∧ u.kind = .precompiled path

/-- A file whose time matters for the modules of a program. -/
def Involved (b : Builder σ) (p : Program) (path : FilePath) : Prop :=
  (∃ id u role, p.units.get? id = some u ∧ (role = .object ∨ role = .artifact) ∧
    path = b.layout.path role u) ∨ b.Foreign p path

/-- What is made for some entry points lies apart: files from elsewhere from all that is made and kept,
and the modules of the entry points from the files of the units. -/
structure Separate (b : Builder σ) (p : Program) (names : String → Prop) : Prop where
  foreign_own : ∀ path id u role, b.Foreign p path → p.units.get? id = some u →
    path.Apart (b.layout.path role u)
  foreign_output : ∀ path name, b.Foreign p path → names name →
    path.Apart (b.config.outputPath name)
  foreign_archive : ∀ path, b.Foreign p path → b.layout.BesideArchive path
  output_own : ∀ name id u role, names name → p.units.get? id = some u →
    (b.config.outputPath name).Apart (b.layout.path role u)

/-- The module of an entry point lies apart from the files of a unit if its name is none of theirs. -/
theorem apart_outputPath {c : BuildConfig} {l : Layout} {name : String} {role : FileRole}
    {u : BuildUnit} (hname : FilePath.IsPlain (c.outputName.getD name ++ "." ++ moduleExtension))
    (hempty : c.outDirectory.text ≠ "")
    (hne : Layout.fileName role u ≠ c.outputName.getD name ++ "." ++ moduleExtension) :
    (c.outputPath name).Apart (l.path role u) := by
  intro d spot houtput hpath
  obtain ⟨place, -, -, rfl⟩ := Disk.leads_entry hname hempty houtput
  obtain ⟨place', -, heq⟩ := Layout.leads_path hpath
  exact hne (List.singleton_inj.1 (List.append_inj_right' (Spot.inside.inj heq) rfl)).symm

/-- No directories are in the way of files, what comes from elsewhere is there, and nothing that matters
is newer than the clock. -/
structure Timely (b : Builder σ) (p : Program) (names : String → Prop) (clock : σ → Int)
    (s : BuildState σ) : Prop where
  file : ∀ path, b.Involved p path → s.disk.isDirectory path = false
  output : ∀ name, names name → s.disk.isDirectory (b.config.outputPath name) = false
  time : ∀ path time, b.Involved p path → s.disk.date? path = some time → time ≤ clock s.tools
  foreign : ∀ path, b.Foreign p path → s.disk.hasPath path

variable {q : Program} {names : String → Prop} {path : FilePath}

theorem Timely.congr (h : b.Timely q names clock s) (hdisk : t.disk = s.disk)
    (htools : t.tools = s.tools) : b.Timely q names clock t := by
  obtain ⟨hfile, houtput, htime, hforeign⟩ := h
  rw [← hdisk] at hfile houtput htime hforeign
  rw [← htools] at htime
  exact ⟨hfile, houtput, htime, hforeign⟩

/-- Objects and modules are the products of the steps that make them. -/
theorem product?_of_mem_roles (h : role ∈ step.action.roles)
    (hrole : role = .object ∨ role = .artifact) : step.action.product? = some role := by
  cases haction : step.action <;> rw [haction] at h <;>
    simp only [Action.roles, List.mem_cons, List.not_mem_nil, or_false] at h <;>
    rcases hrole with rfl | rfl <;> simp_all [Action.product?]

/-- A step changes the times of no file that matters but that of the one that it makes. -/
theorem date_take (hseparate : b.Separate q names) (hconfined : b.toolchain.Confined)
    (hv : q.units.get? id = some v) (huv : u.Becomes v) (hentry : names entry)
    (hpath : b.Involved q path)
    (hne : ∀ role, step.action.product? = some role → path ≠ b.layout.path role u)
    (hrun : b.take entry plan generated step u s = .ok performed s') :
    s'.disk.date? path = s.disk.date? path := by
  have hmakes : b.Makes entry step.action u path.Apart := by
    refine ⟨fun role hrole => ?_, fun _ => ?_⟩
    · rcases hpath with ⟨other, w, role', hw, hrole', rfl⟩ | hforeign
      · by_cases hsame : role' = role ∧ w.name = u.name ∧ w.overload = u.overload
        · obtain ⟨rfl, hname, hoverload⟩ := hsame
          refine absurd ?_ (hne role' (product?_of_mem_roles hrole hrole'))
          rw [Layout.path, Layout.path, BuildUnit.stem, BuildUnit.stem, hname, hoverload]
        · refine fun d => Layout.apart_path ?_
          by_contra hnot
          simp only [not_or, not_not] at hnot
          exact hsame ⟨hnot.1, hnot.2.1, hnot.2.2⟩
      · rw [← b.layout.path_of_becomes huv]
        exact hseparate.foreign_own path id v role hforeign hv
    · rcases hpath with ⟨other, w, role', hw, -, rfl⟩ | hforeign
      · exact fun d => (hseparate.output_own entry other w role' hentry hw d).symm
      · exact hseparate.foreign_output path entry hforeign hentry
  exact congrArg (Option.map Node.changed)
    ((take_frames (respects_keepsFile hconfined path) hmakes).ok hrun)

/-- The times of the files that matter after a step: as they were, or that of the clock for the file
that the step has made. -/
theorem dates_take (hseparate : b.Separate q names) (hconfined : b.toolchain.Confined)
    (hstamps : b.toolchain.Stamps clock) (hv : q.units.get? id = some v) (huv : u.Becomes v)
    (hentry : names entry) (hrun : b.take entry plan generated step u s = .ok performed s')
    (hpath : b.Involved q path) :
    s'.disk.date? path = s.disk.date? path ∨ ∃ role, step.action.product? = some role ∧
      performed = true ∧ path = b.layout.path role u ∧ s.Stamped clock s' path := by
  by_cases hmade : ∃ role, step.action.product? = some role ∧ path = b.layout.path role u
  · obtain ⟨role, hrole, rfl⟩ := hmade
    cases performed with
    | true => exact .inr ⟨role, hrole, rfl, rfl, stamped_take hstamps hrole hrun⟩
    | false => exact .inl (by rw [(skipped_take hrun).1])
  · simp only [not_exists, not_and] at hmade
    exact .inl (date_take hseparate hconfined hv huv hentry hpath hmade hrun)

theorem sameDirectories_take (htidy : b.toolchain.Tidy)
    (hrun : b.take entry plan generated step u s = .ok performed s') :
    s.disk.SameDirectories s'.disk :=
  fun _ _ => (take_makes htidy hrun).1.disk.isDirectoryAt_iff

/-- A step leaves nothing that matters newer than the clock. -/
theorem Timely.take (h : b.Timely q names clock s) (hseparate : b.Separate q names)
    (htidy : b.toolchain.Tidy) (hconfined : b.toolchain.Confined)
    (hstamps : b.toolchain.Stamps clock) (hv : q.units.get? id = some v) (huv : u.Becomes v)
    (hentry : names entry) (hrun : b.take entry plan generated step u s = .ok performed s') :
    b.Timely q names clock s' where
  file path hpath := by
    rw [(sameDirectories_take htidy hrun).isDirectory_eq]
    exact h.file path hpath
  output name hname := by
    rw [(sameDirectories_take htidy hrun).isDirectory_eq]
    exact h.output name hname
  time path time hpath hdate := by
    rcases dates_take hseparate hconfined hstamps hv huv hentry hrun hpath with
      hsame | ⟨role, -, -, -, time', hdate', -, hle⟩
    · exact (h.time path time hpath (hsame ▸ hdate)).trans (clock_take hstamps hrun)
    · obtain rfl := Option.some.inj (hdate.symm.trans hdate')
      exact hle
  foreign path hpath := (take_makes htidy hrun).1.disk.hasPath (h.foreign path hpath)

/-- Paths that lead to one spot name one file. -/
theorem file?_eq_of_leads {d : Disk} {path path' : FilePath} {spot : Spot} (h : d.Leads path spot)
    (h' : d.Leads path' spot) (hslash : path.endsInSlash = false) (hslash' : path'.endsInSlash = false) :
    d.file? path = d.file? path' := by
  refine Option.ext fun node => ?_
  rw [Disk.file?_eq_some, Disk.file?_eq_some]
  constructor
  · rintro ⟨other, hleads, hthere, hkind, -⟩
    obtain rfl := hleads.unique h
    exact ⟨other, h', hthere, hkind, hslash'⟩
  · rintro ⟨other, hleads, hthere, hkind, -⟩
    obtain rfl := hleads.unique h'
    exact ⟨other, h, hthere, hkind, hslash⟩

/-- The module of an entry point is spelled as a file. -/
theorem endsInSlash_outputPath (c : BuildConfig) (entry : String) :
    (c.outputPath entry).endsInSlash = false := by
  rw [FilePath.endsInSlash, Layout.getLast?_outputPath]
  decide

/-- Confined tools change no file but the one that they are asked for. -/
theorem file?_run (hconfined : b.toolchain.Confined) (hapart : s.disk.Apart path i.output)
    (hrun : b.run i s = .ok done s') : s'.disk.file? path = s.disk.file? path := by
  have hfile := hconfined i s.tools s.disk path hapart
  unfold run at hrun
  generalize b.toolchain.run i (s.tools, s.disk) = k at hfile hrun
  obtain ⟨⟨tools, disk⟩, result⟩ := k
  cases result with
  | error fault => cases hrun
  | ok _ =>
    cases hrun
    exact hfile

/-- The modules of entry points stay as they are until they are made, maybe for another entry point. -/
theorem date_outputPath_take (hseparate : b.Separate q names) (htidy : b.toolchain.Tidy)
    (hconfined : b.toolchain.Confined) (hstamps : b.toolchain.Stamps clock)
    (hmode : b.config.mode = .single) (hv : q.units.get? id = some v) (huv : u.Becomes v)
    {name : String} (hname : names name)
    (hrun : b.take entry plan generated step u s = .ok performed s') :
    s'.disk.date? (b.config.outputPath name) = s.disk.date? (b.config.outputPath name) ∨
      s.Stamped clock s' (b.config.outputPath name) := by
  by_cases hemit : step.action = .emit
  · cases performed with
    | false => exact .inl (by rw [(skipped_take hrun).1])
    | true =>
      by_cases hapart : s.disk.Apart (b.config.outputPath name) (b.config.outputPath entry)
      · refine .inl (congrArg (Option.map Node.changed) ?_)
        unfold take at hrun
        simp only [hemit] at hrun
        rw [emit, hmode] at hrun
        dsimp only at hrun
        rw [BuildM.get_bind] at hrun
        split at hrun
        · cases hrun
        · obtain ⟨_, s₁, hlink, h⟩ := BuildM.bind_eq_ok.1 hrun
          cases h
          exact file?_run hconfined (by rwa [output_entryLinkage]) hlink
      · -- Both paths lead to the file that was made.
        obtain ⟨time, hdate, hbounds⟩ := stamped_emit hstamps hmode hemit hrun
        simp only [Disk.Apart, not_forall, not_not] at hapart
        obtain ⟨spot, hleads, hleads'⟩ := hapart
        have hsame := sameDirectories_take htidy hrun
        refine .inr ⟨time, ?_, hbounds⟩
        rw [← hdate, Disk.date?, Disk.date?, file?_eq_of_leads (hsame.leads_iff.2 hleads)
          (hsame.leads_iff.2 hleads') (endsInSlash_outputPath _ _) (endsInSlash_outputPath _ _)]
  · have hmakes : b.Makes entry step.action u (b.config.outputPath name).Apart := by
      refine ⟨fun role _ => ?_, fun h => absurd h hemit⟩
      rw [← b.layout.path_of_becomes huv]
      exact hseparate.output_own name id v role hname hv
    exact .inl (congrArg (Option.map Node.changed)
      ((take_frames (respects_keepsFile hconfined _) hmakes).ok hrun))

variable {P : FilePath} {W : FilePath → Prop}

/-- What was just made is no older than files that were there. -/
theorem noOlder_of_stamped (h : b.Timely q names clock s) (hW : ∀ path, W path → b.Involved q path)
    (hthere : ∀ path, W path → ∃ time, s.disk.date? path = some time)
    (hothers : ∀ path, W path → s'.disk.date? path = s.disk.date? path ∨ path = P)
    (hP : s.Stamped clock s' P) : s'.disk.NoOlder P W := by
  obtain ⟨made, hmade, hlate, -⟩ := hP
  refine ⟨made, hmade, fun path hpath => ?_⟩
  rcases hothers path hpath with hsame | rfl
  · obtain ⟨time, htime⟩ := hthere path hpath
    exact ⟨time, hsame.trans htime, (h.time path time (hW path hpath) htime).trans hlate⟩
  · exact ⟨made, hmade, le_refl made⟩

/-- A file stays no older than others if it is made again or stays, and the others stay. -/
theorem noOlder_of_same (h : b.Timely q names clock s) (hW : ∀ path, W path → b.Involved q path)
    (hold : s.disk.NoOlder P W)
    (hothers : ∀ path, W path → s'.disk.date? path = s.disk.date? path ∨ path = P)
    (hP : s'.disk.date? P = s.disk.date? P ∨ s.Stamped clock s' P) : s'.disk.NoOlder P W := by
  obtain ⟨made, hmade, holder⟩ := hold
  rcases hP with hsame | hstamped
  · refine ⟨made, hsame.trans hmade, fun path hpath => ?_⟩
    rcases hothers path hpath with hstays | rfl
    · obtain ⟨time, htime, hle⟩ := holder path hpath
      exact ⟨time, hstays.trans htime, hle⟩
    · exact ⟨made, hsame.trans hmade, le_refl made⟩
  · exact noOlder_of_stamped h hW (fun path hpath => (holder path hpath).imp fun _ h => h.1) hothers
      hstamped

end Builder

end ScriptBuild
