import ScriptBuild.Proofs.Build.Dates
import ScriptBuild.Proofs.Build.Retracing

namespace ScriptBuild

variable {σ : Type}

namespace Builder

variable {p q : Program} {b : Builder σ} {path : FilePath}

/-- What comes from elsewhere for a program does so for a larger one. -/
theorem Foreign.grows (h : b.Foreign p path) (hgrows : p.units.Grows q.units) : b.Foreign q path := by
  rcases h with hruntime | ⟨id, u, hu, hkind⟩
  · exact .inl hruntime
  · obtain ⟨v, hv, huv⟩ := hgrows id u hu
    exact .inr ⟨id, v, hv, huv.kind.trans hkind⟩

/-- What matters for the modules of a program matters for those of a larger one. -/
theorem Involved.grows (h : b.Involved p path) (hgrows : p.units.Grows q.units) :
    b.Involved q path := by
  rcases h with ⟨id, u, role, hu, hrole, rfl⟩ | hforeign
  · obtain ⟨v, hv, huv⟩ := hgrows id u hu
    exact .inl ⟨id, v, role, hv, hrole, (b.layout.path_of_becomes huv).symm⟩
  · exact .inr (hforeign.grows hgrows)

end Builder

namespace Program

variable {p : Program} {b : Builder σ} {id root : Nat} {path : FilePath}

/-- The library of a unit is its module, if it makes an object, or the file that it is. -/
theorem library?_cases {l : Layout} {u : BuildUnit} (h : l.library? false u = some path) :
    u.kind.treatment.makesObject ∧ path = l.path .artifact u ∨ u.kind = .precompiled path := by
  unfold Layout.library? at h
  rw [if_neg Bool.false_ne_true] at h
  cases hkind : u.kind <;> simp only [hkind, UnitKind.treatment, UnitKind.path?, Option.some.injEq,
    reduceCtorEq] at h <;> subst h
  case precompiled => exact .inr rfl
  all_goals exact .inl ⟨rfl, rfl⟩

/-- All that the module of a unit watches matters. -/
theorem Watches.involved (h : p.Watches b.config id path) : b.Involved p path := by
  rcases h with ⟨u, hu, rfl⟩ | ⟨other, v, -, -, hv, hlibrary⟩ | hruntime
  · exact .inl ⟨id, u, .object, hu, .inl rfl, rfl⟩
  · rcases library?_cases hlibrary with ⟨-, rfl⟩ | hkind
    · exact .inl ⟨other, v, .artifact, hv, .inr rfl, rfl⟩
    · exact .inr (.inr ⟨other, v, hv, hkind⟩)
  · exact .inr (.inl hruntime)

/-- All that the module of an entry point holds matters. -/
theorem Holds.involved (h : p.Holds b.config root path) : b.Involved p path := by
  rcases h with ⟨id, u, -, hu, ⟨-, rfl⟩ | ⟨hasIs, hpath⟩⟩ | hruntime
  · exact .inl ⟨id, u, .object, hu, .inl rfl, rfl⟩
  · refine .inr (.inr ⟨id, u, hu, ?_⟩)
    cases hkind : u.kind <;> rw [hkind] at hasIs hpath <;> cases hasIs
    cases hpath
    rfl
  · exact .inr (.inl hruntime)

end Program

namespace Builder

open BuildM BuildState Program

variable {b : Builder σ} {clock : σ → Int} {s t t' : BuildState σ} {entry : String}
  {generated : NodeSet} {x : Step} {u v : BuildUnit} {id root other : Nat} {performed : Bool}
  {role : FileRole} {path : FilePath} {p : Program} {names : String → Prop} {kept : Nat → Prop}
  {outputs : String → Nat → Prop} {before after steps : List Step} {records : List StepRecord}

/-- What a module watches is the same whatever plan it is linked by, and whether or not stand-ins
are used: its runtime, its object, and the libraries of the units from outside its cycle. -/
theorem mem_watched_planFor (path : FilePath) (forward : Bool) (hlinked : s.resolution.program.Linked)
    (hroot : root < s.resolution.program.units.size)
    (hid : s.resolution.program.graph.Reaches root id)
    (hu : s.resolution.program.units.get? id = some u) :
    path ∈ (b.config.unitLinkage s.resolution.program.units (b.planFor s root) id u forward).watched ↔
      s.resolution.program.Watches b.config id path :=
  Planning.mem_watched_unitLinkage (k := b.planningOf s s.resolution.freshness) hlinked rfl hroot hid
    hu

/-- What the module of an entry point watches is the same whatever plan it is made by. -/
theorem mem_watched_entryLinkage_planFor (entry : String) (path : FilePath)
    (hlinked : s.resolution.program.Linked)
    (hroot : root < s.resolution.program.units.size) :
    path ∈ (b.config.entryLinkage s.resolution.program.units (b.planFor s root) entry).watched ↔
      s.resolution.program.Holds b.config root path :=
  Planning.mem_watched_entryLinkage (k := b.planningOf s s.resolution.freshness) hlinked rfl hroot

/-- Units that were built before, with all that they depend on: their files are there, and the plan for
an entry point generates code for none of them. -/
structure Untouched (b : Builder σ) (s : BuildState σ) (root : Nat) (kept : Nat → Prop) : Prop where
  closed : ∀ id other, kept id → s.resolution.program.graph.Edge id other → kept other
  stored : ∀ id u, kept id → s.resolution.program.units.get? id = some u →
    u.kind.treatment.makesObject → b.Stored s.resolution.program s.disk id u
  spared : ∀ id, kept id → ⟨id, .generate⟩ ∉ (b.planFor s root).steps

namespace Untouched

variable (h : b.Untouched s root kept) (hlinked : s.resolution.program.Linked)
  (hroot : root < s.resolution.program.units.size)

include h

/-- All that such a unit depends on was built before as well. -/
theorem reaches (hid : kept id) (hreaches : s.resolution.program.graph.Reaches id other) :
    kept other := by
  induction hreaches with
  | refl => exact hid
  | tail _ hedge ih => exact h.closed _ _ ih hedge

/-- The files of such a unit are there, so it has no code to generate. -/
theorem isStocked (hid : kept id)
    (hobject : (b.planningOf s s.resolution.freshness).makesObject id) :
    (b.planningOf s s.resolution.freshness).IsStocked s.resolution.program.graph id := by
  have hbelow : b.StoredBelow s.resolution.program s.disk id := fun other u hother =>
    h.stored other u (h.reaches hid hother)
  exact hbelow.isStocked .refl hobject

include hlinked hroot

theorem action (hx : x ∈ (b.planFor s root).steps) (hkept : kept x.unit) :
    x.action = .link ∨ x.action = .emit :=
  Planning.links_of_isStocked (c := b.planningOf s s.resolution.freshness) hlinked.node hroot hx
    (fun _ hv => h.isStocked (h.reaches hkept hv)) fun v hv => h.spared v (h.reaches hkept hv)

end Untouched

/-- How things stand when some steps of a plan were taken. The modules of units that were built before
and of those that were linked since are up to date, and so are the modules of entry points that hold
all their units. -/
structure Lasts (b : Builder σ) (p : Program) (names : String → Prop) (clock : σ → Int)
    (s : BuildState σ) (root : Nat) (entry : String) (kept : Nat → Prop)
    (outputs : String → Nat → Prop) (before : List Step) (generated : NodeSet) (t : BuildState σ) :
    Prop where
  stocked : b.Stocked (b.planFor s root) s before t
  timely : b.Timely p names clock t
  generated : ∀ id ∈ generated, ⟨id, .generate⟩ ∈ before
  modules : b.config.mode = .perUnit → ∀ id u, kept id ∨ ⟨id, .link⟩ ∈ before →
    s.resolution.program.units.get? id = some u → u.kind.treatment.makesObject →
    t.disk.NoOlder (b.layout.path .artifact u) (s.resolution.program.Watches b.config id)
  emitted : b.config.mode = .single → ∀ name other,
    outputs name other ∨ (name = entry ∧ other = root ∧ ⟨root, .emit⟩ ∈ before) →
    t.disk.NoOlder (b.config.outputPath name) (s.resolution.program.Holds b.config other)

/-- What the steps of a plan are taken with. -/
structure Setting (b : Builder σ) (p : Program) (names : String → Prop) (clock : σ → Int)
    (s : BuildState σ) (root : Nat) (entry : String) (kept : Nat → Prop)
    (outputs : String → Nat → Prop) : Prop where
  tidy : b.toolchain.Tidy
  confined : b.toolchain.Confined
  stamps : b.toolchain.Stamps clock
  generator : b.generator = Stub.generate
  separate : b.Separate p names
  grows : s.resolution.program.units.Grows p.units
  linked : s.resolution.program.Linked
  known : root < s.resolution.program.units.size
  entry : names entry
  untouched : b.Untouched s root kept
  outputs : ∀ name other, outputs name other → names name ∧ kept other

namespace Setting

variable (h : b.Setting p names clock s root entry kept outputs)

include h

/-- The plan is made from what fits together, and what comes from elsewhere is there. -/
theorem prepared (ht : b.Timely p names clock s) : b.Prepared s root where
  runtime path hpath := ht.foreign path (.inl hpath)
  precompiled id u path hu hkind := ht.foreign path (Foreign.grows (.inr ⟨id, u, hu, hkind⟩) h.grows)
  linked := h.linked
  known := h.known

/-- A unit that was built before is up to date whenever its link is due, and so has nothing to do. -/
theorem skips_link (hlast : b.Lasts p names clock s root entry kept outputs before generated t)
    (hsteps : (b.planFor s root).steps = before ++ ⟨id, .link⟩ :: after) (hkept : kept id)
    (hu : s.resolution.program.units.get? id = some u) :
    b.take entry (b.planFor s root) generated ⟨id, .link⟩ u t = .ok false t := by
  have hmem : ⟨id, .link⟩ ∈ (b.planFor s root).steps := by
    rw [hsteps]
    exact List.mem_append_right _ List.mem_cons_self
  have hmode : b.config.mode = .perUnit :=
    Planning.mode_of_mem_steps (c := b.planningOf s s.resolution.freshness) hmem
      (by simp [Action.rank]) (by simp)
  obtain ⟨hid, hobject⟩ : s.resolution.program.graph.Reaches root id ∧
      (b.planningOf s s.resolution.freshness).makesObject id :=
    Planning.mem_steps h.linked.node h.known hmem (by simp)
  rw [makesObject_planningOf hu] at hobject
  have hprogram : t.resolution.program = s.resolution.program := by rw [hlast.stocked.gains.resolution]
  have hforward : (b.planFor s root).hasStep id .forwardLink = false := by
    rw [Plan.hasStep, List.contains_eq_mem, decide_eq_false_iff_not]
    intro hforward
    rcases h.untouched.action h.linked h.known hforward hkept with haction | haction <;> cases haction
  refine take_link_of_upToDate hforward (fun other hother hgenerated => ?_) rfl ?_
  · -- All that the unit depends on was built before as well, and is not generated.
    have hnode : (b.planFor s root).subgraph.Reaches id other :=
      (Digraph.hasNode_subgraph.1 (Digraph.mem_nodes.1 hother)).2
    have hreaches : s.resolution.program.graph.Reaches id other :=
      (Planning.reaches_needed hid).1 hnode
    refine h.untouched.spared other (h.untouched.reaches hkept hreaches) ?_
    rw [hsteps]
    exact List.mem_append_left _ (hlast.generated other hgenerated)
  · rw [hprogram]
    have hwatched {path : FilePath} := mem_watched_planFor (b := b) path false h.linked h.known hid hu
    have hinvolved {path : FilePath} (hpath : s.resolution.program.Watches b.config id path) :
        b.Involved p path := hpath.involved.grows h.grows
    obtain ⟨v, hv, huv⟩ := h.grows id u hu
    have hartifact : b.Involved p (b.layout.path .artifact u) :=
      .inl ⟨id, v, .artifact, hv, .inr rfl, (b.layout.path_of_becomes huv).symm⟩
    rw [output_unitLinkage, Disk.isUpToDate_iff (hlast.timely.file _ hartifact) fun path hpath =>
      hlast.timely.file path (hinvolved (hwatched.1 hpath))]
    exact (hlast.modules hmode id u (.inl hkept) hu hobject).congr fun path hpath => hwatched.1 hpath

/-- What a step of the plan makes comes from nowhere else. -/
theorem not_foreign (hu : s.resolution.program.units.get? id = some u)
    (hmade : t.Stamped clock t' (b.layout.path role u)) : ¬ b.Foreign p (b.layout.path role u) := by
  intro hforeign
  obtain ⟨v, hv, huv⟩ := h.grows id u hu
  obtain ⟨time, hdate, -⟩ := hmade
  have hapart := h.separate.foreign_own _ id v role hforeign hv
  rw [b.layout.path_of_becomes huv] at hapart
  exact Disk.ne_of_apart (hapart t'.disk) hdate rfl

/-- Units with a common file are the same, and the file has the same role for them. -/
theorem eq_of_path {role' : FileRole} {w : BuildUnit}
    (hu : s.resolution.program.units.get? id = some u)
    (hw : s.resolution.program.units.get? other = some w)
    (heq : b.layout.path role u = b.layout.path role' w) : role = role' ∧ id = other := by
  by_contra hnot
  refine Layout.path_ne ?_ heq
  by_contra hall
  simp only [not_or, not_not] at hall
  exact hnot ⟨hall.1, h.linked.distinct id other u w hu hw hall.2.1 hall.2.2⟩

/-- A step that has something to do makes nothing that is watched for a unit that was built before or
is linked already. -/
theorem not_watches (hlast : b.Lasts p names clock s root entry kept outputs before generated t)
    (hsteps : (b.planFor s root).steps = before ++ x :: after)
    (hu : s.resolution.program.units.get? x.unit = some u) (hrole : x.action.product? = some role)
    (hrun : b.take entry (b.planFor s root) generated x u t = .ok true t')
    (hid : kept id ∨ ⟨id, .link⟩ ∈ before) :
    ¬ s.resolution.program.Watches b.config id (b.layout.path role u) := by
  have hmem : x ∈ (b.planFor s root).steps := by
    rw [hsteps]
    exact List.mem_append_right _ List.mem_cons_self
  have hforeign := h.not_foreign hu (stamped_take h.stamps hrole hrun)
  have hscheduled (hlinked : ⟨id, .link⟩ ∈ before) :
      Planning.Scheduled s.resolution.program.graph ⟨id, .link⟩ x := by
    have hmode := Planning.mode_of_mem_steps (c := b.planningOf s s.resolution.freshness)
      (hsteps ▸ List.mem_append_left _ hlinked) (by simp [Action.rank]) (by simp)
    have hpairs := Planning.steps_scheduled (c := b.planningOf s s.resolution.freshness)
      h.linked.node h.known hmode
    rw [← planFor_eq, hsteps, List.pairwise_append] at hpairs
    exact hpairs.2.2 _ hlinked x List.mem_cons_self
  rintro (⟨w', hw', heq⟩ | ⟨other, w', hedge, hback, hw', hlibrary⟩ | hruntime)
  · obtain ⟨rfl, rfl⟩ := h.eq_of_path hu hw' heq
    have haction : x.action = .compile := by
      cases haction : x.action <;> rw [haction] at hrole <;> cases hrole
    rcases hid with hkept | hlinked
    · rcases h.untouched.action h.linked h.known hmem hkept with hother | hother <;>
        rw [haction] at hother <;> cases hother
    · have hrank := (hscheduled hlinked).unit rfl
      simp [haction, Action.rank] at hrank
  · rcases library?_cases hlibrary with ⟨-, heq⟩ | hkind
    · obtain ⟨rfl, rfl⟩ := h.eq_of_path hu hw' heq
      rcases hid with hkept | hlinked
      · have hother := h.untouched.closed _ _ hkept hedge
        obtain ⟨other, action⟩ := x
        rcases h.untouched.action h.linked h.known hmem hother with rfl | rfl
        · rw [h.skips_link hlast hsteps hother hu] at hrun
          cases hrun
        · cases hrole
      · have hemit : x.action ≠ .emit := by
          intro haction
          rw [haction] at hrole
          cases hrole
        exact hback ((hscheduled hlinked).needs hemit hedge).2
    · exact hforeign (Foreign.grows (.inr ⟨other, w', hw', hkind⟩) h.grows)
  · exact hforeign (.inl hruntime)

/-- Nor does it make anything that the module of a former entry point holds. -/
theorem not_holds (hsteps : (b.planFor s root).steps = before ++ x :: after)
    (hu : s.resolution.program.units.get? x.unit = some u) (hrole : x.action.product? = some role)
    (hrun : b.take entry (b.planFor s root) generated x u t = .ok true t') (hother : kept other) :
    ¬ s.resolution.program.Holds b.config other (b.layout.path role u) := by
  have hmem : x ∈ (b.planFor s root).steps := by
    rw [hsteps]
    exact List.mem_append_right _ List.mem_cons_self
  have hforeign := h.not_foreign hu (stamped_take h.stamps hrole hrun)
  rintro (⟨id, w, hreaches, hw, ⟨-, heq⟩ | ⟨hasIs, hpath⟩⟩ | hruntime)
  · obtain ⟨rfl, rfl⟩ := h.eq_of_path hu hw heq
    have haction : x.action = .compile := by
      cases haction : x.action <;> rw [haction] at hrole <;> cases hrole
    rcases h.untouched.action h.linked h.known hmem (h.untouched.reaches hother hreaches) with
      hlinks | hlinks <;> rw [haction] at hlinks <;> cases hlinks
  · have hholds : s.resolution.program.Holds b.config id (b.layout.path role u) :=
      .inl ⟨id, w, .refl, hw, .inr ⟨hasIs, hpath⟩⟩
    cases hkind : w.kind <;> rw [hkind] at hasIs hpath <;> cases hasIs
    cases hpath
    exact hforeign (Foreign.grows (.inr ⟨id, w, hw, hkind⟩) h.grows)
  · exact hforeign (.inl hruntime)

/-- All that the module of a unit is linked from is there when it is linked. -/
theorem dates_of_linkage
    (hlast : b.Lasts p names clock s root entry kept outputs before generated t)
    (ht : b.Timely p names clock s)
    (hsteps : (b.planFor s root).steps = before ++ ⟨id, .link⟩ :: after)
    (hu : s.resolution.program.units.get? id = some u)
    (hpath : s.resolution.program.Watches b.config id path) :
    ∃ time, t.disk.date? path = some time := by
  have hmem : ⟨id, .link⟩ ∈ (b.planFor s root).steps := by
    rw [hsteps]
    exact List.mem_append_right _ List.mem_cons_self
  have hid : s.resolution.program.graph.Reaches root id :=
    (Planning.mem_steps (c := b.planningOf s s.resolution.freshness) h.linked.node h.known hmem
      (by simp)).1
  have hforward : (b.planFor s root).hasStep id .forwardLink = true ↔
      Action.link = .link ∧ ⟨id, .forwardLink⟩ ∈ (b.planFor s root).steps := by
    simp [Plan.hasStep]
  have hthere := (h.prepared ht).linkage hlast.stocked (.inl rfl) hforward hu hsteps rfl
  have hwatched := (mem_watched_planFor path ((b.planFor s root).hasStep id .forwardLink) h.linked
    h.known hid hu).2 hpath
  refine Disk.exists_date? (hlast.timely.file path
    (hpath.involved.grows h.grows)) (hthere path ?_)
  simp only [BuildConfig.unitLinkage, List.mem_append, List.mem_cons, List.mem_map,
    List.mem_filter] at hwatched ⊢
  rcases hwatched with (rfl | ⟨other, ⟨hother, -⟩, rfl⟩) | hruntime
  · exact .inl (.inl rfl)
  · exact .inr (.inl ⟨other, hother, rfl⟩)
  · exact .inr (.inr hruntime)

/-- All that the module of the entry point holds is there when it is made. -/
theorem dates_of_entryLinkage
    (hlast : b.Lasts p names clock s root entry kept outputs before generated t)
    (ht : b.Timely p names clock s)
    (hsteps : (b.planFor s root).steps = before ++ ⟨root, .emit⟩ :: after)
    (hpath : s.resolution.program.Holds b.config root path) :
    ∃ time, t.disk.date? path = some time := by
  have hwatched := (mem_watched_entryLinkage_planFor entry path h.linked h.known).2 hpath
  obtain ⟨l, hl⟩ : ∃ l, l = b.config.entryLinkage s.resolution.program.units (b.planFor s root)
      entry := ⟨_, rfl⟩
  have hthere := (h.prepared ht).entryLinkage hlast.stocked rfl hsteps hl
  subst hl
  exact Disk.exists_date? (hlast.timely.file path
    (hpath.involved.grows h.grows)) (hthere path hwatched)

end Setting

namespace Lasts

variable (hlast : b.Lasts p names clock s root entry kept outputs before generated t)
  (h : b.Setting p names clock s root entry kept outputs) (ht : b.Timely p names clock s)
  (hsteps : (b.planFor s root).steps = before ++ x :: after)
  (hu : s.resolution.program.units.get? x.unit = some u)

include hlast h hsteps hu

/-- The modules that were up to date before a step are so after it. -/
theorem modules_take (hrun : b.take entry (b.planFor s root) generated x u t = .ok performed t')
    (hmode : b.config.mode = .perUnit) {w : BuildUnit} (hid : kept id ∨ ⟨id, .link⟩ ∈ before)
    (hw : s.resolution.program.units.get? id = some w) (hobject : w.kind.treatment.makesObject) :
    t'.disk.NoOlder (b.layout.path .artifact w) (s.resolution.program.Watches b.config id) := by
  obtain ⟨v, hv, huv⟩ := h.grows x.unit u hu
  obtain ⟨w', hw', hww'⟩ := h.grows id w hw
  have hinvolved (path : FilePath) (hpath : s.resolution.program.Watches b.config id path) :
      b.Involved p path := hpath.involved.grows h.grows
  have hartifact : b.Involved p (b.layout.path .artifact w) :=
    .inl ⟨id, w', .artifact, hw', .inr rfl, (b.layout.path_of_becomes hww').symm⟩
  refine noOlder_of_same hlast.timely hinvolved (hlast.modules hmode id w hid hw hobject)
    (fun path hpath => .inl ?_) ?_
  · rcases dates_take h.separate h.confined h.stamps hv huv h.entry hrun (hinvolved path hpath) with
      hsame | ⟨role, hrole, rfl, rfl, -⟩
    · exact hsame
    · exact absurd hpath (h.not_watches hlast hsteps hu hrole hrun hid)
  · exact (dates_take h.separate h.confined h.stamps hv huv h.entry hrun hartifact).imp_right
      fun ⟨_, _, _, _, hstamped⟩ => hstamped

/-- So are the modules of former entry points. -/
theorem emitted_take (hrun : b.take entry (b.planFor s root) generated x u t = .ok performed t')
    (hmode : b.config.mode = .single) {name : String} (hother : outputs name other) :
    t'.disk.NoOlder (b.config.outputPath name) (s.resolution.program.Holds b.config other) := by
  obtain ⟨v, hv, huv⟩ := h.grows x.unit u hu
  obtain ⟨hname, hkept⟩ := h.outputs name other hother
  have hinvolved (path : FilePath) (hpath : s.resolution.program.Holds b.config other path) :
      b.Involved p path := hpath.involved.grows h.grows
  refine noOlder_of_same hlast.timely hinvolved (hlast.emitted hmode name other (.inl hother))
    (fun path hpath => .inl ?_)
    (date_outputPath_take h.separate h.tidy h.confined h.stamps hmode hv huv hname hrun)
  rcases dates_take h.separate h.confined h.stamps hv huv h.entry hrun (hinvolved path hpath) with
    hsame | ⟨role, hrole, rfl, rfl, -⟩
  · exact hsame
  · exact absurd hpath (h.not_holds hsteps hu hrole hrun hkept)

include ht

/-- A module is up to date after its link, whether there was anything to do or not. -/
theorem module_link (hx : x.action = .link)
    (hrun : b.take entry (b.planFor s root) generated x u t = .ok performed t') :
    t'.disk.NoOlder (b.layout.path .artifact u)
      (s.resolution.program.Watches b.config x.unit) := by
  obtain ⟨id, action⟩ := x
  obtain rfl : action = .link := hx
  obtain ⟨v, hv, huv⟩ := h.grows id u hu
  have hinvolved (path : FilePath) (hpath : s.resolution.program.Watches b.config id path) :
      b.Involved p path := hpath.involved.grows h.grows
  have hartifact : b.Involved p (b.layout.path .artifact u) :=
    .inl ⟨id, v, .artifact, hv, .inr rfl, (b.layout.path_of_becomes huv).symm⟩
  cases performed with
  | true =>
    have hstamped : t.Stamped clock t' (b.layout.path .artifact u) :=
      stamped_take h.stamps rfl hrun
    refine noOlder_of_stamped hlast.timely hinvolved
      (fun path hpath => h.dates_of_linkage hlast ht hsteps hu hpath) (fun path hpath => ?_) hstamped
    refine (dates_take h.separate h.confined h.stamps hv huv h.entry hrun (hinvolved path hpath)).imp_right
      ?_
    rintro ⟨role, hrole, -, rfl, -⟩
    cases hrole
    rfl
  | false =>
    obtain ⟨rfl, ⟨-, huptodate⟩ | ⟨hemit, -⟩⟩ := skipped_take hrun
    · have huptodate := huptodate _ rfl
      have hid : s.resolution.program.graph.Reaches root id :=
        (Planning.mem_steps (c := b.planningOf s s.resolution.freshness) h.linked.node h.known
          (hsteps ▸ List.mem_append_right _ List.mem_cons_self) (by simp)).1
      have hwatched {path : FilePath} := mem_watched_planFor (b := b) path
        ((b.planFor s root).hasStep id .forwardLink) h.linked h.known hid hu
      have hprogram : t'.resolution.program = s.resolution.program := by
        rw [hlast.stocked.gains.resolution]
      rw [hprogram, output_unitLinkage, Disk.isUpToDate_iff (hlast.timely.file _ hartifact)
        fun path hpath => hlast.timely.file path (hinvolved path (hwatched.1 hpath))] at huptodate
      exact huptodate.congr fun path hpath => hwatched.2 hpath
    · cases hemit

/-- The module of the entry point is up to date after it was made, or found so. -/
theorem emitted_emit (hx : x = ⟨root, .emit⟩) (hmode : b.config.mode = .single)
    (hrun : b.take entry (b.planFor s root) generated x u t = .ok performed t') :
    t'.disk.NoOlder (b.config.outputPath entry) (s.resolution.program.Holds b.config root) := by
  subst hx
  obtain ⟨v, hv, huv⟩ := h.grows root u hu
  have hinvolved (path : FilePath) (hpath : s.resolution.program.Holds b.config root path) :
      b.Involved p path := hpath.involved.grows h.grows
  cases performed with
  | true =>
    have hstamped := stamped_emit h.stamps hmode rfl hrun
    refine noOlder_of_stamped hlast.timely hinvolved
      (fun path hpath => h.dates_of_entryLinkage hlast ht hsteps hpath) (fun path hpath => .inl ?_)
      hstamped
    rcases dates_take h.separate h.confined h.stamps hv huv h.entry hrun (hinvolved path hpath) with
      hsame | ⟨role, hrole, -⟩
    · exact hsame
    · cases hrole
  | false =>
    obtain ⟨rfl, ⟨hlink, -⟩ | ⟨-, -, huptodate⟩⟩ := skipped_take hrun
    · cases hlink
    · have huptodate := huptodate _ rfl
      have hwatched {path : FilePath} := mem_watched_entryLinkage_planFor (b := b) entry path
        h.linked h.known
      have hprogram : t'.resolution.program = s.resolution.program := by
        rw [hlast.stocked.gains.resolution]
      have houtput : (b.config.entryLinkage s.resolution.program.units (b.planFor s root)
          entry).output = b.config.outputPath entry := rfl
      rw [hprogram, houtput, Disk.isUpToDate_iff (hlast.timely.output _ h.entry) fun path hpath =>
        hlast.timely.file path (hinvolved path (hwatched.1 hpath))] at huptodate
      exact huptodate.congr fun path hpath => hwatched.2 hpath

theorem take (hrun : b.take entry (b.planFor s root) generated x u t = .ok performed t') :
    b.Lasts p names clock s root entry kept outputs (before ++ [x])
      (if x.action == .generate then generated.insert x.unit else generated) t' where
  stocked := hlast.stocked.take (h.stamps.reliable h.tidy) h.generator hu hrun
  timely := by
    obtain ⟨v, hv, huv⟩ := h.grows x.unit u hu
    exact hlast.timely.take h.separate h.tidy h.confined h.stamps hv huv h.entry hrun
  generated id hid := by
    have hformer (hid : id ∈ generated) : ⟨id, .generate⟩ ∈ before ++ [x] :=
      List.mem_append_left _ (hlast.generated id hid)
    split at hid
    · next haction =>
      rw [Std.ExtTreeSet.mem_insert, Std.LawfulEqCmp.compare_eq_iff_eq] at hid
      rcases hid with rfl | hid
      · refine List.mem_append_right _ (List.mem_singleton.2 ?_)
        obtain ⟨unit, action⟩ := x
        rw [show action = .generate by simpa using haction]
      · exact hformer hid
    · exact hformer hid
  modules hmode id w hid hw hobject := by
    by_cases hformer : kept id ∨ ⟨id, .link⟩ ∈ before
    · exact hlast.modules_take h hsteps hu hrun hmode hformer hw hobject
    · have hx : x = ⟨id, .link⟩ := by
        rcases hid with hkept | hmem
        · exact absurd (.inl hkept) hformer
        · rcases List.mem_append.1 hmem with hmem | hmem
          · exact absurd (.inr hmem) hformer
          · exact (List.mem_singleton.1 hmem).symm
      subst hx
      obtain rfl := Option.some.inj (hu.symm.trans hw)
      exact hlast.module_link h ht hsteps hu rfl hrun
  emitted hmode name other hother := by
    rcases hother with hother | ⟨rfl, rfl, hmem⟩
    · exact hlast.emitted_take h hsteps hu hrun hmode hother
    · rcases List.mem_append.1 hmem with hmem | hmem
      · -- Nothing comes after the making of the final module.
        have hpairs := Planning.steps_pairwise (c := b.planningOf s s.resolution.freshness)
          h.linked.node h.known
        rw [← planFor_eq, hsteps, List.pairwise_append] at hpairs
        exact absurd rfl (hpairs.2.2 _ hmem x List.mem_cons_self).emit
      · exact hlast.emitted_emit h ht hsteps hu (List.mem_singleton.1 hmem).symm hmode hrun

end Lasts

/-- What lasts when all steps of a plan were taken. -/
theorem Lasts.execute (hlast : b.Lasts p names clock s root entry kept outputs before generated t)
    (h : b.Setting p names clock s root entry kept outputs) (ht : b.Timely p names clock s)
    (hsteps : (b.planFor s root).steps = before ++ steps)
    (hrun : b.execute entry (b.planFor s root) generated steps t = .ok records t') :
    ∃ last, b.Lasts p names clock s root entry kept outputs (before ++ steps) last t' := by
  induction steps generalizing before t generated records with
  | nil =>
    cases hrun
    rw [List.append_nil]
    exact ⟨generated, hlast⟩
  | cons x steps ih =>
    have hknown := Planning.isSome_get?_of_mem_steps (c := b.planningOf s s.resolution.freshness)
      (hsteps ▸ List.mem_append_right before List.mem_cons_self)
    obtain ⟨u, hu⟩ := Option.isSome_iff_exists.1 hknown
    have hu : s.resolution.program.units.get? x.unit = some u := hu
    rw [Builder.execute, BuildM.get_bind, hlast.stocked.gains.resolution, hu] at hrun
    obtain ⟨performed, s₁, htake, hrun⟩ := BuildM.bind_eq_ok.1 hrun
    obtain ⟨later, s₂, hlater, hrun⟩ := BuildM.bind_eq_ok.1 hrun
    cases hrun
    rw [List.append_cons]
    exact ih (hlast.take h ht hsteps hu htake) (by rw [hsteps, List.append_cons]) hlater

end Builder

end ScriptBuild
