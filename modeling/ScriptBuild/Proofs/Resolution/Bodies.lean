import ScriptBuild.Proofs.Archive.RoundTrip
import ScriptBuild.Proofs.Resolution.Lookup

namespace ScriptBuild

namespace BuildUnit

variable {u : BuildUnit} {slot : String} {slots : List String}

theorem kept_kept : u.kept.kept = u.kept := rfl

theorem kept_addSlot : (u.addSlot slot).kept = u.kept.addSlot slot := by
  have hslot : u.kept.hasSlot slot = u.hasSlot slot := rfl
  rw [addSlot, addSlot, hslot]
  split <;> rfl

theorem kept_foldl_addSlot : (slots.foldl addSlot u).kept = slots.foldl addSlot u.kept := by
  induction slots generalizing u with
  | nil => rfl
  | cons slot slots ih => rw [List.foldl_cons, List.foldl_cons, ih, kept_addSlot]

end BuildUnit

namespace Program

variable {p q p' q' : Program} {fixed : Nat → Prop} {id a : Nat} {t : Target} {n name : String}
  {kind : UnitKind} {timestamp : Nat} {body : Option Body} {f : BuildUnit → BuildUnit}

/-- Of two programs the same is kept if it is of their units, and if their dependencies and imports
agree. -/
theorem kept_ext (hunits : ∀ id, (q.units.get? id).map BuildUnit.kept =
    (p.units.get? id).map BuildUnit.kept) (hgraph : q.graph = p.graph)
    (himports : q.imports = p.imports) : q.kept = p.kept := by
  have hcatalog : q.kept.units = p.kept.units := Catalog.ext_get? fun id => by
    rw [get?_kept, get?_kept, hunits]
  simp only [kept] at hcatalog ⊢
  rw [hcatalog, hgraph, himports]

theorem kept_kept (p : Program) : p.kept.kept = p.kept :=
  kept_ext (fun id => by rw [get?_kept, Option.map_map]; rfl) rfl rfl

/-- Where bodies are does not matter for recording an import. -/
theorem kept_recordImport : (p.recordImport id t n).kept = p.kept.recordImport id t n := by
  unfold recordImport
  split
  · rfl
  · cases t <;> rfl

theorem kept_removeImport : (p.removeImport id t n).kept = p.kept.removeImport id t n := by
  have himported : p.kept.imported id t = p.imported id t := rfl
  unfold removeImport
  rw [himported]
  split
  · rfl
  · cases t with
    | unresolved => rfl
    | unit other =>
      dsimp only
      split
      · next hnone => exact (if_pos hnone).symm
      · next hsome => exact (if_neg hsome).symm

theorem nextOverload_kept (name : String) :
    p.kept.units.nextOverload name = p.units.nextOverload name := by
  simp only [Catalog.nextOverload, overloads_kept, get?_kept, Option.map_map]
  rfl

/-- Two programs are the same but for the bodies of units, and some units are the same with their
bodies. -/
structure Alike (p q : Program) (fixed : Nat → Prop) : Prop where
  kept : q.kept = p.kept
  unit : ∀ id, fixed id → q.units.get? id = p.units.get? id

namespace Alike

theorem refl (p : Program) (fixed : Nat → Prop) : p.Alike p fixed := ⟨rfl, fun _ _ => rfl⟩

theorem mono {fixed' : Nat → Prop} (h : p.Alike q fixed) (hfixed : ∀ id, fixed' id → fixed id) :
    p.Alike q fixed' := ⟨h.kept, fun id hid => h.unit id (hfixed id hid)⟩

theorem graph (h : p.Alike q fixed) : q.graph = p.graph :=
  show q.kept.graph = p.kept.graph from congrArg Program.graph h.kept

theorem imports (h : p.Alike q fixed) : q.imports = p.imports :=
  show q.kept.imports = p.kept.imports from congrArg Program.imports h.kept

theorem size (h : p.Alike q fixed) : q.units.size = p.units.size := by
  rw [← size_kept, h.kept, size_kept]

/-- A definition denotes the same unit, as bodies do not identify units. -/
theorem findMatch (h : p.Alike q fixed) (name : String) (kind : UnitKind) (timestamp : Nat) :
    q.units.findMatch name kind timestamp = p.units.findMatch name kind timestamp := by
  rw [← findMatch_kept, h.kept, findMatch_kept]

theorem map_kept (h : p.Alike q fixed) (id : Nat) :
    (q.units.get? id).map BuildUnit.kept = (p.units.get? id).map BuildUnit.kept := by
  rw [← get?_kept, h.kept, get?_kept]

/-- What does not look at bodies says the same about both units of a number. -/
theorem map {α : Type} (h : p.Alike q fixed) {f : BuildUnit → α} (hf : ∀ u, f u.kept = f u)
    (id : Nat) : (q.units.get? id).map f = (p.units.get? id).map f := by
  have hcomp : f ∘ BuildUnit.kept = f := funext hf
  have hmap := congrArg (Option.map f) (h.map_kept id)
  simpa only [Option.map_map, hcomp] using hmap

/-- What does not look at bodies is the same of every unit. -/
theorem bind {α : Type} (h : p.Alike q fixed) {f : BuildUnit → Option α} (hf : ∀ u, f u.kept = f u)
    (id : Nat) : (q.units.get? id).bind f = (p.units.get? id).bind f := by
  have hcomp : f ∘ BuildUnit.kept = f := funext hf
  have hbind := congrArg (Option.bind · f) (h.map_kept id)
  simpa only [Option.bind_map, hcomp] using hbind

/-- A test that does not look at bodies has the same result for every unit. -/
theorem any (h : p.Alike q fixed) {f : BuildUnit → Bool} (hf : ∀ u, f u.kept = f u) (id : Nat) :
    (q.units.get? id).any f = (p.units.get? id).any f := by
  have hany := congrArg (Option.any f) (h.map_kept id)
  simpa only [Option.any_map, hf] using hany

/-- Programs stay alike if the same is kept of them and their units stay. -/
theorem update (h : p.Alike q fixed) (hkept : q'.kept = p'.kept) (hp : p'.units = p.units)
    (hq : q'.units = q.units) : p'.Alike q' fixed := by
  refine ⟨hkept, fun id hid => ?_⟩
  rw [hp, hq, h.unit id hid]

theorem recordImport (h : p.Alike q fixed) (id : Nat) (t : Target) (n : String) :
    (p.recordImport id t n).Alike (q.recordImport id t n) fixed :=
  h.update (by rw [kept_recordImport, kept_recordImport, h.kept]) units_recordImport
    units_recordImport

theorem removeImport (h : p.Alike q fixed) (id : Nat) (t : Target) (n : String) :
    (p.removeImport id t n).Alike (q.removeImport id t n) fixed :=
  h.update (by rw [kept_removeImport, kept_removeImport, h.kept]) units_removeImport
    units_removeImport

theorem addNode (h : p.Alike q fixed) (id : Nat) :
    Alike { p with graph := p.graph.addNode id } { q with graph := q.graph.addNode id } fixed :=
  h.update (kept_ext h.map_kept (congrArg (·.addNode id) h.graph) h.imports) rfl rfl

/-- The same change of a unit leaves programs alike but for bodies, if it does not look at the body of
the unit. -/
theorem modify (h : p.Alike q fixed) (id : Nat) (hname : ∀ u, (f u).name = u.name)
    (hf : ∀ u, (f u).kept = (f u.kept).kept) :
    Alike { p with units := p.units.modify id f } { q with units := q.units.modify id f } fixed := by
  refine ⟨kept_ext (fun a => ?_) h.graph h.imports, fun a ha => ?_⟩
  · simp only [Catalog.get?_modify hname]
    split
    · simp only [Option.map_map]
      exact h.map (f := BuildUnit.kept ∘ f) (fun u => (hf u).symm) a
    · exact h.map_kept a
  · simp only [Catalog.get?_modify hname, h.unit a ha]

/-- A unit whose body is replaced is the same in both programs from then on. -/
theorem overwrite (h : p.Alike q fixed) (id : Nat) (hname : ∀ u, (f u).name = u.name)
    (hf : ∀ u, f u.kept = f u) :
    Alike { p with units := p.units.modify id f } { q with units := q.units.modify id f }
      fun a => fixed a ∨ a = id := by
  have hmodify := h.modify id hname fun u => by rw [hf]
  refine ⟨hmodify.kept, fun a ha => ?_⟩
  rcases ha with ha | rfl
  · exact hmodify.unit a ha
  · simp only [Catalog.get?_modify_self hname]
    exact h.map hf a

/-- So does inserting the same unit, which then has the same body in both. -/
theorem insertUnit (h : p.Alike q fixed) (name : String) (kind : UnitKind) (timestamp : Nat)
    (body : Option Body) :
    (p.insertUnit name kind timestamp body).Alike (q.insertUnit name kind timestamp body)
      fun a => fixed a ∨ a = p.units.size := by
  have hnext : q.units.nextOverload name = p.units.nextOverload name := by
    rw [← nextOverload_kept, h.kept, nextOverload_kept]
  refine ⟨kept_ext (fun a => ?_) ?_ h.imports, fun a ha => ?_⟩
  · simp only [Program.insertUnit, Catalog.get?_insert, h.size, hnext]
    split
    · rfl
    · exact h.map_kept a
  · simp only [Program.insertUnit, h.graph, h.size]
  · simp only [Program.insertUnit, Catalog.get?_insert, h.size, hnext]
    split
    · rfl
    · next hne => exact h.unit a (ha.resolve_right hne)

/-- So does forgetting what came from a body. -/
theorem clearBody (h : p.Alike q fixed) (id : Nat) :
    (p.clearBody id).Alike (q.clearBody id) fixed := by
  have hmodify := h.modify id (f := fun u => { u with slots := [] }) (fun _ => rfl) fun _ => rfl
  refine ⟨kept_ext hmodify.map_kept ?_ ?_, hmodify.unit⟩
  · exact congrArg (·.removeOut id) h.graph
  · exact congrArg (·.erase id) h.imports

end Alike

end Program

namespace Resolution

variable {w : World} {r s : Resolution} {id : Nat} {name slot : String} {kind : UnitKind}
  {d : Definition}

/-- Two runs are the same but for the bodies of units that do not wait to be read. -/
structure Alike (r s : Resolution) : Prop where
  run : s.run = r.run
  program : r.program.Alike s.program fun id => .read id ∈ r.run.waiting

/-- Two runs are alike and give the same result. -/
def Agree {α : Type} (x y : Resolution × α) : Prop := x.1.Alike y.1 ∧ y.2 = x.2

namespace Alike

/-- Units are as fresh in one run as in the other. -/
theorem freshness (h : r.Alike s) (id : Nat) : s.freshness id = r.freshness id := by
  rw [Resolution.freshness, Resolution.freshness, h.run]

theorem start {p q : Program} (hkept : q.kept = p.kept) : (start p).Alike (start q) :=
  ⟨rfl, hkept, fun _ hid => absurd hid List.not_mem_nil⟩

theorem modify (h : r.Alike s) {f : Program → Program} (hf : ∀ {p q : Program} {fixed : Nat → Prop},
    p.Alike q fixed → (f p).Alike (f q) fixed) : (r.modifyProgram f).Alike (s.modifyProgram f) :=
  ⟨h.run, hf h.program⟩

theorem setFreshness (h : r.Alike s) (id : Nat) (freshness : Freshness) :
    (r.setFreshness id freshness).Alike (s.setFreshness id freshness) :=
  ⟨by simp only [Resolution.setFreshness, h.run], h.program⟩

theorem reportUnresolved (h : r.Alike s) (reference : UnresolvedReference) :
    (r.reportUnresolved reference).Alike (s.reportUnresolved reference) :=
  ⟨by simp only [Resolution.reportUnresolved, h.run], h.program⟩

theorem markBuilt (h : r.Alike s) (id : Nat) : (r.markBuilt id).Alike (s.markBuilt id) :=
  h.setFreshness id .old

/-- The same table grows by the same slot. -/
theorem growTable (h : r.Alike s) (id : Nat) (slot : String) :
    (r.growTable id slot).Alike (s.growTable id slot) := by
  have hgrows := h.program.any (f := fun u => !u.hasSlot slot) (fun _ => rfl) id
  have hadded : (r.modifyProgram fun p => { p with units := p.units.modify id (·.addSlot slot) }).Alike
      (s.modifyProgram fun p => { p with units := p.units.modify id (·.addSlot slot) }) := by
    refine h.modify fun hp => hp.modify id (fun u => BuildUnit.becomes_addSlot.name) fun u => ?_
    rw [BuildUnit.kept_addSlot, BuildUnit.kept_addSlot, BuildUnit.kept_kept]
  simp only [Resolution.growTable, hgrows, hadded.freshness]
  split
  · exact hadded.setFreshness id .updated
  · exact hadded

theorem makeTable (h : r.Alike s) (kind : UnitKind) : (r.makeTable kind).Alike (s.makeTable kind) := by
  simp only [Resolution.makeTable, h.program.size]
  refine setFreshness (h.modify fun hp => ?_) _ .new
  exact (hp.insertUnit _ _ _ _).mono fun _ => .inl

theorem tableFor (h : r.Alike s) (slot : String) (kind : UnitKind) :
    Agree (r.tableFor slot kind) (s.tableFor slot kind) := by
  have hmatch := h.program.findMatch (tableName kind) kind 0
  cases hfound : r.program.units.findMatch (tableName kind) kind 0 with
  | some id =>
    rw [hfound] at hmatch
    rw [tableFor_of_some hfound, tableFor_of_some hmatch]
    exact ⟨h.growTable id slot, rfl⟩
  | none =>
    rw [hfound] at hmatch
    rw [tableFor_of_none hfound, tableFor_of_none hmatch, h.program.size]
    exact ⟨(h.makeTable kind).growTable _ slot, rfl⟩

/-- A unit that waits to be read has the same body in both programs, since it was met by the same
definition. -/
theorem await (h : r.Alike s) {p q : Program}
    (hprogram : p.Alike q fun a => .read a ∈ r.run.waiting ∨ a = id) (freshness : Freshness) :
    Alike ⟨p, { r.run with
        freshness := r.run.freshness.insert id freshness
        waiting := r.run.waiting ++ [.read id] }⟩
      ⟨q, { s.run with
        freshness := s.run.freshness.insert id freshness
        waiting := s.run.waiting ++ [.read id] }⟩ := by
  refine ⟨by simp only [h.run], hprogram.mono fun a ha => ?_⟩
  refine (List.mem_append.1 ha).imp_right fun ha => ?_
  exact Work.read.inj (List.mem_singleton.1 ha)

/-- A unit that is met is refreshed alike. If it is to be read, it gets the body of the definition
in both runs. -/
theorem refresh (h : r.Alike s) (id : Nat) (d : Definition) :
    (r.refresh id d).Alike (s.refresh id d) := by
  have hiff (r : Resolution) : r.Outdated id d ↔ (r.program.units.get? id).any fun u =>
      u.kind.isFile && decide (u.timestamp < d.timestamp) := by
    rw [Outdated, Option.any_eq_true]
    simp only [Bool.and_eq_true, decide_eq_true_iff]
  have houtdated : s.Outdated id d ↔ r.Outdated id d := by
    rw [hiff, hiff, h.program.any fun _ => rfl]
  by_cases hr : r.Outdated id d
  · rw [refresh_of_outdated hr, refresh_of_outdated (houtdated.2 hr)]
    have hread := h.program.overwrite id
      (f := fun u => { u with timestamp := d.timestamp, body := some d.body }) (fun _ => rfl) fun _ => rfl
    exact h.await (hread.addNode id) .updated
  · rw [refresh_of_not_outdated hr, refresh_of_not_outdated fun hs => hr (houtdated.1 hs)]
    have hattached := h.program.modify id (f := fun u => { u with body := u.body.or (some d.body) })
      (fun _ => rfl) fun _ => rfl
    refine ⟨by simp only [h.run], (hattached.addNode id).mono fun a ha => ?_⟩
    refine (List.mem_append.1 ha).resolve_right fun ha => ?_
    cases List.mem_singleton.1 ha

theorem unitFor (h : r.Alike s) (name : String) (d : Definition) :
    Agree (r.unitFor name d) (s.unitFor name d) := by
  have hmatch := h.program.findMatch name d.kind d.timestamp
  simp only [Resolution.unitFor, hmatch, h.run, h.program.size]
  split
  · exact h.tableFor name d.kind
  · split
    · exact ⟨h.await (h.program.insertUnit _ _ _ _) .new, rfl⟩
    · split
      · exact ⟨h, rfl⟩
      · exact ⟨h.refresh _ d, rfl⟩

theorem isKnown (h : r.Alike s) (w : World) (directory : Option FilePath) (name : String) :
    Agree (r.isKnown w directory name) (s.isKnown w directory name) := by
  simp only [Resolution.isKnown, h.run]
  split
  · exact ⟨⟨rfl, h.program⟩, rfl⟩
  · cases directory with
    | none => exact ⟨⟨rfl, h.program⟩, rfl⟩
    | some directory => exact ⟨⟨rfl, h.program⟩, rfl⟩

theorem lookupExternal (h : r.Alike s) (w : World) (id : Nat) (name : String) :
    Agree (r.lookupExternal w id name) (s.lookupExternal w id name) := by
  have hslot := h.program.any (f := fun u => u.hasSlot name) (fun _ => rfl) id
  have hdirectory := h.program.bind (f := BuildUnit.directory?) (fun _ => rfl) id
  have hfound (directory : Option FilePath) : s.foundFrom directory name =
      r.foundFrom directory name := by
    rw [foundFrom, foundFrom, h.run]
  simp only [Resolution.lookupExternal, hslot, hdirectory, hfound]
  split
  · exact ⟨h, rfl⟩
  · split
    · exact ⟨h, rfl⟩
    · obtain ⟨hasked, hknown⟩ := h.isKnown w ((r.program.units.get? id).bind BuildUnit.directory?) name
      simp only [hknown]
      split
      · split
        · exact ⟨hasked, rfl⟩
        · next d _ =>
          obtain ⟨hmet, hunit⟩ := hasked.unitFor name d
          simp only [hunit]
          exact ⟨⟨by simp only [rememberFound, hmet.run], hmet.program⟩, rfl⟩
      · exact ⟨hasked, rfl⟩

/-- What keeps runs alike does so for each item of a list. -/
theorem foldl {β : Type} {f : Resolution → β → Resolution}
    (hf : ∀ {r s : Resolution} (x : β), r.Alike s → (f r x).Alike (f s x)) (h : r.Alike s)
    (xs : List β) : (xs.foldl f r).Alike (xs.foldl f s) := by
  induction xs generalizing r s with
  | nil => exact h
  | cons x xs ih => exact ih (hf x h)

theorem declareGlobal (h : r.Alike s) (id : Nat) (name : String) :
    (r.declareGlobal id name).Alike (s.declareGlobal id name) := by
  obtain ⟨htable, hunit⟩ := h.tableFor name .globals
  simp only [Resolution.declareGlobal, hunit]
  exact htable.modify fun hp => hp.recordImport id _ name

/-- The same name is imported from the same place. -/
theorem importReference (h : r.Alike s) (w : World) (id : Nat) (reference : String × Span) :
    (r.importReference w id reference).Alike (s.importReference w id reference) := by
  obtain ⟨hlooked, htarget⟩ := h.lookupExternal w id reference.1
  simp only [Resolution.importReference, htarget]
  have hrecorded := hlooked.modify fun hp =>
    hp.recordImport id (r.lookupExternal w id reference.1).2 reference.1
  split
  · exact hrecorded.reportUnresolved _
  · exact hrecorded

/-- The same is recorded of a body that says the same. -/
theorem absorb (h : r.Alike s) (w : World) (id : Nat) (summary : Summary) :
    (r.absorb w id summary).Alike (s.absorb w id summary) := by
  have hslots := h.modify (f := fun p =>
    { p with units := p.units.modify id fun u => summary.slots.foldl BuildUnit.addSlot u })
    fun hp => hp.modify id (fun u => (BuildUnit.becomes_foldl_addSlot _ u).name) fun u => by
      rw [BuildUnit.kept_foldl_addSlot, BuildUnit.kept_foldl_addSlot, BuildUnit.kept_kept]
  have hglobals := foldl (fun name hr => hr.declareGlobal id name) hslots summary.globals
  have hreferences := foldl (fun reference hr => hr.importReference w id reference) hglobals
    summary.references
  exact ⟨by simp only [Resolution.absorb, hreferences.run], hreferences.program⟩

/-- A unit is read alike if it has the same body. -/
theorem readBody (h : r.Alike s) (w : World) (id : Nat)
    (hunit : s.program.units.get? id = r.program.units.get? id) :
    Agree (r.readBody w id) (s.readBody w id) := by
  simp only [Resolution.readBody, hunit]
  split
  · exact ⟨h, rfl⟩
  · have hcleared := h.modify fun hp => hp.clearBody id
    split
    · exact ⟨hcleared, rfl⟩
    · refine ⟨absorb ?_ w id _, rfl⟩
      exact ⟨by simp only [hcleared.run], hcleared.program⟩

theorem lookedUpImports_eq {p q : Program} {fixed : Nat → Prop} (h : p.Alike q fixed) (id : Nat) :
    lookedUpImports q id = lookedUpImports p id := by
  have hglobal (other : Nat) := h.any (f := fun u => u.kind == .globals) (fun _ => rfl) other
  simp only [lookedUpImports, Program.importsOf, h.imports, hglobal]

/-- An import that is looked up again has the same outcome. -/
theorem recheckImport {state state' : Resolution × Bool} (h : Agree state state') (w : World)
    (id : Nat) (import_ : Target × String) :
    Agree (Resolution.recheckImport w id state import_)
      (Resolution.recheckImport w id state' import_) := by
  obtain ⟨r, changed⟩ := state
  obtain ⟨s, _⟩ := state'
  obtain ⟨halike, rfl⟩ := h
  obtain ⟨hlooked, htarget⟩ := halike.lookupExternal w id import_.2
  simp only [Resolution.recheckImport, htarget]
  split
  · exact ⟨hlooked, rfl⟩
  · have hmoved := hlooked.modify fun hp => (hp.removeImport id import_.1 import_.2).recordImport id
      (r.lookupExternal w id import_.2).2 import_.2
    refine ⟨?_, rfl⟩
    dsimp only
    split
    · exact hmoved.reportUnresolved _
    · exact hmoved

theorem foldl_recheckImport {state state' : Resolution × Bool} (h : Agree state state') (w : World)
    (id : Nat) (imports : List (Target × String)) :
    Agree (imports.foldl (Resolution.recheckImport w id) state)
      (imports.foldl (Resolution.recheckImport w id) state') := by
  induction imports generalizing state state' with
  | nil => exact h
  | cons import_ imports ih => exact ih (recheckImport h w id import_)

theorem recheck (h : r.Alike s) (w : World) (id : Nat) :
    Agree (r.recheck w id) (s.recheck w id) := by
  have hstart : Agree (r, false) (s, false) := ⟨h, rfl⟩
  obtain ⟨hchecked, hchanged⟩ := foldl_recheckImport hstart w id (lookedUpImports r.program id)
  simp only [Resolution.recheck, lookedUpImports_eq h.program, hchanged, hchecked.freshness]
  split
  · exact ⟨hchecked.setFreshness id .dependencyUpdated, rfl⟩
  · exact ⟨hchecked, rfl⟩

/-- One piece of work has the same outcome. A unit that waits to be read has the same body in both
runs. -/
theorem handle (h : r.Alike s) (w : World) (work : Work)
    (hunit : ∀ id, work = .read id → s.program.units.get? id = r.program.units.get? id) :
    Agree (r.handle w work) (s.handle w work) := by
  have hbegun (id : Nat) : Alike
      { r with run := { r.run with handled := r.run.handled.insert id } }
      { s with run := { r.run with handled := r.run.handled.insert id } } := ⟨rfl, h.program⟩
  cases work with
  | read id =>
    simp only [Resolution.handle, h.run]
    split
    · exact ⟨h, rfl⟩
    · exact (hbegun id).readBody w id (hunit id rfl)
  | recheck id =>
    simp only [Resolution.handle, h.run]
    split
    · exact ⟨h, rfl⟩
    · exact ⟨((hbegun id).recheck w id).1, rfl⟩

theorem drain (h : r.Alike s) (w : World) (fuel : Nat) :
    Agree (r.drain w fuel) (s.drain w fuel) := by
  induction fuel generalizing r s with
  | zero =>
    simp only [Resolution.drain, h.run]
    split
    · exact ⟨h, rfl⟩
    · exact ⟨h, rfl⟩
  | succ fuel ih =>
    simp only [Resolution.drain, h.run]
    cases hwaiting : r.run.waiting with
    | nil => exact ⟨h, rfl⟩
    | cons work later =>
      have hlater : Alike { r with run := { r.run with waiting := later } }
          { s with run := { r.run with waiting := later } } :=
        ⟨rfl, h.program.mono fun a ha => by rw [hwaiting]; exact List.mem_cons_of_mem _ ha⟩
      have hagree := hlater.handle w work fun id heq => h.program.unit id (by simp [hwaiting, heq])
      dsimp only
      generalize Resolution.handle w { r with run := { r.run with waiting := later } } work = x
        at hagree ⊢
      generalize Resolution.handle w { s with run := { r.run with waiting := later } } work = y
        at hagree ⊢
      obtain ⟨r₁, _⟩ := x
      obtain ⟨s₁, fault⟩ := y
      obtain ⟨halike, rfl⟩ := hagree
      cases fault with
      | some fault => exact ⟨halike, rfl⟩
      | none => exact ih halike

theorem analyze (h : r.Alike s) (w : World) (entry : String) (definition : Option Definition) :
    Agree (r.analyze w entry definition) (s.analyze w entry definition) := by
  simp only [Resolution.analyze]
  split
  · exact ⟨h, rfl⟩
  · next d _ =>
    split
    · exact ⟨h, rfl⟩
    · obtain ⟨hmet, hroot⟩ := h.unitFor entry d
      have hagree := hmet.drain w workLimit
      simp only [hroot]
      generalize (r.unitFor entry d).1.drain w workLimit = x at hagree ⊢
      generalize (s.unitFor entry d).1.drain w workLimit = y at hagree ⊢
      obtain ⟨r₁, _⟩ := x
      obtain ⟨s₁, fault⟩ := y
      obtain ⟨halike, rfl⟩ := hagree
      cases fault with
      | none => exact ⟨halike, rfl⟩
      | some fault =>
        have hstopped : r₁.Alike s₁ := halike
        refine ⟨⟨by simp only [hstopped.run], hstopped.program.mono fun a ha => ?_⟩, rfl⟩
        exact absurd ha List.not_mem_nil

end Alike

end Resolution

end ScriptBuild
