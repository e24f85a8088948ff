import Mathlib.Logic.Relation
import ScriptBuild.Proofs.Program.Imports
import ScriptBuild.Resolution.Basic

namespace ScriptBuild

namespace Program

/-- A change that looking a name up may make. -/
inductive Grow (p : Program) : Program → Prop where
  /-- A definition that denotes nothing yet becomes a unit. The shared tables have names of their
  own. -/
  | insert (name : String) (kind : UnitKind) (timestamp : Nat) (body : Body)
      (hnew : p.units.findMatch name kind timestamp = none)
      (htable : kind.isSharedTable → name = Resolution.tableName kind) :
      Grow p (p.insertUnit name kind timestamp (some body))
  /-- A shared table gets a slot. -/
  | slot (id : Nat) (u : BuildUnit) (slot : String) (hget : p.units.get? id = some u)
      (htable : u.kind.isSharedTable) :
      Grow p { p with units := p.units.modify id (·.addSlot slot) }
  /-- A file is found to be newer. -/
  | stamp (id : Nat) (u : BuildUnit) (timestamp : Nat) (body : Body)
      (hget : p.units.get? id = some u) (hfile : u.kind.isFile) (hnewer : u.timestamp < timestamp) :
      Grow p { p with units := p.units.modify id fun u =>
        { u with timestamp := timestamp, body := some body } }
  /-- A unit learns where its body is. -/
  | attach (id : Nat) (body : Body) :
      Grow p { p with units := p.units.modify id fun u => { u with body := u.body.or (some body) } }
  /-- A unit becomes a node. -/
  | node (id : Nat) (hlt : id < p.units.size) : Grow p { p with graph := p.graph.addNode id }

/-- A target is a unit that holds global variables. -/
def IsGlobal (p : Program) (t : Target) : Prop :=
  ∃ other v, t = .unit other ∧ p.units.get? other = some v ∧ v.kind = .globals

/-- A name may be recorded as imported by a unit: neither is the unit a shared table, nor is its
target one that lacks the name, and unless the target holds the global variables the unit does not
export the name itself. -/
structure MayTake (p : Program) (id : Nat) (t : Target) (n : String) : Prop where
  taker : ∃ u, p.units.get? id = some u ∧ u.kind.isSharedTable = false
  target : ∀ other, t = .unit other → other < p.units.size
  listed : ∀ other v, t = .unit other → p.units.get? other = some v → v.kind.isSharedTable →
    v.hasSlot n
  foreign : ∀ u, p.units.get? id = some u → u.hasSlot n → t ≠ .unit id → p.IsGlobal t

/-- A change that handling a unit may make. -/
inductive Change (id : Nat) (p : Program) : Program → Prop where
  | grow {q : Program} (hgrow : Grow p q) : Change id p q
  | clear (u : BuildUnit) (hget : p.units.get? id = some u) (hbody : u.kind.hasBody) :
      Change id p (p.clearBody id)
  /-- The slots of a unit are found while it imports nothing. -/
  | exports (u : BuildUnit) (slots : List String) (hget : p.units.get? id = some u)
      (hbody : u.kind.hasBody) (himports : p.importsOf id = .empty) :
      Change id p { p with units := p.units.modify id fun u => slots.foldl BuildUnit.addSlot u }
  | record (t : Target) (n : String) (hmay : p.MayTake id t n) : Change id p (p.recordImport id t n)
  | remove (t : Target) (n : String) : Change id p (p.removeImport id t n)

/-- What becomes of a program while names are looked up. -/
abbrev Grows (p q : Program) : Prop := Relation.ReflTransGen Grow p q

/-- What becomes of a program while a unit is handled. -/
abbrev Changes (id : Nat) (p q : Program) : Prop := Relation.ReflTransGen (Change id) p q

variable {p q r : Program} {id other a b : Nat} {t s : Target} {n m : String} {u v : BuildUnit}
  {only : Nat → Prop}

/-- Looking names up is part of what handling a unit may do. -/
theorem Grows.changes (h : p.Grows q) : p.Changes id q :=
  Relation.ReflTransGen.mono (fun _ _ => Change.grow) _ _ h

/-- One program comes from another by changing what is known about some units only: the units grow,
and the slots, imports and dependencies of all others stay, but for the slots of shared tables. -/
structure Touches (only : Nat → Prop) (p q : Program) : Prop where
  units : p.units.Grows q.units
  slots : ∀ id u v, ¬ only id → p.units.get? id = some u → q.units.get? id = some v →
    u.kind.isSharedTable = false → v.slots = u.slots
  imports : ∀ id, ¬ only id → q.importsOf id = p.importsOf id
  edge : ∀ a b, ¬ only a → (q.graph.Edge a b ↔ p.graph.Edge a b)
  node : ∀ a, p.graph.hasNode a → q.graph.hasNode a

theorem Touches.refl (only : Nat → Prop) (p : Program) : p.Touches only p where
  units := .refl _
  slots _ _ _ _ hu hv _ := by rw [Option.some.inj (hu.symm.trans hv)]
  imports _ _ := rfl
  edge _ _ _ := .rfl
  node _ := id

theorem Touches.trans (hpq : p.Touches only q) (hqr : q.Touches only r) : p.Touches only r where
  units := hpq.units.trans hqr.units
  slots id u w hid hu hw htable := by
    obtain ⟨v, hv, huv⟩ := hpq.units id u hu
    rw [hqr.slots id v w hid hv hw (by rw [huv.kind, htable]), hpq.slots id u v hid hu hv htable]
  imports id hid := (hqr.imports id hid).trans (hpq.imports id hid)
  edge a b ha := (hqr.edge a b ha).trans (hpq.edge a b ha)
  node a h := hqr.node a (hpq.node a h)

theorem Touches.mono {only' : Nat → Prop} (htouches : p.Touches only q)
    (hsub : ∀ id, only id → only' id) : p.Touches only' q where
  units := htouches.units
  slots id u v hid := htouches.slots id u v fun h => hid (hsub id h)
  imports id hid := htouches.imports id fun h => hid (hsub id h)
  edge a b ha := htouches.edge a b fun h => ha (hsub a h)
  node := htouches.node

/-- A change of one unit that keeps what it has to keep. -/
theorem touches_modify {f : BuildUnit → BuildUnit}
    (hbecomes : ∀ u, p.units.get? id = some u → u.Becomes (f u))
    (hslots : ∀ u, p.units.get? id = some u → ¬ only id → u.kind.isSharedTable = false →
      (f u).slots = u.slots) :
    p.Touches only { p with units := p.units.modify id f } where
  units := Catalog.grows_modify hbecomes
  slots other u v hother hu hv htable := by
    change (p.units.modify id f).get? other = some v at hv
    by_cases heq : id = other
    · subst heq
      have hthis := Catalog.get?_modify_of_get? hu (hbecomes u hu).name
      obtain rfl := Option.some.inj (hthis.symm.trans hv)
      exact hslots u hu hother htable
    · rw [Catalog.get?_modify_of_ne heq] at hv
      rw [Option.some.inj (hu.symm.trans hv)]
  imports _ _ := rfl
  edge _ _ _ := .rfl
  node _ h := h

/-- Looking a name up touches no unit but for its growth. -/
theorem Grow.touches (hgrow : p.Grow q) : p.Touches (fun _ => False) q := by
  cases hgrow with
  | insert name kind timestamp body hnew =>
    refine ⟨Catalog.grows_insert, fun id u v _ hu hv _ => ?_, fun _ _ => rfl, fun a b _ => ?_,
      fun a h => ?_⟩
    · rw [insertUnit, Catalog.get?_insert, if_neg (Nat.ne_of_lt (Catalog.lt_size_of_get? hu))] at hv
      rw [Option.some.inj (hu.symm.trans hv)]
    · exact Digraph.edge_addNode
    · exact Digraph.hasNode_addNode.2 (.inr h)
  | slot id u slot hget htable =>
    refine touches_modify (fun _ _ => BuildUnit.becomes_addSlot) fun v hv _ hfalse => ?_
    rw [Option.some.inj (hget.symm.trans hv), hfalse] at htable
    cases htable
  | stamp id u timestamp body hget hfile hnewer =>
    refine touches_modify (fun v hv => ?_) fun _ _ _ _ => rfl
    obtain rfl := Option.some.inj (hget.symm.trans hv)
    refine ⟨rfl, rfl, rfl, ?_, Nat.le_of_lt hnewer, fun _ => rfl, fun _ _ h => h⟩
    simp [BuildUnit.identity, UnitKind.identity, UnitKind.isEphemeral_of_isFile hfile]
  | attach id body =>
    refine touches_modify (fun v _ => ?_) fun _ _ _ _ => rfl
    refine ⟨rfl, rfl, rfl, rfl, Nat.le_refl _, fun h => ?_, fun _ _ h => h⟩
    rw [Option.isSome_or, h, Bool.true_or]
  | node id hlt =>
    refine ⟨.refl _, fun _ _ _ _ hu hv _ => ?_, fun _ _ => rfl, fun a b _ => ?_, fun a h => ?_⟩
    · rw [Option.some.inj (hu.symm.trans hv)]
    · exact Digraph.edge_addNode
    · exact Digraph.hasNode_addNode.2 (.inr h)

theorem Grows.touches (hgrows : p.Grows q) : p.Touches (fun _ => False) q := by
  induction hgrows with
  | refl => exact .refl _ _
  | tail _ hgrow ih => exact ih.trans hgrow.touches

theorem units_recordImport : (p.recordImport id t n).units = p.units := by
  rw [recordImport]
  split
  · rfl
  · cases t <;> rfl

theorem units_removeImport : (p.removeImport id t n).units = p.units := by
  rw [removeImport]
  split
  · rfl
  · cases t with
    | unit target => dsimp only; split <;> rfl
    | unresolved => rfl

/-- A change that leaves the units as they are touches those whose imports or dependencies
change. -/
theorem touches_of_units_eq (hunits : q.units = p.units)
    (himports : ∀ id, ¬ only id → q.importsOf id = p.importsOf id)
    (hedge : ∀ a b, ¬ only a → (q.graph.Edge a b ↔ p.graph.Edge a b))
    (hnode : ∀ a, p.graph.hasNode a → q.graph.hasNode a) : p.Touches only q where
  units := by rw [hunits]; exact .refl _
  slots id u v _ hu hv _ := by
    rw [hunits] at hv
    rw [Option.some.inj (hu.symm.trans hv)]
  imports := himports
  edge := hedge
  node := hnode

/-- Forgetting an import of a unit keeps the dependencies of all others. -/
theorem edge_removeImport_of_ne (hne : a ≠ id) :
    (p.removeImport id t n).graph.Edge a b ↔ p.graph.Edge a b := by
  rw [removeImport]
  split
  · rfl
  · cases t with
    | unit target =>
      dsimp only
      split
      · rw [Digraph.edge_removeEdge, graph_setImports]; grind
      · rw [graph_setImports]
    | unresolved => rfl

/-- A single change that handling a unit makes touches that unit only. -/
theorem Change.touches (hchange : p.Change id q) : p.Touches (· = id) q := by
  cases hchange with
  | grow hgrow => exact hgrow.touches.mono fun _ => False.elim
  | clear u hget hbody =>
    have htouches : p.Touches (· = id)
        { p with units := p.units.modify id fun u => { u with slots := [] } } := by
      refine touches_modify (fun v hv => ?_) fun _ _ hid => absurd rfl hid
      obtain rfl := Option.some.inj (hget.symm.trans hv)
      refine ⟨rfl, rfl, rfl, rfl, Nat.le_refl _, fun h => h, fun htable => ?_⟩
      rw [UnitKind.isSharedTable_of_hasBody hbody] at htable
      cases htable
    refine htouches.trans (touches_of_units_eq rfl (fun other hother => ?_) (fun a b ha => ?_)
      fun a h => Digraph.hasNode_removeOut.2 h)
    · rw [importsOf_clearBody, if_neg hother]; rfl
    · exact Digraph.edge_removeOut.trans (and_iff_left ha)
  | exports u slots hget hbody himports =>
    exact touches_modify (fun v _ => BuildUnit.becomes_foldl_addSlot slots v)
      fun _ _ hid => absurd rfl hid
  | record t n hmay =>
    refine touches_of_units_eq units_recordImport (fun other hother => ?_) (fun a b ha => ?_)
      fun a h => hasNode_recordImport.2 (.inl h)
    · rw [importsOf_recordImport, if_neg fun h => hother h.1]
    · rw [edge_recordImport, or_iff_left fun h => ha h.1]
  | remove t n =>
    refine touches_of_units_eq units_removeImport (fun other hother => ?_)
      (fun a b ha => edge_removeImport_of_ne ha) fun a h => hasNode_removeImport.2 h
    rw [importsOf_removeImport, if_neg fun h => hother h.1]

/-- So does all that handling the unit makes. -/
theorem Changes.touches (hchanges : p.Changes id q) : p.Touches (· = id) q := by
  induction hchanges with
  | refl => exact .refl _ _
  | tail _ hchange ih => exact ih.trans hchange.touches

end Program

end ScriptBuild
