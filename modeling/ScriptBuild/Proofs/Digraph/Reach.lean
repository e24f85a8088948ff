import Mathlib.Logic.Relation
import Mathlib.Tactic.Common
import ScriptBuild.Digraph.Component

namespace ScriptBuild.Digraph

/-- An edge leads from one node to another. -/
def Edge (g : Digraph) (u v : Nat) : Prop := v ∈ g.successors u

/-- A path of any length leads from one node to another. -/
def Reaches (g : Digraph) : Nat → Nat → Prop := Relation.ReflTransGen g.Edge

/-- Paths lead from either of two nodes to the other. -/
def StronglyConnected (g : Digraph) (u v : Nat) : Prop := g.Reaches u v ∧ g.Reaches v u

theorem StronglyConnected.refl (g : Digraph) (u : Nat) : g.StronglyConnected u u :=
  ⟨.refl, .refl⟩

theorem StronglyConnected.symm {g : Digraph} {u v : Nat} (h : g.StronglyConnected u v) :
    g.StronglyConnected v u :=
  ⟨h.2, h.1⟩

theorem StronglyConnected.trans {g : Digraph} {u v w : Nat} (huv : g.StronglyConnected u v)
    (hvw : g.StronglyConnected v w) : g.StronglyConnected u w :=
  ⟨huv.1.trans hvw.1, hvw.2.trans huv.2⟩

theorem hasNode_iff {g : Digraph} {u : Nat} : g.hasNode u ↔ u ∈ g.table := by
  simp [hasNode]

theorem mem_nodes {g : Digraph} {u : Nat} : u ∈ g.nodes ↔ g.hasNode u := by
  simp [nodes, hasNode]

theorem Edge.hasNode_left {g : Digraph} {u v : Nat} (h : g.Edge u v) : g.hasNode u := by
  by_contra hnot
  rw [hasNode_iff] at hnot
  simp [Edge, successors, Std.ExtTreeMap.getD_eq_fallback hnot] at h

/-- The end of an edge is a node. -/
theorem Edge.hasNode_right {g : Digraph} {u v : Nat} (h : g.Edge u v) : g.hasNode v :=
  hasNode_iff.2 (g.closed u v h)

theorem Reaches.hasNode {g : Digraph} {u v : Nat} (h : g.Reaches u v) (hu : g.hasNode u) :
    g.hasNode v := by
  cases Relation.ReflTransGen.cases_tail_iff _ _ _ |>.1 h with
  | inl heq => exact heq ▸ hu
  | inr htail =>
    obtain ⟨w, _, hedge⟩ := htail
    exact hedge.hasNode_right

theorem not_edge_empty {u v : Nat} : ¬ (∅ : Digraph).Edge u v := by
  intro h
  change v ∈ (∅ : Std.ExtTreeMap Nat NodeSet).getD u ∅ at h
  simp at h

theorem not_hasNode_empty {u : Nat} : ¬ (∅ : Digraph).hasNode u := by
  intro h
  change (∅ : Std.ExtTreeMap Nat NodeSet).contains u = true at h
  simp at h

theorem hasNode_addNode {g : Digraph} {n u : Nat} :
    (g.addNode n).hasNode u ↔ u = n ∨ g.hasNode u := by
  simp only [hasNode_iff, addNode]
  grind

theorem edge_addNode {g : Digraph} {n u v : Nat} : (g.addNode n).Edge u v ↔ g.Edge u v := by
  have hnode := @Edge.hasNode_left g u v
  simp only [Edge, successors, addNode, hasNode_iff] at *
  grind

theorem hasNode_addEdge {g : Digraph} {a b u : Nat} :
    (g.addEdge a b).hasNode u ↔ u = a ∨ u = b ∨ g.hasNode u := by
  simp only [hasNode_iff, addEdge]
  grind

theorem edge_addEdge {g : Digraph} {a b u v : Nat} :
    (g.addEdge a b).Edge u v ↔ u = a ∧ v = b ∨ g.Edge u v := by
  have hnode := @Edge.hasNode_left g u v
  simp only [Edge, successors, addEdge, hasNode_iff] at *
  grind

theorem hasNode_removeEdge {g : Digraph} {a b u : Nat} :
    (g.removeEdge a b).hasNode u ↔ g.hasNode u := by
  simp [hasNode_iff, removeEdge, Std.ExtTreeMap.mem_modify]

theorem edge_removeEdge {g : Digraph} {a b u v : Nat} :
    (g.removeEdge a b).Edge u v ↔ g.Edge u v ∧ ¬ (u = a ∧ v = b) := by
  simp only [Edge, successors, removeEdge, Std.ExtTreeMap.getD_eq_getD_getElem?]
  cases ha : g.table[a]? <;> grind

/-- Removing the edges that leave a node keeps all nodes. -/
theorem hasNode_removeOut {g : Digraph} {a u : Nat} :
    (g.removeOut a).hasNode u ↔ g.hasNode u := by
  simp [hasNode_iff, removeOut, Std.ExtTreeMap.mem_modify]

/-- Removing the edges that leave a node keeps those of all other nodes. -/
theorem edge_removeOut {g : Digraph} {a u v : Nat} :
    (g.removeOut a).Edge u v ↔ g.Edge u v ∧ u ≠ a := by
  simp only [Edge, successors, removeOut, Std.ExtTreeMap.getD_eq_getD_getElem?]
  cases ha : g.table[a]? <;> grind

/-- Adding the edges of a node adds their ends, and the node if there is an edge. -/
theorem hasNode_addEdges {u w : Nat} (targets : List Nat) (g : Digraph) :
    (targets.foldl (fun h v => h.addEdge u v) g).hasNode w ↔
      g.hasNode w ∨ targets ≠ [] ∧ w = u ∨ w ∈ targets := by
  induction targets generalizing g with
  | nil => simp
  | cons v rest ih =>
    simp only [List.foldl_cons, ih, hasNode_addEdge, List.mem_cons]
    grind

/-- Adding the edges of a node adds just these. -/
theorem edge_addEdges {u w x : Nat} (targets : List Nat) (g : Digraph) :
    (targets.foldl (fun h v => h.addEdge u v) g).Edge w x ↔
      g.Edge w x ∨ w = u ∧ x ∈ targets := by
  induction targets generalizing g with
  | nil => simp
  | cons v rest ih =>
    simp only [List.foldl_cons, ih, edge_addEdge, List.mem_cons]
    grind

/-- The entries of the table are the nodes with their successors. -/
theorem mem_table_toList {g : Digraph} {u : Nat} {targets : NodeSet} :
    (u, targets) ∈ g.table.toList ↔ g.hasNode u ∧ targets = g.successors u := by
  rw [Std.ExtTreeMap.mem_toList_iff_getElem?_eq_some, hasNode_iff, successors,
    Std.ExtTreeMap.getD_eq_getD_getElem?, Std.ExtTreeMap.mem_iff_isSome_getElem?]
  cases g.table[u]? <;> simp [eq_comm]

end ScriptBuild.Digraph
