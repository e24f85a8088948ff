import Std.Data.ExtTreeMap
import Std.Data.ExtTreeSet

namespace ScriptBuild

/-- A finite set of nodes. -/
abbrev NodeSet := Std.ExtTreeSet Nat

/-- A directed graph on natural numbers: the successors of every node. Each successor is a node
    itself, and a node without edges is known as well. Nodes and successors are listed in ascending
    order. -/
structure Digraph where
  table : Std.ExtTreeMap Nat NodeSet
  closed : ∀ u v, v ∈ table.getD u ∅ → v ∈ table

namespace Digraph

variable {g : Digraph} {u v a b : Nat}

/-- The successors of a node; none if the node is not in the graph. -/
def successors (g : Digraph) (u : Nat) : NodeSet := g.table.getD u ∅

/-- The successors of a node that pass a test, the largest one first: they are put on a stack in
    ascending order, and its top is the head of the list. -/
def stacked (g : Digraph) (u : Nat) (test : Nat → Bool) : List Nat :=
  ((g.successors u).toList.filter test).reverse

theorem mem_stacked {g : Digraph} {u v : Nat} {test : Nat → Bool} :
    v ∈ g.stacked u test ↔ v ∈ g.successors u ∧ test v := by
  simp [stacked]

/-- Whether a graph has a node. -/
def hasNode (g : Digraph) (u : Nat) : Bool := g.table.contains u

/-- Whether a graph has an edge. -/
def hasEdge (g : Digraph) (u v : Nat) : Bool := (g.successors u).contains v

/-- The nodes in ascending order. -/
def nodes (g : Digraph) : List Nat := g.table.keys

/-- The nodes with their successors, all in ascending order. -/
def toList (g : Digraph) : List (Nat × List Nat) :=
  g.table.toList.map fun (u, targets) => (u, targets.toList)

/-- The number of nodes. -/
def size (g : Digraph) : Nat := g.table.size

/-- The number of edges. -/
def edgeCount (g : Digraph) : Nat :=
  g.table.toList.foldr (fun entry count => entry.2.size + count) 0

@[ext] theorem ext {g h : Digraph} (eq : g.table = h.table) : g = h := by
  cases g; cases h; cases eq; rfl

instance : DecidableEq Digraph := fun _ _ => decidable_of_iff _ ⟨ext, congrArg table⟩

/-- The graph without nodes. -/
def empty : Digraph := ⟨∅, by simp⟩

instance : EmptyCollection Digraph := ⟨empty⟩
instance : Inhabited Digraph := ⟨empty⟩

/-- Adds a node without edges; a node that is there keeps its edges. -/
def addNode (g : Digraph) (n : Nat) : Digraph where
  table := g.table.insertIfNew n ∅
  closed u v h := by
    have := g.closed u v
    grind

/-- Adds an edge and both its ends. -/
def addEdge (g : Digraph) (a b : Nat) : Digraph where
  table := (g.table.insertIfNew b ∅).insert a ((g.successors a).insert b)
  closed u v h := by
    have := g.closed u v
    have := g.closed a v
    grind [successors]

/-- Removes an edge and keeps both its ends. -/
def removeEdge (g : Digraph) (a b : Nat) : Digraph where
  table := g.table.modify a (·.erase b)
  closed u v h := by
    rw [Std.ExtTreeMap.mem_modify]
    refine g.closed u v ?_
    simp only [Std.ExtTreeMap.getD_eq_getD_getElem?] at h ⊢
    cases ha : g.table[a]? <;> grind

/-- Removes all edges that leave a node. -/
def removeOut (g : Digraph) (a : Nat) : Digraph where
  table := g.table.modify a fun _ => ∅
  closed u v h := by
    rw [Std.ExtTreeMap.mem_modify]
    refine g.closed u v ?_
    simp only [Std.ExtTreeMap.getD_eq_getD_getElem?] at h ⊢
    cases ha : g.table[a]? <;> grind

/-- The graph with the given edges. -/
def ofEdges (edges : List (Nat × Nat)) : Digraph :=
  edges.foldl (fun g (a, b) => g.addEdge a b) ∅

/-- Nodes that no edge enters, in ascending order. -/
def sources (g : Digraph) : List Nat :=
  let entered := g.table.toList.foldl (fun seen (_, targets) => seen ∪ targets) (∅ : NodeSet)
  g.nodes.filter fun u => !entered.contains u

end Digraph

end ScriptBuild
