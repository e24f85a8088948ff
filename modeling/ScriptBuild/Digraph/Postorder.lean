import ScriptBuild.Digraph.Basic

namespace ScriptBuild

theorem NodeSet.size_erase_lt {s : NodeSet} {n : Nat} (hn : n ∈ s) : (s.erase n).size < s.size := by
  have hpositive : s.size ≠ 0 := by
    rw [ne_eq, ← Std.ExtTreeSet.eq_empty_iff_size_eq_zero]
    rintro rfl
    simp at hn
  grind [Std.ExtTreeSet.size_erase]

namespace Digraph

/-- What a traversal still has to do with a node: look at it, or list it once its successors are
    done. -/
inductive Visit where
  | enter (node : Nat)
  | leave (node : Nat)
deriving DecidableEq, Repr

/-- The set of all nodes. -/
def nodeSet (g : Digraph) : NodeSet := Std.ExtTreeSet.ofList g.nodes

/-- Works off a stack of visits and lists the nodes as they are left. `unseen` holds the nodes that
    have not been entered yet; a node is entered once. -/
def postorderFrom (g : Digraph) (unseen : NodeSet) : List Visit → List Nat
  | [] => []
  | .leave n :: todo => n :: postorderFrom g unseen todo
  | .enter n :: todo =>
    if n ∈ unseen then
      let later := (g.successors n).toList.reverse.map Visit.enter
      postorderFrom g (unseen.erase n) (later ++ .leave n :: todo)
    else postorderFrom g unseen todo
termination_by todo => (unseen.size, todo.length)
decreasing_by
  · exact Prod.Lex.right _ (by simp)
  · exact Prod.Lex.left _ _ (NodeSet.size_erase_lt ‹_›)
  · exact Prod.Lex.right _ (by simp)

/-- Works off a stack of nodes. A node on top that has not been seen stays there, and those of its
    successors that have not been seen either are put on top of it, the largest one uppermost. A node
    that has been seen is taken off, and is listed the first time. -/
def traverse (g : Digraph) (unseen done : NodeSet) : List Nat → List Nat
  | [] => []
  | n :: below =>
    if n ∈ unseen then
      traverse g (unseen.erase n) done (g.stacked n (· ∈ unseen.erase n) ++ n :: below)
    else if n ∈ done then traverse g unseen done below
    else n :: traverse g unseen (done.insert n) below
termination_by stack => (unseen.size, stack.length)
decreasing_by
  · exact Prod.Lex.left _ _ (NodeSet.size_erase_lt ‹_›)
  · exact Prod.Lex.right _ (by simp)
  · exact Prod.Lex.right _ (by simp)

/-- The nodes reached from `start`, empty if `start` is no node. Every node comes after those of its
    successors that do not lead back to it; of several successors the largest is visited first. -/
def postorder (g : Digraph) (start : Nat) : List Nat :=
  if g.hasNode start then g.traverse g.nodeSet ∅ [start] else []

/-- The nodes reached from `start` without leaving a set of nodes. -/
def reachWithin (g : Digraph) (within : NodeSet) (start : Nat) : NodeSet :=
  Std.ExtTreeSet.ofList (g.postorderFrom within [.enter start])

/-- All nodes, each after those of its successors that do not lead back to it. -/
def finishingOrder (g : Digraph) : List Nat := g.postorderFrom g.nodeSet (g.nodes.map .enter)

end Digraph

end ScriptBuild
