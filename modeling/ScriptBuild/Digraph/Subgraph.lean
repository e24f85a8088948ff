import ScriptBuild.Digraph.Basic

namespace ScriptBuild

namespace Digraph

/-- Some nodes of a graph with their successors. -/
abbrev Part := Std.ExtTreeMap Nat NodeSet

/-- The nodes that a part lacks. -/
def missing (g : Digraph) (part : Part) : List Nat := g.nodes.filter (· ∉ part)

theorem missing_insert (g : Digraph) (part : Part) (n : Nat) (targets : NodeSet) :
    g.missing (part.insert n targets) = (g.missing part).filter (· ≠ n) := by
  rw [missing, missing, List.filter_filter]
  refine List.filter_congr fun x _ => ?_
  simp only [Std.ExtTreeMap.mem_insert, Std.LawfulEqCmp.compare_eq_iff_eq]
  grind

/-- Works off a stack of nodes, on which a node may lie several times. A node that the part lacks is
    added with all its successors, and those of them that the part lacks as well are put on the
    stack. A node that the part has already is passed over. -/
def gather (g : Digraph) (part : Part) : List Nat → Part
  | [] => part
  | n :: todo =>
    if n ∈ part then gather g part todo
    else gather g (part.insert n (g.successors n)) (g.stacked n (· ∉ part) ++ todo)
termination_by todo => ((g.missing part).length, todo.length)
decreasing_by
  · exact Prod.Lex.right _ (by simp)
  · rw [missing_insert]
    by_cases hnode : n ∈ g.missing part
    · exact Prod.Lex.left _ _ (List.length_filter_lt_length_iff_exists.2 ⟨n, hnode, by simp⟩)
    · -- What is no node has no successors: the stack shrinks, and no less is missing than before.
      have hsame : (g.missing part).filter (· ≠ n) = g.missing part := by
        refine List.filter_eq_self.2 fun x hx => ?_
        grind
      have habsent : n ∉ g.table := by
        simpa [missing, nodes, ‹n ∉ part›] using hnode
      have hnone : g.stacked n (· ∉ part) = [] := by
        simp [stacked, successors, Std.ExtTreeMap.getD_eq_fallback habsent]
      rw [hsame, hnone]
      exact Prod.Lex.right _ (by simp)

/-- A part is closed up to the nodes on the stack, so it is closed once the stack is empty. -/
theorem closed_gather (g : Digraph) (part : Part) (todo : List Nat)
    (hpart : ∀ u v, v ∈ part.getD u ∅ → v ∈ part ∨ v ∈ todo) (u v : Nat)
    (hmem : v ∈ (g.gather part todo).getD u ∅) : v ∈ g.gather part todo := by
  fun_induction gather g part todo with
  | case1 part => simpa using hpart u v hmem
  | case2 part n todo hn ih =>
    refine ih (fun a b hb => ?_) hmem
    have := hpart a b hb
    grind
  | case3 part n todo hn ih =>
    refine ih (fun a b hb => ?_) hmem
    have hold := hpart a b
    simp only [Std.ExtTreeMap.getD_insert, Std.ExtTreeMap.mem_insert,
      Std.LawfulEqCmp.compare_eq_iff_eq, List.mem_append, List.mem_cons, mem_stacked] at *
    grind

/-- The part of a graph that a node reaches; empty if `root` is no node. -/
def subgraph (g : Digraph) (root : Nat) : Digraph :=
  if g.hasNode root then ⟨g.gather ∅ [root], g.closed_gather ∅ [root] (by simp)⟩ else ∅

end Digraph

end ScriptBuild
