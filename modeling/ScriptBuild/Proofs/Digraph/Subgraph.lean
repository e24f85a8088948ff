import Std.Data.TreeMap.Iterator
import ScriptBuild.Digraph.Subgraph
import ScriptBuild.Proofs.Digraph.Reach

namespace ScriptBuild.Digraph

/-- Graphs with the same nodes are equal if each node has the same successors in both. -/
theorem eq_of_successors {g h : Digraph} (hnodes : ∀ u, g.hasNode u ↔ h.hasNode u)
    (hsuccessors : ∀ u, g.hasNode u → g.successors u = h.successors u) : g = h := by
  refine Digraph.ext (Std.ExtTreeMap.ext_getElem? fun u => ?_)
  have hnode := hnodes u
  have hsame := hsuccessors u
  simp only [hasNode_iff, successors] at hnode hsame
  by_cases hu : u ∈ g.table
  · have hu' := hnode.1 hu
    rw [Std.ExtTreeMap.getElem?_eq_some_getD hu, Std.ExtTreeMap.getElem?_eq_some_getD hu', hsame hu]
  · have hu' := mt hnode.2 hu
    rw [Std.ExtTreeMap.getElem?_eq_none hu, Std.ExtTreeMap.getElem?_eq_none hu']

/-- What holds of a part and the nodes on the stack while the subgraph of `root` is gathered. -/
structure Gathering (g : Digraph) (root : Nat) (part : Part) (todo : List Nat) : Prop where
  /-- A node of the part has all its successors. -/
  whole : ∀ u ∈ part, part.getD u ∅ = g.successors u
  /-- Nothing but what `root` reaches is taken up. -/
  reached : ∀ u, u ∈ part ∨ u ∈ todo → g.Reaches root u
  /-- The root is not lost. -/
  root_met : root ∈ part ∨ root ∈ todo

namespace Gathering

variable {g : Digraph} {root n : Nat} {part : Part} {todo : List Nat}

theorem start (g : Digraph) (root : Nat) : g.Gathering root ∅ [root] where
  whole := by simp
  reached u hu := by
    obtain rfl : u = root := by simpa using hu
    exact .refl
  root_met := by simp

/-- A node that the part has already can be taken off the stack. -/
theorem skip (h : g.Gathering root part (n :: todo)) (hn : n ∈ part) :
    g.Gathering root part todo where
  whole := h.whole
  reached u hu := h.reached u (hu.imp_right (List.mem_cons_of_mem n))
  root_met := by
    have := h.root_met
    grind

/-- A node that the part lacks is added with its successors, and those that are missing wait on the
stack. -/
theorem add (h : g.Gathering root part (n :: todo)) (hn : n ∉ part) :
    g.Gathering root (part.insert n (g.successors n)) (g.stacked n (· ∉ part) ++ todo) where
  whole u hu := by
    have hold := h.whole u
    grind
  reached u hu := by
    have htop : g.Reaches root n := h.reached n (.inr List.mem_cons_self)
    have hold := h.reached u
    rw [Std.ExtTreeMap.mem_insert, Std.LawfulEqCmp.compare_eq_iff_eq, List.mem_append,
      mem_stacked] at hu
    rcases hu with (rfl | hpart) | ⟨hsuccessor, _⟩ | htodo
    · exact htop
    · exact hold (.inl hpart)
    · exact htop.tail hsuccessor
    · exact hold (.inr (List.mem_cons_of_mem n htodo))
  root_met := by
    have hold := h.root_met
    grind

/-- What holds before the stack is worked off holds with nothing left on it. -/
theorem run (h : g.Gathering root part todo) : g.Gathering root (g.gather part todo) [] := by
  fun_induction gather g part todo with
  | case1 part => exact h
  | case2 part n todo hn ih => exact ih (h.skip hn)
  | case3 part n todo hn ih => exact ih (h.add hn)

end Gathering

variable {g : Digraph} {root u v : Nat}

/-- The subgraph of a node is what is gathered from it. -/
theorem table_subgraph (hroot : g.hasNode root) :
    (g.subgraph root).table = g.gather ∅ [root] := by
  rw [subgraph, if_pos hroot]

/-- When nothing is left on the stack, the part is closed. -/
theorem gathering_subgraph (hroot : g.hasNode root) :
    g.Gathering root (g.subgraph root).table [] := by
  rw [table_subgraph hroot]
  exact (Gathering.start g root).run

theorem subgraph_of_not_hasNode (hroot : ¬ g.hasNode root) : g.subgraph root = ∅ := by
  rw [subgraph, if_neg hroot]

/-- Only nodes have subgraphs that are not empty. -/
theorem hasNode_of_hasNode_subgraph (hu : (g.subgraph root).hasNode u) : g.hasNode root := by
  by_contra hroot
  rw [subgraph_of_not_hasNode hroot] at hu
  exact not_hasNode_empty hu

/-- A node keeps all its successors in the subgraph. -/
theorem successors_subgraph (hu : (g.subgraph root).hasNode u) :
    (g.subgraph root).successors u = g.successors u :=
  (gathering_subgraph (hasNode_of_hasNode_subgraph hu)).whole u (hasNode_iff.1 hu)

/-- The subgraph of a node has the nodes that it reaches. -/
theorem hasNode_subgraph : (g.subgraph root).hasNode u ↔ g.hasNode root ∧ g.Reaches root u := by
  constructor
  · intro hu
    have hroot := hasNode_of_hasNode_subgraph hu
    exact ⟨hroot, (gathering_subgraph hroot).reached u (.inl (hasNode_iff.1 hu))⟩
  · rintro ⟨hroot, hpath⟩
    induction hpath with
    | refl =>
      have hmet := (gathering_subgraph hroot).root_met
      exact hasNode_iff.2 (by simpa using hmet)
    | @tail u v _ hedge hu =>
      have hkept : (g.subgraph root).Edge u v := by
        rw [Edge, successors_subgraph hu]
        exact hedge
      exact hkept.hasNode_right

/-- In the subgraph of a node every node that it reaches keeps its edges. -/
theorem edge_subgraph :
    (g.subgraph root).Edge u v ↔ g.hasNode root ∧ g.Reaches root u ∧ g.Edge u v := by
  rw [← and_assoc, ← hasNode_subgraph]
  constructor
  · intro hedge
    have hu := hedge.hasNode_left
    exact ⟨hu, by rwa [Edge, successors_subgraph hu] at hedge⟩
  · rintro ⟨hu, hedge⟩
    rwa [Edge, successors_subgraph hu]

/-- A path from a node of the subgraph stays in it. -/
theorem reaches_subgraph (hu : (g.subgraph root).hasNode u) :
    (g.subgraph root).Reaches u v ↔ g.Reaches u v := by
  constructor
  · exact Relation.ReflTransGen.mono (fun _ _ hedge => (edge_subgraph.1 hedge).2.2) _ _
  · intro hpath
    obtain ⟨hroot, hru⟩ := hasNode_subgraph.1 hu
    induction hpath with
    | refl => exact .refl
    | tail hpath hedge ih => exact ih.tail (edge_subgraph.2 ⟨hroot, hru.trans hpath, hedge⟩)

/-- Of the subgraph of a node, a node in it has the same subgraph as of the whole. -/
theorem subgraph_subgraph (hu : (g.subgraph root).hasNode u) :
    (g.subgraph root).subgraph u = g.subgraph u := by
  obtain ⟨hroot, hru⟩ := hasNode_subgraph.1 hu
  have hnodes (w : Nat) : ((g.subgraph root).subgraph u).hasNode w ↔ (g.subgraph u).hasNode w := by
    rw [hasNode_subgraph, @hasNode_subgraph g u w, reaches_subgraph hu]
    simp only [hu, hru.hasNode hroot]
  refine eq_of_successors hnodes fun w hw => ?_
  rw [successors_subgraph hw, successors_subgraph (hasNode_subgraph.1 hw |>.2.hasNode hu),
    successors_subgraph ((hnodes w).1 hw)]

/-- The subgraph of a node has exactly the nodes that it reaches, none if it is not in the graph
itself. Each of them has all its successors, which are in the subgraph as well, and the same
subgraph as in the whole. -/
theorem subgraph_exact (g : Digraph) (root : Nat) :
    (∀ u, (g.subgraph root).hasNode u ↔ g.hasNode root ∧ g.Reaches root u) ∧
      (¬ g.hasNode root → g.subgraph root = ∅) ∧
      ∀ u, (g.subgraph root).hasNode u →
        (g.subgraph root).successors u = g.successors u ∧
        (∀ v ∈ (g.subgraph root).successors u, (g.subgraph root).hasNode v) ∧
        (g.subgraph root).subgraph u = g.subgraph u := by
  refine ⟨fun u => hasNode_subgraph, subgraph_of_not_hasNode, fun u hu => ?_⟩
  exact ⟨successors_subgraph hu, fun v hv => Edge.hasNode_right hv, subgraph_subgraph hu⟩

/-- What two nodes that lead to each other reach. An edge that enters the part from elsewhere is not
in it, and neither of the two is in what the third node reaches. -/
theorem subgraph_exact_pair :
    let pair : Digraph := .ofEdges [(1, 2), (2, 1), (2, 3), (3, 3), (4, 1)]
    (pair.subgraph 1).toList = [(1, [2]), (2, [1, 3]), (3, [3])] ∧
      ((pair.subgraph 1).hasNode 3 ∧ (pair.subgraph 1).subgraph 3 = pair.subgraph 3) ∧
      ¬ pair.hasNode 5 ∧ pair.subgraph 5 = ∅ := by
  intro pair
  have hthird : (pair.subgraph 1).hasNode 3 := by cbv
  have habsent : ¬ pair.hasNode 5 := Bool.eq_false_iff.1 (by cbv)
  refine ⟨by cbv, ⟨hthird, ?_⟩, habsent, ?_⟩
  · exact ((subgraph_exact pair 1).2.2 3 hthird).2.2
  · exact (subgraph_exact pair 5).2.1 habsent

end ScriptBuild.Digraph
