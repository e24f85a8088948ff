import ScriptBuild.Proofs.Digraph.Traversal

namespace ScriptBuild.Digraph

/-- A stack without marks of entering and leaving lists the same. `kept` tells which starting nodes
were put on the stack: all unseen ones, and besides them only such as are listed by now. -/
theorem traverse_append (g : Digraph) (unseen done : NodeSet) (starts below : List Nat)
    (kept : Nat → Bool) (hdone : ∀ x ∈ unseen, x ∉ done)
    (hunseen : ∀ x ∈ starts, x ∈ unseen → kept x)
    (hkept : ∀ x ∈ starts, kept x → x ∈ unseen ∨ x ∈ done) :
    g.traverse unseen done (starts.filter kept ++ below) =
      g.finished unseen starts ++ g.traverse (NodeSet.without unseen (g.finished unseen starts))
        (done.insertMany (g.finished unseen starts)) below := by
  induction unseen, starts using finished_induction g generalizing done below kept with
  | hnil unseen => simp [finished_nil, NodeSet.without]
  | hseen unseen n rest hn ih =>
    rw [finished_cons_of_not_mem rest hn, ← ih done below kept hdone (by grind) (by grind)]
    by_cases hkeep : kept n
    · have hlisted : n ∈ done := (hkept n List.mem_cons_self hkeep).resolve_left hn
      rw [List.filter_cons_of_pos hkeep, List.cons_append, traverse, if_neg hn, if_pos hlisted]
    · rw [List.filter_cons_of_neg hkeep]
  | hnew unseen n rest hn ihbelow ihrest =>
    let under := g.finished (unseen.erase n) (g.entered n)
    have hunder (x : Nat) (hx : x ∈ under) : x ∈ unseen ∧ x ≠ n := by
      obtain ⟨k, _, hpath⟩ := mem_finished.1 hx
      have := hpath.mem_right
      grind
    let listed := (done.insertMany under).insert n
    have hlisted (x : Nat) : x ∈ listed ↔ x = n ∨ x ∈ under ∨ x ∈ done := by
      simp only [listed, Std.ExtTreeSet.mem_insert, Std.ExtTreeSet.mem_insertMany_list]
      grind
    have hfirst (later : List Nat) : g.traverse unseen done (n :: later) =
        under ++ n :: g.traverse (g.unseenAfter unseen n) listed later := by
      have hseen : n ∉ g.unseenAfter unseen n := fun h => (mem_unseenAfter.1 h).2.1 rfl
      have hnew : n ∉ done.insertMany under := by
        simp only [Std.ExtTreeSet.mem_insertMany_list]
        grind
      have hsplit := ihbelow done (n :: later) (· ∈ unseen.erase n) (by grind) (by simp) (by grind)
      rw [traverse, if_pos hn, stacked, ← List.filter_reverse, ← entered, hsplit, ← unseenAfter,
        traverse, if_neg hseen, if_neg hnew]
    have hleft (x : Nat) : x ∈ g.unseenAfter unseen n ↔ x ∈ unseen ∧ x ≠ n ∧ x ∉ under :=
      mem_unseenAfter
    have hrest := ihrest listed below kept (by grind) (by grind) (by grind)
    rw [List.filter_cons_of_pos (hunseen n List.mem_cons_self hn), List.cons_append, hfirst, hrest,
      finished_cons_of_mem rest hn]
    have hunseen' : (g.unseenAfter unseen n).without (g.finished (g.unseenAfter unseen n) rest) =
        unseen.without (under ++ n :: g.finished (g.unseenAfter unseen n) rest) := by
      ext x
      simp only [NodeSet.mem_without, hleft]
      grind
    have hdone' : listed.insertMany (g.finished (g.unseenAfter unseen n) rest) =
        done.insertMany (under ++ n :: g.finished (g.unseenAfter unseen n) rest) := by
      ext x
      simp only [Std.ExtTreeSet.mem_insertMany_list, hlisted]
      grind
    rw [hunseen', hdone']
    simp [under]

/-- A traversal without marks lists what the one with marks lists, from nodes that were not seen. A
node that has been seen and not been listed lies below what was put on top of it, so it is never
found at the top before all of that is listed. -/
theorem traverse_eq_finished (g : Digraph) (unseen : NodeSet) (starts : List Nat)
    (hunseen : ∀ x ∈ starts, x ∈ unseen) : g.traverse unseen ∅ starts = g.finished unseen starts := by
  have hwhole := g.traverse_append unseen ∅ starts [] (· ∈ unseen) (by simp) (by simp) (by grind)
  have hkept : starts.filter (· ∈ unseen) = starts := by
    rw [List.filter_eq_self]
    simpa using hunseen
  rw [hkept, List.append_nil, traverse, List.append_nil] at hwhole
  exact hwhole

/-- The postorder is the list of the marked traversal of the whole graph. -/
theorem postorder_eq_finished (g : Digraph) (start : Nat) :
    g.postorder start = g.finished g.nodeSet [start] := by
  unfold postorder
  split
  · rename_i hstart
    exact g.traverse_eq_finished _ _ (by simpa [mem_nodeSet] using hstart)
  · rename_i hstart
    rw [finished_cons_of_not_mem [] (mt mem_nodeSet.1 hstart), finished_nil]

/-- The postorder from a node lists what the node reaches. -/
theorem mem_postorder {g : Digraph} {start v : Nat} :
    v ∈ g.postorder start ↔ g.hasNode start ∧ g.Reaches start v := by
  rw [postorder_eq_finished, mem_finished]
  simp [reachesIn_nodeSet]

/-- Every node is listed once. -/
theorem nodup_postorder (g : Digraph) (start : Nat) : (g.postorder start).Nodup := by
  rw [postorder_eq_finished]
  exact g.nodup_finished g.nodeSet [start]

/-- In the postorder a node stands before one that it depends on only if that one leads back. -/
theorem postorder_pairwise (g : Digraph) (start : Nat) :
    (g.postorder start).Pairwise fun u v => g.Edge u v → g.Reaches v u := by
  rw [postorder_eq_finished]
  exact g.finished_pairwise g.nodeSet [start]

/-- The node that a postorder starts from is its last one. -/
theorem postorder_eq_append {g : Digraph} {start : Nat} (hstart : g.hasNode start) :
    ∃ below, g.postorder start = below ++ [start] := by
  refine ⟨g.finished (g.nodeSet.erase start) (g.entered start), ?_⟩
  rw [postorder_eq_finished, finished_cons_of_mem [] (mem_nodeSet.2 hstart), finished_nil]

/-- In a list without repetitions whose members are related to what follows them, a member that is
not related to another one comes after it. -/
theorem idxOf_lt_of_not_rel {l : List Nat} {R : Nat → Nat → Prop} (hpairs : l.Pairwise R)
    {u v : Nat} (hu : u ∈ l) (hv : v ∈ l) (hne : u ≠ v) (hnot : ¬ R u v) :
    l.idxOf v < l.idxOf u := by
  by_contra hle
  have hlt : l.idxOf u < l.idxOf v := by
    have hdiffer : l.idxOf u ≠ l.idxOf v := fun heq => hne ((List.idxOf_inj hu).1 heq)
    omega
  have hrel := List.pairwise_iff_getElem.1 hpairs _ _ (List.idxOf_lt_length_iff.2 hu)
    (List.idxOf_lt_length_iff.2 hv) hlt
  rw [List.getElem_idxOf, List.getElem_idxOf] at hrel
  exact hnot hrel

/-- What a node depends on comes before it, unless it leads back to the node. -/
theorem idxOf_postorder_lt {g : Digraph} {start u v : Nat} (hstart : g.hasNode start)
    (hu : g.Reaches start u) (hedge : g.Edge u v) (hback : ¬ g.Reaches v u) :
    (g.postorder start).idxOf v < (g.postorder start).idxOf u := by
  have hne : u ≠ v := by
    rintro rfl
    exact hback .refl
  exact idxOf_lt_of_not_rel (g.postorder_pairwise start) (mem_postorder.2 ⟨hstart, hu⟩)
    (mem_postorder.2 ⟨hstart, hu.tail hedge⟩) hne fun hrel => hback (hrel hedge)

/-- The postorder from a node of a graph lists exactly what it reaches, each node once and the node
itself last. What a listed node depends on comes before it, unless it leads back to the node; where
only edges from a node to itself close a cycle, all that a node depends on comes before it. -/
theorem postorder_dependencyFirst (g : Digraph) (start : Nat) (hstart : g.hasNode start) :
    (∀ v, v ∈ g.postorder start ↔ g.Reaches start v) ∧ (g.postorder start).Nodup ∧
      (g.postorder start).getLast? = some start ∧
      (∀ u v, g.Reaches start u → g.Edge u v → ¬ g.Reaches v u →
        (g.postorder start).idxOf v < (g.postorder start).idxOf u) ∧
      ((∀ a b, g.StronglyConnected a b → a = b) →
        ∀ u v, g.Reaches start u → g.Edge u v → u ≠ v →
          (g.postorder start).idxOf v < (g.postorder start).idxOf u) := by
  refine ⟨fun v => ?_, g.nodup_postorder start, ?_, ?_, ?_⟩
  · rw [mem_postorder]
    simp only [hstart, true_and]
  · obtain ⟨below, hlist⟩ := postorder_eq_append hstart
    simp [hlist]
  · intro u v hu hedge hback
    exact idxOf_postorder_lt hstart hu hedge hback
  · intro hacyclic u v hu hedge hne
    apply idxOf_postorder_lt hstart hu hedge
    intro hback
    exact hne (hacyclic u v ⟨.single hedge, hback⟩)

/-- Of two nodes that lead to each other, the one entered later comes first, even before what the
other one needs. The node that leads only to itself comes before the one that needs it. -/
theorem postorder_dependencyFirst_twins :
    let twins : Digraph := .ofEdges [(3, 1), (1, 2), (2, 1), (1, 0), (0, 0)]
    twins.hasNode 3 ∧ twins.postorder 3 = [2, 0, 1, 3] ∧
      (∀ v, v ∈ twins.postorder 3 ↔ twins.Reaches 3 v) ∧
      (twins.postorder 3).idxOf 0 < (twins.postorder 3).idxOf 1 := by
  intro twins
  have hstart : twins.hasNode 3 := by decide
  have hmembers := (postorder_dependencyFirst twins 3 hstart).1
  have hlist : twins.postorder 3 = [2, 0, 1, 3] := by cbv
  have hfirst : twins.Reaches 3 1 := (hmembers 1).1 (by simp [hlist])
  have hedge : twins.Edge 1 0 := by
    change 0 ∈ twins.successors 1
    decide
  have hback : ¬ twins.Reaches 0 1 := by
    intro hpath
    have hmem := mem_postorder.2 ⟨hedge.hasNode_right, hpath⟩
    rw [(by cbv : twins.postorder 0 = [0])] at hmem
    simp at hmem
  refine ⟨hstart, hlist, hmembers, ?_⟩
  exact (postorder_dependencyFirst twins 3 hstart).2.2.2.1 1 0 hfirst hedge hback

end ScriptBuild.Digraph
