import ScriptBuild.Proofs.Digraph.Traversal

namespace ScriptBuild.Digraph

/-- Turning round the edges of one node adds the edges that lead back to it. -/
theorem edge_addBackEdges {u a b : Nat} (targets : List Nat) (h : Digraph) :
    (targets.foldl (fun h v => h.addEdge v u) h).Edge a b ↔ h.Edge a b ∨ a ∈ targets ∧ b = u := by
  induction targets generalizing h with
  | nil => simp
  | cons v rest ih =>
    rw [List.foldl_cons, ih, edge_addEdge]
    grind

/-- Turning round the edges of some nodes adds all edges that lead back to them. -/
theorem edge_addBackEntries {a b : Nat} (entries : List (Nat × NodeSet)) (h : Digraph) :
    (entries.foldl (fun h (u, targets) =>
        targets.toList.foldl (fun h v => h.addEdge v u) (h.addNode u)) h).Edge a b ↔
      h.Edge a b ∨ ∃ targets, (b, targets) ∈ entries ∧ a ∈ targets := by
  induction entries generalizing h with
  | nil => simp
  | cons entry rest ih =>
    obtain ⟨u, targets⟩ := entry
    simp only [List.foldl_cons]
    rw [ih, edge_addBackEdges, edge_addNode, Std.ExtTreeSet.mem_toList]
    grind

/-- The edges of the graph turned round are its edges from their ends to their starts. -/
theorem edge_transpose {g : Digraph} {u v : Nat} : g.transpose.Edge u v ↔ g.Edge v u := by
  rw [transpose, edge_addBackEntries]
  constructor
  · rintro (h | ⟨targets, hentry, hmem⟩)
    · exact absurd h not_edge_empty
    · rw [(mem_table_toList.1 hentry).2] at hmem
      exact hmem
  · intro hedge
    exact .inr ⟨g.successors v, mem_table_toList.2 ⟨hedge.hasNode_left, rfl⟩, hedge⟩

/-- A path inside a set leads back along the turned edges. -/
theorem reachesIn_transpose {g : Digraph} {s : NodeSet} {u v : Nat} :
    g.transpose.ReachesIn s u v ↔ g.ReachesIn s v u := by
  have hswap {h k : Digraph} (hedge : ∀ a b, h.Edge a b → k.Edge b a) {x y : Nat}
      (hpath : h.ReachesIn s x y) : k.ReachesIn s y x := by
    obtain ⟨hx, hpath⟩ := hpath
    induction hpath with
    | refl => exact .refl hx
    | tail _ hstep ih => exact .head hstep.2 (hedge _ _ hstep.1) ih
  exact ⟨hswap fun _ _ => edge_transpose.1, hswap fun _ _ => edge_transpose.2⟩

/-- A set of nodes that has each class of strongly connected nodes in it or has none of it. -/
def Saturated (g : Digraph) (s : NodeSet) : Prop :=
  ∀ u ∈ s, ∀ v, g.StronglyConnected u v → v ∈ s

/-- Between nodes of one class there is a path inside every set that has the class in it. -/
theorem Saturated.reachesIn {g : Digraph} {s : NodeSet} (hs : g.Saturated s) {u v : Nat}
    (hu : u ∈ s) (h : g.StronglyConnected u v) : g.ReachesIn s u v := by
  obtain ⟨hforth, hback⟩ := h
  induction hforth with
  | refl => exact .refl hu
  | @tail w v huw hedge ih =>
    have hwu : g.Reaches w u := .head hedge hback
    exact (ih hwu).tail hedge (hs u hu v ⟨huw.tail hedge, hback⟩)

/-- Among a set that has whole classes in it, what a node reaches of those that lead to it is its
class. Paths do not have to leave the set, as all on the way between members of a class is in the
class. -/
theorem mem_componentIn {g : Digraph} {rest : NodeSet} {u v : Nat} (hrest : g.Saturated rest)
    (hu : u ∈ rest) : v ∈ g.componentIn g.transpose rest u ↔ g.StronglyConnected u v := by
  have hleads (x : Nat) : x ∈ g.transpose.reachWithin rest u ↔ g.ReachesIn rest x u := by
    rw [mem_reachWithin, reachesIn_transpose]
  rw [componentIn, mem_reachWithin]
  constructor
  · intro hpath
    exact ⟨hpath.reaches, ((hleads v).1 hpath.mem_right).reaches⟩
  · intro h
    have hclass : g.Saturated (g.transpose.reachWithin rest u) → g.ReachesIn _ u v :=
      fun hsat => hsat.reachesIn ((hleads u).2 (.refl hu)) h
    refine hclass fun x hx y hxy => (hleads y).2 ?_
    have hxu := (hleads x).1 hx
    exact ⟨hrest x hxu.1 y hxy, (hrest.reachesIn (hrest x hxu.1 y hxy) hxy.symm).2.trans hxu.2⟩

/-- A set that is one class of strongly connected nodes. -/
def IsComponent (g : Digraph) (c : NodeSet) : Prop :=
  ∃ u ∈ c, ∀ v, v ∈ c ↔ g.StronglyConnected u v

/-- Two sets without a common member. -/
def Disjoint (c d : NodeSet) : Prop := ∀ u ∈ c, u ∉ d

/-- A component has all that is strongly connected with one of its members. -/
theorem IsComponent.mem_iff {g : Digraph} {c : NodeSet} (hc : g.IsComponent c) {u v : Nat}
    (hu : u ∈ c) : v ∈ c ↔ g.StronglyConnected u v := by
  obtain ⟨w, _, hclass⟩ := hc
  have hwu := (hclass u).1 hu
  rw [hclass]
  exact ⟨hwu.symm.trans, hwu.trans⟩

/-- Splitting a class off leaves whole classes behind. -/
theorem Saturated.without {g : Digraph} {s c : NodeSet} (hs : g.Saturated s)
    (hc : g.IsComponent c) : g.Saturated (NodeSet.without s c.toList) := by
  intro u hu v huv
  rw [NodeSet.mem_without, Std.ExtTreeSet.mem_toList] at hu ⊢
  exact ⟨hs u hu.1 v huv, fun hv => hu.2 ((hc.mem_iff hv).2 huv.symm)⟩

/-- The component that is split off from such a set is a whole class. -/
theorem isComponent_componentIn {g : Digraph} {rest : NodeSet} {u : Nat} (hrest : g.Saturated rest)
    (hu : u ∈ rest) : g.IsComponent (g.componentIn g.transpose rest u) :=
  ⟨u, (mem_componentIn hrest hu).2 (.refl g u), fun _ => mem_componentIn hrest hu⟩

/-- A node that is left gives its component, which is taken from the rest. -/
theorem componentsFrom_cons_of_mem {g back : Digraph} {rest : NodeSet} {u : Nat}
    (later : List Nat) (hu : u ∈ rest) : g.componentsFrom back rest (u :: later) =
      g.componentIn back rest u ::
        g.componentsFrom back (NodeSet.without rest (g.componentIn back rest u).toList) later := by
  rw [componentsFrom, if_pos hu, NodeSet.without]

/-- A node that is in a component already gives none. -/
theorem componentsFrom_cons_of_not_mem {g back : Digraph} {rest : NodeSet} {u : Nat}
    (later : List Nat) (hu : u ∉ rest) :
    g.componentsFrom back rest (u :: later) = g.componentsFrom back rest later := by
  rw [componentsFrom, if_neg hu]

/-- Splitting off gives classes inside the given set. -/
theorem componentsFrom_sound {g : Digraph} {rest : NodeSet} (hrest : g.Saturated rest)
    (starts : List Nat) : ∀ c ∈ g.componentsFrom g.transpose rest starts,
      g.IsComponent c ∧ ∀ u ∈ c, u ∈ rest := by
  induction starts generalizing rest with
  | nil => simp [componentsFrom]
  | cons u later ih =>
    by_cases hu : u ∈ rest
    · have hcomponent := isComponent_componentIn hrest hu
      rw [componentsFrom_cons_of_mem later hu]
      intro c hc
      rcases List.mem_cons.1 hc with rfl | hc
      · exact ⟨hcomponent, fun v hv => hrest u hu v ((mem_componentIn hrest hu).1 hv)⟩
      · obtain ⟨hclass, hsub⟩ := ih (hrest.without hcomponent) c hc
        exact ⟨hclass, fun v hv => (NodeSet.mem_without.1 (hsub v hv)).1⟩
    · rw [componentsFrom_cons_of_not_mem later hu]
      exact ih hrest

/-- Every listed node of the given set is in one of the classes that are split off. -/
theorem exists_mem_componentsFrom {g : Digraph} {rest : NodeSet} (hrest : g.Saturated rest)
    {starts : List Nat} {u : Nat} (hu : u ∈ rest) (hlisted : u ∈ starts) :
    ∃ c ∈ g.componentsFrom g.transpose rest starts, u ∈ c := by
  induction starts generalizing rest with
  | nil => simp at hlisted
  | cons s later ih =>
    by_cases hs : s ∈ rest
    · rw [componentsFrom_cons_of_mem later hs]
      by_cases hfirst : u ∈ g.componentIn g.transpose rest s
      · exact ⟨_, List.mem_cons_self, hfirst⟩
      · have hlater : u ∈ later := by
          rcases List.mem_cons.1 hlisted with rfl | hlater
          · exact absurd ((mem_componentIn hrest hs).2 (.refl g u)) hfirst
          · exact hlater
        have hleft : u ∈ NodeSet.without rest (g.componentIn g.transpose rest s).toList :=
          NodeSet.mem_without.2 ⟨hu, by rwa [Std.ExtTreeSet.mem_toList]⟩
        obtain ⟨c, hc, hmem⟩ := ih (hrest.without (isComponent_componentIn hrest hs)) hleft hlater
        exact ⟨c, List.mem_cons_of_mem _ hc, hmem⟩
    · rw [componentsFrom_cons_of_not_mem later hs]
      refine ih hrest hu ((List.mem_cons.1 hlisted).resolve_left ?_)
      rintro rfl
      exact hs hu

theorem componentsFrom_pairwise {g : Digraph} {rest : NodeSet} (hrest : g.Saturated rest)
    (starts : List Nat) : (g.componentsFrom g.transpose rest starts).Pairwise Disjoint := by
  induction starts generalizing rest with
  | nil => simp [componentsFrom]
  | cons u later ih =>
    by_cases hu : u ∈ rest
    · have hleft := hrest.without (isComponent_componentIn hrest hu)
      rw [componentsFrom_cons_of_mem later hu, List.pairwise_cons]
      refine ⟨fun c hc v hv hvc => ?_, ih hleft⟩
      have hv' := (NodeSet.mem_without.1 ((componentsFrom_sound hleft later c hc).2 v hvc)).2
      exact hv' (Std.ExtTreeSet.mem_toList.2 hv)
    · rw [componentsFrom_cons_of_not_mem later hu]
      exact ih hrest

/-- All nodes together have every class in them. -/
theorem saturated_nodeSet (g : Digraph) : g.Saturated g.nodeSet := by
  intro u hu v huv
  exact mem_nodeSet.2 (huv.1.hasNode (mem_nodeSet.1 hu))

/-- The order in which components are listed does not matter for which they are. -/
theorem mem_components {g : Digraph} {c : NodeSet} : c ∈ g.components ↔
    c ∈ g.componentsFrom g.transpose g.nodeSet g.finishingOrder.reverse := by
  rw [components, List.mem_mergeSort]

/-- The components of a graph are classes of strongly connected nodes of it. -/
theorem components_sound {g : Digraph} {c : NodeSet} (hc : c ∈ g.components) :
    g.IsComponent c ∧ ∀ u ∈ c, g.hasNode u := by
  obtain ⟨hclass, hsub⟩ := componentsFrom_sound g.saturated_nodeSet _ c (mem_components.1 hc)
  exact ⟨hclass, fun u hu => mem_nodeSet.1 (hsub u hu)⟩

/-- Every node is in a component. -/
theorem exists_mem_components {g : Digraph} {u : Nat} (hu : g.hasNode u) :
    ∃ c ∈ g.components, u ∈ c := by
  have hlisted : u ∈ g.finishingOrder.reverse := List.mem_reverse.2 (mem_finishingOrder.2 hu)
  obtain ⟨c, hc, hmem⟩ :=
    exists_mem_componentsFrom g.saturated_nodeSet (mem_nodeSet.2 hu) hlisted
  exact ⟨c, mem_components.2 hc, hmem⟩

/-- No node is in two components. -/
theorem components_pairwise (g : Digraph) : g.components.Pairwise Disjoint := by
  have hperm := List.mergeSort_perm
    (g.componentsFrom g.transpose g.nodeSet g.finishingOrder.reverse)
    fun a b => a.min?.getD 0 ≤ b.min?.getD 0
  refine (hperm.pairwise_iff ?_).2 (componentsFrom_pairwise g.saturated_nodeSet _)
  intro c d hdisjoint u hu huc
  exact hdisjoint u huc hu

end ScriptBuild.Digraph
