import ScriptBuild.Digraph.Condensation
import ScriptBuild.Proofs.Digraph.Grouping

namespace ScriptBuild

namespace Groups

/-- Groups that are components of a graph, among them all with at least two members. The name of a
group is no node of the graph, unless it is its only member. -/
structure AreClasses (g : Digraph) (groups : Groups) : Prop where
  component : ∀ (k : Nat) (c : NodeSet), groups[k]? = some c → g.IsComponent c
  hasNode : ∀ (k : Nat) (c : NodeSet), groups[k]? = some c → ∀ u ∈ c, g.hasNode u
  named : ∀ (k : Nat) (c : NodeSet), groups[k]? = some c → ¬ g.hasNode k ∨ ∀ u ∈ c, u = k
  complete : ∀ u v, g.hasNode u → u ≠ v → g.StronglyConnected u v →
    ∃ (k : Nat) (c : NodeSet), groups[k]? = some c ∧ u ∈ c
  unique : ∀ (k l : Nat) (c d : NodeSet) (u : Nat),
    groups[k]? = some c → groups[l]? = some d → u ∈ c → u ∈ d → k = l

/-- Groups that are the components of a graph with at least two members, under names that are no
nodes of it. -/
structure AreCycles (g : Digraph) (groups : Groups) : Prop extends AreClasses g groups where
  size : ∀ (k : Nat) (c : NodeSet), groups[k]? = some c → 2 ≤ c.size
  fresh : ∀ (k : Nat) (c : NodeSet), groups[k]? = some c → ¬ g.hasNode k

/-- The components that are cycles of several nodes, in the order of their smallest members. -/
def cycles (g : Digraph) : List NodeSet := g.components.filter (2 ≤ ·.size)

theorem mem_cycles {g : Digraph} {c : NodeSet} :
    c ∈ cycles g ↔ c ∈ g.components ∧ 2 ≤ c.size := by
  simp [cycles]

theorem several_cycles (g : Digraph) : several (cycles g) = cycles g :=
  List.filter_eq_self.2 fun c hc => by
    have := (mem_cycles.1 hc).2
    simp only [ne_eq, decide_eq_true_eq]
    omega

/-- The groups of at least two members are the cycles under their names. -/
theorem getElem?_ofGraph {g : Digraph} {fresh : Nat → Nat}
    (hfresh : ∀ i j, fresh i = fresh j → i = j) {k : Nat} {c : NodeSet} :
    (ofGraph g 2 fresh)[k]? = some c ↔ ∃ i, (cycles g)[i]? = some c ∧ fresh i = k := by
  have hsize {c : NodeSet} (hc : 2 ≤ c.size) (u : Nat) : c.toList ≠ [u] := by
    rintro hlist
    rw [← Std.ExtTreeSet.length_toList, hlist] at hc
    simp at hc
  rw [getElem?_ofGraph_iff hfresh fun _ _ hc i => hsize hc (fresh i), mem_named]
  change (c ∈ cycles g ∧ c.toList = [k]) ∨ (∃ i, (several (cycles g))[i]? = some c ∧ _) ↔ _
  rw [several_cycles, or_iff_right fun h => hsize (mem_cycles.1 h.1).2 k h.2]
  simp only [Nat.zero_add]

/-- The groups of a graph from one or two members on, under names that are no nodes, are classes of
strongly connected nodes. -/
theorem areClasses_ofGraph {g : Digraph} {least : Nat} {fresh : Nat → Nat} (hleast : least ≤ 2)
    (hfresh : ∀ i j, fresh i = fresh j → i = j) (hnew : ∀ i, ¬ g.hasNode (fresh i)) :
    AreClasses g (ofGraph g least fresh) := by
  constructor
  · intro k c h
    exact (Digraph.components_sound (mem_components_of_getElem? hfresh hnew h)).1
  · intro k c h
    exact (Digraph.components_sound (mem_components_of_getElem? hfresh hnew h)).2
  · intro k c h
    obtain ⟨_, hlist | ⟨i, _, rfl⟩⟩ := (getElem?_ofGraph_iff_ample hfresh hnew).1 h
    · refine .inr fun u hu => ?_
      simpa [hlist] using Std.ExtTreeSet.mem_toList.2 hu
    · exact .inl (hnew _)
  · intro u v hu hne hstrong
    obtain ⟨c, hc, hmem⟩ := Digraph.exists_mem_components hu
    have hv : v ∈ c := ((Digraph.components_sound hc).1.mem_iff hmem).2 hstrong
    have hsize := two_le_size hmem hv hne
    obtain ⟨k, hk⟩ := exists_getElem?_of_mem_ample hfresh hnew
      (mem_ample.2 ⟨hc, Nat.le_trans hleast hsize⟩)
    exact ⟨k, c, hk, hmem⟩
  · intro k l c d u hc hd huc hud
    exact ofGraph_unique hfresh hnew hc hd huc hud

/-- The groups of at least two members, under names that are no nodes, are the cycles. -/
theorem areCycles_ofGraph {g : Digraph} {fresh : Nat → Nat}
    (hfresh : ∀ i j, fresh i = fresh j → i = j) (hnew : ∀ i, ¬ g.hasNode (fresh i)) :
    AreCycles g (ofGraph g 2 fresh) where
  toAreClasses := areClasses_ofGraph (Nat.le_refl 2) hfresh hnew
  size k c hc := by
    obtain ⟨i, hi, _⟩ := (getElem?_ofGraph hfresh).1 hc
    exact (mem_cycles.1 (List.mem_of_getElem? hi)).2
  fresh k c hc := by
    obtain ⟨i, _, rfl⟩ := (getElem?_ofGraph hfresh).1 hc
    exact hnew i

/-- The owner of a node is the last of the groups that hold it. -/
theorem getElem?_owners_foldl (entries : List (Nat × NodeSet)) (init : Std.ExtTreeMap Nat Nat)
    (u : Nat) :
    (entries.foldl (fun owners (root, members) =>
        members.toList.foldl (fun owners u => owners.insert u root) owners) init)[u]? =
      ((entries.reverse.find? fun entry => entry.2.contains u).map (·.1)).or init[u]? := by
  have hinsert (members : List Nat) (root : Nat) (owners : Std.ExtTreeMap Nat Nat) :
      (members.foldl (fun owners u => owners.insert u root) owners)[u]? =
        if members.contains u then some root else owners[u]? := by
    induction members generalizing owners with
    | nil => simp
    | cons m rest ih =>
      rw [List.foldl_cons, ih]
      grind
  induction entries generalizing init with
  | nil => simp
  | cons entry rest ih =>
    obtain ⟨root, members⟩ := entry
    rw [List.foldl_cons, ih, hinsert, List.reverse_cons, List.find?_append]
    cases rest.reverse.find? fun entry => entry.2.contains u with
    | some found => simp
    | none =>
      by_cases hmem : u ∈ members <;> simp [hmem]

/-- The group of a node is the one that it is a member of. -/
theorem AreClasses.getElem?_owners {g : Digraph} {groups : Groups} (h : AreClasses g groups)
    {u k : Nat} : groups.owners[u]? = some k ↔ ∃ c : NodeSet, groups[k]? = some c ∧ u ∈ c := by
  rw [owners, getElem?_owners_foldl]
  simp only [Std.ExtTreeMap.getElem?_empty, Option.or_none, Option.map_eq_some_iff]
  constructor
  · rintro ⟨⟨l, c⟩, hfind, rfl⟩
    have hmem := List.mem_reverse.1 (List.mem_of_find?_eq_some hfind)
    exact ⟨c, Std.ExtTreeMap.mem_toList_iff_getElem?_eq_some.1 hmem,
      by simpa using List.find?_some hfind⟩
  · rintro ⟨c, hc, hu⟩
    have hmem := Std.ExtTreeMap.mem_toList_iff_getElem?_eq_some.2 hc
    cases hfind : groups.toList.reverse.find? fun entry => entry.2.contains u with
    | none =>
      have hnone := List.find?_eq_none.1 hfind (k, c) (List.mem_reverse.2 hmem)
      exact absurd (by simpa using hu) hnone
    | some found =>
      obtain ⟨l, d⟩ := found
      have hd := List.mem_reverse.1 (List.mem_of_find?_eq_some hfind)
      have hud : u ∈ d := by simpa using List.find?_some hfind
      exact ⟨(l, d), rfl, h.unique l k d c u (Std.ExtTreeMap.mem_toList_iff_getElem?_eq_some.1 hd) hc
        hud hu⟩

end Groups

namespace Condensation

/-- The node that stands for a node in a quotient by groups with the given owners. -/
def standFor (owners : Std.ExtTreeMap Nat Nat) (u : Nat) : Nat := owners.getD u u

/-- Whether an edge is left out of a quotient, as both its ends are in one group. -/
def isInner (owners : Std.ExtTreeMap Nat Nat) (u v : Nat) : Bool :=
  standFor owners u == standFor owners v && owners.contains u

/-- The ends of the edges that a node contributes to a quotient. -/
def images (owners : Std.ExtTreeMap Nat Nat) (u : Nat) (targets : NodeSet) : List Nat :=
  (targets.toList.filter fun v => !isInner owners u v).map (standFor owners)

/-- A node contributes edges to what stands for its successors outside its group. -/
theorem mem_images {owners : Std.ExtTreeMap Nat Nat} {u b : Nat} {targets : NodeSet} :
    b ∈ images owners u targets ↔
      ∃ v ∈ targets, isInner owners u v = false ∧ standFor owners v = b := by
  simp [images, and_assoc]

/-- The image of a node is a node with the edges that it contributes. -/
theorem addImage_eq (owners : Std.ExtTreeMap Nat Nat) (h : Digraph) (u : Nat) (targets : NodeSet) :
    addImage owners h u targets = (images owners u targets).foldl
      (fun h v => h.addEdge (standFor owners u) v) (h.addNode (standFor owners u)) := by
  rw [images, List.foldl_map, List.foldl_filter]
  change targets.toList.foldl (fun h v => if isInner owners u v then h else
    h.addEdge (standFor owners u) (standFor owners v)) (h.addNode (standFor owners u)) = _
  congr 1
  funext h v
  cases isInner owners u v <;> rfl

/-- The edges of a quotient are those that some node contributes. -/
theorem edge_addImages {owners : Std.ExtTreeMap Nat Nat} {a b : Nat}
    (entries : List (Nat × NodeSet)) (h : Digraph) :
    (entries.foldl (fun h (u, targets) => addImage owners h u targets) h).Edge a b ↔
      h.Edge a b ∨ ∃ u targets, (u, targets) ∈ entries ∧ standFor owners u = a ∧
        b ∈ images owners u targets := by
  induction entries generalizing h with
  | nil => simp
  | cons entry rest ih =>
    obtain ⟨u, targets⟩ := entry
    rw [List.foldl_cons, ih]
    simp only [addImage_eq, Digraph.edge_addEdges, Digraph.edge_addNode, List.mem_cons]
    grind

/-- The nodes of a quotient stand for nodes of the graph. -/
theorem hasNode_addImages {owners : Std.ExtTreeMap Nat Nat} {a : Nat}
    (entries : List (Nat × NodeSet)) (h : Digraph) :
    (entries.foldl (fun h (u, targets) => addImage owners h u targets) h).hasNode a ↔
      h.hasNode a ∨ ∃ u targets, (u, targets) ∈ entries ∧
        (standFor owners u = a ∨ a ∈ images owners u targets) := by
  induction entries generalizing h with
  | nil => simp
  | cons entry rest ih =>
    obtain ⟨u, targets⟩ := entry
    rw [List.foldl_cons, ih]
    simp only [addImage_eq, Digraph.hasNode_addEdges, Digraph.hasNode_addNode, List.mem_cons]
    grind

/-- Adding the names of groups adds no edges. -/
theorem edge_addRoots {g : Digraph} {a b : Nat} (entries : List (Nat × NodeSet)) (h : Digraph) :
    (entries.foldl (fun h (root, members) =>
      if members.toList.any g.hasNode then h.addNode root else h) h).Edge a b ↔ h.Edge a b := by
  induction entries generalizing h with
  | nil => simp
  | cons entry rest ih =>
    rw [List.foldl_cons, ih]
    by_cases hany : entry.2.toList.any g.hasNode
    · simp only [hany, if_true, Digraph.edge_addNode]
    · simp only [hany, if_false, Bool.false_eq_true]

/-- The names of groups are added if one of their members is a node. -/
theorem hasNode_addRoots {g : Digraph} {a : Nat} (entries : List (Nat × NodeSet)) (h : Digraph) :
    (entries.foldl (fun h (root, members) =>
      if members.toList.any g.hasNode then h.addNode root else h) h).hasNode a ↔
      h.hasNode a ∨ ∃ members : NodeSet, (a, members) ∈ entries ∧ ∃ u ∈ members, g.hasNode u := by
  induction entries generalizing h with
  | nil => simp
  | cons entry rest ih =>
    obtain ⟨root, members⟩ := entry
    have hany : members.toList.any g.hasNode = true ↔ ∃ u ∈ members, g.hasNode u := by simp
    rw [List.foldl_cons, ih]
    simp only [hany]
    split
    · rw [Digraph.hasNode_addNode]
      grind
    · grind

/-- The name of a group stands for each of its members. -/
theorem rootOf_of_mem {g : Digraph} {groups : Groups} (hgroups : groups.AreClasses g) {u k : Nat}
    {c : NodeSet} (hc : groups[k]? = some c) (hu : u ∈ c) : (ofGroups g groups).rootOf u = k := by
  have howner := hgroups.getElem?_owners.2 ⟨c, hc, hu⟩
  change groups.owners.getD u u = k
  rw [Std.ExtTreeMap.getD_eq_getD_getElem?, howner, Option.getD_some]

/-- A node in no group stands for itself. -/
theorem rootOf_of_ungrouped {g : Digraph} {groups : Groups} {u : Nat}
    (hu : u ∉ groups.owners) : (ofGroups g groups).rootOf u = u :=
  Std.ExtTreeMap.getD_eq_fallback hu

/-- A node that has an owner is in a group. -/
theorem exists_group {g : Digraph} {groups : Groups} (hgroups : groups.AreClasses g) {u : Nat}
    (hu : u ∈ groups.owners) : ∃ (k : Nat) (c : NodeSet), groups[k]? = some c ∧ u ∈ c := by
  obtain ⟨k, hk⟩ := Option.isSome_iff_exists.1 (Std.ExtTreeMap.isSome_getElem?_iff_mem.2 hu)
  exact ⟨k, hgroups.getElem?_owners.1 hk⟩

/-- The edges of a quotient are those between nodes of different groups, or of none. -/
theorem edge_ofGroups {g : Digraph} {groups : Groups} {a b : Nat} :
    (ofGroups g groups).graph.Edge a b ↔ ∃ u v, g.Edge u v ∧ isInner groups.owners u v = false ∧
      (ofGroups g groups).rootOf u = a ∧ (ofGroups g groups).rootOf v = b := by
  rw [ofGroups, edge_addRoots, edge_addImages]
  simp only [Digraph.mem_table_toList, mem_images]
  constructor
  · rintro (h | ⟨u, _, ⟨_, rfl⟩, ha, v, hedge, hinner, hb⟩)
    · exact absurd h Digraph.not_edge_empty
    · exact ⟨u, v, hedge, hinner, ha, hb⟩
  · rintro ⟨u, v, hedge, hinner, ha, hb⟩
    exact .inr ⟨u, _, ⟨hedge.hasNode_left, rfl⟩, ha, v, hedge, hinner, hb⟩

/-- The nodes of a quotient by cycles stand for the nodes of the graph. -/
theorem hasNode_ofGroups {g : Digraph} {groups : Groups} (hgroups : groups.AreClasses g) {a : Nat} :
    (ofGroups g groups).graph.hasNode a ↔
      ∃ u, g.hasNode u ∧ (ofGroups g groups).rootOf u = a := by
  rw [ofGroups, hasNode_addRoots, hasNode_addImages]
  simp only [Digraph.mem_table_toList, mem_images]
  constructor
  · rintro ((h | ⟨u, _, ⟨hu, rfl⟩, ha | ⟨v, hedge, _, hb⟩⟩) | ⟨c, hc, u, hmem, hu⟩)
    · exact absurd h Digraph.not_hasNode_empty
    · exact ⟨u, hu, ha⟩
    · exact ⟨v, Digraph.Edge.hasNode_right hedge, hb⟩
    · have hgroup := Std.ExtTreeMap.mem_toList_iff_getElem?_eq_some.1 hc
      exact ⟨u, hu, rootOf_of_mem hgroups hgroup hmem⟩
  · rintro ⟨u, hu, ha⟩
    exact .inl (.inr ⟨u, _, ⟨hu, rfl⟩, .inl ha⟩)

/-- An edge whose ends have different places in the quotient is one of its edges. -/
theorem edge_rootOf {g : Digraph} {groups : Groups} {u v : Nat} (hedge : g.Edge u v)
    (hne : (ofGroups g groups).rootOf u ≠ (ofGroups g groups).rootOf v) :
    (ofGroups g groups).graph.Edge ((ofGroups g groups).rootOf u)
      ((ofGroups g groups).rootOf v) := by
  refine edge_ofGroups.2 ⟨u, v, hedge, ?_, rfl, rfl⟩
  have hplace : standFor groups.owners u ≠ standFor groups.owners v := hne
  simp [isInner, hplace]

/-- A path leads to a path between what stands for its ends. -/
theorem reaches_rootOf {g : Digraph} {groups : Groups} {u v : Nat} (hpath : g.Reaches u v) :
    (ofGroups g groups).graph.Reaches ((ofGroups g groups).rootOf u)
      ((ofGroups g groups).rootOf v) := by
  induction hpath with
  | refl => exact .refl
  | @tail v w _ hedge ih =>
    by_cases heq : (ofGroups g groups).rootOf v = (ofGroups g groups).rootOf w
    · rwa [← heq]
    · exact ih.tail (edge_rootOf hedge heq)

section

variable {g : Digraph} {groups : Groups} (hgroups : groups.AreClasses g)

include hgroups

/-- A single node stands for itself alone, a group for its members. -/
theorem rootOf_eq_iff {u v : Nat} (hu : g.hasNode u) (hv : g.hasNode v) :
    (ofGroups g groups).rootOf u = (ofGroups g groups).rootOf v ↔ g.StronglyConnected u v := by
  have houter {k v : Nat} {c : NodeSet} (hc : groups[k]? = some c) (hv : g.hasNode v)
      (heq : k = v) : ∀ u ∈ c, u = v := by
    rcases hgroups.named k c hc with hnot | honly
    · exact absurd (heq ▸ hv) hnot
    · exact fun u hu => (honly u hu).trans heq
  constructor
  · intro heq
    by_cases huo : u ∈ groups.owners
    · obtain ⟨k, c, hc, huc⟩ := exists_group hgroups huo
      rw [rootOf_of_mem hgroups hc huc] at heq
      by_cases hvo : v ∈ groups.owners
      · obtain ⟨l, d, hd, hvd⟩ := exists_group hgroups hvo
        rw [rootOf_of_mem hgroups hd hvd] at heq
        subst heq
        obtain rfl : c = d := Option.some.inj (hc.symm.trans hd)
        exact ((hgroups.component k c hc).mem_iff huc).1 hvd
      · rw [rootOf_of_ungrouped hvo] at heq
        rw [houter hc hv heq u huc]
        exact .refl g v
    · rw [rootOf_of_ungrouped huo] at heq
      by_cases hvo : v ∈ groups.owners
      · obtain ⟨l, d, hd, hvd⟩ := exists_group hgroups hvo
        rw [rootOf_of_mem hgroups hd hvd] at heq
        rw [houter hd hu heq.symm v hvd]
        exact .refl g u
      · rw [rootOf_of_ungrouped hvo] at heq
        exact heq ▸ .refl g u
  · intro hstrong
    by_cases hne : u = v
    · rw [hne]
    · obtain ⟨k, c, hc, huc⟩ := hgroups.complete u v hu hne hstrong
      have hvc := ((hgroups.component k c hc).mem_iff huc).2 hstrong
      rw [rootOf_of_mem hgroups hc huc, rootOf_of_mem hgroups hc hvc]

/-- A path in the quotient comes from a path between any nodes that its ends stand for. -/
theorem reaches_of_rootOf {a b : Nat} (hpath : (ofGroups g groups).graph.Reaches a b) {u v : Nat}
    (hu : g.hasNode u) (hv : g.hasNode v) (ha : (ofGroups g groups).rootOf u = a)
    (hb : (ofGroups g groups).rootOf v = b) : g.Reaches u v := by
  induction hpath generalizing v with
  | refl => exact ((rootOf_eq_iff hgroups hu hv).1 (ha.trans hb.symm)).1
  | tail _ hedge ih =>
    obtain ⟨x, y, hxy, _, hx, hy⟩ := edge_ofGroups.1 hedge
    have hlast := (rootOf_eq_iff hgroups hxy.hasNode_right hv).1 (hy.trans hb.symm)
    exact ((ih hxy.hasNode_left hx).tail hxy).trans hlast.1

/-- No two nodes of the quotient lead to each other. -/
theorem eq_of_stronglyConnected {a b : Nat} (ha : (ofGroups g groups).graph.hasNode a)
    (hab : (ofGroups g groups).graph.StronglyConnected a b) : a = b := by
  obtain ⟨u, hu, rfl⟩ := (hasNode_ofGroups hgroups).1 ha
  obtain ⟨v, hv, rfl⟩ := (hasNode_ofGroups hgroups).1 (hab.1.hasNode ha)
  exact (rootOf_eq_iff hgroups hu hv).2
    ⟨reaches_of_rootOf hgroups hab.1 hu hv rfl rfl, reaches_of_rootOf hgroups hab.2 hv hu rfl rfl⟩

end

section

variable {g : Digraph} {groups : Groups} (hgroups : groups.AreCycles g)

include hgroups

/-- The name of a group of several nodes stands for a cycle. -/
theorem isCycle_of_group {k : Nat} {c : NodeSet} (hc : groups[k]? = some c) :
    (ofGroups g groups).isCycle k := by
  have hk : c.contains k = false := by
    rw [Bool.eq_false_iff, ne_eq, Std.ExtTreeSet.contains_iff_mem]
    exact fun hmem => hgroups.fresh k c hc (hgroups.hasNode k c hc k hmem)
  change groups[k]?.any _ = true
  simp [hc, hk]

/-- A node of the graph stands for no cycle. -/
theorem isCycle_eq_false {u : Nat} (hu : g.hasNode u) : (ofGroups g groups).isCycle u = false := by
  change groups[u]?.any _ = false
  cases hc : groups[u]? with
  | none => rfl
  | some c => exact absurd hu (hgroups.fresh u c hc)

end

/-- A condensation is the quotient of a graph by its groups. The nodes behind a node of it are those
that it stands for. -/
structure IsQuotient (c : Condensation) (g : Digraph) : Prop where
  node : ∀ a, c.graph.hasNode a ↔ ∃ u, g.hasNode u ∧ c.rootOf u = a
  edge : ∀ a b, a ≠ b →
    (c.graph.Edge a b ↔ ∃ u v, g.Edge u v ∧ c.rootOf u = a ∧ c.rootOf v = b)
  /-- Only a node that is in no group keeps an edge to itself. -/
  loop : ∀ a, c.graph.Edge a a ↔
    g.Edge a a ∧ ∀ (k : Nat) (members : NodeSet), c.groups[k]? = some members → a ∉ members
  /-- There is a path if some node behind the start reaches all behind the end. -/
  reaches_iff_some : ∀ a b, c.graph.hasNode a → c.graph.hasNode b → (c.graph.Reaches a b ↔
    ∃ u, g.hasNode u ∧ c.rootOf u = a ∧ ∀ v, g.hasNode v → c.rootOf v = b → g.Reaches u v)
  /-- Then every node behind the start does. -/
  reaches_iff_every : ∀ a b, c.graph.hasNode a → c.graph.hasNode b → (c.graph.Reaches a b ↔
    ∀ u, g.hasNode u → c.rootOf u = a → ∀ v, g.hasNode v → c.rootOf v = b → g.Reaches u v)
  acyclic : ∀ a b, c.graph.StronglyConnected a b → a = b
  /-- No cycle of several nodes is left to be found. -/
  noCycles : ∀ fresh, Groups.ofGraph c.graph 2 fresh = ∅

/-- A graph in which no two nodes lead to each other has no cycle of several nodes. -/
theorem ofGraph_eq_empty {g : Digraph} (hacyclic : ∀ a b, g.StronglyConnected a b → a = b)
    (fresh : Nat → Nat) : Groups.ofGraph g 2 fresh = ∅ := by
  have hnone : g.components.filter (2 ≤ ·.size) = [] := by
    refine List.filter_eq_nil_iff.2 fun c hc hsize => ?_
    obtain ⟨u, hu, v, hv, hne⟩ := Groups.exists_ne_of_two_le_size (of_decide_eq_true hsize)
    exact hne (hacyclic u v (((Digraph.components_sound hc).1.mem_iff hu).1 hv))
  rw [Groups.ofGraph, hnone, Groups.named, Std.ExtTreeMap.ofList_nil]

section

variable {g : Digraph} {groups : Groups} {a b : Nat} (hgroups : groups.AreClasses g)

include hgroups

theorem mem_owners_iff {u : Nat} :
    u ∈ groups.owners ↔ ∃ (k : Nat) (members : NodeSet), groups[k]? = some members ∧ u ∈ members := by
  refine ⟨exists_group hgroups, fun ⟨k, members, hk, hu⟩ => ?_⟩
  rw [← Std.ExtTreeMap.isSome_getElem?_iff_mem, hgroups.getElem?_owners.2 ⟨members, hk, hu⟩]
  rfl

/-- An edge of the quotient from a node to itself comes from one in the graph, on a node that is in no
group. -/
theorem loop_ofGroups : (ofGroups g groups).graph.Edge a a ↔ g.Edge a a ∧ a ∉ groups.owners := by
  rw [edge_ofGroups]
  constructor
  · rintro ⟨u, v, hedge, hinner, hu, hv⟩
    have houter : u ∉ groups.owners := by
      intro howned
      have hcontains : groups.owners.contains u = true := Std.ExtTreeMap.contains_iff_mem.2 howned
      have hplace : standFor groups.owners u = standFor groups.owners v := hu.trans hv.symm
      simp [isInner, hplace, hcontains] at hinner
    have hstrong := (rootOf_eq_iff hgroups hedge.hasNode_left hedge.hasNode_right).1 (hu.trans hv.symm)
    have heq : u = v := by
      by_contra hne
      obtain ⟨k, c, hc, hmem⟩ := hgroups.complete u v hedge.hasNode_left hne hstrong
      exact houter ((mem_owners_iff hgroups).2 ⟨k, c, hc, hmem⟩)
    rw [rootOf_of_ungrouped houter] at hu
    subst heq hu
    exact ⟨hedge, houter⟩
  · rintro ⟨hedge, houter⟩
    have hroot : (ofGroups g groups).rootOf a = a := rootOf_of_ungrouped houter
    have hcontains : groups.owners.contains a = false :=
      Bool.eq_false_iff.2 fun h => houter (Std.ExtTreeMap.contains_iff_mem.1 h)
    exact ⟨a, a, hedge, by simp [isInner, hcontains], hroot, hroot⟩

/-- A path in the quotient leads from any node behind its start to any node behind its end. -/
theorem reaches_ofGroups_iff {u v : Nat} (hu : g.hasNode u) (hv : g.hasNode v) :
    (ofGroups g groups).graph.Reaches ((ofGroups g groups).rootOf u) ((ofGroups g groups).rootOf v) ↔
      g.Reaches u v :=
  ⟨fun hpath => reaches_of_rootOf hgroups hpath hu hv rfl rfl, reaches_rootOf⟩

/-- In the quotient no two nodes lead to each other: their members would have been in one group. -/
theorem acyclic_ofGroups (hstrong : (ofGroups g groups).graph.StronglyConnected a b) : a = b := by
  by_cases ha : (ofGroups g groups).graph.hasNode a
  · exact eq_of_stronglyConnected hgroups ha hstrong
  · rcases Relation.ReflTransGen.cases_head hstrong.1 with heq | ⟨x, hedge, _⟩
    · exact heq
    · exact absurd (Digraph.Edge.hasNode_left hedge) ha

end

/-- Condensing a graph by the groups of its components, from one or from two members on and under
names that are no nodes, gives the quotient of the graph. -/
theorem isQuotient_ofGraph (g : Digraph) (least : Nat) (hleast : least = 1 ∨ least = 2)
    (fresh : Nat → Nat) (hfresh : ∀ i j, fresh i = fresh j → i = j)
    (hnew : ∀ i, ¬ g.hasNode (fresh i)) :
    IsQuotient (ofGroups g (Groups.ofGraph g least fresh)) g := by
  have hgroups : Groups.AreClasses g (Groups.ofGraph g least fresh) :=
    Groups.areClasses_ofGraph (by omega) hfresh hnew
  have hacyclic (a b : Nat) (h : (ofGroups g _).graph.StronglyConnected a b) : a = b :=
    acyclic_ofGroups hgroups h
  constructor
  · exact fun a => hasNode_ofGroups hgroups
  · intro a b hne
    refine ⟨fun hedge => ?_, ?_⟩
    · obtain ⟨u, v, hedge, _, hu, hv⟩ := edge_ofGroups.1 hedge
      exact ⟨u, v, hedge, hu, hv⟩
    · rintro ⟨u, v, hedge, rfl, rfl⟩
      exact edge_rootOf hedge hne
  · intro a
    rw [loop_ofGroups hgroups, mem_owners_iff hgroups]
    simp only [not_exists, not_and]
    rfl
  · intro a b ha hb
    obtain ⟨u, hu, rfl⟩ := (hasNode_ofGroups hgroups).1 ha
    obtain ⟨v, hv, rfl⟩ := (hasNode_ofGroups hgroups).1 hb
    constructor
    · exact fun hpath => ⟨u, hu, rfl, fun v hv heq => reaches_of_rootOf hgroups hpath hu hv rfl heq⟩
    · rintro ⟨u', hu', heq, hall⟩
      exact heq ▸ (reaches_ofGroups_iff hgroups hu' hv).2 (hall v hv rfl)
  · intro a b ha hb
    obtain ⟨u, hu, rfl⟩ := (hasNode_ofGroups hgroups).1 ha
    obtain ⟨v, hv, rfl⟩ := (hasNode_ofGroups hgroups).1 hb
    constructor
    · exact fun hpath u hu hua v hv hvb => reaches_of_rootOf hgroups hpath hu hv hua hvb
    · exact fun hall => (reaches_ofGroups_iff hgroups hu hv).2 (hall u hu rfl v hv rfl)
  · exact hacyclic
  · exact ofGraph_eq_empty hacyclic

/-- Two nodes that lead to each other, a third one that leads to them and to itself, and one apart. -/
def loopedGraph : Digraph := .addNode (.ofEdges [(0, 1), (1, 0), (1, 1), (2, 0), (2, 2)]) 5

theorem nodes_loopedGraph : loopedGraph.nodes = [0, 1, 2, 5] := by decide

/-- The two nodes are one group. The others are groups only if one member is enough. -/
theorem ofGraph_loopedGraph :
    Groups.ofGraph loopedGraph 2 (7 + ·) = Std.ExtTreeMap.ofList [(7, {0, 1})] ∧
      Groups.ofGraph loopedGraph 1 (7 + ·) =
        Std.ExtTreeMap.ofList [(2, {2}), (5, {5}), (7, {0, 1})] := ⟨by cbv, by cbv⟩

/-- With groups from two members on the third node keeps its edge to itself, with groups from one
member on it does not. -/
theorem isQuotient_ofGraph_loopedGraph :
    (∀ i j, 7 + i = 7 + j → i = j) ∧ (∀ i, ¬ loopedGraph.hasNode (7 + i)) ∧
      (ofGroups loopedGraph (Groups.ofGraph loopedGraph 2 (7 + ·))).graph.toList =
        [(2, [2, 7]), (5, []), (7, [])] ∧
      IsQuotient (ofGroups loopedGraph (Groups.ofGraph loopedGraph 2 (7 + ·))) loopedGraph ∧
      (ofGroups loopedGraph (Groups.ofGraph loopedGraph 1 (7 + ·))).graph.toList =
        [(2, [7]), (5, []), (7, [])] ∧
      IsQuotient (ofGroups loopedGraph (Groups.ofGraph loopedGraph 1 (7 + ·))) loopedGraph := by
  have hfresh : ∀ i j, 7 + i = 7 + j → i = j := fun i j h => Nat.add_left_cancel h
  have hnew : ∀ i, ¬ loopedGraph.hasNode (7 + i) := by
    intro i hnode
    have hmem := Digraph.mem_nodes.2 hnode
    rw [nodes_loopedGraph] at hmem
    simp only [List.mem_cons, List.not_mem_nil, or_false] at hmem
    omega
  refine ⟨hfresh, hnew, ?_, isQuotient_ofGraph loopedGraph 2 (.inr rfl) (7 + ·) hfresh hnew,
    ?_, isQuotient_ofGraph loopedGraph 1 (.inl rfl) (7 + ·) hfresh hnew⟩
  · rw [ofGraph_loopedGraph.1]
    decide
  · rw [ofGraph_loopedGraph.2]
    decide

end Condensation

end ScriptBuild
