import ScriptBuild.Plan
import ScriptBuild.Proofs.Digraph.Postorder
import ScriptBuild.Proofs.Digraph.Quotient
import ScriptBuild.Proofs.Digraph.Subgraph

namespace ScriptBuild

/-- An order of building for `root` in a graph of `count` units. -/
structure BuildOrder (g : Digraph) (root count : Nat) (order : List PlanNode) : Prop where
  /-- No unit is built twice. -/
  nodup : (order.flatMap PlanNode.units).Nodup
  /-- What is built is what `root` leads to. -/
  mem_iff : ∀ u, u ∈ order.flatMap PlanNode.units ↔ g.Reaches root u
  /-- What is built together is a component of several units, under a name that no unit has. -/
  component_of_cycle : ∀ key members, .cycle key members ∈ order →
    count ≤ key ∧ 2 ≤ members.length ∧ ∃ u ∈ members, ∀ v, v ∈ members ↔ g.StronglyConnected u v
  /-- Units that lead to each other are built together. -/
  cycle_of_component : ∀ u v, g.Reaches root u → u ≠ v → g.StronglyConnected u v →
    ∃ key members, .cycle key members ∈ order ∧ u ∈ members ∧ v ∈ members
  /-- Different cycles have different names. -/
  key_unique : ∀ (i j key : Nat) (members others : List Nat), order[i]? = some (.cycle key members) →
    order[j]? = some (.cycle key others) → i = j
  /-- What a unit needs from another place is built at an earlier place. -/
  earlier : ∀ (i j : Nat) (x y : PlanNode) (u v : Nat), order[i]? = some x → order[j]? = some y →
    u ∈ x.units → v ∈ y.units → g.Edge u v → i ≠ j → j < i
  /-- The place of `root` is the last one. -/
  root_last : ∃ before x, order = before ++ [x] ∧ root ∈ x.units

namespace Planning

variable (c : Planning) (g : Digraph) (root : Nat)

/-- The part of a graph that is planned for. -/
def needed : Digraph := (g.subgraph root).addNode root

/-- The cycles of the part that is planned for, named by numbers that no unit has. -/
def cyclesOf : Groups := Groups.ofGraph (needed g root) 2 fun used => c.catalog.size + used

/-- The quotient from which the order is read off. -/
def quotient : Condensation := .ofGroups (needed g root) (c.cyclesOf g root)

/-- The order of a plan is the postorder of the quotient. -/
theorem order_plan : (c.plan g root).order =
    ((c.quotient g root).graph.postorder ((c.quotient g root).rootOf root)).map
      (place (c.quotient g root)) := rfl

variable {c g root}

/-- What is planned for is what the entry point reaches. -/
theorem hasNode_needed {u : Nat} : (needed g root).hasNode u ↔ g.Reaches root u := by
  rw [needed, Digraph.hasNode_addNode, Digraph.hasNode_subgraph]
  constructor
  · rintro (rfl | ⟨_, hpath⟩)
    · exact .refl
    · exact hpath
  · intro hpath
    rcases Relation.ReflTransGen.cases_head hpath with heq | ⟨w, hedge, _⟩
    · exact .inl heq.symm
    · exact .inr ⟨Digraph.Edge.hasNode_left hedge, hpath⟩

/-- It has all edges of the graph that leave one of its nodes. -/
theorem edge_needed {u v : Nat} :
    (needed g root).Edge u v ↔ g.Reaches root u ∧ g.Edge u v := by
  rw [needed, Digraph.edge_addNode, Digraph.edge_subgraph]
  constructor
  · exact And.right
  · rintro ⟨hpath, hedge⟩
    refine ⟨?_, hpath, hedge⟩
    rcases Relation.ReflTransGen.cases_head hpath with rfl | ⟨w, hfirst, _⟩
    · exact hedge.hasNode_left
    · exact Digraph.Edge.hasNode_left hfirst

theorem reaches_needed {u v : Nat} (hu : g.Reaches root u) :
    (needed g root).Reaches u v ↔ g.Reaches u v := by
  constructor
  · exact Relation.ReflTransGen.mono (fun _ _ hedge => (edge_needed.1 hedge).2) _ _
  · intro hpath
    induction hpath with
    | refl => exact .refl
    | tail hinit hedge ih => exact ih.tail (edge_needed.2 ⟨hu.trans hinit, hedge⟩)

theorem stronglyConnected_needed {u v : Nat} (hu : g.Reaches root u) :
    (needed g root).StronglyConnected u v ↔ g.StronglyConnected u v := by
  constructor
  · rintro ⟨hforth, hback⟩
    have hforth := (reaches_needed hu).1 hforth
    exact ⟨hforth, (reaches_needed (hu.trans hforth)).1 hback⟩
  · rintro ⟨hforth, hback⟩
    exact ⟨(reaches_needed hu).2 hforth, (reaches_needed (hu.trans hforth)).2 hback⟩

/-- No unit is twice at one place. -/
theorem nodup_units_place (q : Condensation) (a : Nat) : (place q a).units.Nodup := by
  unfold place
  split
  · exact Std.ExtTreeSet.distinct_toList.imp fun hne heq => hne (by simp [heq])
  · exact List.nodup_singleton a

/-- A cycle of the order has the name of its place in the quotient. -/
theorem eq_of_place_eq_cycle {q : Condensation} {a key : Nat} {members : List Nat}
    (hplace : place q a = .cycle key members) : a = key := by
  unfold place at hplace
  split at hplace
  · cases hplace
    rfl
  · cases hplace

/-- A cycle has one place. -/
theorem key_unique {i j key : Nat} {members others : List Nat}
    (hi : (c.plan g root).order[i]? = some (.cycle key members))
    (hj : (c.plan g root).order[j]? = some (.cycle key others)) : i = j := by
  rw [order_plan, List.getElem?_map, Option.map_eq_some_iff] at hi hj
  obtain ⟨a, ha, hplace⟩ := hi
  obtain ⟨b, hb, hother⟩ := hj
  obtain rfl := eq_of_place_eq_cycle hplace
  obtain rfl := eq_of_place_eq_cycle hother
  obtain ⟨hlt, _⟩ := List.getElem?_eq_some_iff.1 ha
  exact (List.getElem?_inj hlt (Digraph.nodup_postorder _ _)).1 (ha.trans hb.symm)

section

variable (hunits : ∀ u, g.hasNode u → u < c.catalog.size) (hroot : root < c.catalog.size)

include hunits hroot

/-- What the entry point reaches is a unit. -/
theorem lt_of_reaches {u : Nat} (hu : g.Reaches root u) : u < c.catalog.size := by
  rcases Relation.ReflTransGen.cases_tail_iff _ _ _ |>.1 hu with rfl | ⟨w, _, hedge⟩
  · exact hroot
  · exact hunits u (Digraph.Edge.hasNode_right hedge)

/-- The cycles are named by numbers that no unit has. -/
theorem areCycles : (c.cyclesOf g root).AreCycles (needed g root) := by
  refine Groups.areCycles_ofGraph (fun i j h => Nat.add_left_cancel h) fun i hnode => ?_
  have hlt := lt_of_reaches hunits hroot (hasNode_needed.1 hnode)
  omega

/-- The place of a cycle has its members. -/
theorem place_group {k : Nat} {members : NodeSet} (hk : (c.cyclesOf g root)[k]? = some members) :
    place (c.quotient g root) k = .cycle k members.toList := by
  have hcycle := Condensation.isCycle_of_group (areCycles hunits hroot) hk
  rw [place, quotient, if_pos hcycle]
  simp only [Condensation.ofGroups, Std.ExtTreeMap.getD_eq_getD_getElem?, hk, Option.getD_some]

/-- The place of a unit in no cycle is that of the unit. -/
theorem place_node {u : Nat} (hu : g.Reaches root u) :
    place (c.quotient g root) u = .unit u := by
  have hcycle := Condensation.isCycle_eq_false (areCycles hunits hroot) (hasNode_needed.2 hu)
  rw [place, quotient, hcycle]
  rfl

/-- The units at a place are the nodes that it stands for. -/
theorem mem_units_place {a v : Nat} (ha : (c.quotient g root).graph.hasNode a) :
    v ∈ (place (c.quotient g root) a).units ↔
      g.Reaches root v ∧ (c.quotient g root).rootOf v = a := by
  have hcycles := areCycles hunits hroot
  obtain ⟨u, hu, rfl⟩ := (Condensation.hasNode_ofGroups hcycles.toAreClasses).1 ha
  have hsame (hv : g.Reaches root v) :=
    Condensation.rootOf_eq_iff hcycles.toAreClasses (hasNode_needed.2 hv) hu
  by_cases howned : u ∈ (c.cyclesOf g root).owners
  · obtain ⟨k, members, hk, hmem⟩ := Condensation.exists_group hcycles.toAreClasses howned
    have hclass := (hcycles.component k members hk).mem_iff hmem (v := v)
    have hname : (c.quotient g root).rootOf u = k :=
      Condensation.rootOf_of_mem hcycles.toAreClasses hk hmem
    change v ∈ (place (c.quotient g root) ((c.quotient g root).rootOf u)).units ↔ _
    rw [hname, place_group hunits hroot hk, PlanNode.units, Std.ExtTreeSet.mem_toList]
    constructor
    · intro hv
      have hnode := hasNode_needed.1 (hcycles.hasNode k members hk v hv)
      exact ⟨hnode, (hsame hnode).2 (hclass.1 hv).symm⟩
    · rintro ⟨hv, hplace⟩
      exact hclass.2 ((hsame hv).1 hplace).symm
  · have hname : (c.quotient g root).rootOf u = u := Condensation.rootOf_of_ungrouped howned
    change v ∈ (place (c.quotient g root) ((c.quotient g root).rootOf u)).units ↔ _
    rw [hname, place_node hunits hroot (hasNode_needed.1 hu), PlanNode.units, List.mem_singleton]
    constructor
    · rintro rfl
      exact ⟨hasNode_needed.1 hu, rfl⟩
    · rintro ⟨hv, hplace⟩
      by_contra hne
      obtain ⟨k, members, hk, hmem⟩ :=
        hcycles.complete u v hu (Ne.symm hne) ((hsame hv).1 hplace).symm
      have howner := hcycles.getElem?_owners.2 ⟨members, hk, hmem⟩
      exact howned (Std.ExtTreeMap.isSome_getElem?_iff_mem.1 (by simp [howner]))

/-- What stands for a unit that is planned for is a node of the quotient. -/
theorem hasNode_rootOf {u : Nat} (hu : g.Reaches root u) :
    (c.quotient g root).graph.hasNode ((c.quotient g root).rootOf u) :=
  (Condensation.hasNode_ofGroups (areCycles hunits hroot).toAreClasses).2 ⟨u, hasNode_needed.2 hu, rfl⟩

/-- The places of the order are those of the nodes that are needed. -/
theorem mem_postorder_quotient {a : Nat} :
    a ∈ (c.quotient g root).graph.postorder ((c.quotient g root).rootOf root) ↔
      ∃ u, g.Reaches root u ∧ (c.quotient g root).rootOf u = a := by
  rw [Digraph.mem_postorder]
  constructor
  · rintro ⟨hstart, hpath⟩
    obtain ⟨u, hu, hname⟩ :=
      (Condensation.hasNode_ofGroups (areCycles hunits hroot).toAreClasses).1 (hpath.hasNode hstart)
    exact ⟨u, hasNode_needed.1 hu, hname⟩
  · rintro ⟨u, hu, rfl⟩
    exact ⟨hasNode_rootOf hunits hroot .refl,
      Condensation.reaches_rootOf ((reaches_needed .refl).2 hu)⟩

/-- A unit is at no two places. -/
theorem place_unique {a b v : Nat} (ha : (c.quotient g root).graph.hasNode a)
    (hb : (c.quotient g root).graph.hasNode b)
    (hva : v ∈ (place (c.quotient g root) a).units)
    (hvb : v ∈ (place (c.quotient g root) b).units) : a = b := by
  have ha := ((mem_units_place hunits hroot ha).1 hva).2
  have hb := ((mem_units_place hunits hroot hb).1 hvb).2
  exact ha.symm.trans hb

theorem hasNode_of_mem_postorder {a : Nat}
    (ha : a ∈ (c.quotient g root).graph.postorder ((c.quotient g root).rootOf root)) :
    (c.quotient g root).graph.hasNode a := by
  obtain ⟨u, hu, rfl⟩ := (mem_postorder_quotient hunits hroot).1 ha
  exact hasNode_rootOf hunits hroot hu

/-- A plan has exactly the units that the entry point reaches. -/
theorem mem_units_plan {u : Nat} : u ∈ (c.plan g root).units ↔ g.Reaches root u := by
  rw [Plan.units, order_plan, List.flatMap_map, List.mem_flatMap]
  constructor
  · rintro ⟨a, ha, hu⟩
    exact ((mem_units_place hunits hroot (hasNode_of_mem_postorder hunits hroot ha)).1 hu).1
  · intro hu
    refine ⟨(c.quotient g root).rootOf u, (mem_postorder_quotient hunits hroot).2 ⟨u, hu, rfl⟩, ?_⟩
    exact (mem_units_place hunits hroot (hasNode_rootOf hunits hroot hu)).2 ⟨hu, rfl⟩

/-- It has each of them once. -/
theorem nodup_units_plan : (c.plan g root).units.Nodup := by
  rw [Plan.units, order_plan, List.flatMap_map, List.nodup_flatMap]
  refine ⟨fun a _ => nodup_units_place _ a, ?_⟩
  refine (Digraph.nodup_postorder _ _).imp_of_mem fun {a b} ha hb hne u hua hub => hne ?_
  exact place_unique hunits hroot (hasNode_of_mem_postorder hunits hroot ha)
    (hasNode_of_mem_postorder hunits hroot hb) hua hub

/-- A cycle of the order is a group of the quotient under its name. -/
theorem exists_group_of_cycle {key : Nat} {members : List Nat}
    (hmem : .cycle key members ∈ (c.plan g root).order) :
    ∃ group, (c.cyclesOf g root)[key]? = some group ∧ members = group.toList := by
  rw [order_plan, List.mem_map] at hmem
  obtain ⟨a, ha, hplace⟩ := hmem
  obtain ⟨u, hu, rfl⟩ := (mem_postorder_quotient hunits hroot).1 ha
  by_cases howned : u ∈ (c.cyclesOf g root).owners
  · obtain ⟨k, group, hk, hgroup⟩ := Condensation.exists_group (areCycles hunits hroot).toAreClasses howned
    have hname : (c.quotient g root).rootOf u = k :=
      Condensation.rootOf_of_mem (areCycles hunits hroot).toAreClasses hk hgroup
    rw [hname, place_group hunits hroot hk] at hplace
    cases hplace
    exact ⟨group, hk, rfl⟩
  · have hname : (c.quotient g root).rootOf u = u := Condensation.rootOf_of_ungrouped howned
    rw [hname, place_node hunits hroot hu] at hplace
    cases hplace

/-- A cycle has a name that no unit has, at least two members, and all that are strongly connected
with them. -/
theorem component_of_cycle {key : Nat} {members : List Nat}
    (hmem : .cycle key members ∈ (c.plan g root).order) :
    c.catalog.size ≤ key ∧ 2 ≤ members.length ∧
      ∃ u ∈ members, ∀ v, v ∈ members ↔ g.StronglyConnected u v := by
  obtain ⟨group, hgroup, rfl⟩ := exists_group_of_cycle hunits hroot hmem
  have hcycles := areCycles hunits hroot
  obtain ⟨used, _, hkey⟩ := (Groups.getElem?_ofGraph fun i j h => Nat.add_left_cancel h).1 hgroup
  refine ⟨by omega, ?_, ?_⟩
  · rw [Std.ExtTreeSet.length_toList]
    exact hcycles.size key group hgroup
  · obtain ⟨u, hu, hclass⟩ := hcycles.component key group hgroup
    have hnode := hasNode_needed.1 (hcycles.hasNode key group hgroup u hu)
    refine ⟨u, Std.ExtTreeSet.mem_toList.2 hu, fun v => ?_⟩
    rw [Std.ExtTreeSet.mem_toList, hclass, stronglyConnected_needed hnode]

/-- Two units that need each other are in one cycle. -/
theorem cycle_of_component {u v : Nat} (hu : g.Reaches root u) (hne : u ≠ v)
    (hstrong : g.StronglyConnected u v) :
    ∃ key members, .cycle key members ∈ (c.plan g root).order ∧ u ∈ members ∧ v ∈ members := by
  have hcycles : (c.cyclesOf g root).AreCycles (needed g root) := areCycles hunits hroot
  have hinner := (stronglyConnected_needed hu).2 hstrong
  obtain ⟨key, group, hgroup, hmem⟩ := hcycles.complete u v (hasNode_needed.2 hu) hne hinner
  have hv := ((hcycles.component key group hgroup).mem_iff hmem).2 hinner
  refine ⟨key, group.toList, ?_, Std.ExtTreeSet.mem_toList.2 hmem, Std.ExtTreeSet.mem_toList.2 hv⟩
  rw [order_plan, List.mem_map]
  refine ⟨key, (mem_postorder_quotient hunits hroot).2 ⟨u, hu, ?_⟩, place_group hunits hroot hgroup⟩
  exact Condensation.rootOf_of_mem hcycles.toAreClasses hgroup hmem

/-- A unit at an earlier place needs nothing from a later one. -/
theorem order_pairwise : (c.plan g root).order.Pairwise fun x y =>
    ∀ u ∈ x.units, ∀ v ∈ y.units, ¬ g.Edge u v := by
  rw [order_plan, List.pairwise_map]
  have hpairs := (Digraph.postorder_pairwise (c.quotient g root).graph
    ((c.quotient g root).rootOf root)).and (Digraph.nodup_postorder _ _)
  refine hpairs.imp_of_mem fun {a b} ha hb hab u hu v hv hedge => ?_
  have ha := hasNode_of_mem_postorder hunits hroot ha
  have hb := hasNode_of_mem_postorder hunits hroot hb
  obtain ⟨hru, hua⟩ := (mem_units_place hunits hroot ha).1 hu
  obtain ⟨_, hvb⟩ := (mem_units_place hunits hroot hb).1 hv
  have hquotient : (c.quotient g root).graph.Edge a b := by
    rw [← hua, ← hvb]
    refine Condensation.edge_rootOf (edge_needed.2 ⟨hru, hedge⟩) fun heq => hab.2 ?_
    exact hua.symm.trans (heq.trans hvb)
  refine hab.2 (Condensation.eq_of_stronglyConnected (areCycles hunits hroot).toAreClasses ha ?_)
  exact ⟨.single hquotient, hab.1 hquotient⟩

/-- A unit that another one needs has an earlier place, unless they share one. -/
theorem earlier {i j : Nat} {x y : PlanNode} {u v : Nat} (hi : (c.plan g root).order[i]? = some x)
    (hj : (c.plan g root).order[j]? = some y) (hu : u ∈ x.units) (hv : v ∈ y.units)
    (hedge : g.Edge u v) (hne : i ≠ j) : j < i := by
  by_contra hnot
  obtain ⟨hilt, rfl⟩ := List.getElem?_eq_some_iff.1 hi
  obtain ⟨hjlt, rfl⟩ := List.getElem?_eq_some_iff.1 hj
  have hpairs := List.pairwise_iff_getElem.1 (order_pairwise hunits hroot)
  exact hpairs i j hilt hjlt (by omega) u hu v hv hedge

/-- The place of the entry point is the last one. -/
theorem root_last : ∃ before x, (c.plan g root).order = before ++ [x] ∧ root ∈ x.units := by
  have hstart := hasNode_rootOf hunits hroot (Relation.ReflTransGen.refl : g.Reaches root root)
  obtain ⟨below, hlist⟩ := Digraph.postorder_eq_append hstart
  refine ⟨below.map (place (c.quotient g root)),
    place (c.quotient g root) ((c.quotient g root).rootOf root), ?_, ?_⟩
  · rw [order_plan, hlist, List.map_append, List.map_singleton]
  · exact (mem_units_place hunits hroot hstart).2 ⟨.refl, rfl⟩

end

/-- In the order of a plan each unit that the entry point leads to stands once, together with exactly
those units that it leads to and that lead back, after everything else that it depends on; the place
of the entry point is the last one. This holds in either mode and whatever was built before. -/
theorem buildOrder_plan (c : Planning) (g : Digraph) (root : Nat)
    (hunits : ∀ u, g.hasNode u → u < c.catalog.size) (hroot : root < c.catalog.size) :
    BuildOrder g root c.catalog.size (c.plan g root).order where
  nodup := nodup_units_plan hunits hroot
  mem_iff _ := mem_units_plan hunits hroot
  component_of_cycle _ _ := component_of_cycle hunits hroot
  cycle_of_component _ _ := cycle_of_component hunits hroot
  key_unique _ _ _ _ _ := key_unique
  earlier _ _ _ _ _ _ := earlier hunits hroot
  root_last := root_last hunits hroot

/-- An entry point that calls a function, which shares a cycle with another one and calls itself. -/
def mutualGraph : Digraph := .ofEdges [(0, 1), (1, 2), (2, 1), (2, 2)]

/-- A fresh build of three scripts into one module. -/
def threeScripts : Planning where
  catalog := .ofList [⟨"main", 0, .script ⟨"main.m"⟩, 1, none, []⟩,
    ⟨"even", 0, .script ⟨"even.m"⟩, 1, none, []⟩, ⟨"odd", 0, .script ⟨"odd.m"⟩, 1, none, []⟩]
  mode := .single
  freshness _ := .new
  present _ _ := false

/-- The cycle comes before the entry point that calls it. -/
theorem buildOrder_plan_mutualGraph :
    (∀ u, mutualGraph.hasNode u → u < 3) ∧ 0 < 3 ∧
      (threeScripts.plan mutualGraph 0).order = [.cycle 3 [1, 2], .unit 0] ∧
      BuildOrder mutualGraph 0 3 (threeScripts.plan mutualGraph 0).order := by
  have hunits : ∀ u, mutualGraph.hasNode u → u < 3 := by
    intro u hu
    have hnodes : mutualGraph.nodes = [0, 1, 2] := by cbv
    have hmem := Digraph.mem_nodes.2 hu
    rw [hnodes] at hmem
    simp only [List.mem_cons, List.not_mem_nil, or_false] at hmem
    omega
  exact ⟨hunits, by decide, by cbv, buildOrder_plan threeScripts mutualGraph 0 hunits (by decide)⟩

end Planning

end ScriptBuild
