import Mathlib.Data.List.Pairwise
import ScriptBuild.Proofs.Plan.Steps

namespace ScriptBuild

/-- The place of an action among those for one unit. -/
def Action.rank : Action → Nat
  | generate => 0
  | compile => 1
  | forwardLink => 2
  | link => 3
  | relink => 4
  | emit => 5

/-- The module of an entry point is made last. -/
theorem Action.rank_lt_of_ne_emit {a : Action} (h : a ≠ .emit) : a.rank < Action.emit.rank := by
  cases a <;> simp_all [rank]

/-- An action makes the module of its unit. -/
def Action.Links (a : Action) : Prop := a = .link ∨ a = .relink

/-- Wherever two steps stand in a plan, the first one comes before the second one. -/
def Plan.Earlier (p : Plan) (x y : Step) : Prop :=
  ∀ i j : Nat, p.steps[i]? = some x → p.steps[j]? = some y → i < j

namespace Planning

variable {c : Planning} {g : Digraph} {root u v id : Nat} {x y : Step} {node : PlanNode}
  {forwardDeclared : Bool} {members : List Nat} {a b : Action}

/-- How one step of a plan may come before another: the steps for one unit stand by their ranks, and
so do those for the members of a cycle, but that objects are made member by member; and a unit comes
before another one that it needs only in a cycle. -/
structure Scheduled (g : Digraph) (x y : Step) : Prop where
  emit : x.action ≠ .emit
  unit : x.unit = y.unit → x.action.rank < y.action.rank
  cycle : g.StronglyConnected x.unit y.unit → x.action.rank ≤ max 1 y.action.rank
  needs : y.action ≠ .emit → g.Edge x.unit y.unit → g.StronglyConnected x.unit y.unit

/-- Steps for one cycle may stand by their ranks. -/
theorem Scheduled.of_lt (hemit : x.action ≠ .emit) (hlt : x.action.rank < y.action.rank)
    (hstrong : y.action ≠ .emit → g.StronglyConnected x.unit y.unit) : Scheduled g x y :=
  ⟨hemit, fun _ => hlt, fun _ => hlt.le.trans (Nat.le_max_right _ _), fun hother _ => hstrong hother⟩

/-- Steps for different members of a cycle may stand side by side if their ranks are the same, or if
both make objects. -/
theorem Scheduled.of_ne (hemit : x.action ≠ .emit) (hne : x.unit ≠ y.unit)
    (hle : x.action.rank ≤ max 1 y.action.rank) (hstrong : g.StronglyConnected x.unit y.unit) :
    Scheduled g x y :=
  ⟨hemit, fun heq => absurd heq hne, fun _ => hle, fun _ _ => hstrong⟩

theorem Scheduled.of_apart (hemit : x.action ≠ .emit)
    (hapart : ¬ g.StronglyConnected x.unit y.unit) (hedge : ¬ g.Edge x.unit y.unit) :
    Scheduled g x y := by
  refine ⟨hemit, fun heq => ?_, fun h => absurd h hapart, fun _ h => absurd h hedge⟩
  exact absurd (heq ▸ .refl g x.unit) hapart

/-- The steps up to an object are for its unit, and rank below all links. -/
theorem rank_objectSteps (hx : x ∈ c.objectSteps forwardDeclared id) :
    x.unit = id ∧ x.action ≠ .emit ∧ x.action.rank ≤ 1 := by
  obtain ⟨hunit, _, haction⟩ := mem_objectSteps hx
  rcases haction with haction | haction <;> simp [hunit, haction, Action.rank]

/-- The steps up to an object stand by their ranks. -/
theorem objectSteps_scheduled : (c.objectSteps forwardDeclared id).Pairwise (Scheduled g) := by
  rw [objectSteps_eq]
  split
  · split
    · exact List.pairwise_pair.2 (.of_lt (by simp) (by simp [Action.rank]) fun _ => .refl g id)
    · split
      · exact .nil
      · exact List.pairwise_singleton _ _
  · exact .nil

/-- The steps of one action for all members of a cycle that make an object. -/
def linkSteps (c : Planning) (members : List Nat) (a : Action) : List Step :=
  (members.filter c.makesObject).map fun id => ⟨id, a⟩

/-- An action is taken for the members that make an object. -/
theorem mem_linkSteps : ⟨id, b⟩ ∈ c.linkSteps members a ↔
    id ∈ members ∧ c.makesObject id ∧ b = a := by
  simp only [linkSteps, List.mem_map, List.mem_filter, Step.mk.injEq]
  constructor
  · rintro ⟨_, ⟨hmem, hobject⟩, rfl, rfl⟩
    exact ⟨hmem, hobject, rfl⟩
  · rintro ⟨hmem, hobject, rfl⟩
    exact ⟨id, ⟨hmem, hobject⟩, rfl, rfl⟩

/-- Whether there is anything to do for a cycle. -/
def isStale (c : Planning) (members : List Nat) : Bool :=
  !(members.flatMap (c.objectSteps true)).isEmpty ||
    (members.filter c.makesObject).any fun id => !c.hasFile .artifact id

/-- With a module for each unit, the objects of all members come first. If anything is to be done
the stand-ins come before the links, and the members are linked again after them. -/
theorem cycleSteps_perUnit (hmode : c.mode = .perUnit) : c.cycleSteps members =
    members.flatMap (c.objectSteps true) ++
      ((if c.isStale members then c.linkSteps members .forwardLink else []) ++
        (c.linkSteps members .link ++
          if c.isStale members then c.linkSteps members .relink else [])) := by
  simp only [cycleSteps, hmode, isStale, linkSteps, beq_self_eq_true, if_true, List.append_assoc]
  rfl

/-- If there is nothing to do for a cycle, the modules of all its members are there. -/
theorem hasFile_artifact_of_fresh (hfresh : ¬ c.isStale members) (hmem : id ∈ members)
    (hobject : c.makesObject id) : c.hasFile .artifact id := by
  simp only [isStale, Bool.or_eq_true, List.any_eq_true, List.mem_filter, not_or, not_exists,
    not_and, and_imp] at hfresh
  simpa using hfresh.2 id hmem hobject

/-- The steps of a cycle are those up to the objects, the links, and, if anything is to be done,
stand-ins and second links. -/
theorem mem_cycleSteps (hmode : c.mode = .perUnit) : x ∈ c.cycleSteps members ↔
    (∃ id ∈ members, x ∈ c.objectSteps true id) ∨
      (c.isStale members ∧ x ∈ c.linkSteps members .forwardLink) ∨
      x ∈ c.linkSteps members .link ∨ (c.isStale members ∧ x ∈ c.linkSteps members .relink) := by
  have hwhen {steps : List Step} : x ∈ (if c.isStale members then steps else []) ↔
      c.isStale members ∧ x ∈ steps := by
    split
    · next hstale => exact ⟨fun hx => ⟨hstale, hx⟩, And.right⟩
    · next hfresh => exact ⟨fun hx => absurd hx List.not_mem_nil, fun h => absurd h.1 hfresh⟩
  rw [cycleSteps_perUnit hmode]
  simp only [List.mem_append, List.mem_flatMap, hwhen]

section

variable (hstrong : ∀ u ∈ members, ∀ v ∈ members, g.StronglyConnected u v)

include hstrong

/-- Steps of one action for different members may stand side by side. -/
theorem linkSteps_scheduled (hascending : members.Pairwise (· < ·)) (hemit : a ≠ .emit) :
    (c.linkSteps members a).Pairwise (Scheduled g) := by
  refine List.pairwise_map.2 ((hascending.filter _).imp_of_mem fun {u v} hu hv hlt => ?_)
  exact .of_ne hemit (Nat.ne_of_lt hlt) (Nat.le_max_right _ _)
    (hstrong u (List.mem_filter.1 hu).1 v (List.mem_filter.1 hv).1)

/-- Of the steps of a cycle, those of a later pass come after those of an earlier one. -/
theorem scheduled_of_pass (hx : x.unit ∈ members) (hy : y ∈ c.linkSteps members b)
    (hemit : x.action ≠ .emit) (hlt : x.action.rank < b.rank) : Scheduled g x y := by
  obtain ⟨hmem, _, haction⟩ := mem_linkSteps.1 hy
  refine .of_lt hemit ?_ fun _ => hstrong x.unit hx y.unit hmem
  rw [haction]
  exact hlt

/-- The steps of a cycle stand by their ranks, but for those that make objects. -/
theorem cycleSteps_scheduled (hmode : c.mode = .perUnit) (hascending : members.Pairwise (· < ·)) :
    (c.cycleSteps members).Pairwise (Scheduled g) := by
  have hpass {steps : List Step} (h : steps.Pairwise (Scheduled g)) :
      (if c.isStale members then steps else []).Pairwise (Scheduled g) := by
    split
    · exact h
    · exact .nil
  have hwhen {steps : List Step} {x : Step} (hx : x ∈ if c.isStale members then steps else []) :
      x ∈ steps := by
    split at hx
    · exact hx
    · cases hx
  rw [cycleSteps_perUnit hmode]
  refine List.pairwise_append.2 ⟨List.pairwise_flatMap.2 ⟨fun _ _ => objectSteps_scheduled, ?_⟩,
    List.pairwise_append.2 ⟨hpass (linkSteps_scheduled hstrong hascending (by simp)),
      List.pairwise_append.2 ⟨linkSteps_scheduled hstrong hascending (by simp),
        hpass (linkSteps_scheduled hstrong hascending (by simp)), ?_⟩, ?_⟩, ?_⟩
  · refine hascending.imp_of_mem fun {u v} hu hv hlt x hx y hy => ?_
    obtain ⟨rfl, hemit, hrank⟩ := rank_objectSteps hx
    obtain ⟨rfl, _, _⟩ := rank_objectSteps hy
    exact .of_ne hemit (Nat.ne_of_lt hlt) (hrank.trans (Nat.le_max_left _ _)) (hstrong _ hu _ hv)
  · intro x hx y hy
    obtain ⟨hmem, _, haction⟩ := mem_linkSteps.1 hx
    exact scheduled_of_pass hstrong hmem (hwhen hy) (by simp [haction])
      (by simp [haction, Action.rank])
  · intro x hx y hy
    obtain ⟨hmem, _, haction⟩ := mem_linkSteps.1 (hwhen hx)
    rcases List.mem_append.1 hy with hy | hy
    · exact scheduled_of_pass hstrong hmem hy (by simp [haction]) (by simp [haction, Action.rank])
    · exact scheduled_of_pass hstrong hmem (hwhen hy) (by simp [haction])
        (by simp [haction, Action.rank])
  · intro x hx y hy
    obtain ⟨id, hid, hx⟩ := List.mem_flatMap.1 hx
    obtain ⟨rfl, hemit, hrank⟩ := rank_objectSteps hx
    have hlater {b : Action} (hy : y ∈ c.linkSteps members b) (hb : 1 < b.rank) : Scheduled g x y :=
      scheduled_of_pass hstrong hid hy hemit (hrank.trans_lt hb)
    rcases List.mem_append.1 hy with hy | hy
    · exact hlater (hwhen hy) (by simp [Action.rank])
    · rcases List.mem_append.1 hy with hy | hy
      · exact hlater hy (by simp [Action.rank])
      · exact hlater (hwhen hy) (by simp [Action.rank])

end

section

variable (hunits : ∀ u, g.hasNode u → u < c.catalog.size) (hroot : root < c.catalog.size)

include hunits hroot

/-- The members of a cycle of the order all lead to each other. -/
theorem stronglyConnected_of_cycle {key : Nat}
    (hnode : .cycle key members ∈ (c.plan g root).order) :
    ∀ u ∈ members, ∀ v ∈ members, g.StronglyConnected u v := by
  obtain ⟨_, _, w, _, hclass⟩ := component_of_cycle hunits hroot hnode
  exact fun u hu v hv => ((hclass u).1 hu).symm.trans ((hclass v).1 hv)

/-- The steps of every place are scheduled. -/
theorem nodeSteps_scheduled (hmode : c.mode = .perUnit) (hnode : node ∈ (c.plan g root).order) :
    (c.nodeSteps node).Pairwise (Scheduled g) := by
  cases node with
  | unit id =>
    refine List.pairwise_append.2 ⟨objectSteps_scheduled, ?_, fun x hx y hy => ?_⟩
    · split
      · exact List.pairwise_singleton _ _
      · exact .nil
    · split at hy
      · obtain rfl := List.mem_singleton.1 hy
        obtain ⟨rfl, hemit, hrank⟩ := rank_objectSteps hx
        exact .of_lt hemit (hrank.trans_lt (by simp [Action.rank])) fun _ => .refl g x.unit
      · cases hy
  | cycle key members =>
    exact cycleSteps_scheduled (stronglyConnected_of_cycle hunits hroot hnode) hmode
      (members_ascending hunits hroot hnode)

/-- All steps of a plan are scheduled, as its places come one after the other. -/
theorem steps_scheduled (hmode : c.mode = .perUnit) :
    (c.plan g root).steps.Pairwise (Scheduled g) := by
  rw [steps_plan]
  refine List.pairwise_append.2 ⟨List.pairwise_flatMap.2
    ⟨fun node hnode => nodeSteps_scheduled hunits hroot hmode hnode, ?_⟩, ?_, fun x hx y hy => ?_⟩
  · refine ((order_pairwise hunits hroot).and (order_apart hunits hroot)).imp
      fun {a b} hab x hx y hy => ?_
    obtain ⟨hxa, _, hemit⟩ := mem_nodeSteps hx
    obtain ⟨hyb, _, _⟩ := mem_nodeSteps hy
    exact .of_apart hemit (hab.2 _ hxa _ hyb) (hab.1 _ hxa _ hyb)
  · split
    · exact List.pairwise_singleton _ _
    · exact .nil
  · split at hy
    · obtain rfl := List.mem_singleton.1 hy
      obtain ⟨node, _, hx⟩ := List.mem_flatMap.1 hx
      obtain ⟨_, _, hemit⟩ := mem_nodeSteps hx
      exact .of_lt hemit (Action.rank_lt_of_ne_emit hemit) fun hother => absurd rfl hother
    · cases hy

/-- A step comes before another one that may not come before it. -/
theorem earlier_of_not_scheduled (hmode : c.mode = .perUnit) (hne : x ≠ y)
    (hnot : ¬ Scheduled g y x) : (c.plan g root).Earlier x y := by
  intro i j hi hj
  obtain ⟨hilt, rfl⟩ := List.getElem?_eq_some_iff.1 hi
  obtain ⟨hjlt, rfl⟩ := List.getElem?_eq_some_iff.1 hj
  rcases Nat.lt_trichotomy i j with hlt | rfl | hlt
  · exact hlt
  · exact absurd rfl hne
  · exact absurd (List.pairwise_iff_getElem.1 (steps_scheduled hunits hroot hmode) j i hjlt hilt hlt)
      hnot

/-- The steps for a unit of a place are those of the place. -/
theorem mem_nodeSteps_of_mem_steps (hnode : node ∈ (c.plan g root).order) (hu : u ∈ node.units)
    (hemit : a ≠ .emit) : ⟨u, a⟩ ∈ (c.plan g root).steps ↔ ⟨u, a⟩ ∈ c.nodeSteps node := by
  rw [steps_plan, List.mem_append]
  constructor
  · rintro (hmem | hmem)
    · obtain ⟨other, hother, hx⟩ := List.mem_flatMap.1 hmem
      have hunit := (mem_nodeSteps hx).1
      have hnodup : (c.plan g root).units.Nodup := nodup_units_plan hunits hroot
      rw [Plan.units, List.nodup_flatMap] at hnodup
      by_cases heq : other = node
      · exact heq ▸ hx
      · have : Std.Symm (Function.onFun List.Disjoint PlanNode.units) :=
          ⟨fun _ _ => List.disjoint_comm.1⟩
        exact absurd hu (List.disjoint_left.1 (hnodup.2.forall hother hnode heq) hunit)
    · split at hmem
      · obtain ⟨_, rfl⟩ := Step.mk.inj (List.mem_singleton.1 hmem)
        exact absurd rfl hemit
      · cases hmem
  · exact fun hx => .inl (List.mem_flatMap.2 ⟨node, hnode, hx⟩)

/-- Every unit with an object is linked. -/
theorem link_mem_steps (hmode : c.mode = .perUnit) (hu : u ∈ (c.plan g root).units)
    (hobject : c.makesObject u) : ⟨u, .link⟩ ∈ (c.plan g root).steps := by
  obtain ⟨node, hnode, hmem⟩ := List.mem_flatMap.1 hu
  rw [mem_nodeSteps_of_mem_steps hunits hroot hnode hmem (by simp)]
  cases node with
  | unit id =>
    obtain rfl := List.mem_singleton.1 hmem
    refine List.mem_append_right _ ?_
    rw [hobject, hmode]
    exact List.mem_singleton.2 rfl
  | cycle key members =>
    exact (mem_cycleSteps hmode).2 (.inr (.inr (.inl (mem_linkSteps.2 ⟨hmem, hobject, rfl⟩))))

/-- In a cycle either nothing is to be done, or all members with an object have stand-ins. -/
theorem forwardLink_mem_steps (hmode : c.mode = .perUnit) {key : Nat}
    (hnode : .cycle key members ∈ (c.plan g root).order) (hu : u ∈ members) :
    (⟨u, .forwardLink⟩ ∈ (c.plan g root).steps ↔ c.isStale members ∧ c.makesObject u) ∧
      (⟨u, .relink⟩ ∈ (c.plan g root).steps ↔ c.isStale members ∧ c.makesObject u) := by
  have hobjects {a : Action} (ha : 1 < a.rank) : ¬ ∃ id ∈ members, ⟨u, a⟩ ∈ c.objectSteps true id := by
    rintro ⟨id, _, hx⟩
    exact absurd (rank_objectSteps hx).2.2 (Nat.not_le_of_lt ha)
  rw [mem_nodeSteps_of_mem_steps hunits hroot hnode hu (by simp),
    mem_nodeSteps_of_mem_steps hunits hroot hnode hu (by simp), nodeSteps, mem_cycleSteps hmode,
    mem_cycleSteps hmode]
  have hforward := hobjects (show 1 < Action.forwardLink.rank by simp [Action.rank])
  have hrelink := hobjects (show 1 < Action.relink.rank by simp [Action.rank])
  simp only [hforward, hrelink, mem_linkSteps, hu]
  simp

/-- What a unit needs from a place outside of its cycle is linked before it. -/
theorem earlier_outside (hmode : c.mode = .perUnit) (hself : ∀ u, ¬ g.Edge u u)
    (ha : a.Links) (hb : b.Links) (hedge : g.Edge u v) (hv : v ∉ (c.plan g root).peers u) :
    (c.plan g root).Earlier ⟨v, b⟩ ⟨u, a⟩ := by
  have hne : v ≠ u := fun heq => hself u (heq ▸ hedge)
  have hemit {a : Action} (ha : a.Links) : a ≠ .emit := by
    rcases ha with rfl | rfl <;> simp
  intro i j hi hj
  have hreaches := (mem_steps hunits hroot (List.mem_of_getElem? hj) (hemit ha)).1
  refine earlier_of_not_scheduled hunits hroot hmode (fun heq => hne (congrArg Step.unit heq))
    (fun hscheduled => hv ?_) i j hi hj
  exact (mem_peers hunits hroot hreaches).2 ⟨hne, hscheduled.needs (hemit hb) hedge⟩

/-- In a cycle in which there is anything to do, the passes follow each other. -/
theorem earlier_inside (hmode : c.mode = .perUnit) (hstrong : g.StronglyConnected u v)
    (hpass : max 1 b.rank < a.rank) : (c.plan g root).Earlier ⟨v, b⟩ ⟨u, a⟩ := by
  refine earlier_of_not_scheduled hunits hroot hmode (fun heq => ?_) fun hscheduled => ?_
  · obtain ⟨_, rfl⟩ := Step.mk.inj heq
    exact absurd hpass (Nat.not_lt_of_le (Nat.le_max_right _ _))
  · exact absurd (hscheduled.cycle hstrong) (Nat.not_le_of_lt hpass)

/-- Inside a cycle either nothing is to be done, and all modules are there, or each member is linked
after the stand-ins of its peers were made, and linked again after their modules were. -/
theorem inside_plan (hmode : c.mode = .perUnit) (hu : g.Reaches root u)
    (hobject : c.makesObject v) (hv : v ∈ (c.plan g root).peers u) :
    (∀ w, w = u ∨ w ∈ (c.plan g root).peers u → ⟨w, .forwardLink⟩ ∉ (c.plan g root).steps ∧
      ⟨w, .relink⟩ ∉ (c.plan g root).steps ∧ (c.makesObject w → c.hasFile .artifact w)) ∨
    (⟨v, .forwardLink⟩ ∈ (c.plan g root).steps ∧
      (c.plan g root).Earlier ⟨v, .forwardLink⟩ ⟨u, .link⟩ ∧
      ⟨v, .link⟩ ∈ (c.plan g root).steps ∧ (c.plan g root).Earlier ⟨v, .link⟩ ⟨u, .relink⟩) := by
  obtain ⟨hne, hstrong⟩ := (mem_peers hunits hroot hu).1 hv
  obtain ⟨key, members, hnode, hum, hvm⟩ :=
    cycle_of_component hunits hroot hu (Ne.symm hne) hstrong
  by_cases hstale : c.isStale members
  · have hreaches : g.Reaches root v := hu.trans hstrong.1
    exact .inr ⟨((forwardLink_mem_steps hunits hroot hmode hnode hvm).1).2 ⟨hstale, hobject⟩,
      earlier_inside hunits hroot hmode hstrong (by simp [Action.rank]),
      link_mem_steps hunits hroot hmode ((mem_units_plan hunits hroot).2 hreaches) hobject,
      earlier_inside hunits hroot hmode hstrong (by simp [Action.rank])⟩
  · obtain ⟨_, _, first, _, hclass⟩ := component_of_cycle hunits hroot hnode
    refine .inl fun w hw => ?_
    have hmem : w ∈ members := by
      rcases hw with rfl | hw
      · exact hum
      · exact (hclass w).2 (((hclass u).1 hum).trans ((mem_peers hunits hroot hu).1 hw).2)
    obtain ⟨hforward, hrelink⟩ := forwardLink_mem_steps hunits hroot hmode hnode hmem
    exact ⟨fun hx => hstale (hforward.1 hx).1, fun hx => hstale (hrelink.1 hx).1,
      hasFile_artifact_of_fresh hstale hmem⟩

end

end Planning

end ScriptBuild
