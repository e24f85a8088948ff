import ScriptBuild.Proofs.Plan.Links

namespace ScriptBuild

/-- A step that comes before another one is among the steps before it. -/
theorem Plan.Earlier.mem_before {p : Plan} {x y : Step} {before after : List Step}
    (h : p.Earlier y x) (hsteps : p.steps = before ++ x :: after) (hy : y ∈ p.steps) :
    y ∈ before := by
  obtain ⟨i, hi⟩ := List.getElem?_of_mem hy
  have hx : p.steps[before.length]? = some x := by simp [hsteps]
  have hlt := h i before.length hi hx
  rw [hsteps, List.getElem?_append_left hlt] at hi
  exact List.mem_of_getElem? hi

namespace Planning

variable {c : Planning} {g : Digraph} {root u v id : Nat} {x : Step} {node : PlanNode}
  {a : Action} {forwardDeclared : Bool} {members : List Nat} {before after : List Step}

/-- A unit is compiled unless its object is there and its code stays. -/
theorem compile_mem_objectSteps (hobject : c.makesObject id) :
    c.hasFile .object id ∨ ⟨id, .compile⟩ ∈ c.objectSteps forwardDeclared id := by
  rw [objectSteps_eq, if_pos hobject]
  split
  · exact .inr (List.mem_cons_of_mem _ List.mem_cons_self)
  · split
    · next hthere => exact .inl hthere
    · exact .inr (List.mem_singleton.2 rfl)

/-- A unit whose code is not generated has a source, and forward declarations if it needs them. -/
theorem generate_mem_of_absent (hobject : c.makesObject id)
    (habsent : ¬ c.hasFile .source id ∨ forwardDeclared ∧ ¬ c.hasFile .forwardSource id) :
    ⟨id, .generate⟩ ∈ c.objectSteps forwardDeclared id := by
  have hgenerates : c.generates forwardDeclared id := by
    unfold generates
    rcases habsent with habsent | ⟨hforward, habsent⟩
    · simp [habsent]
    · simp [hforward, habsent]
  rw [objectSteps_eq, if_pos hobject, if_pos hgenerates]
  exact List.mem_cons_self

/-- The steps of a place have those up to the objects of its units. -/
theorem objectSteps_subset_nodeSteps (hid : id ∈ node.units) :
    ∃ forwardDeclared, c.objectSteps forwardDeclared id ⊆ c.nodeSteps node ∧
      (c.mode = .perUnit → ∀ key members, node = .cycle key members → forwardDeclared = true) := by
  cases node with
  | unit other =>
    obtain rfl := List.mem_singleton.1 hid
    refine ⟨false, fun x hx => List.mem_append_left _ hx, ?_⟩
    intro _ key members hcycle
    cases hcycle
  | cycle key members =>
    obtain ⟨links, hsteps, -⟩ := cycleSteps_eq c members
    refine ⟨c.mode == .perUnit, fun x hx => ?_, ?_⟩
    · rw [nodeSteps, hsteps]
      exact List.mem_append_left _ (List.mem_flatMap.2 ⟨id, hid, hx⟩)
    · intro hmode _ _ _
      rw [hmode]
      rfl

/-- Units are linked only if each has a module. -/
theorem mode_of_mem_nodeSteps (hx : x ∈ c.nodeSteps node)
    (hrank : Action.compile.rank < x.action.rank) : c.mode = .perUnit := by
  have hobjects {forwardDeclared : Bool} (hx : x ∈ c.objectSteps forwardDeclared x.unit) : False := by
    have hle := (rank_objectSteps hx).2.2
    have hcompile : Action.compile.rank = 1 := rfl
    omega
  cases node with
  | unit id =>
    rcases List.mem_append.1 hx with hx | hx
    · obtain ⟨hunit, -⟩ := mem_objectSteps hx
      rw [← hunit] at hx
      exact (hobjects hx).elim
    · split at hx
      · next hlink =>
        simp only [Bool.and_eq_true, beq_iff_eq] at hlink
        exact hlink.2
      · cases hx
  | cycle key members =>
    by_contra hmode
    simp only [nodeSteps, cycleSteps, beq_iff_eq, hmode, if_false] at hx
    obtain ⟨id, -, hx⟩ := List.mem_flatMap.1 hx
    obtain ⟨hunit, -⟩ := mem_objectSteps hx
    rw [← hunit] at hx
    exact hobjects hx

/-- Modules of units are made only if there is one for each. -/
theorem mode_of_mem_steps (hx : x ∈ (c.plan g root).steps)
    (hrank : Action.compile.rank < x.action.rank) (hemit : x.action ≠ .emit) :
    c.mode = .perUnit := by
  rw [steps_plan] at hx
  rcases List.mem_append.1 hx with hx | hx
  · obtain ⟨node, -, hx⟩ := List.mem_flatMap.1 hx
    exact mode_of_mem_nodeSteps hx hrank
  · split at hx
    · obtain rfl := List.mem_singleton.1 hx
      exact absurd rfl hemit
    · cases hx

/-- The final module is made for the entry point, which is translated. -/
theorem unit_of_emit (hx : x ∈ (c.plan g root).steps) (hemit : x.action = .emit) :
    x = ⟨root, .emit⟩ ∧ c.makesObject root := by
  rw [steps_plan] at hx
  rcases List.mem_append.1 hx with hx | hx
  · obtain ⟨node, -, hx⟩ := List.mem_flatMap.1 hx
    exact absurd hemit (mem_nodeSteps hx).2.2
  · split at hx
    · next htranslate =>
      have htreatment : c.treatment root = .translate := by simpa using htranslate
      refine ⟨List.mem_singleton.1 hx, ?_⟩
      rw [makesObject, htreatment]
      rfl
    · cases hx

section

variable (hunits : ∀ u, g.hasNode u → u < c.catalog.size) (hroot : root < c.catalog.size)

include hunits hroot

/-- The steps of a plan have those up to the objects of its units. -/
theorem objectSteps_subset_steps (hid : g.Reaches root id) :
    ∃ forwardDeclared, c.objectSteps forwardDeclared id ⊆ (c.plan g root).steps := by
  obtain ⟨node, hnode, hmem⟩ := List.mem_flatMap.1 ((mem_units_plan hunits hroot).2 hid)
  obtain ⟨forwardDeclared, hsubset, -⟩ := objectSteps_subset_nodeSteps (c := c) hmem
  refine ⟨forwardDeclared, fun x hx => ?_⟩
  rw [steps_plan]
  exact List.mem_append_left _ (List.mem_flatMap.2 ⟨node, hnode, hsubset hx⟩)

/-- The object of a unit is there, or the unit is compiled. -/
theorem compile_mem_steps (hid : g.Reaches root id) (hobject : c.makesObject id) :
    c.hasFile .object id ∨ ⟨id, .compile⟩ ∈ (c.plan g root).steps := by
  obtain ⟨forwardDeclared, hsubset⟩ := objectSteps_subset_steps hunits hroot hid
  exact (compile_mem_objectSteps hobject).imp_right fun hmem => hsubset hmem

/-- A unit that is compiled has a source by then. -/
theorem source_before_compile
    (hsteps : (c.plan g root).steps = before ++ ⟨id, .compile⟩ :: after) :
    c.hasFile .source id ∨ ⟨id, .generate⟩ ∈ before := by
  have hmem : ⟨id, .compile⟩ ∈ (c.plan g root).steps := by
    rw [hsteps]
    exact List.mem_append_right _ List.mem_cons_self
  obtain ⟨hreaches, hobject⟩ := mem_steps hunits hroot hmem (by simp)
  by_cases hsource : c.hasFile .source id
  · exact .inl hsource
  · refine .inr ((generated_before_compile hunits hroot hsteps (.inl rfl) hobject hsource).2 ?_)
    rintro ⟨-, hlt⟩
    omega

/-- A member of a cycle of the order is in a cycle of the plan. -/
theorem isCyclic_of_mem {key : Nat} (hnode : .cycle key members ∈ (c.plan g root).order)
    (hid : id ∈ members) : (c.plan g root).isCyclic id := by
  obtain ⟨group, hgroup, rfl⟩ := exists_group_of_cycle hunits hroot hnode
  have hcycles : (c.cyclesOf g root).AreCycles (needed g root) := areCycles hunits hroot
  have hname : (c.quotient g root).rootOf id = key :=
    Condensation.rootOf_of_mem hcycles.toAreClasses hgroup (Std.ExtTreeSet.mem_toList.1 hid)
  change (c.quotient g root).isCycle ((c.quotient g root).rootOf id) = true
  rw [hname]
  exact Condensation.isCycle_of_group hcycles hgroup

/-- Only members of cycles have stand-ins. -/
theorem cycle_of_forwardLink (hmem : ⟨id, .forwardLink⟩ ∈ (c.plan g root).steps) :
    ∃ key members, .cycle key members ∈ (c.plan g root).order ∧ id ∈ members := by
  obtain ⟨hreaches, -⟩ := mem_steps hunits hroot hmem (by simp)
  obtain ⟨node, hnode, hid⟩ := List.mem_flatMap.1 ((mem_units_plan hunits hroot).2 hreaches)
  rw [mem_nodeSteps_of_mem_steps hunits hroot hnode hid (by simp)] at hmem
  cases node with
  | cycle key members => exact ⟨key, members, hnode, hid⟩
  | unit other =>
    rcases List.mem_append.1 hmem with hmem | hmem
    · obtain ⟨-, -, haction⟩ := mem_objectSteps hmem
      simp at haction
    · split at hmem
      · simp at hmem
      · cases hmem

section

variable (hmode : c.mode = .perUnit)

include hmode

/-- A step for a unit whose action has a higher rank comes later. -/
theorem earlier_of_rank {b : Action} (hlt : b.rank < a.rank) :
    (c.plan g root).Earlier ⟨u, b⟩ ⟨u, a⟩ := by
  refine earlier_of_not_scheduled hunits hroot hmode ?_ ?_
  · intro heq
    have hrank := congrArg (·.action.rank) heq
    simp only at hrank
    omega
  · intro hscheduled
    have hrank := hscheduled.unit rfl
    simp only at hrank
    omega

/-- A unit that is linked has an object by then. -/
theorem object_before_link (hlinks : a.Links)
    (hsteps : (c.plan g root).steps = before ++ ⟨id, a⟩ :: after) :
    c.hasFile .object id ∨ ⟨id, .compile⟩ ∈ before := by
  have hmem : ⟨id, a⟩ ∈ (c.plan g root).steps := by
    rw [hsteps]
    exact List.mem_append_right _ List.mem_cons_self
  have hrank : Action.compile.rank < a.rank := by
    rcases hlinks with rfl | rfl <;> simp [Action.rank]
  obtain ⟨hreaches, hobject⟩ :=
    mem_steps hunits hroot hmem (by rcases hlinks with rfl | rfl <;> simp)
  refine (compile_mem_steps hunits hroot hreaches hobject).imp_right ?_
  intro hcompiled
  exact (earlier_of_rank hunits hroot hmode hrank).mem_before hsteps hcompiled

/-- A unit has forward declarations when its stand-in is made. -/
theorem forwardSource_before_forwardLink
    (hsteps : (c.plan g root).steps = before ++ ⟨id, .forwardLink⟩ :: after) :
    c.hasFile .forwardSource id ∨
      ⟨id, .generate⟩ ∈ before ∧ (c.plan g root).isCyclic id := by
  have hmem : ⟨id, .forwardLink⟩ ∈ (c.plan g root).steps := by
    rw [hsteps]
    exact List.mem_append_right _ List.mem_cons_self
  obtain ⟨-, hobject⟩ := mem_steps hunits hroot hmem (by simp)
  obtain ⟨key, members, hnode, hid⟩ := cycle_of_forwardLink hunits hroot hmem
  by_cases hforward : c.hasFile .forwardSource id
  · exact .inl hforward
  · refine .inr ⟨?_, isCyclic_of_mem hunits hroot hnode hid⟩
    have hunit : id ∈ (PlanNode.cycle key members).units := hid
    obtain ⟨forwardDeclared, hsubset, hdeclared⟩ := objectSteps_subset_nodeSteps (c := c) hunit
    have hgenerated : ⟨id, .generate⟩ ∈ (c.plan g root).steps := by
      rw [steps_plan]
      refine List.mem_append_left _ (List.mem_flatMap.2 ⟨_, hnode, hsubset ?_⟩)
      exact generate_mem_of_absent hobject (.inr ⟨hdeclared hmode key members rfl, hforward⟩)
    have hearlier : (c.plan g root).Earlier ⟨id, .generate⟩ ⟨id, .forwardLink⟩ :=
      earlier_of_rank hunits hroot hmode (by simp [Action.rank])
    exact hearlier.mem_before hsteps hgenerated

/-- On the first pass through a cycle the stand-ins of all peers are there. -/
theorem standIn_before_link (hsteps : (c.plan g root).steps = before ++ ⟨u, .link⟩ :: after)
    (hforward : ⟨u, .forwardLink⟩ ∈ (c.plan g root).steps) (hobject : c.makesObject v)
    (hpeer : v ∈ (c.plan g root).peers u) : ⟨v, .forwardLink⟩ ∈ before := by
  obtain ⟨hreaches, -⟩ := mem_steps hunits hroot hforward (by simp)
  rcases inside_plan hunits hroot hmode hreaches hobject hpeer with hfresh | ⟨hmade, hearlier, -⟩
  · exact absurd hforward (hfresh u (.inl rfl)).1
  · exact hearlier.mem_before hsteps hmade

/-- The module of a unit that is needed is there when another one is linked against it: modules of
    peers are not needed where their stand-ins are. -/
theorem artifact_before_link (hself : ∀ u, ¬ g.Edge u u) (hlinks : a.Links)
    (hsteps : (c.plan g root).steps = before ++ ⟨u, a⟩ :: after) (hedge : g.Edge u v)
    (hobject : c.makesObject v)
    (hdirect : a = .link → ⟨u, .forwardLink⟩ ∈ (c.plan g root).steps →
      v ∉ (c.plan g root).peers u) :
    c.hasFile .artifact v ∨ ⟨v, .link⟩ ∈ before := by
  have hmem : ⟨u, a⟩ ∈ (c.plan g root).steps := by
    rw [hsteps]
    exact List.mem_append_right _ List.mem_cons_self
  obtain ⟨hreaches, hmakes⟩ :=
    mem_steps hunits hroot hmem (by rcases hlinks with rfl | rfl <;> simp)
  have hlinked : ⟨v, .link⟩ ∈ (c.plan g root).steps :=
    link_mem_steps hunits hroot hmode ((mem_units_plan hunits hroot).2 (hreaches.tail hedge)) hobject
  by_cases hpeer : v ∈ (c.plan g root).peers u
  · have hback : u ∈ (c.plan g root).peers v := by
      obtain ⟨hne, hstrong⟩ := (mem_peers hunits hroot hreaches).1 hpeer
      exact (mem_peers hunits hroot (hreaches.tail hedge)).2 ⟨hne.symm, hstrong.symm⟩
    rcases inside_plan hunits hroot hmode hreaches hobject hpeer with
      hfresh | ⟨hmade, -, -, hearlier⟩
    · exact .inl ((hfresh v (.inr hpeer)).2.2 hobject)
    · rcases hlinks with rfl | rfl
      · -- The unit has a stand-in as well, since its peer has one.
        rcases inside_plan hunits hroot hmode (hreaches.tail hedge) hmakes hback with
          hfresh | ⟨hforward, -⟩
        · exact absurd hmade (hfresh v (.inl rfl)).1
        · exact absurd hpeer (hdirect rfl hforward)
      · exact .inr (hearlier.mem_before hsteps hlinked)
  · have hearlier : (c.plan g root).Earlier ⟨v, .link⟩ ⟨u, a⟩ :=
      earlier_outside hunits hroot hmode hself hlinks (.inl rfl) hedge hpeer
    exact .inr (hearlier.mem_before hsteps hlinked)

end

/-- The final module is the last thing that is made. -/
theorem mem_before_emit (hsteps : (c.plan g root).steps = before ++ ⟨root, .emit⟩ :: after)
    (hx : x ∈ (c.plan g root).steps) (hemit : x.action ≠ .emit) : x ∈ before := by
  have hpairs := steps_pairwise hunits hroot
  rw [hsteps, List.pairwise_append, List.pairwise_cons] at hpairs
  rw [hsteps, List.mem_append, List.mem_cons] at hx
  rcases hx with hx | rfl | hx
  · exact hx
  · exact absurd rfl hemit
  · exact absurd rfl (hpairs.2.1.1 x hx).emit

/-- All objects of a plan are there when the final module is made. -/
theorem object_before_emit (hsteps : (c.plan g root).steps = before ++ ⟨root, .emit⟩ :: after)
    (hid : id ∈ (c.plan g root).units) (hobject : c.makesObject id) :
    c.hasFile .object id ∨ ⟨id, .compile⟩ ∈ before := by
  have hreaches := (mem_units_plan hunits hroot).1 hid
  refine (compile_mem_steps hunits hroot hreaches hobject).imp_right ?_
  intro hcompiled
  exact mem_before_emit hunits hroot hsteps hcompiled (by simp)

/-- With a module for each unit, the one of the entry point is there when it is copied. -/
theorem artifact_before_emit (hmode : c.mode = .perUnit)
    (hsteps : (c.plan g root).steps = before ++ ⟨root, .emit⟩ :: after)
    (hobject : c.makesObject root) : ⟨root, .link⟩ ∈ before := by
  have hlinked : ⟨root, .link⟩ ∈ (c.plan g root).steps :=
    link_mem_steps hunits hroot hmode ((mem_units_plan hunits hroot).2 .refl) hobject
  exact mem_before_emit hunits hroot hsteps hlinked (by simp)

end

end Planning

end ScriptBuild
