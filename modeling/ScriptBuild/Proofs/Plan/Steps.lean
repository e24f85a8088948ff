import ScriptBuild.Proofs.Plan.Order

namespace ScriptBuild

namespace Planning

variable {c : Planning} {g : Digraph} {root u v id : Nat} {x y : Step} {node : PlanNode}
  {forwardDeclared : Bool} {members : List Nat} {before after : List Step}

/-- A unit that makes an object is compiled after its code is generated. If none is generated, it is
compiled only if the object is missing. -/
theorem objectSteps_eq : c.objectSteps forwardDeclared id =
    if c.makesObject id then
      if c.generates forwardDeclared id then [⟨id, .generate⟩, ⟨id, .compile⟩]
      else if c.hasFile .object id then [] else [⟨id, .compile⟩]
    else [] := by
  simp only [objectSteps]
  split
  · cases c.generates forwardDeclared id with
    | true => rfl
    | false => cases c.hasFile .object id <;> rfl
  · rfl

/-- The steps up to an object are for a unit that makes one. -/
theorem mem_objectSteps (hx : x ∈ c.objectSteps forwardDeclared id) :
    x.unit = id ∧ c.makesObject id ∧ (x.action = .generate ∨ x.action = .compile) := by
  rw [objectSteps_eq] at hx
  split at hx
  · next hobject =>
    split at hx
    · simp only [List.mem_cons, List.not_mem_nil, or_false] at hx
      rcases hx with rfl | rfl
      · exact ⟨rfl, hobject, .inl rfl⟩
      · exact ⟨rfl, hobject, .inr rfl⟩
    · split at hx
      · cases hx
      · obtain rfl := List.mem_singleton.1 hx
        exact ⟨rfl, hobject, .inr rfl⟩
  · cases hx

/-- Code is generated for a unit that is not old, and for one whose source is not there. -/
theorem generate_mem_objectSteps (hobject : c.makesObject id) (hgenerates : c.generates false id) :
    ⟨id, .generate⟩ ∈ c.objectSteps forwardDeclared id := by
  have hgenerates' : c.generates forwardDeclared id := by
    rw [generates, Bool.false_and, Bool.or_false] at hgenerates
    rw [generates, hgenerates, Bool.true_or]
  rw [objectSteps_eq, if_pos hobject, if_pos hgenerates']
  exact List.mem_cons_self

/-- The steps of a cycle after the objects of its members are links. -/
theorem cycleSteps_eq (c : Planning) (members : List Nat) : ∃ links, c.cycleSteps members =
    members.flatMap (c.objectSteps (c.mode == .perUnit)) ++ links ∧
      ∀ x ∈ links, x.unit ∈ members ∧ c.makesObject x.unit ∧ x.action ≠ .emit ∧
        x.action ≠ .generate ∧ x.action ≠ .compile := by
  have hlinks {action : Action} (hemit : action ≠ .emit) (hgenerate : action ≠ .generate)
      (hcompile : action ≠ .compile) :
      ∀ x ∈ (members.filter c.makesObject).map fun id => (⟨id, action⟩ : Step),
        x.unit ∈ members ∧ c.makesObject x.unit ∧ x.action ≠ .emit ∧ x.action ≠ .generate ∧
          x.action ≠ .compile := by
    intro x hx
    obtain ⟨id, hid, rfl⟩ := List.mem_map.1 hx
    obtain ⟨hmem, hobject⟩ := List.mem_filter.1 hid
    exact ⟨hmem, hobject, hemit, hgenerate, hcompile⟩
  simp only [cycleSteps]
  split
  · rw [List.append_assoc, List.append_assoc]
    refine ⟨_, rfl, fun x hx => ?_⟩
    rcases List.mem_append.1 hx with hx | hx
    · split at hx
      · exact hlinks (by decide) (by decide) (by decide) x hx
      · cases hx
    · rcases List.mem_append.1 hx with hx | hx
      · exact hlinks (by decide) (by decide) (by decide) x hx
      · split at hx
        · exact hlinks (by decide) (by decide) (by decide) x hx
        · cases hx
  · exact ⟨[], (List.append_nil _).symm, fun x hx => absurd hx List.not_mem_nil⟩

/-- The steps of a place are for its units. -/
theorem mem_nodeSteps (hx : x ∈ c.nodeSteps node) :
    x.unit ∈ node.units ∧ c.makesObject x.unit ∧ x.action ≠ .emit := by
  have hobjects {forwardDeclared : Bool} {id : Nat} (hx : x ∈ c.objectSteps forwardDeclared id) :
      x.unit = id ∧ c.makesObject x.unit ∧ x.action ≠ .emit := by
    obtain ⟨rfl, hobject, haction⟩ := mem_objectSteps hx
    refine ⟨rfl, hobject, ?_⟩
    rcases haction with haction | haction <;> simp [haction]
  cases node with
  | unit id =>
    rcases List.mem_append.1 hx with hx | hx
    · obtain ⟨rfl, hrest⟩ := hobjects hx
      exact ⟨List.mem_singleton.2 rfl, hrest⟩
    · split at hx
      · next hlink =>
        obtain rfl := List.mem_singleton.1 hx
        exact ⟨List.mem_singleton.2 rfl, (Bool.and_eq_true_iff.1 hlink).1, by simp⟩
      · cases hx
  | cycle key members =>
    obtain ⟨links, heq, hlinks⟩ := cycleSteps_eq c members
    rw [nodeSteps, heq] at hx
    rcases List.mem_append.1 hx with hx | hx
    · obtain ⟨id, hid, hx⟩ := List.mem_flatMap.1 hx
      obtain ⟨rfl, hrest⟩ := hobjects hx
      exact ⟨hid, hrest⟩
    · obtain ⟨hmem, hobject, hemit, _⟩ := hlinks x hx
      exact ⟨hmem, hobject, hemit⟩

/-- Code is generated for every unit at a place for which that is called for. -/
theorem generate_mem_nodeSteps (hid : id ∈ node.units) (hobject : c.makesObject id)
    (hgenerates : c.generates false id) : ⟨id, .generate⟩ ∈ c.nodeSteps node := by
  cases node with
  | unit id' =>
    obtain rfl := List.mem_singleton.1 hid
    exact List.mem_append_left _ (generate_mem_objectSteps hobject hgenerates)
  | cycle key members =>
    obtain ⟨links, heq, _⟩ := cycleSteps_eq c members
    rw [nodeSteps, heq]
    exact List.mem_append_left _
      (List.mem_flatMap.2 ⟨id, hid, generate_mem_objectSteps hobject hgenerates⟩)

section

variable (hunits : ∀ u, g.hasNode u → u < c.catalog.size) (hroot : root < c.catalog.size)

include hunits hroot

/-- The peers of a unit are the others that it leads to and that lead back. -/
theorem mem_peers (hu : g.Reaches root u) :
    v ∈ (c.plan g root).peers u ↔ v ≠ u ∧ g.StronglyConnected u v := by
  have hcycles : (c.cyclesOf g root).AreCycles (needed g root) := areCycles hunits hroot
  have hpeers : (c.plan g root).peers u =
      if (c.quotient g root).isCycle ((c.quotient g root).rootOf u) then
        (((c.quotient g root).groups.getD ((c.quotient g root).rootOf u) ∅).toList).filter (· != u)
      else [] := rfl
  rw [hpeers]
  by_cases howned : u ∈ (c.cyclesOf g root).owners
  · obtain ⟨k, members, hk, hmem⟩ := Condensation.exists_group hcycles.toAreClasses howned
    have hname : (c.quotient g root).rootOf u = k :=
      Condensation.rootOf_of_mem hcycles.toAreClasses hk hmem
    have hgroup : (c.quotient g root).groups.getD k ∅ = members := by
      simp only [quotient, Condensation.ofGroups, Std.ExtTreeMap.getD_eq_getD_getElem?, hk,
        Option.getD_some]
    have hcycle : (c.quotient g root).isCycle k = true := Condensation.isCycle_of_group hcycles hk
    rw [hname, if_pos hcycle, hgroup, List.mem_filter, Std.ExtTreeSet.mem_toList, bne_iff_ne,
      and_comm, (hcycles.component k members hk).mem_iff hmem, stronglyConnected_needed hu]
  · have hname : (c.quotient g root).rootOf u = u := Condensation.rootOf_of_ungrouped howned
    have hcycle : (c.quotient g root).isCycle u = false :=
      Condensation.isCycle_eq_false hcycles (hasNode_needed.2 hu)
    rw [hname, hcycle]
    simp only [Bool.false_eq_true, if_false, List.not_mem_nil, false_iff, not_and]
    intro hne hstrong
    obtain ⟨k, members, hk, hmem⟩ := hcycles.complete u v (hasNode_needed.2 hu) (Ne.symm hne)
      ((stronglyConnected_needed hu).2 hstrong)
    have howner := hcycles.getElem?_owners.2 ⟨members, hk, hmem⟩
    exact howned (Std.ExtTreeMap.isSome_getElem?_iff_mem.1 (by simp [howner]))

/-- Units at different places do not need each other. -/
theorem order_apart : (c.plan g root).order.Pairwise fun x y =>
    ∀ u ∈ x.units, ∀ v ∈ y.units, ¬ g.StronglyConnected u v := by
  rw [order_plan, List.pairwise_map]
  refine (Digraph.nodup_postorder _ _).imp_of_mem fun {a b} ha hb hne u hu v hv hstrong => hne ?_
  obtain ⟨hru, rfl⟩ :=
    (mem_units_place hunits hroot (hasNode_of_mem_postorder hunits hroot ha)).1 hu
  obtain ⟨hrv, rfl⟩ :=
    (mem_units_place hunits hroot (hasNode_of_mem_postorder hunits hroot hb)).1 hv
  refine (Condensation.rootOf_eq_iff (areCycles hunits hroot).toAreClasses (hasNode_needed.2 hru)
    (hasNode_needed.2 hrv)).2 ?_
  exact (stronglyConnected_needed hru).2 hstrong

/-- The members of a cycle stand in ascending order. -/
theorem members_ascending {key : Nat} (hmem : .cycle key members ∈ (c.plan g root).order) :
    members.Pairwise (· < ·) := by
  obtain ⟨group, _, rfl⟩ := exists_group_of_cycle hunits hroot hmem
  exact Std.ExtTreeSet.ordered_toList.imp fun hlt => Nat.compare_eq_lt.1 hlt

/-- An entry point that depends on nothing is all that is built. -/
theorem order_alone (halone : ∀ v, ¬ g.Edge root v) : (c.plan g root).order = [.unit root] := by
  have hreaches {u : Nat} : g.Reaches root u ↔ u = root := by
    refine ⟨fun h => ?_, fun h => h ▸ .refl⟩
    rcases Relation.ReflTransGen.cases_head h with heq | ⟨v, hedge, _⟩
    · exact heq.symm
    · exact absurd hedge (halone v)
  have hone (node : PlanNode) (hnode : node ∈ (c.plan g root).order) : node = .unit root := by
    have hmem (u : Nat) (hu : u ∈ node.units) : u = root :=
      hreaches.1 ((mem_units_plan hunits hroot).1 (List.mem_flatMap.2 ⟨node, hnode, hu⟩))
    cases node with
    | unit id => rw [hmem id List.mem_cons_self]
    | cycle key members =>
      obtain ⟨_, hlength, _⟩ := component_of_cycle hunits hroot hnode
      have hascending := members_ascending hunits hroot hnode
      match members, hlength with
      | first :: second :: rest, _ =>
        have hlt := (List.pairwise_cons.1 hascending).1 second List.mem_cons_self
        rw [hmem first List.mem_cons_self,
          hmem second (List.mem_cons_of_mem _ List.mem_cons_self)] at hlt
        exact absurd hlt (Nat.lt_irrefl root)
  have hrepeat := List.eq_replicate_of_mem hone
  have hperm : (c.plan g root).units.Perm [root] :=
    (List.perm_ext_iff_of_nodup (nodup_units_plan hunits hroot) (List.nodup_singleton root)).2
      fun id => by rw [mem_units_plan hunits hroot, List.mem_singleton, hreaches]
  have hlength := hperm.length_eq
  rw [Plan.units, hrepeat, List.flatMap_replicate] at hlength
  have hcount : (c.plan g root).order.length = 1 := by simpa [PlanNode.units] using hlength
  rw [hrepeat, hcount, List.replicate_one]

end

/-- How one step of a plan may come before another: nothing comes after the making of the final
module; if a unit is compiled before code is generated for one that it depends on, then that one is a
later member of its cycle; and the code of later members is always generated after it. -/
structure Precedes (g : Digraph) (peers : Nat → List Nat) (x y : Step) : Prop where
  emit : x.action ≠ .emit
  compile : x.action = .compile → y.action = .generate → x.unit ≠ y.unit ∧
    (g.Edge x.unit y.unit → y.unit ∈ peers x.unit ∧ x.unit < y.unit)
  generate : x.action = .generate → y.action = .compile → x.unit ∈ peers y.unit → x.unit < y.unit

theorem Precedes.of_link {peers : Nat → List Nat} (hemit : x.action ≠ .emit)
    (hgenerate : y.action ≠ .generate) (hcompile : y.action ≠ .compile) : Precedes g peers x y :=
  ⟨hemit, fun _ h => absurd h hgenerate, fun _ h => absurd h hcompile⟩

/-- The steps of a plan are those of its places, in their order, and the making of the module of the
entry point. -/
theorem steps_plan : (c.plan g root).steps = (c.plan g root).order.flatMap c.nodeSteps ++
    if c.treatment root == .translate then [⟨root, .emit⟩] else [] := rfl

section

variable (hunits : ∀ u, g.hasNode u → u < c.catalog.size) (hroot : root < c.catalog.size)

include hunits hroot

/-- The steps up to an object stand as they may. -/
theorem objectSteps_pairwise (hu : g.Reaches root u) :
    (c.objectSteps forwardDeclared u).Pairwise (Precedes g (c.plan g root).peers) := by
  rw [objectSteps_eq]
  split
  · split
    · refine List.pairwise_pair.2 ⟨by simp, by simp, fun _ _ hpeer => ?_⟩
      exact absurd rfl ((mem_peers hunits hroot hu).1 hpeer).1
    · split
      · exact .nil
      · exact List.pairwise_singleton _ _
  · exact .nil

theorem nodeSteps_pairwise (hnode : node ∈ (c.plan g root).order) :
    (c.nodeSteps node).Pairwise (Precedes g (c.plan g root).peers) := by
  have hreaches {id : Nat} (hid : id ∈ node.units) : g.Reaches root id :=
    (mem_units_plan hunits hroot).1 (List.mem_flatMap.2 ⟨node, hnode, hid⟩)
  cases node with
  | unit id =>
    refine List.pairwise_append.2 ⟨objectSteps_pairwise hunits hroot (hreaches List.mem_cons_self),
      ?_, fun x hx y hy => ?_⟩
    · split
      · exact List.pairwise_singleton _ _
      · exact .nil
    · split at hy
      · obtain rfl := List.mem_singleton.1 hy
        obtain ⟨_, _, haction⟩ := mem_objectSteps hx
        refine .of_link ?_ (by simp) (by simp)
        rcases haction with haction | haction <;> simp [haction]
      · cases hy
  | cycle key members =>
    obtain ⟨links, heq, hlinks⟩ := cycleSteps_eq c members
    obtain ⟨_, _, w, _, hclass⟩ := component_of_cycle hunits hroot hnode
    rw [nodeSteps, heq]
    refine List.pairwise_append.2 ⟨List.pairwise_flatMap.2 ⟨fun id hid =>
      objectSteps_pairwise hunits hroot (hreaches hid), ?_⟩, ?_, fun x hx y hy => ?_⟩
    · refine (members_ascending hunits hroot hnode).imp_of_mem
        fun {a b} ha hb hlt x hx y hy => ?_
      obtain ⟨rfl, _, haction⟩ := mem_objectSteps hx
      obtain ⟨rfl, _, _⟩ := mem_objectSteps hy
      refine ⟨?_, fun _ _ => ⟨Nat.ne_of_lt hlt, fun _ => ⟨?_, hlt⟩⟩, fun _ _ _ => hlt⟩
      · rcases haction with haction | haction <;> simp [haction]
      · refine (mem_peers hunits hroot (hreaches ha)).2 ⟨Nat.ne_of_gt hlt, ?_⟩
        exact ((hclass _).1 ha).symm.trans ((hclass _).1 hb)
    · refine List.pairwise_of_forall_mem_list fun x hx y hy => ?_
      obtain ⟨_, _, _, hgenerate, hcompile⟩ := hlinks y hy
      exact .of_link (hlinks x hx).2.2.1 hgenerate hcompile
    · obtain ⟨id, _, hx⟩ := List.mem_flatMap.1 hx
      obtain ⟨_, _, haction⟩ := mem_objectSteps hx
      obtain ⟨_, _, _, hgenerate, hcompile⟩ := hlinks y hy
      refine .of_link ?_ hgenerate hcompile
      rcases haction with haction | haction <;> simp [haction]

/-- All steps of a plan stand in an order that they may have. -/
theorem steps_pairwise :
    (c.plan g root).steps.Pairwise (Precedes g (c.plan g root).peers) := by
  rw [steps_plan]
  refine List.pairwise_append.2 ⟨List.pairwise_flatMap.2
    ⟨fun node hnode => nodeSteps_pairwise hunits hroot hnode, ?_⟩, ?_, fun x hx y hy => ?_⟩
  · refine ((order_pairwise hunits hroot).and (order_apart hunits hroot)).imp_of_mem
      fun {a b} ha hb hab x hx y hy => ?_
    obtain ⟨hxa, _, hemit⟩ := mem_nodeSteps hx
    obtain ⟨hyb, _, _⟩ := mem_nodeSteps hy
    have hreaches : g.Reaches root y.unit :=
      (mem_units_plan hunits hroot).1 (List.mem_flatMap.2 ⟨b, hb, hyb⟩)
    have hapart := hab.2 _ hxa _ hyb
    refine ⟨hemit, fun _ _ => ⟨fun heq => hapart ?_, fun hedge => ?_⟩, fun _ _ hpeer => ?_⟩
    · exact heq ▸ .refl g x.unit
    · exact absurd hedge (hab.1 _ hxa _ hyb)
    · exact absurd ((mem_peers hunits hroot hreaches).1 hpeer).2.symm hapart
  · split
    · exact List.pairwise_singleton _ _
    · exact .nil
  · split at hy
    · obtain rfl := List.mem_singleton.1 hy
      obtain ⟨node, _, hx⟩ := List.mem_flatMap.1 hx
      exact .of_link (mem_nodeSteps hx).2.2 (by simp) (by simp)
    · cases hy

/-- A step that builds an object is about a unit that is needed and makes one. -/
theorem mem_steps (hx : x ∈ (c.plan g root).steps) (hemit : x.action ≠ .emit) :
    g.Reaches root x.unit ∧ c.makesObject x.unit := by
  rw [steps_plan] at hx
  rcases List.mem_append.1 hx with hx | hx
  · obtain ⟨node, hnode, hx⟩ := List.mem_flatMap.1 hx
    obtain ⟨hunit, hobject, _⟩ := mem_nodeSteps hx
    exact ⟨(mem_units_plan hunits hroot).1 (List.mem_flatMap.2 ⟨node, hnode, hunit⟩), hobject⟩
  · split at hx
    · obtain rfl := List.mem_singleton.1 hx
      exact absurd rfl hemit
    · cases hx

/-- Code is generated for every needed unit that is not old or whose source is not there. -/
theorem generate_mem_steps (hu : g.Reaches root u) (hobject : c.makesObject u)
    (hgenerates : c.generates false u) : ⟨u, .generate⟩ ∈ (c.plan g root).steps := by
  obtain ⟨node, hnode, hmem⟩ := List.mem_flatMap.1 ((mem_units_plan hunits hroot).2 hu)
  rw [steps_plan]
  exact List.mem_append_left _
    (List.mem_flatMap.2 ⟨node, hnode, generate_mem_nodeSteps hmem hobject hgenerates⟩)

/-- Before a unit is compiled, code is generated for all that it depends on and whose source is not
there, but for the later members of its cycle. -/
theorem generated_before_compile (hsteps : (c.plan g root).steps = before ++ ⟨id, .compile⟩ :: after)
    (hu : u = id ∨ g.Edge id u) (hobject : c.makesObject u) (hsource : ¬ c.hasFile .source u) :
    ⟨u, .generate⟩ ∈ before ↔ ¬ (u ∈ (c.plan g root).peers id ∧ id < u) := by
  have hpairs := steps_pairwise hunits hroot
  rw [hsteps, List.pairwise_append, List.pairwise_cons] at hpairs
  obtain ⟨_, ⟨hafter, _⟩, hbefore⟩ := hpairs
  have hcompiled : ⟨id, .compile⟩ ∈ (c.plan g root).steps := by
    rw [hsteps]
    exact List.mem_append_right _ List.mem_cons_self
  have hid := (mem_steps hunits hroot hcompiled (by simp)).1
  have hreaches : g.Reaches root u := by
    rcases hu with rfl | hedge
    · exact hid
    · exact hid.tail hedge
  constructor
  · rintro hgenerated ⟨hpeer, hlt⟩
    have horder := (hbefore _ hgenerated _ List.mem_cons_self).generate rfl rfl hpeer
    exact absurd hlt (Nat.lt_asymm horder)
  · intro hnot
    have hmem := generate_mem_steps hunits hroot hreaches hobject (by simp [generates, hsource])
    rw [hsteps, List.mem_append, List.mem_cons] at hmem
    rcases hmem with hmem | heq | hmem
    · exact hmem
    · cases heq
    · obtain ⟨hne, hedge⟩ := (hafter _ hmem).compile rfl rfl
      rcases hu with rfl | hneeds
      · exact absurd rfl hne
      · exact absurd (hedge hneeds) hnot

end

end Planning

end ScriptBuild
