import ScriptBuild.Proofs.Plan.Inputs

namespace ScriptBuild

namespace Planning

variable {c : Planning} {g : Digraph} {root u v id : Nat} {x : Step} {node : PlanNode}
  {forwardDeclared : Bool} {members : List Nat} {a : Action}

/-- Code is generated only if that is called for, and a unit is compiled only if its code is
generated or its object is missing. -/
theorem cause_of_mem_objectSteps (hx : x ∈ c.objectSteps forwardDeclared id) :
    (x.action = .generate ∧ c.generates forwardDeclared id) ∨
      x.action = .compile ∧ (⟨id, .generate⟩ ∈ c.objectSteps forwardDeclared id ∨
        ¬ c.hasFile .object id) := by
  rw [objectSteps_eq] at hx ⊢
  split at hx
  · next hobject =>
    split at hx
    · next hgenerates =>
      simp only [List.mem_cons, List.not_mem_nil, or_false] at hx
      rcases hx with rfl | rfl
      · exact .inl ⟨rfl, hgenerates⟩
      · exact .inr ⟨rfl, .inl (by simp [hobject, hgenerates])⟩
    · split at hx
      · cases hx
      · next habsent =>
        obtain rfl := List.mem_singleton.1 hx
        exact .inr ⟨rfl, .inr habsent⟩
  · cases hx

/-- The steps of a place up to the object of one of its units are those of the unit, which has to be
forward declared in a cycle. -/
theorem mem_objectSteps_of_mem_nodeSteps (hx : x ∈ c.nodeSteps node) (hrank : x.action.rank ≤ 1) :
    ∃ forwardDeclared, x ∈ c.objectSteps forwardDeclared x.unit ∧
      c.objectSteps forwardDeclared x.unit ⊆ c.nodeSteps node ∧
      (forwardDeclared → c.mode = .perUnit ∧ ∃ key members, node = .cycle key members) := by
  have hlinks {action : Action} (h : x.action = action) (hlater : 1 < action.rank) : False := by
    rw [h] at hrank
    omega
  cases node with
  | unit other =>
    rcases List.mem_append.1 hx with hobject | hx
    · obtain ⟨rfl, -⟩ := mem_objectSteps hobject
      exact ⟨false, hobject, fun y hy => List.mem_append_left _ hy, nofun⟩
    · split at hx
      · obtain rfl := List.mem_singleton.1 hx
        exact (hlinks rfl (by simp [Action.rank])).elim
      · cases hx
  | cycle key members =>
    obtain ⟨links, heq, hlater⟩ := cycleSteps_eq c members
    have hsubset {id : Nat} (hid : id ∈ members) :
        c.objectSteps (c.mode == .perUnit) id ⊆ c.nodeSteps (.cycle key members) := fun y hy => by
      rw [nodeSteps, heq]
      exact List.mem_append_left _ (List.mem_flatMap.2 ⟨id, hid, hy⟩)
    rw [nodeSteps, heq] at hx
    rcases List.mem_append.1 hx with hobject | hx
    · obtain ⟨id, hid, hobject⟩ := List.mem_flatMap.1 hobject
      obtain ⟨rfl, -⟩ := mem_objectSteps hobject
      exact ⟨_, hobject, hsubset hid, fun hmode => ⟨by simpa using hmode, key, members, rfl⟩⟩
    · obtain ⟨-, -, hemit, hgenerate, hcompile⟩ := hlater x hx
      cases haction : x.action
      case generate => exact absurd haction hgenerate
      case compile => exact absurd haction hcompile
      case emit => exact absurd haction hemit
      all_goals exact (hlinks haction (by simp [Action.rank])).elim

/-- A step before any link stands at a place of the order. -/
theorem mem_nodeSteps_of_rank (hx : x ∈ (c.plan g root).steps) (hemit : x.action ≠ .emit) :
    ∃ node ∈ (c.plan g root).order, x ∈ c.nodeSteps node := by
  rw [steps_plan] at hx
  rcases List.mem_append.1 hx with hx | hx
  · exact List.mem_flatMap.1 hx
  · split at hx
    · obtain rfl := List.mem_singleton.1 hx
      exact absurd rfl hemit
    · cases hx

section

variable (hunits : ∀ u, g.hasNode u → u < c.catalog.size) (hroot : root < c.catalog.size)

/-- A unit is compiled only if its code is generated or its object is not there. -/
theorem cause_of_compile (hx : ⟨id, .compile⟩ ∈ (c.plan g root).steps) :
    ⟨id, .generate⟩ ∈ (c.plan g root).steps ∨ ¬ c.hasFile .object id := by
  obtain ⟨node, hnode, hmem⟩ := mem_nodeSteps_of_rank hx (by simp)
  obtain ⟨forwardDeclared, hobject, hsubset, -⟩ :=
    mem_objectSteps_of_mem_nodeSteps hmem (by simp [Action.rank])
  rcases cause_of_mem_objectSteps hobject with ⟨hgenerate, -⟩ | ⟨-, hcause⟩
  · cases hgenerate
  · refine hcause.imp_left fun hgenerated => ?_
    rw [steps_plan]
    exact List.mem_append_left _ (List.mem_flatMap.2 ⟨node, hnode, hsubset hgenerated⟩)

include hunits hroot

/-- The members of a cycle of the order are in a cycle of the graph. -/
theorem exists_peer_of_cycle {key : Nat} (hnode : .cycle key members ∈ (c.plan g root).order)
    (hid : id ∈ members) : ∃ v, v ≠ id ∧ g.StronglyConnected id v := by
  obtain ⟨-, hlength, -⟩ := component_of_cycle hunits hroot hnode
  have hascending := members_ascending hunits hroot hnode
  have hstrong := stronglyConnected_of_cycle hunits hroot hnode id hid
  match members, hlength with
  | first :: second :: rest, _ =>
    have hlt := (List.pairwise_cons.1 hascending).1 second List.mem_cons_self
    by_cases heq : first = id
    · exact ⟨second, by omega, hstrong second (by simp)⟩
    · exact ⟨first, heq, hstrong first (by simp)⟩

/-- Code is generated for a unit only if it is not old, or its source is not there, or the forward
declarations are not there that it needs in a cycle. -/
theorem cause_of_generate (hx : ⟨id, .generate⟩ ∈ (c.plan g root).steps) :
    (c.freshness id).needsBuild ∨ ¬ c.hasFile .source id ∨
      c.mode = .perUnit ∧ (∃ v, v ≠ id ∧ g.StronglyConnected id v) ∧
        ¬ c.hasFile .forwardSource id := by
  obtain ⟨node, hnode, hmem⟩ := mem_nodeSteps_of_rank hx (by simp)
  obtain ⟨forwardDeclared, hobject, -, hdeclared⟩ :=
    mem_objectSteps_of_mem_nodeSteps hmem (by simp [Action.rank])
  rcases cause_of_mem_objectSteps hobject with ⟨-, hgenerates⟩ | ⟨hcompile, -⟩
  · rw [generates, Bool.or_eq_true, Bool.or_eq_true, Bool.and_eq_true, Bool.not_eq_true',
      Bool.not_eq_true', or_assoc] at hgenerates
    refine hgenerates.imp_right fun habsent => ?_
    refine habsent.imp (fun hsource => by simp [hsource]) fun hforward => ?_
    obtain ⟨hforward, hsource⟩ := hforward
    obtain ⟨hmode, key, members, rfl⟩ := hdeclared hforward
    exact ⟨hmode, exists_peer_of_cycle hunits hroot hnode (mem_nodeSteps hmem).1, by simp [hsource]⟩
  · cases hcompile

/-- A cycle is linked twice only if code is generated for one of its members, or the object or the
module of one is not there. -/
theorem cause_of_pass (hx : ⟨id, a⟩ ∈ (c.plan g root).steps) (ha : a = .forwardLink ∨ a = .relink) :
    ∃ v, g.StronglyConnected id v ∧ c.makesObject v ∧
      (⟨v, .generate⟩ ∈ (c.plan g root).steps ∨ ¬ c.hasFile .object v ∨ ¬ c.hasFile .artifact v) := by
  have hemit : a ≠ .emit := by rcases ha with rfl | rfl <;> simp
  have hmode : c.mode = .perUnit := mode_of_mem_steps hx
    (by rcases ha with rfl | rfl <;> simp [Action.rank]) hemit
  obtain ⟨node, hnode, hmem⟩ := mem_nodeSteps_of_rank hx hemit
  have hplace := (mem_nodeSteps hmem).1
  cases node with
  | unit other =>
    rcases List.mem_append.1 hmem with hobject | hlink
    · obtain ⟨-, -, haction⟩ := mem_objectSteps hobject
      rcases ha with rfl | rfl <;> simp at haction
    · split at hlink
      · obtain ⟨-, rfl⟩ := Step.mk.inj (List.mem_singleton.1 hlink)
        simp at ha
      · cases hlink
  | cycle key members =>
    have hstrong := stronglyConnected_of_cycle hunits hroot hnode id hplace
    have hstale : c.isStale members := by
      obtain ⟨hforward, hrelink⟩ := forwardLink_mem_steps hunits hroot hmode hnode hplace
      rcases ha with rfl | rfl
      · exact (hforward.1 hx).1
      · exact (hrelink.1 hx).1
    rcases Bool.or_eq_true_iff.1 hstale with hobjects | hartifact
    · rw [Bool.not_eq_true', List.isEmpty_eq_false_iff_exists_mem] at hobjects
      obtain ⟨y, hy⟩ := hobjects
      obtain ⟨v, hv, hy⟩ := List.mem_flatMap.1 hy
      obtain ⟨rfl, hobject, haction⟩ := mem_objectSteps hy
      have hsteps : ⟨y.unit, y.action⟩ ∈ (c.plan g root).steps := by
        refine (mem_nodeSteps_of_mem_steps hunits hroot hnode hv
          (by rcases haction with h | h <;> simp [h])).2 ?_
        exact (mem_cycleSteps hmode).2 (.inl ⟨y.unit, hv, hy⟩)
      refine ⟨y.unit, hstrong _ hv, hobject, ?_⟩
      rcases haction with haction | haction <;> rw [haction] at hsteps
      · exact .inl hsteps
      · exact (cause_of_compile hsteps).imp_right .inl
    · obtain ⟨v, hv, habsent⟩ := List.any_eq_true.1 hartifact
      obtain ⟨hmember, hobject⟩ := List.mem_filter.1 hv
      exact ⟨v, hstrong v hmember, hobject, .inr (.inr (by simpa using habsent))⟩

/-- All files of a unit are there from which it is linked, and its module if it has one of its own. -/
structure IsStocked (c : Planning) (g : Digraph) (id : Nat) : Prop where
  source : c.hasFile .source id
  object : c.hasFile .object id
  forwardSource : c.mode = .perUnit → (∃ v, v ≠ id ∧ g.StronglyConnected id v) →
    c.hasFile .forwardSource id
  artifact : c.mode = .perUnit → c.hasFile .artifact id

/-- For units that have all their files and no code of which is generated, only links are planned. -/
theorem links_of_isStocked (hx : x ∈ (c.plan g root).steps)
    (hstocked : ∀ v, g.Reaches x.unit v → c.makesObject v → c.IsStocked g v)
    (hold : ∀ v, g.Reaches x.unit v → ⟨v, .generate⟩ ∉ (c.plan g root).steps) :
    x.action = .link ∨ x.action = .emit := by
  obtain ⟨id, action⟩ := x
  cases action with
  | generate => exact absurd hx (hold id .refl)
  | compile =>
    have hobject := (mem_steps hunits hroot hx (by simp)).2
    rcases cause_of_compile hx with hgenerate | habsent
    · exact absurd hgenerate (hold id .refl)
    · exact absurd (hstocked id .refl hobject).object habsent
  | forwardLink | relink =>
    obtain ⟨v, hstrong, hobject, hcause⟩ := cause_of_pass hunits hroot hx (by simp)
    have hmode := mode_of_mem_steps hx (by simp [Action.rank]) (by simp)
    have hthere := hstocked v hstrong.1 hobject
    rcases hcause with hgenerate | habsent | habsent
    · exact absurd hgenerate (hold v hstrong.1)
    · exact absurd hthere.object habsent
    · exact absurd (hthere.artifact hmode) habsent
  | link => exact .inl rfl
  | emit => exact .inr rfl

/-- No code is generated for an old unit that has all its files. -/
theorem not_generate_of_isStocked (hold : (c.freshness id).needsBuild = false)
    (hstocked : c.makesObject id → c.IsStocked g id) :
    ⟨id, .generate⟩ ∉ (c.plan g root).steps := by
  intro hx
  have hthere := hstocked (mem_steps hunits hroot hx (by simp)).2
  rcases cause_of_generate hunits hroot hx with hnew | habsent | ⟨hmode, hcycle, habsent⟩
  · rw [hold] at hnew
    cases hnew
  · exact habsent hthere.source
  · exact habsent (hthere.forwardSource hmode hcycle)

/-- When a plan is carried out, each unit gets the files that it does not have. -/
theorem isStocked_or_mem_steps (hid : g.Reaches root id) (hobject : c.makesObject id) :
    (c.hasFile .source id ∨ ⟨id, .generate⟩ ∈ (c.plan g root).steps) ∧
      (c.hasFile .object id ∨ ⟨id, .compile⟩ ∈ (c.plan g root).steps) ∧
      (c.mode = .perUnit → (∃ v, v ≠ id ∧ g.StronglyConnected id v) →
        c.hasFile .forwardSource id ∨
          ⟨id, .generate⟩ ∈ (c.plan g root).steps ∧ (c.plan g root).isCyclic id) ∧
      (c.mode = .perUnit → ⟨id, .link⟩ ∈ (c.plan g root).steps) := by
  refine ⟨?_, compile_mem_steps hunits hroot hid hobject, fun hmode hcycle => ?_, fun hmode =>
    link_mem_steps hunits hroot hmode ((mem_units_plan hunits hroot).2 hid) hobject⟩
  · by_cases hsource : c.hasFile .source id
    · exact .inl hsource
    · exact .inr (generate_mem_steps hunits hroot hid hobject (by simp [generates, hsource]))
  · obtain ⟨v, hne, hstrong⟩ := hcycle
    obtain ⟨key, members, hnode, hmem, -⟩ := cycle_of_component hunits hroot hid hne.symm hstrong
    by_cases hforward : c.hasFile .forwardSource id
    · exact .inl hforward
    · refine .inr ⟨?_, isCyclic_of_mem hunits hroot hnode hmem⟩
      have hunit : id ∈ (PlanNode.cycle key members).units := hmem
      obtain ⟨forwardDeclared, hsubset, hdeclared⟩ := objectSteps_subset_nodeSteps (c := c) hunit
      rw [steps_plan]
      refine List.mem_append_left _ (List.mem_flatMap.2 ⟨_, hnode, hsubset ?_⟩)
      exact generate_mem_of_absent hobject (.inr ⟨hdeclared hmode key members rfl, hforward⟩)

end

end Planning

end ScriptBuild
