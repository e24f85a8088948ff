import ScriptBuild.Proofs.Program.Sound

namespace ScriptBuild

namespace Digraph

variable {g h : Digraph}

/-- A graph is its nodes and its edges. -/
theorem ext_edge (hnode : ∀ a, g.hasNode a ↔ h.hasNode a) (hedge : ∀ a b, g.Edge a b ↔ h.Edge a b) :
    g = h := by
  refine Digraph.ext (Std.ExtTreeMap.ext_getElem? fun a => ?_)
  have hmem (g : Digraph) {targets : NodeSet} :
      g.table[a]? = some targets ↔ g.hasNode a ∧ targets = g.successors a := by
    rw [← mem_table_toList, Std.ExtTreeMap.mem_toList_iff_getElem?_eq_some]
  refine Option.ext fun targets => ?_
  have hsuccessors : g.successors a = h.successors a := Std.ExtTreeSet.ext_mem fun b => hedge a b
  rw [hmem g, hmem h, hnode, hsuccessors]

end Digraph

namespace Program

variable {p q : Program} {id other a b : Nat} {i : Imports} {t s : Target} {n m : String}
  {u v : BuildUnit} {only : Nat → Prop} {name : String} {kind : UnitKind} {timestamp : Nat}
  {body : Option Body}

/-- No unit is listed that imports nothing. -/
def Compact (p : Program) : Prop := ∀ (id : Nat) (i : Imports), p.imports[id]? = some i → i ≠ .empty

/-- What a unit imports is stored only if it imports anything. -/
theorem Compact.setImports (h : p.Compact) : (p.setImports id i).Compact := by
  intro other j hget
  simp only [Program.setImports] at hget
  split at hget
  · rw [Std.ExtTreeMap.getElem?_erase] at hget
    split at hget
    · cases hget
    · exact h other j hget
  · next hne =>
    rw [Std.ExtTreeMap.getElem?_insert] at hget
    split at hget
    · obtain rfl := Option.some.inj hget
      exact fun heq => hne (Imports.isEmpty_iff.2 heq)
    · exact h other j hget

theorem Compact.recordImport (h : p.Compact) : (p.recordImport id t n).Compact := by
  rw [Program.recordImport]
  split
  · exact h
  · cases t with
    | unit target => exact h.setImports
    | unresolved => exact h.setImports

theorem Compact.removeImport (h : p.Compact) : (p.removeImport id t n).Compact := by
  rw [Program.removeImport]
  split
  · exact h
  · cases t with
    | unit target => dsimp only; split <;> exact h.setImports
    | unresolved => exact h.setImports

theorem Compact.clearBody (h : p.Compact) : (p.clearBody id).Compact := by
  intro other i hget
  rw [Program.clearBody, Std.ExtTreeMap.getElem?_erase] at hget
  split at hget
  · cases hget
  · exact h other i hget

/-- Every unit depends on exactly those that it imports from. -/
structure Matched (p : Program) : Prop where
  proper : p.Proper
  edge_iff : ∀ a b, p.graph.Edge a b ↔ ∃ n, p.Takes a (.unit b) n

/-- Recording an import adds the dependency with it. -/
theorem Matched.recordImport (h : p.Matched) : (p.recordImport id t n).Matched where
  proper := proper_recordImport h.proper
  edge_iff a b := by
    simp only [edge_recordImport, takes_recordImport, h.edge_iff]
    constructor
    · rintro (⟨m, hm⟩ | ⟨rfl, rfl, hne⟩)
      · exact ⟨m, .inr hm⟩
      · exact ⟨n, .inl ⟨rfl, rfl, rfl, by simpa using hne⟩⟩
    · rintro ⟨m, ⟨rfl, rfl, rfl, hne⟩ | hm⟩
      · exact .inr ⟨rfl, rfl, fun heq => hne (congrArg Target.unit heq)⟩
      · exact .inl ⟨m, hm⟩

/-- Forgetting the last import from a unit removes the dependency. -/
theorem Matched.removeImport (h : p.Matched) : (p.removeImport id t n).Matched where
  proper := proper_removeImport h.proper
  edge_iff a b := by
    simp only [edge_removeImport h.proper, takes_removeImport, h.edge_iff]
    constructor
    · rintro ⟨⟨m, hm⟩, hrest⟩
      by_cases hremoved : a = id ∧ Target.unit b = t ∧ m = n
      · -- The name goes, so there is another one, or else the dependency would have gone too.
        obtain ⟨rfl, rfl, rfl⟩ := hremoved
        have hother : ¬ ∀ k, p.Takes a (.unit b) k → k = m := fun honly => hrest ⟨rfl, rfl, hm, honly⟩
        push Not at hother
        obtain ⟨k, hk, hne⟩ := hother
        exact ⟨k, hk, fun heq => hne heq.2.2⟩
      · exact ⟨m, hm, hremoved⟩
    · rintro ⟨m, hm, hkept⟩
      refine ⟨⟨m, hm⟩, ?_⟩
      rintro ⟨rfl, rfl, _, honly⟩
      exact hkept ⟨rfl, rfl, honly m hm⟩

/-- Looking names up changes neither imports nor dependencies. -/
theorem Matched.grows (h : p.Matched) (hgrows : p.Grows q) : q.Matched where
  proper id := by
    rw [hgrows.touches.imports id not_false]
    exact h.proper id
  edge_iff a b := by
    simp only [hgrows.touches.edge a b not_false, h.edge_iff, Takes,
      hgrows.touches.imports a not_false]

/-- The units are the nodes, each depends on exactly those it imports from, and nothing is stored
about imports that are none. -/
structure Linked (p : Program) : Prop extends p.Sound where
  known : ∀ id, id < p.units.size → p.graph.hasNode id
  taker : ∀ id t n, p.Takes id t n → id < p.units.size
  takes : ∀ a b, p.graph.Edge a b → ∃ n, p.Takes a (.unit b) n
  loop : ∀ id n, ¬ p.Takes id (.unit id) n
  compact : p.Compact

/-- The nodes are the numbers of the units. -/
theorem Linked.hasNode_iff (h : p.Linked) : p.graph.hasNode id ↔ id < p.units.size :=
  ⟨h.node id, h.known id⟩

theorem Linked.matched (h : p.Linked) : p.Matched :=
  ⟨h.proper, fun a b => ⟨h.takes a b, fun ⟨n, htakes⟩ => h.edge a b n htakes⟩⟩

/-- A unit depends on another one exactly if it imports something from it. -/
theorem Linked.edge_iff (h : p.Linked) : p.graph.Edge a b ↔ ∃ n, p.Takes a (.unit b) n :=
  h.matched.edge_iff a b

/-- What a unit imports from is a unit. -/
theorem Linked.lt_of_takes (h : p.Linked) (htakes : p.Takes a (.unit b) n) : b < p.units.size :=
  h.lt_of_edge (h.edge a b n htakes)

theorem linked_empty : Program.empty.Linked where
  toSound := sound_empty
  known id hlt := absurd hlt (Nat.not_lt_zero id)
  taker id t n htakes := by simp [Takes, importsOf, Program.empty] at htakes
  takes a b hedge := absurd hedge Digraph.not_edge_empty
  loop id n htakes := by simp [Takes, importsOf, Program.empty] at htakes
  compact id i hget := by simp [Program.empty] at hget

/-- A change of units that keeps their names and overload numbers. -/
theorem Linked.modify (h : p.Linked) (id : Nat) {f : BuildUnit → BuildUnit}
    (hname : ∀ u, (f u).name = u.name) (hoverload : ∀ u, (f u).overload = u.overload) :
    Linked { p with units := p.units.modify id f } where
  toSound := h.toSound.modify id hname hoverload
  known a hlt := h.known a (by rwa [Catalog.size_modify] at hlt)
  taker a t n htakes := by rw [Catalog.size_modify]; exact h.taker a t n htakes
  takes := h.takes
  loop := h.loop
  compact := h.compact

/-- It still does with a unit whose name and overload number are new. -/
theorem Linked.push (h : p.Linked)
    (hnew : ∀ id v, p.units.get? id = some v → v.name = u.name → v.overload ≠ u.overload) :
    (p.pushUnit u).Linked where
  toSound := h.toSound.push hnew
  known a hlt := by
    rw [pushUnit, Catalog.size_push] at hlt
    exact Digraph.hasNode_addNode.2 ((Nat.lt_succ_iff_lt_or_eq.1 hlt).symm.imp id (h.known a))
  taker a t n htakes := by
    rw [pushUnit, Catalog.size_push]
    exact Nat.lt_succ_of_lt (h.taker a t n htakes)
  takes a b hedge := h.takes a b (Digraph.edge_addNode.1 hedge)
  loop := h.loop
  compact := h.compact

/-- It still does with a unit that gets a new overload number. -/
theorem Linked.insertUnit (h : p.Linked) : (p.insertUnit name kind timestamp body).Linked :=
  h.push fun _ _ hget hname => Nat.ne_of_lt (Catalog.lt_nextOverload hget hname)

/-- It still does if a unit is noted once more as a node. -/
theorem Linked.addNode (h : p.Linked) (hlt : id < p.units.size) :
    Linked { p with graph := p.graph.addNode id } where
  toSound := h.toSound.addNode hlt
  known a ha := Digraph.hasNode_addNode.2 (.inr (h.known a ha))
  taker := h.taker
  takes a b hedge := h.takes a b (Digraph.edge_addNode.1 hedge)
  loop := h.loop
  compact := h.compact

/-- It still does with another import from a unit that is there. -/
theorem Linked.recordImport (h : p.Linked) (hid : id < p.units.size)
    (htarget : ∀ other, t = .unit other → other < p.units.size) :
    (p.recordImport id t n).Linked where
  toSound := h.toSound.recordImport hid htarget
  known a hlt := by
    rw [units_recordImport] at hlt
    exact hasNode_recordImport.2 (.inl (h.known a hlt))
  taker a s m htakes := by
    rw [units_recordImport]
    rcases takes_recordImport.1 htakes with ⟨rfl, _⟩ | htakes
    · exact hid
    · exact h.taker a s m htakes
  takes a b := (h.matched.recordImport.edge_iff a b).1
  loop a m htakes := by
    rcases takes_recordImport.1 htakes with ⟨rfl, rfl, _, hne⟩ | htakes
    · exact hne rfl
    · exact h.loop a m htakes
  compact := h.compact.recordImport

/-- It still does without an import. -/
theorem Linked.removeImport (h : p.Linked) : (p.removeImport id t n).Linked where
  toSound := h.toSound.removeImport
  known a hlt := by
    rw [units_removeImport] at hlt
    exact hasNode_removeImport.2 (h.known a hlt)
  taker a s m htakes := by
    rw [units_removeImport]
    exact h.taker a s m (takes_removeImport.1 htakes).1
  takes a b := (h.matched.removeImport.edge_iff a b).1
  loop a m htakes := h.loop a m (takes_removeImport.1 htakes).1
  compact := h.compact.removeImport

/-- It still does without what came from a body. -/
theorem Linked.clearBody (h : p.Linked) : (p.clearBody id).Linked where
  toSound := h.toSound.clearBody
  known a hlt := by
    rw [Program.clearBody, Catalog.size_modify] at hlt
    exact Digraph.hasNode_removeOut.2 (h.known a hlt)
  taker a t n htakes := by
    rw [Program.clearBody, Catalog.size_modify]
    exact h.taker a t n (takes_clearBody.1 htakes).2
  takes a b hedge := by
    obtain ⟨hedge, hne⟩ := Digraph.edge_removeOut.1 hedge
    obtain ⟨n, hn⟩ := h.takes a b hedge
    exact ⟨n, takes_clearBody.2 ⟨hne, hn⟩⟩
  loop a m htakes := h.loop a m (takes_clearBody.1 htakes).2
  compact := h.compact.clearBody

/-- It still does after a single change that looking a name up makes. -/
theorem Linked.grow (h : p.Linked) (hgrow : p.Grow q) : q.Linked := by
  cases hgrow with
  | insert name kind timestamp body hnew => exact h.insertUnit
  | slot id u slot hget htable =>
    exact h.modify id (fun u => BuildUnit.becomes_addSlot.name) fun u =>
      BuildUnit.becomes_addSlot.overload
  | stamp id u timestamp body hget hfile hnewer => exact h.modify id (fun _ => rfl) fun _ => rfl
  | attach id body => exact h.modify id (fun _ => rfl) fun _ => rfl
  | node id hlt => exact h.addNode hlt

/-- It still does after a single change that handling a unit makes. -/
theorem Linked.change (h : p.Linked) (hchange : p.Change id q) : q.Linked := by
  cases hchange with
  | grow hgrow => exact h.grow hgrow
  | clear u hget hbody => exact h.clearBody
  | exports u slots hget hbody himports =>
    exact h.modify id (fun u => (BuildUnit.becomes_foldl_addSlot slots u).name) fun u =>
      (BuildUnit.becomes_foldl_addSlot slots u).overload
  | record t n hmay =>
    obtain ⟨u, hget, _⟩ := hmay.taker
    exact h.recordImport (Catalog.lt_size_of_get? hget) hmay.target
  | remove t n => exact h.removeImport

/-- Two programs with the same units and dependencies in which the same names are taken are the
same. -/
theorem Linked.ext_takes (hp : p.Linked) (hq : q.Linked) (hunits : p.units = q.units)
    (htakes : ∀ id t n, p.Takes id t n ↔ q.Takes id t n) : p = q := by
  have hgraph : p.graph = q.graph := by
    refine Digraph.ext_edge (fun a => ?_) fun a b => ?_
    · rw [hp.hasNode_iff, hq.hasNode_iff, hunits]
    · simp only [hp.edge_iff, hq.edge_iff, htakes]
  have hof (id : Nat) : p.importsOf id = q.importsOf id :=
    Imports.ext_has (hp.proper id) (hq.proper id) fun t n => htakes id t n
  have hstored {p : Program} (h : p.Compact) (id : Nat) (i : Imports) :
      p.imports[id]? = some i ↔ p.importsOf id = i ∧ i ≠ .empty := by
    rw [importsOf, Std.ExtTreeMap.getD_eq_getD_getElem?]
    cases hget : p.imports[id]? with
    | none =>
      simp only [Option.getD_none, reduceCtorEq, false_iff]
      exact fun heq => heq.2 heq.1.symm
    | some j => simpa using fun heq => heq ▸ h id j hget
  have himports : p.imports = q.imports := by
    refine Std.ExtTreeMap.ext_getElem? fun id => Option.ext fun i => ?_
    rw [hstored hp.compact, hstored hq.compact, hof]
  cases p; cases q
  simp_all

/-- Every name that is imported may be. -/
def Permitted (p : Program) : Prop := ∀ id t n, p.Takes id t n → p.MayTake id t n

theorem IsGlobal.mono (h : p.IsGlobal t) (hgrows : p.units.Grows q.units) : q.IsGlobal t := by
  obtain ⟨other, v, rfl, hget, hkind⟩ := h
  obtain ⟨v', hget', hbecomes⟩ := hgrows other v hget
  exact ⟨other, v', rfl, hget', hbecomes.kind.trans hkind⟩

theorem MayTake.mono (h : p.MayTake id t n) (htouches : p.Touches only q) (hid : ¬ only id) :
    q.MayTake id t n := by
  obtain ⟨u, hu, htable⟩ := h.taker
  obtain ⟨u', hu', huu'⟩ := htouches.units id u hu
  refine ⟨⟨u', hu', by rw [huu'.kind, htable]⟩, fun other heq => ?_,
    fun other v' heq hv' hshared => ?_, fun v' hv' hslot hne => ?_⟩
  · exact Nat.lt_of_lt_of_le (h.target other heq) htouches.units.size_le
  · obtain ⟨v, hv⟩ := Catalog.exists_get? (h.target other heq)
    have hvv' := htouches.units.becomes hv hv'
    rw [hvv'.kind] at hshared
    have hslot := h.listed other v heq hv hshared
    rw [BuildUnit.hasSlot, List.contains_iff_mem] at hslot ⊢
    exact hvv'.slots hshared n hslot
  · obtain rfl := Option.some.inj (hu'.symm.trans hv')
    rw [BuildUnit.hasSlot, htouches.slots id u u' hid hu hu' htable] at hslot
    exact (h.foreign u hu hslot hne).mono htouches.units

/-- What may be imported is told by the units. -/
theorem MayTake.of_units_eq (h : p.MayTake id t n) (hunits : q.units = p.units) :
    q.MayTake id t n := by
  obtain ⟨htaker, htarget, hlisted, hforeign⟩ := h
  constructor <;> simp only [IsGlobal, hunits]
  exacts [htaker, htarget, hlisted, hforeign]

/-- Nothing is imported in a program without units. -/
theorem permitted_empty : Program.empty.Permitted := fun id t n htakes => by
  simp [Takes, importsOf, Program.empty] at htakes

/-- A single change that handling a unit makes imports only what may be imported. In particular, if
a unit comes to define a name itself, it forgets all its imports first. -/
theorem Permitted.change (h : p.Permitted) (hchange : p.Change id q) : q.Permitted := by
  intro other t n htakes
  have htouches := hchange.touches
  by_cases hother : other = id
  · subst hother
    cases hchange with
    | grow hgrow =>
      have hgrown := hgrow.touches
      have hbefore : p.Takes other t n := by rwa [Takes, ← hgrown.imports other not_false]
      exact (h other t n hbefore).mono hgrown not_false
    | clear u hget hbody => exact absurd rfl (takes_clearBody.1 htakes).1
    | exports u slots hget hbody himports =>
      change (p.importsOf other).Has t n at htakes
      rw [himports] at htakes
      exact absurd htakes Imports.not_has_empty
    | record s m hmay =>
      rcases takes_recordImport.1 htakes with ⟨_, rfl, rfl, _⟩ | htakes
      · exact hmay.of_units_eq units_recordImport
      · exact (h other t n htakes).of_units_eq units_recordImport
    | remove s m =>
      exact (h other t n (takes_removeImport.1 htakes).1).of_units_eq units_removeImport
  · rw [Takes, htouches.imports other hother] at htakes
    exact (h other t n htakes).mono htouches hother

/-- How the parts of a program fit together, for all who read it: to be kept, to be planned, and to
have its sources generated. -/
structure Coherent (p : Program) : Prop where
  /-- The nodes of the graph are the units, and every successor is one of them. -/
  node : ∀ id, p.graph.hasNode id ↔ id < p.units.size
  successor : ∀ a b, p.graph.Edge a b → p.graph.hasNode b
  /-- A unit depends on exactly those others that it takes a name from. -/
  edge : ∀ a b, p.graph.Edge a b ↔ ∃ n, p.Takes a (.unit b) n
  loop : ∀ a, ¬ p.graph.Edge a a
  /-- Neither a unit without imports nor a target without names is stored. -/
  stored : ∀ (id : Nat) (i : Imports), p.imports[id]? = some i → i ≠ .empty ∧
    ∀ (other : Nat) (names : NameSet), i.found[other]? = some names → names ≠ ∅
  /-- What is taken from a shared table is one of its slots. -/
  listed : ∀ id other v n, p.Takes id (.unit other) n → p.units.get? other = some v →
    v.kind.isSharedTable → v.hasSlot n
  /-- What is taken from elsewhere than the global variables is no slot of the taker. -/
  foreign : ∀ id u t n, p.Takes id t n → p.units.get? id = some u → ¬ p.IsGlobal t → ¬ u.hasSlot n

/-- In a program that fits together every unit depends on exactly those that it imports from. -/
theorem Coherent.matched (h : p.Coherent) : p.Matched where
  proper id := by
    rw [importsOf, Std.ExtTreeMap.getD_eq_getD_getElem?]
    cases hget : p.imports[id]? with
    | none => exact Imports.proper_empty
    | some i => exact (h.stored id i hget).2
  edge_iff := h.edge

/-- No unit imports from itself. -/
theorem Coherent.not_takes_self (h : p.Coherent) : ¬ p.Takes id (.unit id) n :=
  fun htakes => h.loop id ((h.edge id id).2 ⟨n, htakes⟩)

/-- What a unit imports from is a unit. -/
theorem Coherent.lt_of_takes (h : p.Coherent) (htakes : p.Takes a (.unit b) n) :
    b < p.units.size :=
  (h.node b).1 (h.successor a b ((h.edge a b).2 ⟨n, htakes⟩))

/-- The parts of a program fit together if its units, dependencies and imports do, and all that is
imported may be. -/
theorem Linked.coherent (h : p.Linked) (hpermitted : p.Permitted) : p.Coherent where
  node _ := h.hasNode_iff
  successor _ _ hedge := hedge.hasNode_right
  edge _ _ := h.edge_iff
  loop a hedge := by
    obtain ⟨n, hn⟩ := h.takes a a hedge
    exact h.loop a n hn
  stored id i hget := by
    refine ⟨h.compact id i hget, ?_⟩
    have hof : p.importsOf id = i := by
      rw [importsOf, Std.ExtTreeMap.getD_eq_getD_getElem?, hget, Option.getD_some]
    exact hof ▸ h.proper id
  listed id other v n htakes := (hpermitted id _ n htakes).listed other v rfl
  foreign id u t n htakes hget hglobal hslot := by
    refine hglobal ((hpermitted id t n htakes).foreign u hget hslot ?_)
    rintro rfl
    exact h.loop id n htakes

end Program

end ScriptBuild
