import ScriptBuild.Archive.Basic
import ScriptBuild.Proofs.Program.Change

namespace ScriptBuild

namespace Catalog

variable {c : Catalog} {id other : Nat} {u v : BuildUnit} {name : String} {kind : UnitKind}
  {timestamp overload : Nat} {body : Option Body} {f : BuildUnit → BuildUnit}

/-- No two units have the same name and the same overload number. -/
def Distinct (c : Catalog) : Prop :=
  ∀ id other u v, c.get? id = some u → c.get? other = some v → u.name = v.name →
    u.overload = v.overload → id = other

/-- The largest of some values is as large as each of them. -/
theorem foldl_max_le (ids : List Nat) (value : Nat → Nat) (first : Nat) :
    first ≤ ids.foldl (fun next id => max next (value id)) first ∧
      ∀ id ∈ ids, value id ≤ ids.foldl (fun next id => max next (value id)) first := by
  induction ids generalizing first with
  | nil => simp
  | cons id ids ih =>
    obtain ⟨hfirst, hrest⟩ := ih (max first (value id))
    simp only [List.foldl_cons, List.mem_cons, forall_eq_or_imp]
    exact ⟨by omega, by omega, hrest⟩

/-- A new overload number is larger than those of all units of the name. -/
theorem lt_nextOverload (hget : c.get? id = some u) (hname : u.name = name) :
    u.overload < c.nextOverload name := by
  have hmem : id ∈ c.overloads name := mem_overloads.2 ⟨u, hget, hname⟩
  have hle := (foldl_max_le (c.overloads name)
    (fun id => ((c.get? id).map (·.overload + 1)).getD 0) 0).2 id hmem
  rw [hget] at hle
  exact hle

/-- Units are told apart with a unit whose name and overload number are new. -/
theorem Distinct.push (h : c.Distinct)
    (hnew : ∀ id v, c.get? id = some v → v.name = u.name → v.overload ≠ u.overload) :
    (c.push u).Distinct := by
  intro id other v w hv hw hname hoverload
  rw [get?_push] at hv hw
  split at hv <;> split at hw
  · omega
  · obtain rfl := Option.some.inj hv
    exact absurd hoverload.symm (hnew other w hw hname.symm)
  · obtain rfl := Option.some.inj hw
    exact absurd hoverload (hnew id v hv hname)
  · exact h id other v w hv hw hname hoverload

/-- They are told apart after a change that keeps names and overload numbers. -/
theorem Distinct.modify (h : c.Distinct) (hname : ∀ u, (f u).name = u.name)
    (hoverload : ∀ u, (f u).overload = u.overload) : (c.modify id f).Distinct := by
  have hback {i : Nat} {v : BuildUnit} (hget : (c.modify id f).get? i = some v) :
      ∃ u, c.get? i = some u ∧ v.name = u.name ∧ v.overload = u.overload := by
    rw [get?_modify hname] at hget
    split at hget
    · obtain ⟨u, hu, rfl⟩ := Option.map_eq_some_iff.1 hget
      exact ⟨u, hu, hname u, hoverload u⟩
    · exact ⟨v, hget, rfl, rfl⟩
  intro i j v w hv hw hnames hoverloads
  obtain ⟨u, hu, hun, huo⟩ := hback hv
  obtain ⟨u', hu', hun', huo'⟩ := hback hw
  exact h i j u u' hu hu' (by rw [← hun, ← hun', hnames]) (by rw [← huo, ← huo', hoverloads])

/-- What is found has the name and the overload number. -/
theorem exists_of_find (hfind : c.find name overload = some id) :
    ∃ u, c.get? id = some u ∧ u.name = name ∧ u.overload = overload := by
  obtain ⟨u, hget, hname⟩ := mem_overloads.1 (List.mem_of_find?_eq_some hfind)
  have hover := List.find?_some hfind
  simp only [hget, Option.any_some, beq_iff_eq] at hover
  exact ⟨u, hget, hname, hover⟩

/-- If nothing is found, no unit has the name with the overload number. -/
theorem ne_of_find_eq_none (hfind : c.find name overload = none) (hget : c.get? id = some u)
    (hname : u.name = name) : u.overload ≠ overload := by
  intro hover
  have hnone := List.find?_eq_none.1 hfind id (mem_overloads.2 ⟨u, hget, hname⟩)
  simp [hget, hover] at hnone

end Catalog

namespace Program

variable {p q : Program} {id other a b : Nat} {t : Target} {n : String} {u : BuildUnit}
  {row : Archive.Row}

/-- What holds of every program. -/
structure Sound (p : Program) : Prop where
  distinct : p.units.Distinct
  proper : p.Proper
  node : ∀ a, p.graph.hasNode a → a < p.units.size
  edge : ∀ id other n, p.Takes id (.unit other) n → p.graph.Edge id other

/-- What a unit depends on is a unit. -/
theorem Sound.lt_of_edge (h : p.Sound) (hedge : p.graph.Edge a b) : b < p.units.size :=
  h.node b hedge.hasNode_right

theorem sound_empty : Program.empty.Sound where
  distinct id _ u _ hu := by simp [Program.empty, Catalog.empty, Catalog.get?] at hu
  proper id := by simpa [importsOf, Program.empty] using Imports.proper_empty
  node a h := absurd h Digraph.not_hasNode_empty
  edge id other n h := by simp [Takes, importsOf, Program.empty] at h

/-- A change of units that keeps their names and overload numbers. -/
theorem Sound.modify (h : p.Sound) (id : Nat) {f : BuildUnit → BuildUnit}
    (hname : ∀ u, (f u).name = u.name) (hoverload : ∀ u, (f u).overload = u.overload) :
    Sound { p with units := p.units.modify id f } where
  distinct := h.distinct.modify hname hoverload
  proper := h.proper
  node a ha := by rw [Catalog.size_modify]; exact h.node a ha
  edge := h.edge

/-- A program stays sound with a unit whose name and overload number are new. -/
theorem Sound.push (h : p.Sound)
    (hnew : ∀ id v, p.units.get? id = some v → v.name = u.name → v.overload ≠ u.overload) :
    (p.pushUnit u).Sound where
  distinct := h.distinct.push hnew
  proper := h.proper
  node a ha := by
    rw [pushUnit, Digraph.hasNode_addNode] at ha
    rw [pushUnit, Catalog.size_push]
    rcases ha with rfl | ha
    · omega
    · have hlt := h.node a ha
      omega
  edge id other n htakes := Digraph.edge_addNode.2 (h.edge id other n htakes)

/-- It stays sound if a unit is noted once more as a node. -/
theorem Sound.addNode (h : p.Sound) (hlt : id < p.units.size) :
    Sound { p with graph := p.graph.addNode id } where
  distinct := h.distinct
  proper := h.proper
  node a ha := by
    rcases Digraph.hasNode_addNode.1 ha with rfl | ha
    · exact hlt
    · exact h.node a ha
  edge id other n htakes := Digraph.edge_addNode.2 (h.edge id other n htakes)

/-- It stays sound with another dependency between units. -/
theorem Sound.addEdge (h : p.Sound) (ha : a < p.units.size) (hb : b < p.units.size) :
    Sound { p with graph := p.graph.addEdge a b } where
  distinct := h.distinct
  proper := h.proper
  node x hx := by
    rcases Digraph.hasNode_addEdge.1 hx with rfl | rfl | hx
    · exact ha
    · exact hb
    · exact h.node x hx
  edge id other n htakes := Digraph.edge_addEdge.2 (.inr (h.edge id other n htakes))

theorem proper_recordImport (hproper : p.Proper) : (p.recordImport id t n).Proper := by
  intro other
  rw [importsOf_recordImport]
  split
  · exact (hproper id).insert
  · exact hproper other

/-- It stays sound with another import from a unit that is there. -/
theorem Sound.recordImport (h : p.Sound) (hid : id < p.units.size)
    (htarget : ∀ other, t = .unit other → other < p.units.size) : (p.recordImport id t n).Sound where
  distinct := by rw [units_recordImport]; exact h.distinct
  proper := proper_recordImport h.proper
  node a ha := by
    rw [units_recordImport]
    rcases hasNode_recordImport.1 ha with ha | ⟨other, rfl, _, rfl | rfl⟩
    · exact h.node a ha
    · exact hid
    · exact htarget a rfl
  edge x y m htakes := by
    rw [edge_recordImport]
    rcases takes_recordImport.1 htakes with ⟨rfl, rfl, rfl, hne⟩ | htakes
    · exact .inr ⟨rfl, rfl, fun heq => hne (congrArg Target.unit heq)⟩
    · exact .inl (h.edge x y m htakes)

theorem proper_removeImport (hproper : p.Proper) : (p.removeImport id t n).Proper := by
  intro other
  rw [importsOf_removeImport]
  split
  · exact (hproper id).erase
  · exact hproper other

/-- It stays sound without an import: dependencies that are left are still needed or loose. -/
theorem Sound.removeImport (h : p.Sound) : (p.removeImport id t n).Sound where
  distinct := by rw [units_removeImport]; exact h.distinct
  proper := proper_removeImport h.proper
  node a ha := by rw [units_removeImport]; exact h.node a (hasNode_removeImport.1 ha)
  edge x y m htakes := by
    obtain ⟨hbefore, hkept⟩ := takes_removeImport.1 htakes
    refine (edge_removeImport h.proper).2 ⟨h.edge x y m hbefore, ?_⟩
    rintro ⟨rfl, rfl, _, honly⟩
    exact hkept ⟨rfl, rfl, honly m hbefore⟩

/-- It stays sound without what came from a body. -/
theorem Sound.clearBody (h : p.Sound) : (p.clearBody id).Sound where
  distinct := h.distinct.modify (fun _ => rfl) fun _ => rfl
  proper other := by
    rw [importsOf_clearBody]
    split
    · exact Imports.proper_empty
    · exact h.proper other
  node a ha := by
    simp only [Program.clearBody, Catalog.size_modify]
    exact h.node a (Digraph.hasNode_removeOut.1 ha)
  edge x y m htakes := by
    obtain ⟨hne, htakes⟩ := takes_clearBody.1 htakes
    exact Digraph.edge_removeOut.2 ⟨h.edge x y m htakes, hne⟩

/-- It stays sound after a single change that looking a name up makes. -/
theorem Sound.grow (h : p.Sound) (hgrow : p.Grow q) : q.Sound := by
  cases hgrow with
  | insert name kind timestamp body hnew =>
    exact h.push fun id v hget hname => Nat.ne_of_lt (Catalog.lt_nextOverload hget hname)
  | slot id u slot hget htable =>
    exact h.modify id (fun u => BuildUnit.becomes_addSlot.name) fun u =>
      BuildUnit.becomes_addSlot.overload
  | stamp id u timestamp body hget hfile hnewer => exact h.modify id (fun _ => rfl) fun _ => rfl
  | attach id body => exact h.modify id (fun _ => rfl) fun _ => rfl
  | node id hlt => exact h.addNode hlt

/-- It stays sound after a single change that handling a unit makes. -/
theorem Sound.change (h : p.Sound) (hchange : p.Change id q) : q.Sound := by
  cases hchange with
  | grow hgrow => exact h.grow hgrow
  | clear u hget hbody => exact h.clearBody
  | exports u slots hget hbody himports =>
    exact h.modify id (fun u => (BuildUnit.becomes_foldl_addSlot slots u).name) fun u =>
      (BuildUnit.becomes_foldl_addSlot slots u).overload
  | record t n hmay =>
    obtain ⟨u, hget, _⟩ := hmay.taker
    exact h.recordImport (Catalog.lt_size_of_get? hget) hmay.target
  | remove t n => exact h.removeImport

/-- It stays sound when a unit is restored, as a name and overload number that are taken give no
unit. -/
theorem Sound.restoreUnit (h : p.Sound) : (Archive.restoreUnit p row).Sound := by
  unfold Archive.restoreUnit
  split
  · exact h
  · next hnone =>
    refine h.push fun id v hget hname => ?_
    exact Catalog.ne_of_find_eq_none (Option.not_isSome_iff_eq_none.1 hnone) hget hname

theorem units_foldl_recordImport (names : List String) (p : Program) :
    (names.foldl (fun p n => p.recordImport id t n) p).units = p.units := by
  induction names generalizing p with
  | nil => rfl
  | cons n names ih => rw [List.foldl_cons, ih, units_recordImport]

/-- A program stays sound with several imports. -/
theorem Sound.foldl_recordImport (h : p.Sound) (names : List String) (hid : id < p.units.size)
    (htarget : ∀ other, t = .unit other → other < p.units.size) :
    (names.foldl (fun p n => p.recordImport id t n) p).Sound := by
  induction names generalizing p with
  | nil => exact h
  | cons n names ih =>
    exact ih (h.recordImport hid htarget) (by rwa [units_recordImport])
      (by rwa [units_recordImport])

/-- It stays sound when a dependency is restored, and has the same units. -/
theorem Sound.restoreDependency (h : p.Sound) (d : Archive.Dependency) (hid : id < p.units.size) :
    (Archive.restoreDependency id p d).Sound ∧
      (Archive.restoreDependency id p d).units = p.units := by
  unfold Archive.restoreDependency
  split
  · exact ⟨h, rfl⟩
  · next other hfind =>
    obtain ⟨v, hget, _⟩ := Catalog.exists_of_find hfind
    have hother := Catalog.lt_size_of_get? hget
    refine ⟨(h.addEdge hid hother).foldl_recordImport _ hid ?_, units_foldl_recordImport _ _⟩
    rintro x ⟨⟩
    exact hother

/-- It stays sound when several dependencies are restored. -/
theorem Sound.foldl_restoreDependency (h : p.Sound) (dependencies : List Archive.Dependency)
    (hid : id < p.units.size) : (dependencies.foldl (Archive.restoreDependency id) p).Sound ∧
      (dependencies.foldl (Archive.restoreDependency id) p).units = p.units := by
  induction dependencies generalizing p with
  | nil => exact ⟨h, rfl⟩
  | cons d dependencies ih =>
    obtain ⟨hsound, hunits⟩ := h.restoreDependency d hid
    obtain ⟨hrest, hsame⟩ := ih hsound (by rwa [hunits])
    exact ⟨hrest, hsame.trans hunits⟩

/-- It stays sound when the row of a unit is restored. -/
theorem Sound.restoreImports (h : p.Sound) : (Archive.restoreImports p row).Sound := by
  unfold Archive.restoreImports
  split
  · exact h
  · next id hfind =>
    obtain ⟨u, hget, _⟩ := Catalog.exists_of_find hfind
    have hid := Catalog.lt_size_of_get? hget
    obtain ⟨hsound, hunits⟩ := h.foldl_restoreDependency row.dependencies hid
    exact hsound.foldl_recordImport _ (by rwa [hunits]) fun _ heq => by cases heq

/-- Whatever an archive says, the program that it describes is sound. -/
theorem sound_toProgram (archive : Archive) : archive.toProgram.Sound := by
  have hunits : (archive.units.foldl Archive.restoreUnit .empty).Sound :=
    List.foldlRecOn archive.units Archive.restoreUnit sound_empty fun _ h _ _ => h.restoreUnit
  exact List.foldlRecOn archive.units Archive.restoreImports hunits fun _ h _ _ => h.restoreImports

end Program

end ScriptBuild
