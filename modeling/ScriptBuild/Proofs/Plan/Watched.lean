import ScriptBuild.Build.Linkage
import ScriptBuild.Proofs.Plan.Steps
import ScriptBuild.Proofs.Program.Coherent

namespace ScriptBuild

namespace Program

variable {p q : Program} {c : BuildConfig} {root a b id : Nat} {path : FilePath} {u v : BuildUnit}

/-- What a unit leads to in one program is the same in another one, whose units go on from there. -/
structure KeptBelow (q : Program) (root : Nat) (p : Program) : Prop where
  units : q.units.Grows p.units
  edge : ∀ a b, q.graph.Reaches root a → (p.graph.Edge a b ↔ q.graph.Edge a b)

namespace KeptBelow

/-- Paths below the unit are the same in both programs. -/
theorem reaches_iff (h : q.KeptBelow root p) (ha : q.graph.Reaches root a) :
    p.graph.Reaches a b ↔ q.graph.Reaches a b := by
  constructor
  · intro hreach
    induction hreach with
    | refl => exact .refl
    | tail _ hnext ih => exact ih.tail ((h.edge _ _ (ha.trans ih)).1 hnext)
  · intro hreach
    induction hreach with
    | refl => exact .refl
    | tail hfirst hnext ih => exact ih.tail ((h.edge _ _ (ha.trans hfirst)).2 hnext)

theorem stronglyConnected_iff (h : q.KeptBelow root p) (ha : q.graph.Reaches root a) :
    p.graph.StronglyConnected a b ↔ q.graph.StronglyConnected a b := by
  constructor
  · rintro ⟨hforth, hback⟩
    have hforth := (h.reaches_iff ha).1 hforth
    exact ⟨hforth, (h.reaches_iff (ha.trans hforth)).1 hback⟩
  · rintro ⟨hforth, hback⟩
    exact ⟨(h.reaches_iff ha).2 hforth, (h.reaches_iff (ha.trans hforth)).2 hback⟩

end KeptBelow

/-- A file whose change makes the module of a unit stale: its object, a library from outside of its
cycle, or the runtime. -/
def Watches (p : Program) (c : BuildConfig) (id : Nat) (path : FilePath) : Prop :=
  (∃ u, p.units.get? id = some u ∧ path = c.layout.path .object u) ∨
  (∃ other v, p.graph.Edge id other ∧ ¬ p.graph.Reaches other id ∧ p.units.get? other = some v ∧
    c.layout.library? false v = some path) ∨
  c.runtime = some path

/-- A file whose change makes the module of an entry point stale that holds all its units. -/
def Holds (p : Program) (c : BuildConfig) (root : Nat) (path : FilePath) : Prop :=
  (∃ id u, p.graph.Reaches root id ∧ p.units.get? id = some u ∧
    (u.kind.treatment.makesObject ∧ path = c.layout.path .object u ∨
      u.kind.treatment = .linkAsIs ∧ u.kind.path? = some path)) ∨
  c.runtime = some path

end Program

open Program

variable {p q : Program} {c : BuildConfig} {root a b id : Nat} {path : FilePath} {u v : BuildUnit}
  {l : Layout} {role : FileRole}

/-- The files of a unit stay where they are. -/
theorem Layout.path_of_becomes (h : u.Becomes v) : l.path role v = l.path role u := by
  rw [Layout.path, Layout.path, BuildUnit.stem, BuildUnit.stem, h.name, h.overload]

/-- The library of a unit stays where it is. -/
theorem Layout.library?_of_becomes (h : u.Becomes v) {byStandIn : Bool} :
    l.library? byStandIn v = l.library? byStandIn u := by
  simp only [Layout.library?, h.kind, l.path_of_becomes h]

/-- A unit of a program is one of what it has become, and there is no other one with its number. -/
theorem Catalog.Grows.exists_get?_iff {units others : Catalog} (h : units.Grows others)
    (hlt : id < units.size) {P : BuildUnit → Prop} (hP : ∀ u v, u.Becomes v → (P v ↔ P u)) :
    (∃ v, others.get? id = some v ∧ P v) ↔ ∃ u, units.get? id = some u ∧ P u := by
  obtain ⟨u, hu⟩ := Catalog.exists_get? hlt
  obtain ⟨v, hv, hbecomes⟩ := h id u hu
  constructor
  · rintro ⟨v', hv', hpv⟩
    obtain rfl := Option.some.inj (hv.symm.trans hv')
    exact ⟨u, hu, (hP u v hbecomes).1 hpv⟩
  · rintro ⟨u', hu', hpu⟩
    obtain rfl := Option.some.inj (hu.symm.trans hu')
    exact ⟨v, hv, (hP u v hbecomes).2 hpu⟩

namespace Program.KeptBelow

theorem watches_iff (h : q.KeptBelow root p) (hq : q.Linked) (hroot : root < q.units.size)
    (hid : q.graph.Reaches root id) : p.Watches c id path ↔ q.Watches c id path := by
  have hlt {a : Nat} (ha : q.graph.Reaches root a) : a < q.units.size :=
    hq.node a (ha.hasNode (hq.known root hroot))
  refine or_congr ?_ (or_congr_left ?_)
  · refine h.units.exists_get?_iff (hlt hid) fun u v huv => ?_
    rw [c.layout.path_of_becomes huv]
  · refine exists_congr fun other => ?_
    simp only [exists_and_left]
    rw [h.edge id other hid]
    refine and_congr_right fun hedge => ?_
    have hother := hid.tail hedge
    rw [h.reaches_iff hother]
    refine and_congr_right fun _ => ?_
    refine h.units.exists_get?_iff (hlt hother) fun u v huv => ?_
    rw [c.layout.library?_of_becomes huv]

/-- What the module of an entry point holds stays the same. -/
theorem holds_iff (h : q.KeptBelow root p) (hq : q.Linked) (hroot : root < q.units.size) :
    p.Holds c root path ↔ q.Holds c root path := by
  refine or_congr_left (exists_congr fun id => ?_)
  simp only [exists_and_left]
  rw [h.reaches_iff .refl]
  refine and_congr_right fun hid => ?_
  refine h.units.exists_get?_iff (hq.node id (hid.hasNode (hq.known root hroot))) fun u v huv => ?_
  rw [c.layout.path_of_becomes huv, huv.kind]

end Program.KeptBelow

namespace Planning

variable {k : Planning} {path : FilePath} {forward : Bool} {entry : String}

/-- The module of a unit watches the same files on both passes through a cycle. -/
theorem mem_watched_unitLinkage (hq : q.Linked) (hcatalog : k.catalog = q.units)
    (hroot : root < q.units.size) (hid : q.graph.Reaches root id)
    (hu : q.units.get? id = some u) :
    path ∈ (c.unitLinkage q.units (k.plan q.graph root) id u forward).watched ↔
      q.Watches c id path := by
  have hnode : ∀ u, q.graph.hasNode u → u < k.catalog.size := hcatalog ▸ hq.node
  have hroot' : root < k.catalog.size := hcatalog ▸ hroot
  have hneeded {other : Nat} :
      other ∈ ((k.plan q.graph root).subgraph.successors id).toList ↔ q.graph.Edge id other := by
    rw [Std.ExtTreeSet.mem_toList]
    exact edge_needed.trans (and_iff_right hid)
  have hpeer {other : Nat} (hedge : q.graph.Edge id other) :
      other ∈ (k.plan q.graph root).peers id ↔ q.graph.Reaches other id := by
    rw [mem_peers hnode hroot' hid]
    refine ⟨fun h => h.2.2, fun hback => ⟨?_, .single hedge, hback⟩⟩
    rintro rfl
    obtain ⟨n, htakes⟩ := hq.takes other other hedge
    exact hq.loop other n htakes
  have hlibrary {other : Nat} {v : BuildUnit} (hother : other ∉ (k.plan q.graph root).peers id) :
      c.layout.library? (forward && ((k.plan q.graph root).peers id).contains other) v =
        c.layout.library? false v := by
    have hnot : ((k.plan q.graph root).peers id).contains other = false := by
      simpa using hother
    rw [hnot, Bool.and_false]
  simp only [BuildConfig.unitLinkage, List.mem_append, List.mem_cons, List.mem_map,
    List.mem_filter, Bool.not_eq_true', Option.mem_toList, Watches, or_assoc]
  refine or_congr ?_ (or_congr_left ?_)
  · simp only [hu, Option.some.injEq, exists_eq_left']
  · constructor
    · rintro ⟨⟨other, found⟩, ⟨hmem, houtside⟩, rfl⟩
      have houtside : other ∉ (k.plan q.graph root).peers id := by simpa using houtside
      obtain ⟨other', hedge, hfound⟩ := List.mem_filterMap.1 hmem
      obtain ⟨v, hv, hfound⟩ := Option.bind_eq_some_iff.1 hfound
      obtain ⟨path, hpath, heq⟩ := Option.map_eq_some_iff.1 hfound
      cases heq
      rw [hlibrary houtside] at hpath
      have hedge := hneeded.1 hedge
      exact ⟨other, v, hedge, fun hback => houtside ((hpeer hedge).2 hback), hv, hpath⟩
    · rintro ⟨other, v, hedge, hback, hv, hpath⟩
      have houtside : other ∉ (k.plan q.graph root).peers id := fun h => hback ((hpeer hedge).1 h)
      refine ⟨(other, path), ⟨List.mem_filterMap.2 ⟨other, hneeded.2 hedge, ?_⟩, by simpa using houtside⟩,
        rfl⟩
      rw [hv, Option.bind_some, hlibrary houtside, hpath, Option.map_some]

/-- The module of an entry point watches what it holds, whatever plan it is made by. -/
theorem mem_watched_entryLinkage (hq : q.Linked) (hcatalog : k.catalog = q.units)
    (hroot : root < q.units.size) :
    path ∈ (c.entryLinkage q.units (k.plan q.graph root) entry).watched ↔ q.Holds c root path := by
  have hnode : ∀ u, q.graph.hasNode u → u < k.catalog.size := hcatalog ▸ hq.node
  have hroot' : root < k.catalog.size := hcatalog ▸ hroot
  simp only [BuildConfig.entryLinkage, List.mem_append, List.mem_map, List.mem_filter,
    List.mem_filterMap, Option.mem_toList, mem_units_plan hnode hroot', Holds, beq_iff_eq]
  constructor
  · rintro (⟨u, ⟨⟨id, hid, hu⟩, hobject⟩, rfl⟩ | ⟨u, ⟨⟨id, hid, hu⟩, hasIs⟩, hpath⟩ | hruntime)
    · exact .inl ⟨id, u, hid, hu, .inl ⟨hobject, rfl⟩⟩
    · exact .inl ⟨id, u, hid, hu, .inr ⟨hasIs, hpath⟩⟩
    · exact .inr hruntime
  · rintro (⟨id, u, hid, hu, ⟨hobject, rfl⟩ | ⟨hasIs, hpath⟩⟩ | hruntime)
    · exact .inl ⟨u, ⟨⟨id, hid, hu⟩, hobject⟩, rfl⟩
    · exact .inr (.inl ⟨u, ⟨⟨id, hid, hu⟩, hasIs⟩, hpath⟩)
    · exact .inr (.inr hruntime)

end Planning

end ScriptBuild
