import Mathlib.Data.List.Permutation
import Mathlib.Data.Set.Card
import Std.Data.TreeMap.Iterator
import ScriptBuild.Proofs.Digraph.Components

namespace ScriptBuild

namespace Groups

/-- The sets that a single member cannot name. -/
def several (sets : List NodeSet) : List NodeSet := sets.filter (·.size ≠ 1)

/-- A set with two members has at least two. -/
theorem two_le_size {c : NodeSet} {u v : Nat} (hu : u ∈ c) (hv : v ∈ c) (hne : u ≠ v) :
    2 ≤ c.size := by
  rw [← Std.ExtTreeSet.length_toList]
  rw [← Std.ExtTreeSet.mem_toList] at hu hv
  match hlist : c.toList with
  | [] => simp [hlist] at hu
  | [w] =>
    simp only [hlist, List.mem_singleton] at hu hv
    exact absurd (hu.trans hv.symm) hne
  | _ :: _ :: _ => simp

/-- A set of several nodes has two members that differ. -/
theorem exists_ne_of_two_le_size {c : NodeSet} (hsize : 2 ≤ c.size) : ∃ u ∈ c, ∃ v ∈ c, u ≠ v := by
  have hdistinct := c.distinct_toList
  rw [← Std.ExtTreeSet.length_toList] at hsize
  match hlist : c.toList with
  | [] | [_] => simp [hlist] at hsize
  | u :: v :: rest =>
    rw [hlist, List.pairwise_cons] at hdistinct
    have hmem (x : Nat) (hx : x ∈ u :: v :: rest) : x ∈ c := Std.ExtTreeSet.mem_toList.1 (hlist ▸ hx)
    refine ⟨u, hmem u (by simp), v, hmem v (by simp), fun heq => hdistinct.1 v (by simp) ?_⟩
    rw [heq]
    exact Std.ReflCmp.compare_self

/-- Of disjoint sets only one holds a node. -/
theorem index_unique {sets : List NodeSet} (hdisjoint : sets.Pairwise Digraph.Disjoint)
    {i j u : Nat} {c d : NodeSet} (hi : sets[i]? = some c) (hj : sets[j]? = some d) (hc : u ∈ c)
    (hd : u ∈ d) : i = j := by
  have hpairs := List.pairwise_iff_getElem.1 hdisjoint
  obtain ⟨hilt, rfl⟩ := List.getElem?_eq_some_iff.1 hi
  obtain ⟨hjlt, rfl⟩ := List.getElem?_eq_some_iff.1 hj
  rcases Nat.lt_trichotomy i j with hlt | heq | hlt
  · exact absurd hd (hpairs i j hilt hjlt hlt u hc)
  · exact heq
  · exact absurd hc (hpairs j i hjlt hilt hlt u hd)

/-- A set with one member is named by it, and the others are named one after the other. -/
theorem mem_named {fresh : Nat → Nat} {used : Nat} {sets : List NodeSet} {k : Nat} {c : NodeSet} :
    (k, c) ∈ named fresh used sets ↔ (c ∈ sets ∧ c.toList = [k]) ∨
      ∃ i, (several sets)[i]? = some c ∧ fresh (used + i) = k := by
  induction sets generalizing used with
  | nil => simp [named, several]
  | cons d later ih =>
    by_cases hsize : d.size = 1
    · obtain ⟨u, hu⟩ := List.length_eq_one_iff.1 (Std.ExtTreeSet.length_toList.trans hsize)
      have hcons : named fresh used (d :: later) = (u, d) :: named fresh used later := by
        simp only [named, hu]
      have hseveral : several (d :: later) = several later := by simp [several, hsize]
      rw [hcons, hseveral, List.mem_cons, ih, List.mem_cons, Prod.mk.injEq]
      grind
    · have hcons : named fresh used (d :: later) =
          (fresh used, d) :: named fresh (used + 1) later := by
        rw [named]
        split
        · next u heq => exact absurd (Std.ExtTreeSet.length_toList.symm.trans (heq ▸ rfl)) hsize
        · rfl
      have hseveral : several (d :: later) = d :: several later := by simp [several, hsize]
      have hlist : d.toList ≠ [k] := fun heq =>
        hsize (Std.ExtTreeSet.length_toList.symm.trans (heq ▸ rfl))
      rw [hcons, hseveral, List.mem_cons, ih, List.mem_cons, Prod.mk.injEq]
      constructor
      · rintro (⟨rfl, rfl⟩ | ⟨hmem, hc⟩ | ⟨i, hi, hk⟩)
        · exact .inr ⟨0, rfl, rfl⟩
        · exact .inl ⟨.inr hmem, hc⟩
        · exact .inr ⟨i + 1, hi, by rw [← hk, Nat.add_right_comm, Nat.add_assoc]⟩
      · rintro (⟨rfl | hmem, hc⟩ | ⟨i, hi, hk⟩)
        · exact absurd hc hlist
        · exact .inr (.inl ⟨hmem, hc⟩)
        · cases i with
          | zero => exact .inl ⟨hk.symm, (Option.some.inj hi).symm⟩
          | succ i =>
            exact .inr (.inr ⟨i, hi, by rw [← hk, Nat.add_right_comm, Nat.add_assoc]⟩)

/-- Disjoint sets have different names, if no fresh name is the only member of one. -/
theorem named_pairwise {fresh : Nat → Nat} (hfresh : ∀ i j, fresh i = fresh j → i = j)
    (used : Nat) {sets : List NodeSet} (hdisjoint : sets.Pairwise Digraph.Disjoint)
    (hsingle : ∀ c ∈ sets, ∀ i, c.toList ≠ [fresh i]) :
    (named fresh used sets).Pairwise fun a b => ¬ compare a.1 b.1 = .eq := by
  simp only [Std.LawfulEqCmp.compare_eq_iff_eq]
  induction sets generalizing used with
  | nil => simp [named]
  | cons d later ih =>
    obtain ⟨hapart, hlater⟩ := List.pairwise_cons.1 hdisjoint
    have hrest := fun used => ih used hlater fun c hc => hsingle c (List.mem_cons_of_mem _ hc)
    rw [named]
    split
    · next u hu =>
      refine List.pairwise_cons.2 ⟨fun ⟨k, c⟩ hmem heq => ?_, hrest used⟩
      obtain rfl : u = k := heq
      have hmember : u ∈ d := Std.ExtTreeSet.mem_toList.1 (by simp [hu])
      rcases mem_named.1 hmem with ⟨hc, hlist⟩ | ⟨i, _, hk⟩
      · exact hapart c hc u hmember (Std.ExtTreeSet.mem_toList.1 (by simp [hlist]))
      · exact hsingle d List.mem_cons_self _ (hk ▸ hu)
    · refine List.pairwise_cons.2 ⟨fun ⟨k, c⟩ hmem heq => ?_, hrest (used + 1)⟩
      obtain rfl : fresh used = k := heq
      rcases mem_named.1 hmem with ⟨hc, hlist⟩ | ⟨i, _, hk⟩
      · exact hsingle c (List.mem_cons_of_mem _ hc) used hlist
      · have := hfresh _ _ hk
        omega

/-- The groups of a graph are its components from a given size on, under their names. -/
theorem getElem?_ofGraph_iff {g : Digraph} {least : Nat} {fresh : Nat → Nat}
    (hfresh : ∀ i j, fresh i = fresh j → i = j)
    (hsingle : ∀ c ∈ g.components, least ≤ c.size → ∀ i, c.toList ≠ [fresh i]) {k : Nat}
    {c : NodeSet} : (ofGraph g least fresh)[k]? = some c ↔
      (k, c) ∈ named fresh 0 (g.components.filter (least ≤ ·.size)) := by
  have hnames := named_pairwise hfresh 0
    (g.components_pairwise.filter fun c : NodeSet => decide (least ≤ c.size)) fun c hc => by
      obtain ⟨hmem, hsize⟩ := List.mem_filter.1 hc
      exact hsingle c hmem (by simpa using hsize)
  constructor
  · intro hget
    by_contra hnot
    by_cases hkey : k ∈ (named fresh 0 (g.components.filter (least ≤ ·.size))).map Prod.fst
    · obtain ⟨⟨l, d⟩, hmem, rfl⟩ := List.mem_map.1 hkey
      rw [ofGraph, Std.ExtTreeMap.getElem?_ofList_of_mem Std.ReflCmp.compare_self hnames hmem]
        at hget
      cases hget
      exact hnot hmem
    · rw [ofGraph, Std.ExtTreeMap.getElem?_ofList_of_contains_eq_false (by simpa using hkey)] at hget
      cases hget
  · exact Std.ExtTreeMap.getElem?_ofList_of_mem Std.ReflCmp.compare_self hnames

/-- The components with at least `least` members. -/
def ample (g : Digraph) (least : Nat) : List NodeSet := g.components.filter (least ≤ ·.size)

/-- Those among them that have several members, in the order in which they take names. -/
def large (g : Digraph) (least : Nat) : List NodeSet := several (ample g least)

/-- Groups are made of the components that are large enough. -/
theorem mem_ample {g : Digraph} {least : Nat} {c : NodeSet} :
    c ∈ ample g least ↔ c ∈ g.components ∧ least ≤ c.size := by
  simp [ample]

/-- Those with several members take names of their own. -/
theorem mem_large {g : Digraph} {least : Nat} {c : NodeSet} :
    c ∈ large g least ↔ c ∈ ample g least ∧ c.size ≠ 1 := by
  simp [large, several]

theorem size_eq_one_of_toList {c : NodeSet} {u : Nat} (hlist : c.toList = [u]) : c.size = 1 := by
  rw [← Std.ExtTreeSet.length_toList, hlist, List.length_singleton]

theorem size_pos_of_mem {c : NodeSet} {u : Nat} (hu : u ∈ c) : 1 ≤ c.size := by
  rw [← Std.ExtTreeSet.length_toList]
  exact List.length_pos_of_mem (Std.ExtTreeSet.mem_toList.2 hu)

section OfGraph

variable {g : Digraph} {least : Nat} {fresh : Nat → Nat} (hfresh : ∀ i j, fresh i = fresh j → i = j)
  (hnew : ∀ i, ¬ g.hasNode (fresh i))

include hfresh hnew

/-- A group is a component with enough members. Its name is its only member or the one that its
place among the larger components gets. -/
theorem getElem?_ofGraph_iff_ample {k : Nat} {c : NodeSet} :
    (ofGraph g least fresh)[k]? = some c ↔ c ∈ ample g least ∧
      (c.toList = [k] ∨ ∃ i, (large g least)[i]? = some c ∧ fresh i = k) := by
  have hsingle (c : NodeSet) (hc : c ∈ g.components) (i : Nat) : c.toList ≠ [fresh i] := by
    intro hlist
    have hmember : fresh i ∈ c := Std.ExtTreeSet.mem_toList.1 (by simp [hlist])
    exact hnew i ((Digraph.components_sound hc).2 _ hmember)
  rw [getElem?_ofGraph_iff hfresh fun c hc _ => hsingle c hc, mem_named, ← ample, ← large]
  simp only [Nat.zero_add]
  constructor
  · rintro (⟨hc, hlist⟩ | ⟨i, hi, hk⟩)
    · exact ⟨hc, .inl hlist⟩
    · exact ⟨(mem_large.1 (List.mem_of_getElem? hi)).1, .inr ⟨i, hi, hk⟩⟩
  · rintro ⟨hc, hlist | hi⟩
    · exact .inl ⟨hc, hlist⟩
    · exact .inr hi

theorem mem_components_of_getElem? {k : Nat} {c : NodeSet}
    (hc : (ofGraph g least fresh)[k]? = some c) : c ∈ g.components :=
  (mem_ample.1 ((getElem?_ofGraph_iff_ample hfresh hnew).1 hc).1).1

/-- Every component with enough members is a group. -/
theorem exists_getElem?_of_mem_ample {c : NodeSet} (hc : c ∈ ample g least) :
    ∃ k : Nat, (ofGraph g least fresh)[k]? = some c := by
  by_cases hsize : c.size = 1
  · obtain ⟨u, hu⟩ := List.length_eq_one_iff.1 (Std.ExtTreeSet.length_toList.trans hsize)
    exact ⟨u, (getElem?_ofGraph_iff_ample hfresh hnew).2 ⟨hc, .inl hu⟩⟩
  · obtain ⟨i, hi⟩ := List.mem_iff_getElem?.1 (mem_large.2 ⟨hc, hsize⟩)
    exact ⟨fresh i, (getElem?_ofGraph_iff_ample hfresh hnew).2 ⟨hc, .inr ⟨i, hi, rfl⟩⟩⟩

/-- Groups with a common member have one name. -/
theorem ofGraph_unique {k l u : Nat} {c d : NodeSet} (hc : (ofGraph g least fresh)[k]? = some c)
    (hd : (ofGraph g least fresh)[l]? = some d) (huc : u ∈ c) (hud : u ∈ d) : k = l := by
  obtain ⟨i, hi⟩ := List.mem_iff_getElem?.1 (mem_components_of_getElem? hfresh hnew hc)
  obtain ⟨j, hj⟩ := List.mem_iff_getElem?.1 (mem_components_of_getElem? hfresh hnew hd)
  obtain rfl := index_unique g.components_pairwise hi hj huc hud
  obtain rfl : c = d := Option.some.inj (hi.symm.trans hj)
  have hlarge {i m : Nat} (hi : (large g least)[i]? = some c) : c.toList ≠ [m] := fun hlist =>
    (mem_large.1 (List.mem_of_getElem? hi)).2 (size_eq_one_of_toList hlist)
  obtain ⟨_, hk | ⟨i, hi, rfl⟩⟩ := (getElem?_ofGraph_iff_ample hfresh hnew).1 hc
  · obtain ⟨_, hl | ⟨j, hj, rfl⟩⟩ := (getElem?_ofGraph_iff_ample hfresh hnew).1 hd
    · simpa using hk.symm.trans hl
    · exact absurd hk (hlarge hj)
  · obtain ⟨_, hl | ⟨j, hj, rfl⟩⟩ := (getElem?_ofGraph_iff_ample hfresh hnew).1 hd
    · exact absurd hl (hlarge hi)
    · rw [index_unique ((g.components_pairwise.filter _).filter _) hi hj huc hud]

end OfGraph

theorem exists_min? {c : NodeSet} {u : Nat} (hu : u ∈ c) :
    ∃ least ∈ c, c.min? = some least ∧ ∀ v ∈ c, least ≤ v := by
  obtain ⟨least, hleast⟩ := Option.isSome_iff_exists.1 (Std.ExtTreeSet.isSome_min?_of_mem hu)
  obtain ⟨hmem, hbelow⟩ := Std.ExtTreeSet.min?_eq_some_iff_mem_and_forall.1 hleast
  refine ⟨least, hmem, hleast, fun v hv => ?_⟩
  simpa [Nat.isLE_compare] using hbelow v hv

/-- Whether the smallest member of a set comes before that of another one. -/
def LowerThan (c d : NodeSet) : Prop :=
  ∃ a b, c.min? = some a ∧ d.min? = some b ∧ a < b

/-- The components stand in the order of their smallest members. -/
theorem components_ascending (g : Digraph) : g.components.Pairwise LowerThan := by
  have hsorted : g.components.Pairwise fun a b => a.min?.getD 0 ≤ b.min?.getD 0 := by
    rw [Digraph.components]
    refine (List.pairwise_mergeSort ?_ ?_ _).imp fun hle => of_decide_eq_true hle
    · intro a b c hab hbc
      simp only [decide_eq_true_eq] at *
      omega
    · intro a b
      simp only [Bool.or_eq_true, decide_eq_true_eq]
      omega
  refine (hsorted.and g.components_pairwise).imp_of_mem ?_
  intro c d hc hd hboth
  obtain ⟨hle, hdisjoint⟩ := hboth
  obtain ⟨u, hu, _⟩ := (Digraph.components_sound hc).1
  obtain ⟨v, hv, _⟩ := (Digraph.components_sound hd).1
  obtain ⟨a, ha, hmina, _⟩ := exists_min? hu
  obtain ⟨b, hb, hminb, _⟩ := exists_min? hv
  have hne : a ≠ b := by
    rintro rfl
    exact hdisjoint a ha hb
  rw [hmina, hminb] at hle
  simp only [Option.getD_some] at hle
  exact ⟨a, b, hmina, hminb, by omega⟩

/-- As many nodes as a component has members are strongly connected to one of them. -/
theorem ncard_of_isComponent {g : Digraph} {c : NodeSet} (hc : g.IsComponent c) {u : Nat}
    (hu : u ∈ c) : {v | g.StronglyConnected u v}.ncard = c.size := by
  have hset : {v | g.StronglyConnected u v} = (c.toList.toFinset : Set Nat) := by
    ext v
    simp [hc.mem_iff hu]
  have hnodup : c.toList.Nodup := by
    refine c.distinct_toList.imp fun hne heq => hne ?_
    rw [heq]
    exact Std.ReflCmp.compare_self
  rw [hset, Set.ncard_coe_finset, List.toFinset_card_of_nodup hnodup, Std.ExtTreeSet.length_toList]

/-- Some group holds a node. -/
def Grouped (groups : Groups) (u : Nat) : Prop :=
  ∃ (k : Nat) (c : NodeSet), groups[k]? = some c ∧ u ∈ c

/-- One group holds two nodes. -/
def Together (groups : Groups) (u v : Nat) : Prop :=
  ∃ (k : Nat) (c : NodeSet), groups[k]? = some c ∧ u ∈ c ∧ v ∈ c

/-- Groups that are exactly the components of a graph with at least `least` members, and at least
one, where the larger ones take their names from `fresh`. -/
structure AreComponents (g : Digraph) (least : Nat) (fresh : Nat → Nat) (groups : Groups) :
    Prop where
  /-- Of the nodes in groups, those are together that lead to each other. -/
  together : ∀ u v,
    Together groups u v ↔ Grouped groups u ∧ Grouped groups v ∧ g.StronglyConnected u v
  /-- A node is in a group if its component has enough members. -/
  grouped : ∀ u,
    Grouped groups u ↔ g.hasNode u ∧ max least 1 ≤ {v | g.StronglyConnected u v}.ncard
  /-- An edge from a node to itself is not enough for a group of several members. -/
  proper : 2 ≤ least → ∀ u, Grouped groups u → ∃ v, v ≠ u ∧ g.StronglyConnected u v
  disjoint : ∀ (k l : Nat) (c d : NodeSet),
    groups[k]? = some c → groups[l]? = some d → k ≠ l → Digraph.Disjoint c d
  distinct : groups.keys.Nodup
  single : ∀ (k : Nat) (c : NodeSet), groups[k]? = some c → c.size = 1 → c.toList = [k]
  /-- The groups of several members have the fresh names in the order of their smallest members. -/
  inOrder : ∃ sets : List NodeSet, sets.Pairwise LowerThan ∧
    ∀ (k : Nat) (c : NodeSet), groups[k]? = some c ∧ 2 ≤ c.size ↔
      ∃ i, sets[i]? = some c ∧ fresh i = k

section OfGraph

variable {g : Digraph} {least : Nat} {fresh : Nat → Nat} (hfresh : ∀ i j, fresh i = fresh j → i = j)
  (hnew : ∀ i, ¬ g.hasNode (fresh i))

include hfresh hnew

theorem mem_group_iff {k u v : Nat} {c : NodeSet} (hc : (ofGraph g least fresh)[k]? = some c)
    (hu : u ∈ c) : v ∈ c ↔ g.StronglyConnected u v :=
  (Digraph.components_sound (mem_components_of_getElem? hfresh hnew hc)).1.mem_iff hu

/-- Two nodes are in one group exactly if they are grouped and lead to each other. -/
theorem together_ofGraph_iff {u v : Nat} : Together (ofGraph g least fresh) u v ↔
    Grouped (ofGraph g least fresh) u ∧ Grouped (ofGraph g least fresh) v ∧
      g.StronglyConnected u v := by
  constructor
  · rintro ⟨k, c, hc, hu, hv⟩
    exact ⟨⟨k, c, hc, hu⟩, ⟨k, c, hc, hv⟩, (mem_group_iff hfresh hnew hc hu).1 hv⟩
  · rintro ⟨⟨k, c, hc, hu⟩, _, hstrong⟩
    exact ⟨k, c, hc, hu, (mem_group_iff hfresh hnew hc hu).2 hstrong⟩

/-- A node is grouped exactly if enough nodes lead to it and back, itself among them. -/
theorem grouped_ofGraph_iff {u : Nat} : Grouped (ofGraph g least fresh) u ↔
    g.hasNode u ∧ max least 1 ≤ {v | g.StronglyConnected u v}.ncard := by
  constructor
  · rintro ⟨k, c, hc, hu⟩
    obtain ⟨hcomponent, hnodes⟩ :=
      Digraph.components_sound (mem_components_of_getElem? hfresh hnew hc)
    have hsize := (mem_ample.1 ((getElem?_ofGraph_iff_ample hfresh hnew).1 hc).1).2
    rw [ncard_of_isComponent hcomponent hu]
    exact ⟨hnodes u hu, Nat.max_le.2 ⟨hsize, size_pos_of_mem hu⟩⟩
  · rintro ⟨hnode, hsize⟩
    obtain ⟨c, hc, hu⟩ := Digraph.exists_mem_components hnode
    rw [ncard_of_isComponent (Digraph.components_sound hc).1 hu] at hsize
    have hample : c ∈ ample g least := mem_ample.2 ⟨hc, Nat.le_trans (Nat.le_max_left ..) hsize⟩
    obtain ⟨k, hk⟩ := exists_getElem?_of_mem_ample hfresh hnew hample
    exact ⟨k, c, hk, hu⟩

/-- In a group with at least two members no node is alone. -/
theorem exists_other_of_grouped (hleast : 2 ≤ least) {u : Nat}
    (hgrouped : Grouped (ofGraph g least fresh) u) : ∃ v, v ≠ u ∧ g.StronglyConnected u v := by
  obtain ⟨k, c, hc, hu⟩ := hgrouped
  have hsize := (mem_ample.1 ((getElem?_ofGraph_iff_ample hfresh hnew).1 hc).1).2
  obtain ⟨a, ha, b, hb, hne⟩ := exists_ne_of_two_le_size (Nat.le_trans hleast hsize)
  by_cases hau : a = u
  · exact ⟨b, by omega, (mem_group_iff hfresh hnew hc hu).1 hb⟩
  · exact ⟨a, hau, (mem_group_iff hfresh hnew hc hu).1 ha⟩

/-- A group of one node has the name of that node. -/
theorem toList_of_size_eq_one {k : Nat} {c : NodeSet} (hc : (ofGraph g least fresh)[k]? = some c)
    (hsize : c.size = 1) : c.toList = [k] := by
  obtain ⟨_, hlist | ⟨i, hi, _⟩⟩ := (getElem?_ofGraph_iff_ample hfresh hnew).1 hc
  · exact hlist
  · exact absurd hsize (mem_large.1 (List.mem_of_getElem? hi)).2

/-- The groups of several members are the larger components under the fresh names. -/
theorem getElem?_ofGraph_iff_large {k : Nat} {c : NodeSet} :
    (ofGraph g least fresh)[k]? = some c ∧ 2 ≤ c.size ↔
      ∃ i, (large g least)[i]? = some c ∧ fresh i = k := by
  rw [getElem?_ofGraph_iff_ample hfresh hnew]
  constructor
  · rintro ⟨⟨_, hlist | hi⟩, hsize⟩
    · have hone := size_eq_one_of_toList hlist
      omega
    · exact hi
  · rintro ⟨i, hi, hk⟩
    obtain ⟨hample, hsize⟩ := mem_large.1 (List.mem_of_getElem? hi)
    obtain ⟨u, hu, _⟩ := (Digraph.components_sound (mem_ample.1 hample).1).1
    have hpos := size_pos_of_mem hu
    exact ⟨⟨hample, .inr ⟨i, hi, hk⟩⟩, by omega⟩

end OfGraph

/-- The groups of a graph are exactly its components with enough members. -/
theorem areComponents_ofGraph (g : Digraph) (least : Nat) (fresh : Nat → Nat)
    (hfresh : ∀ i j, fresh i = fresh j → i = j) (hnew : ∀ i, ¬ g.hasNode (fresh i)) :
    AreComponents g least fresh (ofGraph g least fresh) where
  together _ _ := together_ofGraph_iff hfresh hnew
  grouped _ := grouped_ofGraph_iff hfresh hnew
  proper hleast _ hgrouped := exists_other_of_grouped hfresh hnew hleast hgrouped
  disjoint k l c d hc hd hne := by
    intro u huc hud
    exact hne (ofGraph_unique hfresh hnew hc hd huc hud)
  distinct := Std.ExtTreeMap.nodup_keys
  single _ _ hc hsize := toList_of_size_eq_one hfresh hnew hc hsize
  inOrder := by
    refine ⟨large g least, ?_, fun k c => getElem?_ofGraph_iff_large hfresh hnew⟩
    exact ((components_ascending g).filter _).filter _

/-- Two pairs of nodes that lead to each other, numbered across each other, and a node with an edge to
itself, which is in no group of two. -/
theorem areComponents_ofGraph_pairs :
    let pairs : Digraph := .ofEdges [(5, 4), (4, 5), (0, 6), (6, 0), (2, 2), (2, 4)]
    (∀ i j, 7 + i = 7 + j → i = j) ∧ (∀ i, ¬ pairs.hasNode (7 + i)) ∧
      ofGraph pairs 2 (7 + ·) = .ofList [(7, {0, 6}), (8, {4, 5})] ∧
      AreComponents pairs 2 (7 + ·) (ofGraph pairs 2 (7 + ·)) := by
  intro pairs
  have hfresh : ∀ i j, 7 + i = 7 + j → i = j := fun i j h => Nat.add_left_cancel h
  have hnodes : pairs.nodes = [0, 2, 4, 5, 6] := by decide
  have hnew : ∀ i, ¬ pairs.hasNode (7 + i) := by
    intro i hnode
    have hmem := Digraph.mem_nodes.2 hnode
    rw [hnodes] at hmem
    simp only [List.mem_cons, List.not_mem_nil, or_false] at hmem
    omega
  have hgroups : ofGraph pairs 2 (7 + ·) = .ofList [(7, {0, 6}), (8, {4, 5})] := by cbv
  exact ⟨hfresh, hnew, hgroups, areComponents_ofGraph pairs 2 (7 + ·) hfresh hnew⟩

end Groups

end ScriptBuild
