import Mathlib.Data.List.Nodup
import Mathlib.Data.Nat.Init
import ScriptBuild.Proofs.Digraph.Reach

namespace ScriptBuild

/-- A set of nodes less the members of a list. -/
def NodeSet.without (s : NodeSet) (members : List Nat) : NodeSet := members.foldl (·.erase ·) s

theorem NodeSet.mem_without {s : NodeSet} {members : List Nat} {u : Nat} :
    u ∈ s.without members ↔ u ∈ s ∧ u ∉ members := by
  unfold NodeSet.without
  induction members generalizing s with
  | nil => simp
  | cons m rest ih =>
    rw [List.foldl_cons, ih]
    simp only [Std.ExtTreeSet.mem_erase, List.mem_cons]
    grind

/-- A set that loses members does not become larger. -/
theorem NodeSet.size_without_le (s : NodeSet) (members : List Nat) :
    (s.without members).size ≤ s.size := by
  unfold NodeSet.without
  induction members generalizing s with
  | nil => simp
  | cons m rest ih => exact Nat.le_trans (ih _) Std.ExtTreeSet.size_erase_le

namespace Digraph

/-- A path whose nodes all lie in a set of nodes. -/
def ReachesIn (g : Digraph) (s : NodeSet) (u v : Nat) : Prop :=
  u ∈ s ∧ Relation.ReflTransGen (fun a b => g.Edge a b ∧ b ∈ s) u v

theorem ReachesIn.refl {g : Digraph} {s : NodeSet} {u : Nat} (hu : u ∈ s) : g.ReachesIn s u u :=
  ⟨hu, .refl⟩

/-- A path is extended by an edge to a node of the set. -/
theorem ReachesIn.tail {g : Digraph} {s : NodeSet} {u v w : Nat} (h : g.ReachesIn s u v)
    (hedge : g.Edge v w) (hw : w ∈ s) : g.ReachesIn s u w :=
  ⟨h.1, h.2.tail ⟨hedge, hw⟩⟩

/-- A path is preceded by an edge from a node of the set. -/
theorem ReachesIn.head {g : Digraph} {s : NodeSet} {u v w : Nat} (hu : u ∈ s)
    (hedge : g.Edge u v) (h : g.ReachesIn s v w) : g.ReachesIn s u w :=
  ⟨hu, .head ⟨hedge, h.1⟩ h.2⟩

/-- A path inside a set ends in the set. -/
theorem ReachesIn.mem_right {g : Digraph} {s : NodeSet} {u v : Nat} (h : g.ReachesIn s u v) :
    v ∈ s := by
  obtain ⟨hu, hpath⟩ := h
  cases hpath with
  | refl => exact hu
  | tail _ hlast => exact hlast.2

/-- A path inside a set is a path. -/
theorem ReachesIn.reaches {g : Digraph} {s : NodeSet} {u v : Nat} (h : g.ReachesIn s u v) :
    g.Reaches u v :=
  Relation.ReflTransGen.mono (fun _ _ hstep => hstep.1) _ _ h.2

theorem ReachesIn.mono {g : Digraph} {s t : NodeSet} {u v : Nat} (hsub : ∀ x ∈ s, x ∈ t)
    (h : g.ReachesIn s u v) : g.ReachesIn t u v :=
  ⟨hsub u h.1,
    Relation.ReflTransGen.mono (fun _ _ hstep => ⟨hstep.1, hsub _ hstep.2⟩) _ _ h.2⟩

/-- A path either avoids a node, ends in it, or goes on from its last visit there by an edge to a
path that avoids it. -/
theorem ReachesIn.avoid {g : Digraph} {s : NodeSet} {u v : Nat} (n : Nat)
    (h : g.ReachesIn s u v) :
    g.ReachesIn (s.erase n) u v ∨ v = n ∨
      ∃ k, g.Edge n k ∧ g.ReachesIn (s.erase n) k v := by
  obtain ⟨hu, hpath⟩ := h
  induction hpath with
  | refl =>
    by_cases heq : u = n
    · exact .inr (.inl heq)
    · exact .inl (.refl (by grind))
  | @tail v w _ hstep ih =>
    obtain ⟨hedge, hw⟩ := hstep
    by_cases heq : w = n
    · exact .inr (.inl heq)
    have hrest : w ∈ s.erase n := by grind
    rcases ih with havoid | rfl | ⟨k, hk, havoid⟩
    · exact .inl (havoid.tail hedge hrest)
    · exact .inr (.inr ⟨w, hedge, .refl hrest⟩)
    · exact .inr (.inr ⟨k, hk, havoid.tail hedge hrest⟩)

/-- The nodes that a traversal lists from several starting nodes one after the other. -/
def finished (g : Digraph) (unseen : NodeSet) (starts : List Nat) : List Nat :=
  g.postorderFrom unseen (starts.map .enter)

/-- The successors of a node in the order in which a traversal enters them. -/
def entered (g : Digraph) (n : Nat) : List Nat := (g.successors n).toList.reverse

/-- The successors that are entered are those to which edges lead. -/
theorem mem_entered {g : Digraph} {n k : Nat} : k ∈ g.entered n ↔ g.Edge n k := by
  simp [entered, Edge]

/-- A node that was not seen is entered, and left after its successors. -/
theorem postorderFrom_enter_of_mem {g : Digraph} {unseen : NodeSet} {n : Nat} {todo : List Visit}
    (hn : n ∈ unseen) : g.postorderFrom unseen (.enter n :: todo) =
      g.postorderFrom (unseen.erase n) ((g.entered n).map .enter ++ .leave n :: todo) := by
  rw [postorderFrom, if_pos hn, entered]

/-- A node that was seen is passed over. -/
theorem postorderFrom_enter_of_not_mem {g : Digraph} {unseen : NodeSet} {n : Nat}
    {todo : List Visit} (hn : n ∉ unseen) :
    g.postorderFrom unseen (.enter n :: todo) = g.postorderFrom unseen todo := by
  rw [postorderFrom, if_neg hn]

/-- What is done first does not depend on what waits behind it, and takes the listed nodes away. -/
theorem postorderFrom_append (g : Digraph) (unseen : NodeSet) (starts : List Nat)
    (todo : List Visit) :
    g.postorderFrom unseen (starts.map .enter ++ todo) =
      g.finished unseen starts ++
        g.postorderFrom (NodeSet.without unseen (g.finished unseen starts)) todo := by
  generalize hsize : unseen.size = size
  induction size using Nat.strong_induction_on generalizing unseen starts todo with
  | _ size ihsize =>
  induction starts with
  | nil => simp [finished, postorderFrom, NodeSet.without]
  | cons n rest ihrest =>
    by_cases hn : n ∈ unseen
    · have hless : (unseen.erase n).size < size := hsize ▸ NodeSet.size_erase_lt hn
      let below := g.finished (unseen.erase n) (g.entered n)
      let left := NodeSet.without (unseen.erase n) below
      have hopen (later : List Visit) :
          g.postorderFrom unseen (.enter n :: later) = below ++ n :: g.postorderFrom left later := by
        rw [postorderFrom_enter_of_mem hn, ihsize _ hless _ _ _ rfl]
        simp only [postorderFrom, left, below]
      have hlist : g.finished unseen (n :: rest) = below ++ n :: g.finished left rest :=
        hopen (rest.map .enter)
      have hleft : left.size < size := Nat.lt_of_le_of_lt (NodeSet.size_without_le _ _) hless
      have hset : NodeSet.without left (g.finished left rest) =
          NodeSet.without unseen (g.finished unseen (n :: rest)) := by
        ext x
        simp only [NodeSet.mem_without, hlist, left]
        grind
      rw [← hset, hlist, List.map_cons, List.cons_append, hopen, ihsize _ hleft _ _ _ rfl]
      simp
    · have hlist : g.finished unseen (n :: rest) = g.finished unseen rest :=
        postorderFrom_enter_of_not_mem hn
      rw [hlist, List.map_cons, List.cons_append, postorderFrom_enter_of_not_mem hn, ihrest]

theorem finished_nil (g : Digraph) (unseen : NodeSet) : g.finished unseen [] = [] := by
  simp [finished, postorderFrom]

/-- A starting node that was seen is passed over. -/
theorem finished_cons_of_not_mem {g : Digraph} {unseen : NodeSet} {n : Nat} (rest : List Nat)
    (hn : n ∉ unseen) : g.finished unseen (n :: rest) = g.finished unseen rest :=
  postorderFrom_enter_of_not_mem hn

/-- What remains unseen once a node is left. -/
def unseenAfter (g : Digraph) (unseen : NodeSet) (n : Nat) : NodeSet :=
  NodeSet.without (unseen.erase n) (g.finished (unseen.erase n) (g.entered n))

/-- A node is listed after all that its successors lead to, and before all that is entered later. -/
theorem finished_cons_of_mem {g : Digraph} {unseen : NodeSet} {n : Nat} (rest : List Nat)
    (hn : n ∈ unseen) : g.finished unseen (n :: rest) =
      g.finished (unseen.erase n) (g.entered n) ++ n :: g.finished (g.unseenAfter unseen n) rest := by
  rw [finished, List.map_cons, postorderFrom_enter_of_mem hn, postorderFrom_append, postorderFrom]
  rfl

/-- Induction along a traversal: over what a node leads to, and over what is entered later. -/
theorem finished_induction (g : Digraph) {motive : NodeSet → List Nat → Prop}
    (hnil : ∀ unseen, motive unseen [])
    (hseen : ∀ unseen n rest, n ∉ unseen → motive unseen rest → motive unseen (n :: rest))
    (hnew : ∀ unseen n rest, n ∈ unseen → motive (unseen.erase n) (g.entered n) →
      motive (g.unseenAfter unseen n) rest → motive unseen (n :: rest))
    (unseen : NodeSet) (starts : List Nat) : motive unseen starts := by
  generalize hsize : unseen.size = size
  induction size using Nat.strong_induction_on generalizing unseen starts with
  | _ size ihsize =>
  induction starts with
  | nil => exact hnil unseen
  | cons n rest ihrest =>
    by_cases hn : n ∈ unseen
    · have hless : (unseen.erase n).size < size := hsize ▸ NodeSet.size_erase_lt hn
      have hleft : (g.unseenAfter unseen n).size < size :=
        Nat.lt_of_le_of_lt (NodeSet.size_without_le _ _) hless
      exact hnew unseen n rest hn (ihsize _ hless _ _ rfl) (ihsize _ hleft _ _ rfl)
    · exact hseen unseen n rest hn ihrest

/-- What was listed below a node has been seen when the node is left. -/
theorem mem_unseenAfter {g : Digraph} {unseen : NodeSet} {n x : Nat} :
    x ∈ g.unseenAfter unseen n ↔
      x ∈ unseen ∧ x ≠ n ∧ x ∉ g.finished (unseen.erase n) (g.entered n) := by
  simp only [unseenAfter, NodeSet.mem_without, Std.ExtTreeSet.mem_erase]
  grind

/-- A path that ends outside a list that no edge of the set leaves avoids the list altogether. -/
theorem ReachesIn.without {g : Digraph} {s : NodeSet} {members : List Nat} {u v : Nat}
    (hclosed : ∀ x ∈ members, ∀ y ∈ s, g.Edge x y → y ∈ members) (hv : v ∉ members)
    (h : g.ReachesIn s u v) : g.ReachesIn (NodeSet.without s members) u v := by
  obtain ⟨hu, hpath⟩ := h
  induction hpath with
  | refl => exact .refl (NodeSet.mem_without.2 ⟨hu, hv⟩)
  | @tail w v _ hstep ih =>
    have hw : w ∉ members := fun hmem => hv (hclosed w hmem v hstep.2 hstep.1)
    exact (ih hw).tail hstep.1 (NodeSet.mem_without.2 ⟨hstep.2, hv⟩)

/-- A traversal lists what some starting node reaches among the unseen nodes. -/
theorem mem_finished {g : Digraph} {unseen : NodeSet} {starts : List Nat} {v : Nat} :
    v ∈ g.finished unseen starts ↔ ∃ u ∈ starts, g.ReachesIn unseen u v := by
  induction unseen, starts using finished_induction g generalizing v with
  | hnil unseen => simp [finished_nil]
  | hseen unseen n rest hn ih =>
    rw [finished_cons_of_not_mem rest hn, ih]
    have hnone : ¬ g.ReachesIn unseen n v := fun h => hn h.1
    simp [hnone]
  | hnew unseen n rest hn ihbelow ihrest =>
    rw [finished_cons_of_mem rest hn, List.mem_append, List.mem_cons]
    constructor
    · rintro (hbelow | rfl | hlater)
      · obtain ⟨k, hk, hpath⟩ := ihbelow.1 hbelow
        exact ⟨n, List.mem_cons_self, .head hn (mem_entered.1 hk) (hpath.mono (by grind))⟩
      · exact ⟨v, List.mem_cons_self, .refl hn⟩
      · obtain ⟨u, hu, hpath⟩ := ihrest.1 hlater
        exact ⟨u, List.mem_cons_of_mem _ hu, hpath.mono fun x hx => (mem_unseenAfter.1 hx).1⟩
    · rintro ⟨u, hu, hpath⟩
      by_cases hbelow : v ∈ g.finished (unseen.erase n) (g.entered n)
      · exact .inl hbelow
      rcases hpath.avoid n with havoid | rfl | ⟨k, hk, havoid⟩
      · have hclosed : ∀ x ∈ g.finished (unseen.erase n) (g.entered n), ∀ y ∈ unseen.erase n,
            g.Edge x y → y ∈ g.finished (unseen.erase n) (g.entered n) := by
          intro x hx y hy hedge
          obtain ⟨k, hk, hkx⟩ := ihbelow.1 hx
          exact ihbelow.2 ⟨k, hk, hkx.tail hedge hy⟩
        have hlater : u ∈ rest := by
          have hne : u ∈ unseen.erase n := havoid.1
          grind
        exact .inr (.inr (ihrest.2 ⟨u, hlater, havoid.without hclosed hbelow⟩))
      · exact .inr (.inl rfl)
      · exact absurd (ihbelow.2 ⟨k, mem_entered.2 hk, havoid⟩) hbelow

theorem nodup_finished (g : Digraph) (unseen : NodeSet) (starts : List Nat) :
    (g.finished unseen starts).Nodup := by
  induction unseen, starts using finished_induction g with
  | hnil unseen => simp [finished_nil]
  | hseen unseen n rest hn ih => rwa [finished_cons_of_not_mem rest hn]
  | hnew unseen n rest hn ihbelow ihrest =>
    have hbelow (x : Nat) (hx : x ∈ g.finished (unseen.erase n) (g.entered n)) : x ≠ n := by
      obtain ⟨k, _, hpath⟩ := mem_finished.1 hx
      have := hpath.mem_right
      grind
    have hlater (x : Nat) (hx : x ∈ g.finished (g.unseenAfter unseen n) rest) :
        x ≠ n ∧ x ∉ g.finished (unseen.erase n) (g.entered n) := by
      obtain ⟨u, _, hpath⟩ := mem_finished.1 hx
      exact (mem_unseenAfter.1 hpath.mem_right).2
    rw [finished_cons_of_mem rest hn, List.nodup_append, List.nodup_cons]
    refine ⟨ihbelow, ⟨fun hmem => (hlater n hmem).1 rfl, ihrest⟩, ?_⟩
    rintro x hx y hy rfl
    rcases List.mem_cons.1 hy with rfl | hy
    · exact hbelow x hx rfl
    · exact (hlater x hy).2 hx

/-- A node stands before one that it depends on only if that one leads back to it. -/
theorem finished_pairwise (g : Digraph) (unseen : NodeSet) (starts : List Nat) :
    (g.finished unseen starts).Pairwise fun u v => g.Edge u v → g.Reaches v u := by
  induction unseen, starts using finished_induction g with
  | hnil unseen => simp [finished_nil]
  | hseen unseen n rest hn ih => rwa [finished_cons_of_not_mem rest hn]
  | hnew unseen n rest hn ihbelow ihrest =>
    have hlater (x : Nat) (hx : x ∈ g.finished (g.unseenAfter unseen n) rest) :
        x ∈ unseen.erase n ∧ x ∉ g.finished (unseen.erase n) (g.entered n) := by
      obtain ⟨u, _, hpath⟩ := mem_finished.1 hx
      have := mem_unseenAfter.1 hpath.mem_right
      grind
    rw [finished_cons_of_mem rest hn, List.pairwise_append, List.pairwise_cons]
    refine ⟨ihbelow, ⟨?_, ihrest⟩, ?_⟩
    · intro v hv hedge
      have hpath : g.ReachesIn (unseen.erase n) v v := .refl (hlater v hv).1
      exact absurd (mem_finished.2 ⟨v, mem_entered.2 hedge, hpath⟩) (hlater v hv).2
    · intro u hu v hv hedge
      obtain ⟨k, hk, hpath⟩ := mem_finished.1 hu
      rcases List.mem_cons.1 hv with rfl | hv
      · exact .head (mem_entered.1 hk) hpath.reaches
      · have hbelow := mem_finished.2 ⟨k, hk, hpath.tail hedge (hlater v hv).1⟩
        exact absurd hbelow (hlater v hv).2

theorem mem_nodeSet {g : Digraph} {u : Nat} : u ∈ g.nodeSet ↔ g.hasNode u := by
  simp [nodeSet, mem_nodes]

theorem reachesIn_nodeSet {g : Digraph} {u v : Nat} :
    g.ReachesIn g.nodeSet u v ↔ g.hasNode u ∧ g.Reaches u v := by
  constructor
  · intro h
    exact ⟨mem_nodeSet.1 h.1, h.reaches⟩
  · rintro ⟨hu, hpath⟩
    refine ⟨mem_nodeSet.2 hu, Relation.ReflTransGen.mono (fun a b hedge => ?_) _ _ hpath⟩
    exact ⟨hedge, mem_nodeSet.2 hedge.hasNode_right⟩

/-- What is reached within a set is what paths inside the set lead to. -/
theorem mem_reachWithin {g : Digraph} {within : NodeSet} {start v : Nat} :
    v ∈ g.reachWithin within start ↔ g.ReachesIn within start v := by
  have hlist : v ∈ g.reachWithin within start ↔ v ∈ g.finished within [start] := by
    simp [reachWithin, finished]
  rw [hlist, mem_finished]
  simp

/-- The order in which all nodes are left lists each of them. -/
theorem mem_finishingOrder {g : Digraph} {v : Nat} : v ∈ g.finishingOrder ↔ g.hasNode v := by
  change v ∈ g.finished g.nodeSet g.nodes ↔ g.hasNode v
  rw [mem_finished]
  constructor
  · rintro ⟨u, _, hpath⟩
    exact mem_nodeSet.1 hpath.mem_right
  · intro hv
    exact ⟨v, mem_nodes.2 hv, .refl (mem_nodeSet.2 hv)⟩

end Digraph

end ScriptBuild
