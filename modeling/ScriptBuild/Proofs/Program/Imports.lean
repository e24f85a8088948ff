import Mathlib.Tactic.Common
import ScriptBuild.Program.Basic
import ScriptBuild.Proofs.Digraph.Reach
import ScriptBuild.Proofs.Program.Catalog

namespace ScriptBuild

namespace Imports

variable {i j : Imports} {t s : Target} {n m : String} {id other : Nat} {names : NameSet}

/-- A name is imported from a target. -/
def Has (i : Imports) : Target → String → Prop
  | .unit id, n => n ∈ i.found.getD id ∅
  | .unresolved, n => n ∈ i.unresolved

@[simp] theorem not_has_empty : ¬ empty.Has t n := by
  cases t <;> simp [Has, empty]

/-- Adding a name to those of a target adds that name. -/
theorem has_insert : (i.insert t n).Has s m ↔ (s = t ∧ m = n) ∨ i.Has s m := by
  cases t <;> cases s <;> simp only [Has, insert, Std.ExtTreeMap.getD_insert] <;> grind

/-- Removing a name from those of a unit leaves the names of all others. -/
theorem getD_found_erase : (i.erase (.unit id) n).found.getD other ∅ =
    if other = id then (i.found.getD id ∅).erase n else i.found.getD other ∅ := by
  simp only [erase]
  split
  · next hempty => rw [Std.ExtTreeSet.isEmpty_iff.1 hempty]; grind
  · grind

/-- Removing a name from those of a target removes that name. -/
theorem has_erase : (i.erase t n).Has s m ↔ i.Has s m ∧ ¬ (s = t ∧ m = n) := by
  cases t with
  | unit id =>
    cases s with
    | unit other => simp only [Has, getD_found_erase, Target.unit.injEq]; grind
    | unresolved => simp [Has, erase]
  | unresolved => cases s <;> simp only [Has, erase] <;> grind

/-- No unit is listed without a name. -/
def Proper (i : Imports) : Prop := ∀ (id : Nat) (names : NameSet), i.found[id]? = some names → names ≠ ∅

theorem proper_empty : empty.Proper := by simp [Proper, empty]

theorem ne_empty_of_mem (hmem : n ∈ names) : names ≠ ∅ := by
  rintro rfl
  simp at hmem

/-- A target to which a name is added has a name. -/
theorem Proper.insert (hproper : i.Proper) : (i.insert t n).Proper := by
  intro id names hnames
  cases t with
  | unit other =>
    simp only [Imports.insert, Std.ExtTreeMap.getElem?_insert] at hnames
    split at hnames
    · exact ne_empty_of_mem (Option.some.inj hnames ▸ Std.ExtTreeSet.mem_insert_self)
    · exact hproper id names hnames
  | unresolved => exact hproper id names hnames

/-- A unit of which the last name is removed is listed no more. -/
theorem Proper.erase (hproper : i.Proper) : (i.erase t n).Proper := by
  intro id names hnames
  cases t with
  | unit other =>
    simp only [Imports.erase] at hnames
    split at hnames
    · rw [Std.ExtTreeMap.getElem?_erase] at hnames
      split at hnames
      · cases hnames
      · exact hproper id names hnames
    · next hne =>
      rw [Std.ExtTreeMap.getElem?_insert] at hnames
      split at hnames
      · obtain rfl := Option.some.inj hnames
        simpa using hne
      · exact hproper id names hnames
  | unresolved => exact hproper id names hnames

/-- Imports are empty if there are none, neither found nor unresolved. -/
theorem isEmpty_iff : i.isEmpty ↔ i = empty := by
  obtain ⟨found, unresolved⟩ := i
  simp [isEmpty, empty]

theorem exists_mem_of_ne_empty (hne : names ≠ ∅) : ∃ n, n ∈ names := by
  by_contra hnone
  exact hne (Std.ExtTreeSet.eq_empty_iff_forall_not_mem.2 fun n hn => hnone ⟨n, hn⟩)

/-- Something is imported from a target exactly if it is listed. -/
theorem isSome_from?_iff (hproper : i.Proper) : (i.from? t).isSome ↔ ∃ n, i.Has t n := by
  cases t with
  | unit id =>
    simp only [from?, Has, Std.ExtTreeMap.getD_eq_getD_getElem?]
    cases hnames : i.found[id]? with
    | none => simp
    | some names => simpa using exists_mem_of_ne_empty (hproper id names hnames)
  | unresolved =>
    simp only [from?, Has]
    split
    · next hempty => simp [Std.ExtTreeSet.isEmpty_iff.1 hempty]
    · next hne => simpa using exists_mem_of_ne_empty (by simpa using hne)

/-- The listed names are the ones that are imported. -/
theorem mem_of_from? (hfrom : i.from? t = some names) : n ∈ names ↔ i.Has t n := by
  cases t with
  | unit id => simp only [from?] at hfrom; simp [Has, Std.ExtTreeMap.getD_eq_getD_getElem?, hfrom]
  | unresolved =>
    simp only [from?, Option.ite_none_left_eq_some, Option.some.injEq] at hfrom
    simp [Has, hfrom.2]

/-- A target is not listed exactly if nothing is imported from it. -/
theorem from?_eq_none_iff (hproper : i.Proper) : i.from? t = none ↔ ∀ n, ¬ i.Has t n := by
  rw [← Option.not_isSome_iff_eq_none, isSome_from?_iff hproper, not_exists]

/-- Nothing is imported from a target that is not listed. -/
theorem not_has_of_from? (hfrom : i.from? t = none) : ¬ i.Has t n := by
  cases t with
  | unit id => simp only [from?] at hfrom; simp [Has, Std.ExtTreeMap.getD_eq_getD_getElem?, hfrom]
  | unresolved =>
    simp only [from?, ite_eq_left_iff, reduceCtorEq, imp_false, Decidable.not_not] at hfrom
    simp [Has, Std.ExtTreeSet.isEmpty_iff.1 hfrom]

/-- Imports without empty sets are what they relate. -/
theorem ext_has (hi : i.Proper) (hj : j.Proper) (hhas : ∀ t n, i.Has t n ↔ j.Has t n) : i = j := by
  have hfrom (t : Target) : i.from? t = j.from? t := by
    cases hit : i.from? t with
    | none =>
      refine ((from?_eq_none_iff hj).2 fun n hn => ?_).symm
      exact (from?_eq_none_iff hi).1 hit n ((hhas t n).2 hn)
    | some names =>
      cases hjt : j.from? t with
      | none =>
        obtain ⟨n, hn⟩ := (isSome_from?_iff hi).1 (by rw [hit]; rfl)
        exact absurd ((hhas t n).1 hn) ((from?_eq_none_iff hj).1 hjt n)
      | some names' =>
        congr 1
        refine Std.ExtTreeSet.ext_mem fun n => ?_
        rw [mem_of_from? hit, mem_of_from? hjt, hhas]
  have hfound : i.found = j.found := by
    refine Std.ExtTreeMap.ext_getElem? fun id => ?_
    exact hfrom (.unit id)
  have hunresolved : i.unresolved = j.unresolved := by
    refine Std.ExtTreeSet.ext_mem fun n => ?_
    exact hhas .unresolved n
  cases i; cases j
  simp_all

/-- The list of all imports has each name under its target. -/
theorem exists_mem_toList : (∃ names, (t, names) ∈ i.toList ∧ n ∈ names) ↔ i.Has t n := by
  cases t with
  | unit id =>
    simp only [toList, Has, List.mem_append, List.mem_map, Std.ExtTreeMap.getD_eq_getD_getElem?]
    constructor
    · rintro ⟨names, ⟨⟨key, set⟩, hmem, heq⟩ | hmem, hn⟩
      · simp only [Prod.mk.injEq, Target.unit.injEq] at heq
        obtain ⟨rfl, rfl⟩ := heq
        rw [Std.ExtTreeMap.mem_toList_iff_getElem?_eq_some] at hmem
        rw [hmem]
        exact Std.ExtTreeSet.mem_toList.1 hn
      · split at hmem <;> simp at hmem
    · intro hn
      cases hset : i.found[id]? with
      | none => simp [hset] at hn
      | some set =>
        rw [hset, Option.getD_some] at hn
        refine ⟨set.toList, .inl ⟨(id, set), ?_, rfl⟩, Std.ExtTreeSet.mem_toList.2 hn⟩
        exact Std.ExtTreeMap.mem_toList_iff_getElem?_eq_some.2 hset
  | unresolved =>
    simp only [toList, Has, List.mem_append, List.mem_map]
    constructor
    · rintro ⟨names, ⟨⟨key, set⟩, _, heq⟩ | hmem, hn⟩
      · simp at heq
      · split at hmem
        · simp at hmem
        · simp only [List.mem_singleton, Prod.mk.injEq, true_and] at hmem
          exact Std.ExtTreeSet.mem_toList.1 (hmem ▸ hn)
    · intro hn
      have hne : i.unresolved.isEmpty = false := by
        rw [← Bool.not_eq_true, Std.ExtTreeSet.isEmpty_iff]
        intro heq
        simp [heq] at hn
      exact ⟨i.unresolved.toList, .inr (by simp [hne]), Std.ExtTreeSet.mem_toList.2 hn⟩

end Imports

namespace Program

variable {p : Program} {id other a b : Nat} {i : Imports} {t s : Target} {n m : String}

/-- A unit takes a name from a target. -/
def Takes (p : Program) (id : Nat) (t : Target) (n : String) : Prop := (p.importsOf id).Has t n

/-- No set of imports is stored without a name in it. -/
def Proper (p : Program) : Prop := ∀ id, (p.importsOf id).Proper

/-- Replacing what a unit imports changes nothing for the others. -/
theorem importsOf_setImports :
    (p.setImports id i).importsOf other = if other = id then i else p.importsOf other := by
  simp only [setImports, importsOf]
  split
  · next hempty =>
    rw [Std.ExtTreeMap.getD_erase, Imports.isEmpty_iff.1 hempty]
    grind
  · rw [Std.ExtTreeMap.getD_insert]
    grind

/-- Recording an import adds the name, unless the unit would import from itself. -/
theorem importsOf_recordImport : (p.recordImport id t n).importsOf other =
    if other = id ∧ t ≠ .unit id then (p.importsOf id).insert t n else p.importsOf other := by
  rw [recordImport]
  split
  · next heq => simp [heq]
  · next hne =>
    have hset : (p.setImports id ((p.importsOf id).insert t n)).importsOf other =
        if other = id then (p.importsOf id).insert t n else p.importsOf other :=
      importsOf_setImports
    simp only [ne_eq, hne, not_false_eq_true, and_true]
    cases t <;> exact hset

/-- Recording an import lets the unit take the name, and nothing else. -/
theorem takes_recordImport : (p.recordImport id t n).Takes other s m ↔
    (other = id ∧ s = t ∧ m = n ∧ t ≠ .unit id) ∨ p.Takes other s m := by
  rw [Takes, importsOf_recordImport]
  split
  · next heq => rw [Imports.has_insert, Takes, heq.1]; simp [heq.2]
  · next hne => rw [Takes]; grind

/-- Forgetting an import removes the name, if anything was imported from the target. -/
theorem importsOf_removeImport : (p.removeImport id t n).importsOf other =
    if other = id ∧ (p.imported id t).isSome then (p.importsOf id).erase t n
    else p.importsOf other := by
  have hset : (p.setImports id ((p.importsOf id).erase t n)).importsOf other =
      if other = id then (p.importsOf id).erase t n else p.importsOf other := importsOf_setImports
  rw [removeImport]
  split
  · next hnone => simp_all
  · next hsome =>
    have hsome : (p.imported id t).isSome := by simpa [Option.isSome_iff_ne_none] using hsome
    simp only [hsome, and_true]
    rw [← hset]
    cases t with
    | unit target => dsimp only; split <;> rfl
    | unresolved => rfl

theorem takes_removeImport : (p.removeImport id t n).Takes other s m ↔
    p.Takes other s m ∧ ¬ (other = id ∧ s = t ∧ m = n) := by
  rw [Takes, importsOf_removeImport]
  split
  · next heq => rw [Imports.has_erase, Takes, heq.1]; simp
  · next hne =>
    rw [Takes, iff_self_and]
    rintro htakes ⟨rfl, rfl, rfl⟩
    have hnone : (p.importsOf other).from? s = none := by simpa [imported] using hne
    exact Imports.not_has_of_from? hnone htakes

/-- Forgetting a body leaves no imports of the unit. -/
theorem importsOf_clearBody :
    (p.clearBody id).importsOf other = if other = id then .empty else p.importsOf other := by
  rw [importsOf, clearBody, Std.ExtTreeMap.getD_erase, importsOf]
  grind

theorem takes_clearBody : (p.clearBody id).Takes other t n ↔ other ≠ id ∧ p.Takes other t n := by
  rw [Takes, importsOf_clearBody]
  split
  · next heq => simp [heq]
  · next hne => simp [Takes, hne]

theorem graph_setImports : (p.setImports id i).graph = p.graph := rfl

/-- Recording an import from another unit adds the dependency on it. -/
theorem edge_recordImport : (p.recordImport id t n).graph.Edge a b ↔
    p.graph.Edge a b ∨ (a = id ∧ t = .unit b ∧ b ≠ id) := by
  rw [recordImport]
  split
  · next heq => simp only [heq, Target.unit.injEq]; grind
  · next hne =>
    cases t with
    | unit target =>
      simp only [Target.unit.injEq] at hne ⊢
      rw [Digraph.edge_addEdge, graph_setImports]
      grind
    | unresolved => simp [graph_setImports]

/-- Recording an import from another unit makes both units nodes. -/
theorem hasNode_recordImport : (p.recordImport id t n).graph.hasNode a ↔
    p.graph.hasNode a ∨ ∃ target, t = .unit target ∧ target ≠ id ∧ (a = id ∨ a = target) := by
  rw [recordImport]
  split
  · next heq => simp only [heq, Target.unit.injEq]; grind
  · next hne =>
    cases t with
    | unit target =>
      simp only [Target.unit.injEq] at hne ⊢
      rw [Digraph.hasNode_addEdge, graph_setImports]
      grind
    | unresolved => simp [graph_setImports]

/-- Forgetting an import removes the dependency if it was the last one from there. -/
theorem edge_removeImport (hproper : p.Proper) : (p.removeImport id t n).graph.Edge a b ↔
    p.graph.Edge a b ∧
      ¬ (a = id ∧ t = .unit b ∧ p.Takes id t n ∧ ∀ m, p.Takes id t m → m = n) := by
  rw [removeImport]
  split
  · next hnone =>
    rw [iff_self_and]
    rintro _ ⟨_, _, htakes, _⟩
    exact Imports.not_has_of_from? (Option.isNone_iff_eq_none.1 hnone) htakes
  · next hsome =>
    have hsome : (p.imported id t).isSome := by simpa [Option.isSome_iff_ne_none] using hsome
    obtain ⟨k, hk⟩ := (Imports.isSome_from?_iff (hproper id)).1 hsome
    have hlast : ((p.setImports id ((p.importsOf id).erase t n)).imported id t).isNone ↔
        ∀ m, p.Takes id t m → m = n := by
      rw [Option.isNone_iff_eq_none, imported, importsOf_setImports, if_pos rfl,
        Imports.from?_eq_none_iff (hproper id).erase]
      simp only [Imports.has_erase, true_and, not_and, Decidable.not_not, Takes]
    cases t with
    | unit target =>
      dsimp only
      split
      · next hnone =>
        have honly := hlast.1 hnone
        have hn : p.Takes id (.unit target) n := by
          obtain rfl := honly k hk
          exact hk
        rw [Digraph.edge_removeEdge, graph_setImports, Target.unit.injEq]
        grind
      · next hsome =>
        rw [hlast] at hsome
        rw [graph_setImports, iff_self_and]
        rintro _ ⟨_, _, _, honly⟩
        exact hsome honly
    | unresolved => simp [graph_setImports]

theorem hasNode_removeImport :
    (p.removeImport id t n).graph.hasNode a ↔ p.graph.hasNode a := by
  rw [removeImport]
  split
  · rfl
  · cases t with
    | unit target =>
      dsimp only
      split
      · rw [Digraph.hasNode_removeEdge, graph_setImports]
      · rw [graph_setImports]
    | unresolved => rfl

end Program

end ScriptBuild
