import ScriptBuild.Proofs.Archive.RoundTrip
import ScriptBuild.Proofs.Program.Intact

namespace ScriptBuild

open Json (Value)

namespace Catalog

variable {c : Catalog} {id : Nat} {name name' : String} {overload overload' : Nat}

/-- A unit is found exactly if there is one with that name and overload number. -/
theorem isSome_find_iff : (c.find name overload).isSome ↔
    ∃ id u, c.get? id = some u ∧ u.name = name ∧ u.overload = overload := by
  cases hfind : c.find name overload with
  | none =>
    simp only [Option.isSome_none, Bool.false_eq_true, false_iff]
    rintro ⟨id, u, hget, hname, hoverload⟩
    exact ne_of_find_eq_none hfind hget hname hoverload
  | some id =>
    obtain ⟨u, hu⟩ := exists_of_find hfind
    exact iff_of_true rfl ⟨id, u, hu⟩

/-- A unit is found by one name and one overload number only. -/
theorem find_inj (h : c.find name overload = some id) (h' : c.find name' overload' = some id) :
    name = name' ∧ overload = overload' := by
  obtain ⟨u, hu, rfl, rfl⟩ := exists_of_find h
  obtain ⟨v, hv, rfl, rfl⟩ := exists_of_find h'
  obtain rfl := Option.some.inj (hu.symm.trans hv)
  exact ⟨rfl, rfl⟩

end Catalog

namespace Archive

variable {α : Type} {a : Archive} {p q : Program} {c : Catalog} {id x y k : Nat} {t : Target}
  {n : String} {u : BuildUnit} {row : Row} {rows : List Row} {d : Dependency} {v : Value}
  {document : String}

open Program

/-- A number that was read is below the bound of its field. -/
theorem lt_of_nat? {bound : Nat} (h : Value.nat? bound v = some k) : k < bound := by
  unfold Value.nat? at h
  split at h <;> grind

/-- What holds of everything that is read holds of all items of an array. -/
theorem forall_of_mapM {read : Value → Option α} {P : α → Prop} {vs : List Value} {xs : List α}
    (hread : ∀ v x, read v = some x → P x) (h : vs.mapM read = some xs) : ∀ x ∈ xs, P x := by
  induction vs generalizing xs with
  | nil =>
    obtain rfl : [] = xs := by simpa using h
    simp
  | cons v vs ih =>
    simp only [List.mapM_cons, Option.bind_eq_bind, Option.bind_eq_some_iff, Option.pure_def,
      Option.some.injEq] at h
    obtain ⟨x, hx, rest, hrest, rfl⟩ := h
    exact List.forall_mem_cons.2 ⟨hread v x hx, ih hrest⟩

/-- What holds of everything that is read holds of all items of a field, also of a field that is not
given. -/
theorem forall_of_list {read : Value → Option α} {P : α → Prop} {field : Option Value} {xs : List α}
    (hread : ∀ v x, read v = some x → P x) (h : list read field = some xs) : ∀ x ∈ xs, P x := by
  cases field with
  | none =>
    obtain rfl : [] = xs := by simpa [list] using h
    simp
  | some v =>
    obtain ⟨vs, -, hvs⟩ := Option.bind_eq_some_iff.1 h
    exact forall_of_mapM hread hvs

/-- The numbers of the unit of a row fit. -/
def Row.Bounded (row : Row) : Prop := row.overload < small ∧ row.timestamp < large

/-- The numbers of a row that was read fit. -/
theorem Row.bounded_of_ofValue? (h : Row.ofValue? v = some row) : row.Bounded := by
  simp only [Row.ofValue?, Option.bind_eq_bind, Option.bind_eq_some_iff] at h
  obtain ⟨fields, -, h⟩ := h
  split at h
  · simp only [Option.bind_eq_some_iff, Option.some.injEq, required] at h
    obtain ⟨_, _, overload, ⟨_, _, hoverload⟩, _, _, timestamp, ⟨_, _, htime⟩, _, _, _, _, _, _, _, _,
      rfl⟩ := h
    exact ⟨lt_of_nat? hoverload, lt_of_nat? htime⟩
  · cases h

/-- The rows of an archive that was read have numbers that fit, so that they can be written
again. -/
theorem bounded_of_mem_parseOrEmpty (hmem : row ∈ (parseOrEmpty document).units) :
    row.Bounded := by
  rw [parseOrEmpty] at hmem
  split at hmem
  · next a hparse =>
    split at hmem
    · obtain ⟨v, -, h⟩ := Option.bind_eq_some_iff.1 hparse
      simp only [ofValue?, Option.bind_eq_bind, Option.bind_eq_some_iff] at h
      obtain ⟨fields, -, h⟩ := h
      split at h
      · simp only [Option.bind_eq_some_iff, Option.some.injEq] at h
        obtain ⟨_, _, units, hunits, _, _, rfl⟩ := h
        exact forall_of_list (fun _ _ => Row.bounded_of_ofValue?) hunits row hmem
      · cases h
    · exact absurd hmem List.not_mem_nil
  · exact absurd hmem List.not_mem_nil

/-- A row lets its unit be found, whether it gave the unit or not. -/
theorem isSome_find_restoreUnit {name : String} {overload : Nat} :
    ((restoreUnit p row).units.find name overload).isSome ↔
      row.isAbout name overload ∨ (p.units.find name overload).isSome := by
  simp only [restoreUnit, Row.isAbout, Bool.and_eq_true, beq_iff_eq]
  split
  · next hfound => grind
  · next hnew =>
    simp only [Catalog.isSome_find_iff, pushUnit, Catalog.get?_push]
    constructor
    · rintro ⟨id, u, hget, hname, hoverload⟩
      split at hget
      · obtain rfl := Option.some.inj hget
        exact .inl ⟨hname, hoverload⟩
      · exact .inr ⟨id, u, hget, hname, hoverload⟩
    · rintro (⟨rfl, rfl⟩ | ⟨id, u, hget, hu⟩)
      · exact ⟨p.units.size, row.toUnit, if_pos rfl, rfl, rfl⟩
      · exact ⟨id, u, (if_neg (Nat.ne_of_lt (Catalog.lt_size_of_get? hget))).trans hget, hu⟩

/-- The program with the units of some rows and nothing else. -/
def unitsOf (rows : List Row) : Program := rows.foldl restoreUnit .empty

/-- A unit is restored exactly if there is a row about it. -/
theorem isSome_find_unitsOf {name : String} {overload : Nat} :
    ((unitsOf rows).units.find name overload).isSome ↔ ∃ row ∈ rows, row.isAbout name overload := by
  have hfold (p : Program) : ((rows.foldl restoreUnit p).units.find name overload).isSome ↔
      (∃ row ∈ rows, row.isAbout name overload) ∨ (p.units.find name overload).isSome := by
    induction rows generalizing p with
    | nil => simp
    | cons row rows ih =>
      rw [List.foldl_cons, ih, isSome_find_restoreUnit, List.exists_mem_cons_iff, or_assoc,
        or_left_comm]
  rw [unitsOf, hfold, or_iff_left]
  simp [Catalog.isSome_find_iff, Program.empty, Catalog.empty, Catalog.get?]

/-- Every unit that is restored is the one of a row. -/
theorem exists_row_of_get? (hget : (unitsOf rows).units.get? id = some u) :
    ∃ row ∈ rows, u = row.toUnit := by
  have hall : ∀ id u, (unitsOf rows).units.get? id = some u → ∃ row ∈ rows, u = row.toUnit := by
    refine List.foldlRecOn (motive := fun p => ∀ id u, p.units.get? id = some u →
      ∃ row ∈ rows, u = row.toUnit) rows restoreUnit ?_ fun p hp row hmem id u hget => ?_
    · simp [Program.empty, Catalog.empty, Catalog.get?]
    · rw [restoreUnit] at hget
      split at hget
      · exact hp id u hget
      · rw [pushUnit, Catalog.get?_push] at hget
        split at hget
        · exact ⟨row, hmem, (Option.some.inj hget).symm⟩
        · exact hp id u hget
  exact hall id u hget

/-- The units alone fit together: nothing depends on anything yet. -/
theorem linked_unitsOf (rows : List Row) : (unitsOf rows).Linked := by
  refine List.foldlRecOn rows restoreUnit linked_empty fun p hp row _ => ?_
  rw [restoreUnit]
  split
  · exact hp
  · next hnew =>
    refine hp.push fun id v hget hname => ?_
    exact Catalog.ne_of_find_eq_none (Option.not_isSome_iff_eq_none.1 hnew) hget hname

theorem not_takes_unitsOf : ¬ (unitsOf rows).Takes id t n := by
  have hempty : (unitsOf rows).imports = ∅ := by
    refine List.foldlRecOn (motive := fun p : Program => p.imports = ∅) rows restoreUnit rfl
      fun p hp row _ => ?_
    rw [restoreUnit]
    split <;> exact hp
  simp [Takes, importsOf, hempty]

theorem units_restoreDependency (id : Nat) : (restoreDependency id p d).units = p.units := by
  rw [restoreDependency]
  split
  · rfl
  · exact units_foldl_recordImport _ _

theorem units_foldl_restoreDependency (id : Nat) (dependencies : List Dependency) :
    (dependencies.foldl (restoreDependency id) p).units = p.units :=
  List.foldlRecOn (motive := fun q : Program => q.units = p.units) dependencies _ rfl
    fun _ hq _ _ => (units_restoreDependency id).trans hq

theorem units_restoreImports : (restoreImports p row).units = p.units := by
  rw [restoreImports]
  split
  · rfl
  · exact (units_foldl_recordImport _ _).trans (units_foldl_restoreDependency _ _)

theorem units_toProgram : a.toProgram.units = (unitsOf a.units).units :=
  List.foldlRecOn (motive := fun q : Program => q.units = (unitsOf a.units).units) a.units
    restoreImports rfl fun _ hq _ _ => units_restoreImports.trans hq

/-- What a list of steps brings about that leave the units alone, if each step brings about a part
    of its own. -/
theorem foldl_iff {β : Type} {f : Program → β → Program} {P : Program → Prop}
    {B : Catalog → β → Prop} (hunits : ∀ p e, (f p e).units = p.units)
    (hstep : ∀ p e, P (f p e) ↔ B p.units e ∨ P p) (es : List β) (p : Program) :
    P (es.foldl f p) ↔ (∃ e ∈ es, B p.units e) ∨ P p := by
  induction es generalizing p with
  | nil => simp
  | cons e es ih =>
    rw [List.foldl_cons, ih, hunits, hstep, List.exists_mem_cons_iff, or_assoc, or_left_comm]

/-- Names that are imported along an edge add none. -/
theorem edge_foldl_recordImport (names : List String) (h : ∀ z, t = .unit z → p.graph.Edge id z) :
    (names.foldl (fun p n => p.recordImport id t n) p).graph.Edge x y ↔ p.graph.Edge x y := by
  induction names generalizing p with
  | nil => rfl
  | cons n names ih =>
    have hadds : (p.recordImport id t n).graph.Edge x y ↔ p.graph.Edge x y := by
      rw [edge_recordImport, or_iff_left_of_imp]
      rintro ⟨rfl, rfl, -⟩
      exact h y rfl
    rw [List.foldl_cons, ih fun z heq => edge_recordImport.2 (.inl (h z heq)), hadds]

/-- A dependency adds the edge to the unit that it calls, if there is such a unit. -/
theorem edge_restoreDependency (id : Nat) : (restoreDependency id p d).graph.Edge x y ↔
    (x = id ∧ p.units.find d.name d.overload = some y) ∨ p.graph.Edge x y := by
  rw [restoreDependency]
  split
  · next hnone => simp [hnone]
  · next other hfind =>
    have hnew : ∀ z, Target.unit other = .unit z → (p.graph.addEdge id other).Edge id z := by
      rintro z ⟨⟩
      exact Digraph.edge_addEdge.2 (.inl ⟨rfl, rfl⟩)
    refine (edge_foldl_recordImport (p := { p with graph := p.graph.addEdge id other })
      d.symbols hnew).trans ?_
    rw [Digraph.edge_addEdge, hfind, Option.some.injEq, eq_comm (a := y)]

/-- A dependency adds the imports of the names that it lists, unless it calls the unit itself. -/
theorem takes_restoreDependency (id : Nat) : (restoreDependency id p d).Takes x (.unit y) n ↔
    (x = id ∧ p.units.find d.name d.overload = some y ∧ x ≠ y ∧ n ∈ d.symbols) ∨
      p.Takes x (.unit y) n := by
  rw [restoreDependency]
  split
  · next hnone => simp [hnone]
  · next other hfind =>
    rw [takes_foldl_recordImport, hfind]
    refine or_congr ?_ Iff.rfl
    grind

/-- A row of one unit has a dependency on another unit among its own. -/
def Row.Lists (c : Catalog) (row : Row) (x : Nat) (d : Dependency) (y : Nat) : Prop :=
  c.find row.name row.overload = some x ∧ d ∈ row.dependencies ∧
    c.find d.name d.overload = some y

/-- The row of a unit adds the edges that its dependencies stand for, also those without a name. -/
theorem edge_restoreImports : (restoreImports p row).graph.Edge x y ↔
    (∃ d, row.Lists p.units x d y) ∨ p.graph.Edge x y := by
  rw [restoreImports]
  split
  · next hnone => simp [Row.Lists, hnone]
  · next id hfind =>
    have hfold := foldl_iff (f := restoreDependency id) (P := fun q => q.graph.Edge x y)
      (B := fun c d => x = id ∧ c.find d.name d.overload = some y)
      (fun _ _ => units_restoreDependency id) (fun _ _ => edge_restoreDependency id)
      row.dependencies p
    rw [edge_foldl_recordImport _ (by simp), hfold]
    refine or_congr ?_ Iff.rfl
    simp only [Row.Lists, hfind]
    grind

/-- The row of a unit adds the imports that its dependencies list. -/
theorem takes_restoreImports : (restoreImports p row).Takes x (.unit y) n ↔
    (∃ d, row.Lists p.units x d y ∧ x ≠ y ∧ n ∈ d.symbols) ∨ p.Takes x (.unit y) n := by
  rw [restoreImports]
  split
  · next hnone => simp [Row.Lists, hnone]
  · next id hfind =>
    have hfold := foldl_iff (f := restoreDependency id) (P := fun q => q.Takes x (.unit y) n)
      (B := fun c d => x = id ∧ c.find d.name d.overload = some y ∧ x ≠ y ∧ n ∈ d.symbols)
      (fun _ _ => units_restoreDependency id) (fun _ _ => takes_restoreDependency id)
      row.dependencies p
    rw [takes_foldl_recordImport, or_iff_right (by simp), hfold]
    refine or_congr ?_ Iff.rfl
    simp only [Row.Lists, hfind]
    grind

/-- A unit depends on another one if any of its rows says so. -/
theorem edge_toProgram : a.toProgram.graph.Edge x y ↔
    ∃ row ∈ a.units, ∃ d, row.Lists a.toProgram.units x d y := by
  rw [units_toProgram]
  refine (foldl_iff (P := fun q => q.graph.Edge x y) (B := fun c row => ∃ d, row.Lists c x d y)
    (fun _ _ => units_restoreImports) (fun _ _ => edge_restoreImports) a.units
    (unitsOf a.units)).trans (or_iff_left fun hedge => ?_)
  obtain ⟨n, htakes⟩ := (linked_unitsOf a.units).takes x y hedge
  exact not_takes_unitsOf htakes

/-- A unit imports the names that any of its rows lists with another unit. -/
theorem takes_toProgram : a.toProgram.Takes x (.unit y) n ↔
    ∃ row ∈ a.units, ∃ d, row.Lists a.toProgram.units x d y ∧ x ≠ y ∧ n ∈ d.symbols := by
  rw [units_toProgram]
  exact (foldl_iff (P := fun q => q.Takes x (.unit y) n)
    (B := fun c row => ∃ d, row.Lists c x d y ∧ x ≠ y ∧ n ∈ d.symbols)
    (fun _ _ => units_restoreImports) (fun _ _ => takes_restoreImports) a.units
    (unitsOf a.units)).trans (or_iff_left not_takes_unitsOf)

end Archive

namespace Digraph

variable {g : Digraph} {test : Nat → Nat → Bool} {u v : Nat}

/-- The edges that pass a test, and all nodes. -/
def keep (g : Digraph) (test : Nat → Nat → Bool) : Digraph where
  table := g.table.map fun u targets => targets.filter (test u)
  closed u v h := by
    have := g.closed u v
    simp only [Std.ExtTreeMap.getD_map, Std.ExtTreeMap.mem_map] at h ⊢
    refine this ?_
    rw [Std.ExtTreeMap.getD_eq_getD_getElem?]
    cases hu : g.table[u]? with
    | none => simp [hu] at h
    | some targets =>
      simp only [hu, Option.map_some, Option.getD_some, Std.ExtTreeSet.mem_filter] at h
      exact h.1

theorem hasNode_keep : (g.keep test).hasNode u ↔ g.hasNode u := by
  simp [hasNode_iff, keep]

/-- Of the edges those are kept that pass the test. -/
theorem edge_keep : (g.keep test).Edge u v ↔ g.Edge u v ∧ test u v := by
  have hsuccessors : (g.keep test).successors u = (g.successors u).filter (test u) := by
    rw [successors, keep, Std.ExtTreeMap.getD_map, successors,
      Std.ExtTreeMap.getD_eq_getD_getElem?]
    cases g.table[u]? <;> rfl
  rw [Edge, hsuccessors, Std.ExtTreeSet.mem_filter]
  simp [Edge]

end Digraph

namespace Program

variable {p : Program} {id a b : Nat} {t : Target} {n : String}

open Archive

/-- A program without the dependencies along which nothing is imported. -/
def pruned (p : Program) : Program :=
  { p with graph := p.graph.keep fun a b => (p.imported a (.unit b)).isSome }

/-- A dependency is saved exactly if something is imported along it. -/
theorem edge_pruned (h : p.Proper) :
    p.pruned.graph.Edge a b ↔ p.graph.Edge a b ∧ ∃ n, p.Takes a (.unit b) n := by
  rw [pruned, Digraph.edge_keep, imported, Imports.isSome_from?_iff (h a)]
  rfl

/-- Without the dependencies along which nothing is imported, the dependencies are those of the
imports. -/
theorem linked_pruned (h : p.Intact) (hcompact : p.Compact) : p.pruned.Linked where
  distinct := h.distinct
  proper := h.proper
  node a ha := h.node a (Digraph.hasNode_keep.1 ha)
  edge _ _ n htakes := (edge_pruned h.proper).2 ⟨h.edge _ _ n htakes, n, htakes⟩
  known a ha := Digraph.hasNode_keep.2 (h.known a ha)
  taker := h.taker
  takes _ _ hedge := ((edge_pruned h.proper).1 hedge).2
  loop := h.loop
  compact := hcompact

/-- Nothing is lost exactly if something is imported along every dependency. -/
theorem pruned_eq_self_iff (h : p.Proper) : p.pruned = p ↔ ∀ a b, ¬ p.Loose a b := by
  constructor
  · rintro heq a b ⟨hedge, hnone⟩
    rw [← heq] at hedge
    obtain ⟨n, htakes⟩ := ((edge_pruned h).1 hedge).2
    exact hnone n htakes
  · intro hnone
    have hgraph : p.pruned.graph = p.graph :=
      Digraph.ext_edge (fun _ => Digraph.hasNode_keep) fun a b => by
        rw [edge_pruned h, and_iff_left_of_imp]
        intro hedge
        by_contra hnot
        exact hnone a b ⟨hedge, not_exists.1 hnot⟩
    obtain ⟨units, graph, imports⟩ := p
    exact congrArg (fun g => (⟨units, g, imports⟩ : Program)) hgraph

/-- What is saved does not depend on the graph. -/
theorem save_pruned : p.pruned.save = p.save := rfl

/-- All is kept of a program whose bodies are where the kinds of its units imply. -/
theorem kept_eq_self (h : ∀ id u, p.units.get? id = some u → u.kept = u) : p.kept = p := by
  have hunits : p.kept.units = p.units := Catalog.ext_get? fun id => by
    rw [get?_kept]
    cases hget : p.units.get? id with
    | none => rfl
    | some u => rw [Option.map_some, h id u hget]
  obtain ⟨units, graph, imports⟩ := p
  exact congrArg (fun c => (⟨c, graph, imports⟩ : Program)) hunits

/-- Recording names leaves no empty entry in the table of imports. -/
theorem Compact.foldl_recordImport (h : p.Compact) (names : List String) :
    (names.foldl (fun p n => p.recordImport id t n) p).Compact :=
  List.foldlRecOn names _ h fun _ h _ _ => h.recordImport

/-- Restoring a dependency leaves no empty entry in the table of imports, even if it lists no
name. -/
theorem Compact.restoreDependency (h : p.Compact) (id : Nat) (d : Dependency) :
    (Archive.restoreDependency id p d).Compact := by
  rw [Archive.restoreDependency]
  split
  · exact h
  · next other _ =>
    have hadded : Compact { p with graph := p.graph.addEdge id other } := h
    exact hadded.foldl_recordImport d.symbols

/-- Restoring a row leaves no empty entry in the table of imports. -/
theorem Compact.restoreImports (h : p.Compact) (row : Row) :
    (Archive.restoreImports p row).Compact := by
  rw [Archive.restoreImports]
  split
  · exact h
  · refine foldl_recordImport (List.foldlRecOn row.dependencies _ h fun q hq d _ => ?_) _
    exact hq.restoreDependency _ d

/-- Whatever a document lists, no unit of the program that it describes has an empty entry in the
table of imports. -/
theorem compact_toProgram (archive : Archive) : archive.toProgram.Compact :=
  List.foldlRecOn archive.units restoreImports (linked_unitsOf archive.units).compact
    fun _ h row _ => h.restoreImports row

/-- What a document describes is restored from what is saved of it, but for the dependencies along
    which nothing is imported. -/
theorem restore_save_restore_eq (document : String) :
    restore (restore document).save = (restore document).pruned := by
  have hlinked : (restore document).pruned.Linked :=
    linked_pruned (intact_toProgram _) (compact_toProgram _)
  have hrow {id : Nat} {u : BuildUnit} (hget : (restore document).units.get? id = some u) :
      ∃ row ∈ (parseOrEmpty document).units, u = row.toUnit := by
    rw [restore, units_toProgram] at hget
    exact exists_row_of_get? hget
  have hfits : (ofProgram (restore document).pruned).fits := fits_ofProgram fun id u hget => by
    obtain ⟨row, hmem, rfl⟩ := hrow hget
    exact bounded_of_mem_parseOrEmpty hmem
  have hkept : (restore document).pruned.kept = (restore document).pruned :=
    kept_eq_self fun id u hget => by
      obtain ⟨row, _, rfl⟩ := hrow hget
      rfl
  rw [← save_pruned, hlinked.restore_save, if_pos hfits, hkept]

end Program

namespace Archive

variable {a : Archive}

open Program

/-- Every dependency of a row on a unit that has a row is one on another unit, and some row of the
    unit lists a name with it. -/
def BearsOut (a : Archive) : Prop :=
  ∀ row ∈ a.units, ∀ d ∈ row.dependencies, (∃ r ∈ a.units, r.isAbout d.name d.overload) →
    ¬ row.isAbout d.name d.overload ∧
      ∃ r ∈ a.units, r.isAbout row.name row.overload ∧
        ∃ e ∈ r.dependencies, e.name = d.name ∧ e.overload = d.overload ∧ e.symbols ≠ []

instance : Decidable a.BearsOut := inferInstanceAs (Decidable (∀ row ∈ a.units,
  ∀ d ∈ row.dependencies, (∃ r ∈ a.units, r.isAbout d.name d.overload) →
    ¬ row.isAbout d.name d.overload ∧
      ∃ r ∈ a.units, r.isAbout row.name row.overload ∧
        ∃ e ∈ r.dependencies, e.name = d.name ∧ e.overload = d.overload ∧ e.symbols ≠ []))

/-- A row is about the unit that has its name and its overload number. -/
theorem isAbout_iff {row : Row} {name : String} {overload : Nat} :
    row.isAbout name overload ↔ row.name = name ∧ row.overload = overload := by
  simp [Row.isAbout]

/-- The rows bear out their dependencies exactly if the program that they describe imports something
along each of its dependencies. -/
theorem bearsOut_iff : a.BearsOut ↔ ∀ x y, ¬ a.toProgram.Loose x y := by
  have hlisted {name : String} {overload : Nat} :
      (a.toProgram.units.find name overload).isSome ↔ ∃ r ∈ a.units, r.isAbout name overload := by
    rw [units_toProgram, isSome_find_unitsOf]
  constructor
  · rintro h x y ⟨hedge, hnone⟩
    obtain ⟨row, hrow, d, hx, hd, hy⟩ := edge_toProgram.1 hedge
    obtain ⟨hother, r, hr, habout, e, he, hname, hoverload, hsymbols⟩ :=
      h row hrow d hd (hlisted.1 (by rw [hy]; rfl))
    obtain ⟨n, hn⟩ := List.exists_mem_of_ne_nil _ hsymbols
    obtain ⟨hrname, hroverload⟩ := isAbout_iff.1 habout
    refine hnone n (takes_toProgram.2 ⟨r, hr, e, ⟨?_, he, ?_⟩, ?_, hn⟩)
    · rw [hrname, hroverload, hx]
    · rw [hname, hoverload, hy]
    · rintro rfl
      exact hother (isAbout_iff.2 (Catalog.find_inj hx hy))
  · intro h row hrow d hd hknown
    obtain ⟨y, hy⟩ := Option.isSome_iff_exists.1 (hlisted.2 hknown)
    obtain ⟨x, hx⟩ := Option.isSome_iff_exists.1
      (hlisted.2 ⟨row, hrow, isAbout_iff.2 ⟨rfl, rfl⟩⟩)
    have hedge := edge_toProgram.2 ⟨row, hrow, d, hx, hd, hy⟩
    obtain ⟨n, htakes⟩ : ∃ n, a.toProgram.Takes x (.unit y) n := by
      by_contra hnot
      exact h x y ⟨hedge, not_exists.1 hnot⟩
    obtain ⟨r, hr, e, ⟨hrx, he, hey⟩, hne, hn⟩ := takes_toProgram.1 htakes
    obtain ⟨hname, hoverload⟩ := Catalog.find_inj hey hy
    refine ⟨fun habout => hne ?_, r, hr, isAbout_iff.2 (Catalog.find_inj hrx hx), e, he, hname,
      hoverload, List.ne_nil_of_mem hn⟩
    obtain ⟨hname, hoverload⟩ := isAbout_iff.1 habout
    exact Option.some.inj (hx.symm.trans (by rw [hname, hoverload, hy]))

end Archive

namespace Program

/-- What a document describes is restored from what is saved of it, but for the dependencies along
    which nothing is imported; from then on nothing changes. Nothing changes at once exactly if the
    document lists names with all dependencies. -/
theorem restore_save_restore (document : String) :
    restore (restore document).save = (restore document).pruned ∧
      restore (restore (restore document).save).save = restore (restore document).save ∧
      (restore (restore document).save = restore document ↔
        (Archive.parseOrEmpty document).BearsOut) := by
  have heq := restore_save_restore_eq document
  refine ⟨heq, ?_, ?_⟩
  · rw [heq, save_pruned, heq]
  · rw [heq, Archive.bearsOut_iff]
    exact pruned_eq_self_iff (sound_toProgram _).proper

-- Of two rows about one unit, the second one may list the names that the first one lacks.
example : Archive.BearsOut ⟨1, [⟨"a", 0, none, 0, .script, [], [⟨"b", 0, []⟩, ⟨"c", 0, []⟩], []⟩,
    ⟨"b", 0, none, 0, .script, [], [], []⟩,
    ⟨"a", 0, none, 0, .script, [], [⟨"b", 0, ["f"]⟩], []⟩], []⟩ := by decide

example : ¬ Archive.BearsOut ⟨1, [⟨"a", 0, none, 0, .script, [], [⟨"b", 0, []⟩], []⟩,
    ⟨"b", 0, none, 0, .script, [], [⟨"a", 0, ["f"]⟩], []⟩], []⟩ := by decide

end Program

end ScriptBuild
