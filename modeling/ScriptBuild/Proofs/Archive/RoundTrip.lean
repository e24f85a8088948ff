import ScriptBuild.Proofs.Archive.Document
import ScriptBuild.Proofs.Program.Coherent

namespace ScriptBuild

/-- What is kept of a unit. -/
def BuildUnit.kept (u : BuildUnit) : BuildUnit := { u with body := u.kind.body? }

/-- What is kept of a program. -/
def Program.kept (p : Program) : Program :=
  { p with units := p.units.map BuildUnit.kept }

namespace Catalog

variable {c : Catalog} {id : Nat} {u : BuildUnit} {name : String} {overload : Nat}

/-- Names and overload numbers find units if no two of these have the same. -/
theorem Distinct.find_eq_some_iff (h : c.Distinct) : c.find name overload = some id ↔
    ∃ u, c.get? id = some u ∧ u.name = name ∧ u.overload = overload := by
  refine ⟨exists_of_find, fun ⟨u, hget, hname, hover⟩ => ?_⟩
  cases hfind : c.find name overload with
  | none => exact absurd hover (ne_of_find_eq_none hfind hget hname)
  | some other =>
    obtain ⟨v, hv, hvname, hvover⟩ := exists_of_find hfind
    rw [h id other u v hget hv (hname.trans hvname.symm) (hover.trans hvover.symm)]

end Catalog

namespace Program

variable {p q : Program} {id other a : Nat} {t s : Target} {n m : String} {u : BuildUnit}

/-- What is kept of a program has the same units at the same numbers, each as it is kept. -/
theorem get?_kept : p.kept.units.get? id = (p.units.get? id).map BuildUnit.kept :=
  Catalog.get?_map fun _ => rfl

theorem size_kept : p.kept.units.size = p.units.size := Catalog.size_map

/-- What is kept of a program fits together as the program does. -/
theorem Linked.kept (h : p.Linked) : p.kept.Linked where
  distinct id other u v hu hv hname hoverload := by
    rw [get?_kept] at hu hv
    obtain ⟨u', hu', rfl⟩ := Option.map_eq_some_iff.1 hu
    obtain ⟨v', hv', rfl⟩ := Option.map_eq_some_iff.1 hv
    exact h.distinct id other u' v' hu' hv' hname hoverload
  proper := h.proper
  node a ha := by rw [size_kept]; exact h.node a ha
  edge := h.edge
  known a ha := h.known a (by rwa [size_kept] at ha)
  taker a t n htakes := by rw [size_kept]; exact h.taker a t n htakes
  takes := h.takes
  loop := h.loop
  compact := h.compact

/-- Recording names adds the imports of just these names, from a target that is not the unit
itself. -/
theorem takes_foldl_recordImport (names : List String) (p : Program) :
    (names.foldl (fun p n => p.recordImport id t n) p).Takes a s m ↔
      (a = id ∧ s = t ∧ m ∈ names ∧ t ≠ .unit id) ∨ p.Takes a s m := by
  induction names generalizing p with
  | nil => simp
  | cons n names ih => rw [List.foldl_cons, ih, takes_recordImport, List.mem_cons]; tauto

/-- A program still fits together when names are recorded of units that are there. -/
theorem Linked.foldl_recordImport (h : p.Linked) (names : List String) (hid : id < p.units.size)
    (htarget : ∀ other, t = .unit other → other < p.units.size) :
    (names.foldl (fun p n => p.recordImport id t n) p).Linked := by
  induction names generalizing p with
  | nil => exact h
  | cons n names ih =>
    exact ih (h.recordImport hid htarget) (by rwa [units_recordImport])
      (by rwa [units_recordImport])

theorem recordImport_addEdge (hne : other ≠ id) :
    recordImport { p with graph := p.graph.addEdge id other } id (.unit other) n =
      p.recordImport id (.unit other) n := by
  have htwice : (p.graph.addEdge id other).addEdge id other = p.graph.addEdge id other :=
    Digraph.ext_edge (fun a => by simp only [Digraph.hasNode_addEdge]; tauto)
      fun a b => by simp only [Digraph.edge_addEdge]; tauto
  have htarget : Target.unit other ≠ .unit id := by simpa using hne
  simp only [recordImport, if_neg htarget, setImports, htwice]
  rfl

end Program

namespace Archive

variable {p q : Program} {id other a : Nat} {t : Target} {n : String} {u v : BuildUnit}

open Program

/-- The unit of the row of a unit is what is kept of it. -/
theorem toUnit_ofUnit : (Row.ofUnit p id u).toUnit = u.kept := by
  obtain ⟨name, overload, kind, timestamp, body, slots⟩ := u
  cases kind <;> rfl

/-- The rows of some units, in their order. -/
def rowsOf (p : Program) (ids : List Nat) : List Row :=
  ids.filterMap fun id => (p.units.get? id).map (Row.ofUnit p id)

theorem rowsOf_cons (hget : p.units.get? id = some u) (ids : List Nat) :
    rowsOf p (id :: ids) = Row.ofUnit p id u :: rowsOf p ids := by
  simp [rowsOf, hget]

/-- The first units are restored at their numbers. -/
structure Restored (p q : Program) (count : Nat) : Prop where
  linked : q.Linked
  size : q.units.size = count
  get : ∀ id < count, q.units.get? id = (p.units.get? id).map BuildUnit.kept
  takes : ∀ id t n, ¬ q.Takes id t n

/-- The row of the next unit restores it at its number, because no unit before it has its name and
overload number. -/
theorem Restored.step (h : p.Linked) (hq : Restored p q id) (hget : p.units.get? id = some u) :
    Restored p (restoreUnit q (Row.ofUnit p id u)) (id + 1) := by
  have hother {k : Nat} {v : BuildUnit} (hv : q.units.get? k = some v) :
      v.name = u.name → v.overload ≠ u.overload := by
    intro hname hover
    have hlt : k < id := by rw [← hq.size]; exact Catalog.lt_size_of_get? hv
    rw [hq.get k hlt] at hv
    obtain ⟨w, hw, rfl⟩ := Option.map_eq_some_iff.1 hv
    exact Nat.ne_of_lt hlt (h.distinct k id w u hw hget hname hover)
  have hfind : ¬ (q.units.find u.name u.overload).isSome := by
    intro hsome
    obtain ⟨k, hk⟩ := Option.isSome_iff_exists.1 hsome
    obtain ⟨v, hv, hname, hover⟩ := Catalog.exists_of_find hk
    exact hother hv hname hover
  have heq : restoreUnit q (Row.ofUnit p id u) = q.pushUnit u.kept := by
    rw [restoreUnit, toUnit_ofUnit]
    exact if_neg hfind
  rw [heq]
  refine ⟨hq.linked.push fun k v hv => hother hv, ?_, fun k hk => ?_, hq.takes⟩
  · rw [pushUnit, Catalog.size_push, hq.size]
  · rw [pushUnit, Catalog.get?_push, hq.size]
    split
    · next heq => rw [heq, hget, Option.map_some]
    · exact hq.get k (by omega)

/-- The rows of the first units, in their order, restore these units at their numbers. -/
theorem Restored.foldl (h : p.Linked) (count : Nat) (hcount : count ≤ p.units.size) :
    Restored p ((rowsOf p (List.range count)).foldl restoreUnit .empty) count := by
  induction count with
  | zero => exact ⟨linked_empty, rfl, fun _ hlt => absurd hlt (Nat.not_lt_zero _), by
      simp [Takes, importsOf, Program.empty, rowsOf]⟩
  | succ count ih =>
    obtain ⟨u, hget⟩ := Catalog.exists_get? (Nat.lt_of_succ_le hcount)
    rw [List.range_succ, rowsOf, List.filterMap_append, List.foldl_append]
    simp only [List.filterMap_cons, List.filterMap_nil, hget, Option.map_some, List.foldl_cons,
      List.foldl_nil]
    exact (ih (Nat.le_of_succ_le hcount)).step h hget

/-- The dependencies that are written for the units in a list of imports. -/
def dependenciesOf (p : Program) (entries : List (Nat × NameSet)) : List Dependency :=
  entries.filterMap fun (other, symbols) =>
    (p.units.get? other).map fun v => ⟨v.name, v.overload, symbols.toList⟩

/-- The imports from one unit are written as one dependency, which calls the unit by its name and
overload number. -/
theorem dependenciesOf_cons {symbols : NameSet} (hget : p.units.get? other = some v)
    (entries : List (Nat × NameSet)) : dependenciesOf p ((other, symbols) :: entries) =
      ⟨v.name, v.overload, symbols.toList⟩ :: dependenciesOf p entries := by
  simp [dependenciesOf, hget]

/-- A program under reconstruction: all units are back, and whatever is recorded fits together. -/
structure Rebuilding (p q : Program) : Prop where
  linked : q.Linked
  units : q.units = p.kept.units

namespace Rebuilding

theorem size (h : Rebuilding p q) : q.units.size = p.units.size := by rw [h.units, size_kept]

/-- A unit that is called by its name and overload number is found at its number. -/
theorem find (h : Rebuilding p q) (hget : p.units.get? id = some u) :
    q.units.find u.name u.overload = some id := by
  refine h.linked.distinct.find_eq_some_iff.2 ⟨u.kept, ?_, rfl, rfl⟩
  rw [h.units, get?_kept, hget, Option.map_some]

theorem foldl_recordImport (h : Rebuilding p q) (names : List String) (hid : id < p.units.size)
    (htarget : ∀ other, t = .unit other → other < p.units.size) :
    Rebuilding p (names.foldl (fun q n => q.recordImport id t n) q) where
  linked := h.linked.foldl_recordImport names (h.size ▸ hid) fun other heq =>
    h.size ▸ htarget other heq
  units := (units_foldl_recordImport names q).trans h.units

/-- A dependency that has names is recorded by recording these. -/
theorem restoreDependency_eq (h : Rebuilding p q) {symbols : NameSet} (hsymbols : symbols ≠ ∅)
    (hget : p.units.get? other = some v) (hne : other ≠ id) :
    restoreDependency id q ⟨v.name, v.overload, symbols.toList⟩ =
      symbols.toList.foldl (fun q n => q.recordImport id (.unit other) n) q := by
  obtain ⟨n, hn⟩ := Imports.exists_mem_of_ne_empty hsymbols
  obtain ⟨m, rest, heq⟩ := List.exists_cons_of_ne_nil
    (List.ne_nil_of_mem (Std.ExtTreeSet.mem_toList.2 hn))
  simp only [restoreDependency, h.find hget, heq, List.foldl_cons, recordImport_addEdge hne]

/-- The dependencies that were written for a unit bring its imports back, and no others. -/
theorem foldl_restoreDependency (hp : p.Linked) (h : Rebuilding p q) (hid : id < p.units.size)
    (entries : List (Nat × NameSet))
    (hentries : ∀ e ∈ entries, (p.importsOf id).found[e.1]? = some e.2) :
    Rebuilding p ((dependenciesOf p entries).foldl (restoreDependency id) q) ∧
      ∀ a t n, ((dependenciesOf p entries).foldl (restoreDependency id) q).Takes a t n ↔
        (a = id ∧ ∃ e ∈ entries, t = .unit e.1 ∧ n ∈ e.2) ∨ q.Takes a t n := by
  induction entries generalizing q with
  | nil => exact ⟨h, by simp [dependenciesOf]⟩
  | cons e entries ih =>
    obtain ⟨other, symbols⟩ := e
    have hfound := hentries _ List.mem_cons_self
    have hsymbols : symbols ≠ ∅ := hp.proper id other symbols hfound
    obtain ⟨n, hn⟩ := Imports.exists_mem_of_ne_empty hsymbols
    have htakes : p.Takes id (.unit other) n := by
      simpa [Takes, Imports.Has, Std.ExtTreeMap.getD_eq_getD_getElem?, hfound] using hn
    have hne : other ≠ id := by
      rintro rfl
      exact hp.loop _ _ htakes
    obtain ⟨v, hget⟩ := Catalog.exists_get? (hp.lt_of_takes htakes)
    have htarget : ∀ k, Target.unit other = .unit k → k < p.units.size := by
      rintro _ ⟨⟩
      exact Catalog.lt_size_of_get? hget
    obtain ⟨hrest, hrestTakes⟩ := ih (h.foldl_recordImport symbols.toList hid htarget)
      fun e hmem => hentries e (List.mem_cons_of_mem _ hmem)
    rw [dependenciesOf_cons hget, List.foldl_cons, h.restoreDependency_eq hsymbols hget hne]
    refine ⟨hrest, fun a t n => ?_⟩
    have hforeign : Target.unit other ≠ .unit id := by simpa using hne
    rw [hrestTakes, takes_foldl_recordImport, Std.ExtTreeSet.mem_toList]
    simp only [List.mem_cons, exists_eq_or_imp, ne_eq, hforeign, not_false_eq_true, and_true,
      and_or_left, or_assoc, or_left_comm]

/-- The list of imports has what a unit imports from other units. -/
theorem exists_mem_toList_iff (i : Imports) :
    (∃ e ∈ i.found.toList, t = .unit e.1 ∧ n ∈ e.2) ↔ t ≠ .unresolved ∧ i.Has t n := by
  cases t with
  | unit id =>
    simp only [Imports.Has, Std.ExtTreeMap.getD_eq_getD_getElem?, Prod.exists,
      Std.ExtTreeMap.mem_toList_iff_getElem?_eq_some, Target.unit.injEq, ne_eq, reduceCtorEq,
      not_false_eq_true, true_and]
    cases hget : i.found[id]? with
    | none => simp; grind
    | some names => simp; grind
  | unresolved => simp

/-- The row of a unit restores what the unit imports. -/
theorem restoreImports (hp : p.Linked) (h : Rebuilding p q) (hget : p.units.get? id = some u) :
    Rebuilding p (restoreImports q (Row.ofUnit p id u)) ∧
      ∀ a t n, (Archive.restoreImports q (Row.ofUnit p id u)).Takes a t n ↔
        (a = id ∧ p.Takes id t n) ∨ q.Takes a t n := by
  have hid := Catalog.lt_size_of_get? hget
  obtain ⟨hdeps, hdepsTakes⟩ := foldl_restoreDependency hp h hid (p.importsOf id).found.toList
    fun e hmem => Std.ExtTreeMap.mem_toList_iff_getElem?_eq_some.1 hmem
  have heq : Archive.restoreImports q (Row.ofUnit p id u) =
      (p.unresolvedNames id).foldl (fun q n => q.recordImport id .unresolved n)
        ((dependenciesOf p (p.importsOf id).found.toList).foldl (restoreDependency id) q) := by
    have hfind : q.units.find (Row.ofUnit p id u).name (Row.ofUnit p id u).overload = some id :=
      h.find hget
    rw [Archive.restoreImports, hfind]
    rfl
  rw [heq]
  refine ⟨hdeps.foldl_recordImport _ hid (by simp), fun a t n => ?_⟩
  rw [takes_foldl_recordImport, hdepsTakes, exists_mem_toList_iff, unresolvedNames,
    Std.ExtTreeSet.mem_toList]
  cases t with
  | unit other => simp [Takes]
  | unresolved => simp [Takes, Imports.Has]

/-- The rows of some units bring back the imports of these units, and no others. -/
theorem foldl_restoreImports (hp : p.Linked) (h : Rebuilding p q) (ids : List Nat)
    (hids : ∀ id ∈ ids, id < p.units.size) :
    Rebuilding p ((rowsOf p ids).foldl Archive.restoreImports q) ∧
      ∀ a t n, ((rowsOf p ids).foldl Archive.restoreImports q).Takes a t n ↔
        (a ∈ ids ∧ p.Takes a t n) ∨ q.Takes a t n := by
  induction ids generalizing q with
  | nil => exact ⟨h, by simp [rowsOf]⟩
  | cons id ids ih =>
    obtain ⟨u, hget⟩ := Catalog.exists_get? (hids id List.mem_cons_self)
    obtain ⟨hrow, hrowTakes⟩ := h.restoreImports hp hget
    obtain ⟨hrest, hrestTakes⟩ := ih hrow fun k hk => hids k (List.mem_cons_of_mem _ hk)
    rw [rowsOf_cons hget, List.foldl_cons]
    refine ⟨hrest, fun a t n => ?_⟩
    rw [hrestTakes, hrowTakes, List.mem_cons]
    grind

end Rebuilding

/-- A program whose dependencies match its imports is rebuilt from its rows. -/
theorem toProgram_ofProgram (hp : p.Linked) : (ofProgram p).toProgram = p.kept := by
  have hrestored := Restored.foldl hp p.units.size (Nat.le_refl _)
  have hrows : (ofProgram p).units = rowsOf p (List.range p.units.size) := rfl
  have hunits : ((rowsOf p (List.range p.units.size)).foldl restoreUnit .empty).units =
      p.kept.units := by
    refine Catalog.ext_get? fun id => ?_
    rw [get?_kept]
    by_cases hlt : id < p.units.size
    · exact hrestored.get id hlt
    · have hnone {c : Catalog} (hsize : c.size = p.units.size) : c.get? id = none := by
        rw [← Option.not_isSome_iff_eq_none, Catalog.isSome_get?_iff, hsize]
        exact hlt
      rw [hnone hrestored.size, hnone rfl, Option.map_none]
  obtain ⟨hlast, htakes⟩ := Rebuilding.foldl_restoreImports hp ⟨hrestored.linked, hunits⟩
    (List.range p.units.size) fun id hmem => List.mem_range.1 hmem
  rw [toProgram, hrows]
  refine hlast.linked.ext_takes hp.kept hlast.units fun id t n => ?_
  rw [htakes, or_iff_left (hrestored.takes id t n), List.mem_range]
  exact and_iff_right_of_imp fun h => hp.taker id t n h

end Archive

namespace Program

variable {p : Program}

/-- The numbers of a program fit the format that it is kept in. -/
def Fits (p : Program) : Prop := ∀ id u, p.units.get? id = some u →
  u.overload < Archive.small ∧ u.timestamp < Archive.large

/-- The archive of a program fits if the numbers of the program do. -/
theorem fits_ofProgram (h : p.Fits) : (Archive.ofProgram p).fits := by
  have hrows : (Archive.ofProgram p).units.all Archive.Row.fits := by
    refine List.all_eq_true.2 fun row hmem => ?_
    obtain ⟨id, _, hrow⟩ := List.mem_filterMap.1 hmem
    obtain ⟨u, hget, rfl⟩ := Option.map_eq_some_iff.1 hrow
    obtain ⟨hoverload, htime⟩ := h id u hget
    have hdependencies : (Archive.Row.ofUnit p id u).dependencies.all Archive.Dependency.fits := by
      refine List.all_eq_true.2 fun d hmem => ?_
      obtain ⟨⟨other, symbols⟩, _, hd⟩ := List.mem_filterMap.1 hmem
      obtain ⟨v, hv, rfl⟩ := Option.map_eq_some_iff.1 hd
      simpa [Archive.Dependency.fits] using (h other v hv).1
    simp only [Archive.Row.fits, Bool.and_eq_true, decide_eq_true_eq]
    exact ⟨⟨hoverload, htime⟩, hdependencies⟩
  have hversion : Archive.formatVersion < Archive.small := by decide
  simp only [Archive.fits, Bool.and_eq_true, decide_eq_true_eq]
  exact ⟨⟨hversion, hrows⟩, rfl⟩

/-- Reading back what was saved gives what is kept, unless a number does not fit. -/
theorem Linked.restore_save (h : p.Linked) :
    restore p.save = if (Archive.ofProgram p).fits then p.kept else .empty := by
  rw [restore, save, Archive.parseOrEmpty_document _ rfl]
  split
  · exact Archive.toProgram_ofProgram h
  · rfl

/-- The overloads of a name are the same for what is kept of a program. -/
theorem overloads_kept (name : String) : p.kept.units.overloads name = p.units.overloads name := rfl

/-- A definition denotes the same unit among those that are kept: bodies, which are not kept, do not
identify units. -/
theorem findMatch_kept (name : String) (kind : UnitKind) (timestamp : Nat) :
    p.kept.units.findMatch name kind timestamp = p.units.findMatch name kind timestamp := by
  simp only [Catalog.findMatch, overloads_kept, get?_kept, Option.any_map]
  rfl

end Program

end ScriptBuild
