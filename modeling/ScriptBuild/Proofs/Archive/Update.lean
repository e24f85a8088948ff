import ScriptBuild.Proofs.Resolution.Notes

namespace ScriptBuild.Archive

open Program

variable {a : Archive} {p q : Program} {id count : Nat} {u : BuildUnit} {row : Row}
  {rows rest : List Row} {ids : List Nat} {touched : NodeSet}

/-- The row of a unit, if there is one. -/
def row? (p : Program) (id : Nat) : Option Row := (p.units.get? id).map (Row.ofUnit p id)

/-- The rows of a program are those of its units, in the order of their numbers. -/
theorem units_ofProgram : (ofProgram p).units = (List.range p.units.size).filterMap (row? p) := rfl

theorem row?_eq_none (h : p.units.size ≤ id) : row? p id = none := by
  rw [row?, Catalog.get?_eq_none h, Option.map_none]

/-- The row of a unit is about that unit. -/
theorem row?_eq_some (hrow : row? p id = some row) : ∃ u, p.units.get? id = some u ∧
    row.name = u.name ∧ row.overload = u.overload := by
  obtain ⟨u, hget, rfl⟩ := Option.map_eq_some_iff.1 hrow
  exact ⟨u, hget, rfl, rfl⟩

/-- A row says the same of a unit about which the same is kept, and which imports the same. -/
theorem row?_congr (hlinked : p.Linked) (hgrows : p.units.Grows q.units) (hunit : p.SameUnit q id)
    (himports : q.importsOf id = p.importsOf id) : row? q id = row? p id := by
  rw [SameUnit] at hunit
  rw [row?, row?]
  cases hu : p.units.get? id with
  | none =>
    rw [hu, Option.map_none, Option.map_eq_none_iff] at hunit
    rw [hunit]
    rfl
  | some u =>
    rw [hu, Option.map_some, Option.map_eq_some_iff] at hunit
    obtain ⟨v, hv, hkept⟩ := hunit
    have hdependencies : (Row.ofUnit q id v).dependencies = (Row.ofUnit p id u).dependencies := by
      simp only [Row.ofUnit, himports]
      refine List.filterMap_congr fun dependency hmem => ?_
      obtain ⟨other, symbols⟩ := dependency
      have hfound := Std.ExtTreeMap.mem_toList_iff_getElem?_eq_some.1 hmem
      obtain ⟨n, hn⟩ := Imports.exists_mem_of_ne_empty (hlinked.proper id other symbols hfound)
      have htakes : p.Takes id (.unit other) n := by
        simpa [Takes, Imports.Has, Std.ExtTreeMap.getD_eq_getD_getElem?, hfound] using hn
      obtain ⟨x, hx⟩ := Catalog.exists_get? (hlinked.lt_of_takes htakes)
      obtain ⟨y, hy, hxy⟩ := hgrows other x hx
      simp only [hx, hy, Option.map_some, hxy.name, hxy.overload]
    have hrow {p : Program} {u : BuildUnit} : Row.ofUnit p id u =
        { Row.ofUnit p id u.kept with
          dependencies := (Row.ofUnit p id u).dependencies
          unresolved := (p.importsOf id).unresolved.toList } := rfl
    rw [hv, Option.map_some, Option.map_some, hrow, hrow (p := p), hkept, hdependencies, himports]
    rfl

/-- Rows in front that are about other units stay where they are. -/
theorem putRow_append (hothers : ∀ r ∈ rows, r.isAbout row.name row.overload = false) :
    putRow row (rows ++ rest) = rows ++ putRow row rest := by
  induction rows with
  | nil => rfl
  | cons r rows ih =>
    rw [List.cons_append, putRow, if_neg (by simp [hothers r List.mem_cons_self]), List.cons_append,
      ih fun r hr => hothers r (List.mem_cons_of_mem _ hr)]

/-- The rows of a program in which the units before some number are up to date. -/
def mixedRows (p q : Program) (count : Nat) : List Row :=
  (List.range q.units.size).filterMap fun id => if id < count then row? q id else row? p id

/-- If no row is up to date yet, the rows are those of the program before. -/
theorem mixedRows_zero (hgrows : p.units.Grows q.units) :
    mixedRows p q 0 = (ofProgram p).units := by
  obtain ⟨more, hsize⟩ := Nat.exists_eq_add_of_le hgrows.size_le
  have hnone : ((List.range more).map (p.units.size + ·)).filterMap (row? p) = [] := by
    refine List.filterMap_eq_nil_iff.2 fun id hmem => ?_
    obtain ⟨k, _, rfl⟩ := List.mem_map.1 hmem
    exact row?_eq_none (Nat.le_add_right _ _)
  simp only [mixedRows, Nat.not_lt_zero, if_false]
  rw [hsize, List.range_add, List.filterMap_append, hnone, List.append_nil, units_ofProgram]

/-- If the rows of all units are up to date, the rows are those of the whole program. -/
theorem mixedRows_size : mixedRows p q q.units.size = (ofProgram q).units := by
  refine List.filterMap_congr fun id hmem => ?_
  rw [if_pos (List.mem_range.1 hmem)]
  rfl

/-- Rows that are the same need not be brought up to date. -/
theorem mixedRows_congr {count' : Nat} (hle : count ≤ count')
    (hsame : ∀ id, count ≤ id → id < count' → row? q id = row? p id) :
    mixedRows p q count = mixedRows p q count' := by
  refine List.filterMap_congr fun id _ => ?_
  by_cases hlt : id < count
  · rw [if_pos hlt, if_pos (Nat.lt_of_lt_of_le hlt hle)]
  · rw [if_neg hlt]
    split
    · next hlt' => exact (hsame id (Nat.le_of_not_lt hlt) hlt').symm
    · rfl

/-- The rows before, at and after one number. -/
theorem mixedRows_parts (hlt : id < q.units.size) : ∃ later : List Nat, (∀ i ∈ later, id < i) ∧
    ∀ count, mixedRows p q count =
      (List.range id).filterMap (fun i => if i < count then row? q i else row? p i) ++
        ((if id < count then row? q id else row? p id).toList ++
          later.filterMap fun i => if i < count then row? q i else row? p i) := by
  obtain ⟨more, hsize⟩ := Nat.exists_eq_add_of_le (Nat.succ_le_of_lt hlt)
  refine ⟨(List.range more).map (id + 1 + ·), fun i hmem => ?_, fun count => ?_⟩
  · obtain ⟨k, _, rfl⟩ := List.mem_map.1 hmem
    omega
  · rw [mixedRows, hsize, List.range_add, List.range_succ, List.filterMap_append,
      List.filterMap_append, List.append_assoc]
    congr 2

/-- The row of the next unit is replaced, or added if it is new, and then nothing follows. -/
theorem putRow_mixedRows (hgrows : p.units.Grows q.units) (hdistinct : q.units.Distinct)
    (hget : q.units.get? id = some u) :
    putRow (Row.ofUnit q id u) (mixedRows p q id) = mixedRows p q (id + 1) := by
  obtain ⟨later, hlater, hparts⟩ := mixedRows_parts (p := p) (Catalog.lt_size_of_get? hget)
  have hnew : row? q id = some (Row.ofUnit q id u) := by rw [row?, hget, Option.map_some]
  have hbefore (count : Nat) (hle : id ≤ count) : (List.range id).filterMap
      (fun i => if i < count then row? q i else row? p i) = (List.range id).filterMap (row? q) :=
    List.filterMap_congr fun i hmem => if_pos (Nat.lt_of_lt_of_le (List.mem_range.1 hmem) hle)
  have hafter (count : Nat) (hle : count ≤ id + 1) : later.filterMap
      (fun i => if i < count then row? q i else row? p i) = later.filterMap (row? p) :=
    List.filterMap_congr fun i hmem => if_neg (by have := hlater i hmem; omega)
  rw [hparts, hparts, hbefore id (Nat.le_refl _), hbefore (id + 1) (Nat.le_succ _),
    hafter id (Nat.le_succ _), hafter (id + 1) (Nat.le_refl _), if_neg (Nat.lt_irrefl _),
    if_pos (Nat.lt_succ_self _), hnew, putRow_append]
  · congr 1
    cases hold : row? p id with
    | some row =>
      obtain ⟨v, hv, hname, hoverload⟩ := row?_eq_some hold
      have hbecomes := hgrows.becomes hv hget
      refine if_pos ?_
      simp [Row.isAbout, Row.ofUnit, hname, hoverload, hbecomes.name, hbecomes.overload]
    | none =>
      have hsize : p.units.size ≤ id := by
        by_contra hlt
        obtain ⟨v, hv⟩ := Catalog.exists_get? (Nat.lt_of_not_le hlt)
        rw [row?, hv] at hold
        cases hold
      have hnone : later.filterMap (row? p) = [] := List.filterMap_eq_nil_iff.2 fun i hmem =>
        row?_eq_none (Nat.le_trans hsize (Nat.le_of_lt (hlater i hmem)))
      rw [hnone]
      rfl
  · intro row hmem
    obtain ⟨i, hi, hrow⟩ := List.mem_filterMap.1 hmem
    obtain ⟨v, hv, hname, hoverload⟩ := row?_eq_some hrow
    rw [← Bool.not_eq_true, Row.isAbout, Bool.and_eq_true, beq_iff_eq, beq_iff_eq, hname, hoverload]
    rintro ⟨hsame, hsame'⟩
    exact Nat.ne_of_lt (List.mem_range.1 hi) (hdistinct i id v u hv hget hsame hsame')

/-- The rows of some units are brought up to date in the order of their numbers. -/
theorem foldl_putRow (hgrows : p.units.Grows q.units) (hdistinct : q.units.Distinct)
    (hsorted : ids.Pairwise (· < ·)) (hids : ∀ id ∈ ids, count ≤ id ∧ id < q.units.size)
    (hsame : ∀ id, count ≤ id → id ∉ ids → row? q id = row? p id) :
    ids.foldl (fun rows id => match q.units.get? id with
      | some u => putRow (Row.ofUnit q id u) rows
      | none => rows) (mixedRows p q count) = (ofProgram q).units := by
  induction ids generalizing count with
  | nil =>
    rw [List.foldl_nil, ← mixedRows_size (p := p)]
    rcases Nat.le_total count q.units.size with hle | hle
    · exact mixedRows_congr hle fun id hid _ => hsame id hid List.not_mem_nil
    · refine (mixedRows_congr hle fun id hid _ => ?_).symm
      rw [row?_eq_none hid, row?_eq_none (Nat.le_trans hgrows.size_le hid)]
  | cons id ids ih =>
    obtain ⟨hfirst, hrest⟩ := List.pairwise_cons.1 hsorted
    obtain ⟨hle, hlt⟩ := hids id List.mem_cons_self
    obtain ⟨u, hget⟩ := Catalog.exists_get? hlt
    rw [List.foldl_cons, hget]
    dsimp only
    rw [mixedRows_congr hle fun i hi hlt => hsame i hi fun hmem => ?_, putRow_mixedRows hgrows
      hdistinct hget]
    · refine ih hrest (fun i hi => ⟨hfirst i hi, (hids i (List.mem_cons_of_mem _ hi)).2⟩)
        fun i hi hnot => hsame i (Nat.le_trans hle (Nat.le_of_lt hi)) fun hmem => ?_
      rcases List.mem_cons.1 hmem with rfl | hmem
      · exact Nat.lt_irrefl _ hi
      · exact hnot hmem
    · rcases List.mem_cons.1 hmem with rfl | hmem
      · exact Nat.lt_irrefl _ hlt
      · exact Nat.lt_asymm hlt (hfirst i hmem)

/-- If the rows of all units that changed are brought up to date, all rows are. -/
theorem units_updateRows (hgrows : p.units.Grows q.units) (hdistinct : q.units.Distinct)
    (htouched : ∀ id ∈ touched, id < q.units.size)
    (hsame : ∀ id, id ∉ touched → row? q id = row? p id) (hunits : a.units = (ofProgram p).units) :
    (a.updateRows q touched.toList).units = (ofProgram q).units := by
  have hsorted : touched.toList.Pairwise (· < ·) :=
    Std.ExtTreeSet.ordered_toList.imp fun hlt => Nat.compare_eq_lt.1 hlt
  rw [updateRows, hunits, ← mixedRows_zero hgrows]
  refine foldl_putRow hgrows hdistinct hsorted (fun id hmem => ⟨Nat.zero_le id, ?_⟩)
    fun id _ hnot => hsame id fun hmem => hnot (Std.ExtTreeSet.mem_toList.2 hmem)
  exact htouched id (Std.ExtTreeSet.mem_toList.1 hmem)

end ScriptBuild.Archive
