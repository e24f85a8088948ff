import ScriptBuild.Archive.Basic
import Mathlib.Data.List.Induction
import Mathlib.Data.List.Sort

namespace ScriptBuild.Archive

variable {a b : Archive} {name : String} {overload : Nat}

/-- The comparison behind the order of the registry. -/
def Export.order : Export → Export → Ordering :=
  compareLex (compareOn Export.name) (compareLex (compareOn Export.overload) (compareOn Export.symbol))

/-- The order is that of a comparison: by name, then by overload number, then by symbol. -/
theorem Export.le_eq (row next : Export) : row.le next = (row.order next).isLE := rfl

instance : Std.TransCmp Export.order :=
  inferInstanceAs (Std.TransCmp (compareLex (compareOn Export.name)
    (compareLex (compareOn Export.overload) (compareOn Export.symbol))))

/-- Rows that compare as equal are the same. -/
theorem Export.eq_of_order {row next : Export} (h : row.order next = .eq) : row = next := by
  obtain ⟨hname, hrest⟩ := Ordering.then_eq_eq.1 h
  obtain ⟨hoverload, hsymbol⟩ := Ordering.then_eq_eq.1 hrest
  obtain ⟨name, overload, symbol⟩ := row
  obtain ⟨name', overload', symbol'⟩ := next
  have hname : name = name' := Std.LawfulEqCmp.eq_of_compare hname
  have hoverload : overload = overload' := Std.LawfulEqCmp.eq_of_compare hoverload
  have hsymbol : symbol = symbol' := Std.LawfulEqCmp.eq_of_compare hsymbol
  rw [hname, hoverload, hsymbol]

theorem Export.le_trans (row next last : Export) (h : row.le next) (h' : next.le last) :
    row.le last := by
  rw [le_eq] at h h' ⊢
  exact Std.TransCmp.isLE_trans h h'

/-- Any two rows can be put in order. -/
theorem Export.le_total (row next : Export) : (row.le next || next.le row) = true := by
  have hswap : next.order row = (row.order next).swap := Std.OrientedCmp.eq_swap
  rw [le_eq, le_eq, hswap]
  cases row.order next <;> rfl

/-- Rows that may stand either way are the same. -/
theorem Export.le_antisymm {row next : Export} (h : row.le next) (h' : next.le row) : row = next := by
  rw [le_eq] at h h'
  exact eq_of_order (Std.OrientedCmp.isLE_antisymm h h')

/-- Rows stand in the order of the registry. -/
def Sorted (rows : List Export) : Prop := rows.Pairwise fun row next => row.le next

/-- Sorting puts rows in the order of the registry. -/
theorem sorted_mergeSort (rows : List Export) : Sorted (rows.mergeSort Export.le) :=
  List.pairwise_mergeSort Export.le_trans Export.le_total rows

/-- Rows can be put in order in one way only. -/
theorem Sorted.eq_of_perm {rows rows' : List Export} (h : Sorted rows) (h' : Sorted rows')
    (hperm : rows.Perm rows') : rows = rows' :=
  hperm.eq_of_pairwise (fun _ _ _ _ => Export.le_antisymm) h h'

/-- Whether a row is about the unit with a given name and overload number. -/
def Export.isAbout (row : Export) (name : String) (overload : Nat) : Bool :=
  row.name == name && row.overload == overload

/-- What the registry says of a unit. -/
def exportsOf (a : Archive) (name : String) (overload : Nat) : List Export :=
  a.registry.filter (·.isAbout name overload)

/-- A row is about the unit that has its name and its overload number. -/
theorem Export.isAbout_iff {row : Export} :
    row.isAbout name overload = true ↔ row.name = name ∧ row.overload = overload := by
  rw [isAbout, Bool.and_eq_true, beq_iff_eq, beq_iff_eq]

theorem Export.isAbout_self (row : Export) : row.isAbout row.name row.overload = true :=
  isAbout_iff.2 ⟨rfl, rfl⟩

/-- Two registries that say the same of every unit have the same rows. -/
theorem perm_of_exportsOf
    (h : ∀ name overload, (a.exportsOf name overload).Perm (b.exportsOf name overload)) :
    a.registry.Perm b.registry := by
  refine List.perm_iff_count.2 fun row => ?_
  have hcount (c : Archive) : (c.exportsOf row.name row.overload).count row = c.registry.count row :=
    List.count_filter row.isAbout_self
  rw [← hcount a, ← hcount b]
  exact List.perm_iff_count.1 (h row.name row.overload) row

/-- The symbols that a unit is registered with. -/
structure Registration where
  name : String
  overload : Nat
  symbols : List String

namespace Registration

variable {r : Registration}

/-- Whether a registration is about the unit with a given name and overload number. -/
def isAbout (r : Registration) (name : String) (overload : Nat) : Bool :=
  r.name == name && r.overload == overload

/-- The rows of a registration. -/
def rows (r : Registration) : List Export := r.symbols.map (Export.mk r.name r.overload)

theorem isAbout_iff : r.isAbout name overload = true ↔ r.name = name ∧ r.overload = overload := by
  rw [isAbout, Bool.and_eq_true, beq_iff_eq, beq_iff_eq]

/-- The rows of a registration give its symbols to its unit, in their order. -/
theorem rows_of_isAbout (h : r.isAbout name overload = true) :
    r.rows = r.symbols.map (Export.mk name overload) := by
  obtain ⟨rfl, rfl⟩ := isAbout_iff.1 h
  rfl

/-- All rows of a registration are about its unit. -/
theorem filter_rows (r : Registration) (name : String) (overload : Nat) :
    r.rows.filter (·.isAbout name overload) = if r.isAbout name overload then r.rows else [] := by
  have hsame : ∀ row ∈ r.rows, row.isAbout name overload = r.isAbout name overload := by
    intro row hrow
    obtain ⟨symbol, -, rfl⟩ := List.mem_map.1 hrow
    rfl
  rw [List.filter_congr hsame]
  cases r.isAbout name overload <;> simp

/-- Without the rows of a registered unit, those of every other unit are left. -/
theorem filter_others (r : Registration) (rows : List Export) (name : String) (overload : Nat) :
    (rows.filter fun row => !row.isAbout r.name r.overload).filter (·.isAbout name overload) =
      if r.isAbout name overload then [] else rows.filter (·.isAbout name overload) := by
  rw [List.filter_filter]
  split
  · next h =>
    obtain ⟨rfl, rfl⟩ := isAbout_iff.1 h
    refine List.filter_eq_nil_iff.2 fun row _ => ?_
    simp
  · next h =>
    refine List.filter_congr fun row _ => ?_
    cases hrow : row.isAbout name overload with
    | false => rfl
    | true =>
      obtain ⟨rfl, rfl⟩ := Export.isAbout_iff.1 hrow
      have hother : row.isAbout r.name r.overload = false := by
        refine Bool.eq_false_iff.2 fun habout => h ?_
        obtain ⟨hname, hoverload⟩ := Export.isAbout_iff.1 habout
        exact isAbout_iff.2 ⟨hname.symm, hoverload.symm⟩
      rw [hother]
      rfl

end Registration

variable {r : Registration} {registrations : List Registration}

/-- The archive after one unit was registered. -/
def register (a : Archive) (r : Registration) : Archive :=
  a.updateRegistry r.name r.overload r.symbols

/-- A registration takes out the rows of its unit, adds its own at the end, and sorts. -/
theorem registry_register (a : Archive) (r : Registration) : (a.register r).registry =
    ((a.registry.filter fun row => !row.isAbout r.name r.overload) ++ r.rows).mergeSort
      Export.le := rfl

/-- A registration replaces the rows of its unit, and keeps those of every other unit. -/
theorem exportsOf_register (a : Archive) (r : Registration) (name : String) (overload : Nat) :
    ((a.register r).exportsOf name overload).Perm
      (if r.isAbout name overload then r.rows else a.exportsOf name overload) := by
  rw [exportsOf, registry_register]
  refine ((List.mergeSort_perm _ _).filter _).trans ?_
  rw [List.filter_append, r.filter_others, r.filter_rows]
  split
  · exact .refl _
  · rw [List.append_nil, exportsOf]

/-- The archive after some units were registered, one after the other. -/
def registerAll (a : Archive) (registrations : List Registration) : Archive :=
  registrations.foldl register a

/-- The last of some registrations of a unit. -/
def lastOf (registrations : List Registration) (name : String) (overload : Nat) :
    Option Registration :=
  (registrations.filter (·.isAbout name overload)).getLast?

@[simp] theorem registerAll_concat (a : Archive) (registrations : List Registration)
    (r : Registration) :
    a.registerAll (registrations ++ [r]) = (a.registerAll registrations).register r := by
  simp [registerAll, List.foldl_append]

/-- The last registration of a unit is the one at the end, if that is about the unit. -/
theorem lastOf_concat (registrations : List Registration) (r : Registration) (name : String)
    (overload : Nat) : lastOf (registrations ++ [r]) name overload =
      if r.isAbout name overload then some r else lastOf registrations name overload := by
  rw [lastOf, List.filter_append]
  split
  · next h => simp [h]
  · next h => simp [h, lastOf]

/-- A unit has no last registration exactly if it has none at all. -/
theorem lastOf_eq_none :
    lastOf registrations name overload = none ↔
      ∀ r ∈ registrations, r.isAbout name overload = false := by
  rw [lastOf, List.getLast?_eq_none_iff, List.filter_eq_nil_iff]
  simp only [Bool.not_eq_true]

/-- The last registration of a unit is about that unit. -/
theorem isAbout_of_lastOf (h : lastOf registrations name overload = some r) :
    r.isAbout name overload = true :=
  (List.mem_filter.1 (List.mem_of_getLast? h)).2

/-- The registry is in order as soon as anything was registered, whatever it was before. -/
theorem sorted_registerAll (a : Archive) (h : registrations ≠ []) :
    Sorted (a.registerAll registrations).registry := by
  rcases List.eq_nil_or_concat registrations with rfl | ⟨before, r, rfl⟩
  · exact absurd rfl h
  · rw [List.concat_eq_append, registerAll_concat, registry_register]
    exact sorted_mergeSort _

/-- Of a unit the registry has the rows of its last registration, or those that it had. -/
theorem exportsOf_registerAll (a : Archive) (registrations : List Registration) (name : String)
    (overload : Nat) : ((a.registerAll registrations).exportsOf name overload).Perm
      (match lastOf registrations name overload with
        | some r => r.rows
        | none => a.exportsOf name overload) := by
  induction registrations using List.reverseRecOn with
  | nil => exact .refl _
  | append_singleton registrations r ih =>
    rw [registerAll_concat, lastOf_concat]
    refine (exportsOf_register _ r name overload).trans ?_
    split
    · exact .refl _
    · exact ih

theorem registerAll_eq (a : Archive) (registrations : List Registration) :
    a.registerAll registrations = { a with registry := (a.registerAll registrations).registry } := by
  induction registrations using List.reverseRecOn with
  | nil => rfl
  | append_singleton registrations r ih =>
    rw [registerAll_concat, register, updateRegistry, ih]

/-- What some registrations make of an archive. -/
structure Registers (a : Archive) (registrations : List Registration) : Prop where
  sorted : Sorted (a.registerAll registrations).registry
  updated : ∀ name overload r, lastOf registrations name overload = some r →
    ((a.registerAll registrations).exportsOf name overload).Perm
      (r.symbols.map (Export.mk name overload))
  kept : ∀ name overload, (∀ r ∈ registrations, r.isAbout name overload = false) →
    ((a.registerAll registrations).exportsOf name overload).Perm (a.exportsOf name overload)
  /-- Of several registrations of a unit only the last one counts, and their order does not. -/
  alike : ∀ others,
    (∀ name overload, lastOf others name overload = lastOf registrations name overload) →
    a.registerAll others = a.registerAll registrations

/-- Registrations put the registry in order. Each unit has the rows of its last registration, or the
rows that it had, so that the last registrations tell what the registry is. -/
theorem registers_registerAll (a : Archive) (h : registrations ≠ []) :
    Registers a registrations where
  sorted := sorted_registerAll a h
  updated name overload r hlast := by
    have hrows := a.exportsOf_registerAll registrations name overload
    rw [hlast] at hrows
    rwa [← Registration.rows_of_isAbout (isAbout_of_lastOf hlast)]
  kept name overload hnone := by
    have hrows := a.exportsOf_registerAll registrations name overload
    rwa [lastOf_eq_none.2 hnone] at hrows
  alike others hlast := by
    have hothers : others ≠ [] := by
      rintro rfl
      obtain ⟨r, hr⟩ := List.exists_mem_of_ne_nil registrations h
      have hnone := lastOf_eq_none.1 (hlast r.name r.overload).symm r hr
      rw [Registration.isAbout_iff.2 ⟨rfl, rfl⟩] at hnone
      cases hnone
    have hperm : (a.registerAll others).registry.Perm (a.registerAll registrations).registry := by
      refine perm_of_exportsOf fun name overload => ?_
      have hrows := a.exportsOf_registerAll others name overload
      rw [hlast] at hrows
      exact hrows.trans (a.exportsOf_registerAll registrations name overload).symm
    rw [registerAll_eq, registerAll_eq a registrations,
      (sorted_registerAll a hothers).eq_of_perm (sorted_registerAll a h) hperm]

/-- An archive whose registry is out of order and has a row twice. -/
def looseArchive : Archive :=
  { empty with registry := [⟨"x", 0, "x"⟩, ⟨"lib", 1, "g"⟩, ⟨"x", 0, "x"⟩, ⟨"lib", 1, "f"⟩] }

/-- Two units are registered, and again after each of them has got another function. -/
def growingUnits : List Registration :=
  [⟨"y", 0, ["y"]⟩, ⟨"x", 0, ["x"]⟩, ⟨"y", 0, ["y", "help"]⟩, ⟨"x", 0, ["x", "help"]⟩]

/-- Two units that grow in turn, over a registry that is out of order and repeats a row. -/
theorem registers_growingUnits : growingUnits ≠ [] ∧ Registers looseArchive growingUnits :=
  ⟨List.cons_ne_nil _ _, registers_registerAll looseArchive (List.cons_ne_nil _ _)⟩

end ScriptBuild.Archive
