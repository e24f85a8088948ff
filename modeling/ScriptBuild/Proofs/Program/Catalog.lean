import ScriptBuild.BuildUnit.Catalog
import ScriptBuild.Proofs.FilePath

namespace ScriptBuild

/-- Two kinds are the same if their tags are, and the components of their paths. -/
theorem UnitKind.same_iff {a b : UnitKind} : a.same b ↔
    a.tag = b.tag ∧ a.path?.map FilePath.components = b.path?.map FilePath.components := by
  rw [UnitKind.same, Bool.and_eq_true, beq_iff_eq, FilePath.sameOption_iff]

/-- What tells a definition of a name from the others: its kind, the components of its path, and the
    time of something ephemeral. -/
structure Identity where
  tag : KindTag
  path : Option (List FilePath.Component)
  time : Option Nat
deriving DecidableEq

/-- What identifies the units that a kind and a time describe. -/
def UnitKind.identity (kind : UnitKind) (timestamp : Nat) : Identity where
  tag := kind.tag
  path := kind.path?.map FilePath.components
  time := if kind.isEphemeral then some timestamp else none

/-- What identifies a unit among those of its name. -/
def BuildUnit.identity (u : BuildUnit) : Identity := u.kind.identity u.timestamp

/-- Whether the time of its creation identifies a unit is told by the tag. -/
theorem UnitKind.isEphemeral_eq_of_tag {a b : UnitKind} (htag : a.tag = b.tag) :
    a.isEphemeral = b.isEphemeral := by
  cases a <;> cases b <;> simp_all [UnitKind.tag, UnitKind.isEphemeral]

/-- Whether a unit is a shared table is told by the tag. -/
theorem UnitKind.isSharedTable_eq_of_tag {a b : UnitKind} (htag : a.tag = b.tag) :
    a.isSharedTable = b.isSharedTable := by
  cases a <;> cases b <;> simp_all [UnitKind.tag, UnitKind.isSharedTable]

/-- Whether a unit is a file is told by the tag. -/
theorem UnitKind.isFile_eq_of_tag {a b : UnitKind} (htag : a.tag = b.tag) :
    a.isFile = b.isFile := by
  cases a <;> cases b <;> simp_all [UnitKind.tag, UnitKind.isFile, UnitKind.path?]

/-- Whether a unit has a body is told by the tag. -/
theorem UnitKind.hasBody_eq_of_tag {a b : UnitKind} (htag : a.tag = b.tag) :
    a.hasBody = b.hasBody := by
  cases a <;> cases b <;> simp_all [UnitKind.tag, UnitKind.hasBody]

/-- What is neither a table nor ephemeral is a file. -/
theorem UnitKind.isFile_of_not {kind : UnitKind} (htable : kind.isSharedTable = false)
    (hephemeral : kind.isEphemeral = false) : kind.isFile = true := by
  cases kind <;> simp_all [UnitKind.isSharedTable, UnitKind.isEphemeral, UnitKind.isFile,
    UnitKind.path?]

theorem UnitKind.isSharedTable_of_hasBody {kind : UnitKind} (hbody : kind.hasBody) :
    kind.isSharedTable = false := by
  cases kind <;> simp_all [UnitKind.hasBody, UnitKind.isSharedTable]

/-- The time of a file does not identify it. -/
theorem UnitKind.isEphemeral_of_isFile {kind : UnitKind} (hfile : kind.isFile) :
    kind.isEphemeral = false := by
  cases kind <;> simp_all [UnitKind.isFile, UnitKind.path?, UnitKind.isEphemeral]

/-- A definition denotes the units of its identity. -/
theorem Catalog.denotes_iff {kind : UnitKind} {timestamp : Nat} {u : BuildUnit} :
    Catalog.denotes kind timestamp u ↔ u.identity = kind.identity timestamp := by
  rw [Catalog.denotes, Bool.and_eq_true, beq_iff_eq, BuildUnit.identity, UnitKind.identity,
    UnitKind.identity, Identity.mk.injEq]
  refine and_congr_right fun htag => ?_
  rw [UnitKind.isEphemeral_eq_of_tag htag]
  generalize hkind : u.kind = k at htag ⊢
  cases kind <;> cases k <;> simp_all [UnitKind.tag, UnitKind.isSharedTable, UnitKind.isEphemeral,
    UnitKind.path?, FilePath.sameOption, FilePath.same_iff]

namespace Catalog

variable {c d e : Catalog} {id other : Nat} {u v : BuildUnit} {name : String} {kind : UnitKind}
  {timestamp : Nat} {body : Option Body} {f : BuildUnit → BuildUnit}

theorem isSome_get?_iff : (c.get? id).isSome ↔ id < c.size := by
  simp [get?, size]

theorem lt_size_of_get? (hget : c.get? id = some u) : id < c.size :=
  isSome_get?_iff.1 (by rw [hget]; rfl)

/-- Every number below the size is that of a unit. -/
theorem exists_get? (hlt : id < c.size) : ∃ u, c.get? id = some u :=
  Option.isSome_iff_exists.1 (isSome_get?_iff.2 hlt)

theorem get?_eq_none (h : c.size ≤ id) : c.get? id = none := by
  rw [← Option.not_isSome_iff_eq_none, isSome_get?_iff]
  exact Nat.not_lt_of_le h

theorem get?_size : c.get? c.size = none := by simp [get?, size]

@[simp] theorem size_push : (c.push u).size = c.size + 1 := by simp [push, size]

@[simp] theorem size_insert : (c.insert name kind timestamp body).size = c.size + 1 := by
  simp [insert]

@[simp] theorem size_modify : (c.modify id f).size = c.size := by simp [modify, size]

/-- A unit that is added gets the next number. -/
theorem get?_push : (c.push u).get? id = if id = c.size then some u else c.get? id :=
  Array.getElem?_push

/-- A unit that is inserted gets the next number, and an overload number that is new for its
name. -/
theorem get?_insert : (c.insert name kind timestamp body).get? id =
    if id = c.size then some ⟨name, c.nextOverload name, kind, timestamp, body, []⟩
    else c.get? id := get?_push

theorem with_name (hname : ∀ u, (f u).name = u.name) :
    (fun u => { f u with name := u.name }) = f := funext fun u => by rw [← hname u]

/-- A change of one unit changes all of it but the name. -/
theorem get?_modify_eq : (c.modify id f).get? other =
    if id = other then (c.get? other).map fun u => { f u with name := u.name } else c.get? other := by
  simp [modify, get?, Array.getElem?_modify]

/-- A change that keeps names is made to one unit. -/
theorem get?_modify (hname : ∀ u, (f u).name = u.name) : (c.modify id f).get? other =
    if id = other then (c.get? other).map f else c.get? other := by
  rw [get?_modify_eq, with_name hname]

theorem get?_modify_self (hname : ∀ u, (f u).name = u.name) :
    (c.modify id f).get? id = (c.get? id).map f := by
  rw [get?_modify hname, if_pos rfl]

/-- A unit that is changed is what the change makes of it. -/
theorem get?_modify_of_get? (hget : c.get? id = some u) (hname : (f u).name = u.name) :
    (c.modify id f).get? id = some (f u) := by
  rw [get?_modify_eq, if_pos rfl, hget, Option.map_some, ← hname]

theorem get?_modify_of_ne (hne : id ≠ other) : (c.modify id f).get? other = c.get? other := by
  simp [get?_modify_eq, hne]

theorem ext_units (hunits : c.units = d.units) : c = d := by
  obtain ⟨units, byName, hlisted, hproper⟩ := c
  obtain ⟨_, byName', hlisted', hproper'⟩ := d
  obtain rfl : units = _ := hunits
  suffices h : byName = byName' by subst h; rfl
  refine Std.ExtTreeMap.ext_getElem? fun name => ?_
  have hsame := (hlisted name).trans (hlisted' name).symm
  have hsome := hproper name
  have hsome' := hproper' name
  rw [Std.ExtTreeMap.getD_eq_getD_getElem?, Std.ExtTreeMap.getD_eq_getD_getElem?] at hsame
  cases hthis : byName[name]? <;> cases hother : byName'[name]? <;> simp_all

theorem ext_get? (hget : ∀ id, c.get? id = d.get? id) : c = d :=
  ext_units (Array.ext_getElem? hget)

/-- A change that leaves a unit as it is changes nothing. -/
theorem modify_eq_self (hunit : ∀ u, c.get? id = some u → f u = u) : c.modify id f = c := by
  refine ext_get? fun other => ?_
  rw [get?_modify_eq]
  split
  · next heq =>
    subst heq
    cases hget : c.get? id with
    | none => rfl
    | some u => rw [Option.map_some, hunit u hget]
  · rfl

/-- A change of all units is made to each of them. -/
theorem get?_map (hname : ∀ u, (f u).name = u.name) :
    (c.map f).get? id = (c.get? id).map f := by
  simp only [get?, map, Array.getElem?_map, with_name hname]

@[simp] theorem size_map : (c.map f).size = c.size := by simp [map, size]

/-- The index lists exactly the units that have the name. -/
theorem overloads_eq_filter : c.overloads name =
    c.ids.filter fun id => (c.get? id).any (·.name == name) := c.listed name

/-- The overloads of a name are the units with that name. -/
theorem mem_overloads : id ∈ c.overloads name ↔ ∃ u, c.get? id = some u ∧ u.name = name := by
  rw [overloads_eq_filter, ids, List.mem_filter, List.mem_range, Option.any_eq_true]
  simp only [beq_iff_eq]
  exact ⟨fun h => h.2, fun ⟨u, hget, hname⟩ => ⟨lt_size_of_get? hget, u, hget, hname⟩⟩

/-- A unit has a name, and is what a kind and a time describe. -/
def Describes (c : Catalog) (name : String) (kind : UnitKind) (timestamp : Nat) (id : Nat) : Prop :=
  ∃ u, c.get? id = some u ∧ u.name = name ∧ u.identity = kind.identity timestamp

theorem Describes.lt_size (h : c.Describes name kind timestamp id) : id < c.size := by
  obtain ⟨u, hget, _⟩ := h
  exact lt_size_of_get? hget

/-- Whether a unit is described can be looked up. -/
theorem describes_iff : c.Describes name kind timestamp id ↔
    ((c.get? id).any (·.name == name) && (c.get? id).any (denotes kind timestamp)) = true := by
  cases hget : c.get? id with
  | none => simp [Describes, hget]
  | some u => simp [Describes, hget, denotes_iff]

/-- The unit that a definition denotes is the first one that it describes. -/
theorem findMatch_eq_find? : c.findMatch name kind timestamp = (List.range c.size).find? fun id =>
    (c.get? id).any (·.name == name) && (c.get? id).any (denotes kind timestamp) := by
  simp only [findMatch, overloads_eq_filter, ids, List.find?_filter, Bool.decide_and, Bool.decide_eq_true]

/-- A definition denotes the first unit of its name that it describes. -/
theorem findMatch_eq_some_iff : c.findMatch name kind timestamp = some id ↔
    c.Describes name kind timestamp id ∧ ∀ other < id, ¬ c.Describes name kind timestamp other := by
  rw [findMatch_eq_find?, List.find?_range_eq_some, ← describes_iff, List.mem_range]
  simp only [describes_iff, Bool.not_eq_true', Bool.not_eq_true]
  exact and_congr_right fun hthis => and_iff_right (describes_iff.2 hthis).lt_size

/-- A definition denotes nothing if it describes no unit. -/
theorem findMatch_eq_none_iff : c.findMatch name kind timestamp = none ↔
    ∀ id, ¬ c.Describes name kind timestamp id := by
  rw [findMatch_eq_find?, List.find?_eq_none]
  simp only [List.mem_range, ← describes_iff]
  exact ⟨fun h id hid => h id hid.lt_size hid, fun h id _ => h id⟩

/-- A definition describes the unit that it denotes. -/
theorem describes_of_findMatch (hmatch : c.findMatch name kind timestamp = some id) :
    c.Describes name kind timestamp id := (findMatch_eq_some_iff.1 hmatch).1

/-- Definitions of one identity denote the same unit. -/
theorem findMatch_of_identity {kind' : UnitKind} {timestamp' : Nat}
    (heq : kind.identity timestamp = kind'.identity timestamp') :
    c.findMatch name kind timestamp = c.findMatch name kind' timestamp' := by
  refine Option.ext fun id => ?_
  rw [findMatch_eq_some_iff, findMatch_eq_some_iff]
  simp only [Describes, heq]

end Catalog

/-- A unit may become another one in the course of a run: it keeps what names and identifies it, it
gets no older and does not lose its body, and a shared table does not lose slots. -/
structure BuildUnit.Becomes (u v : BuildUnit) : Prop where
  name : v.name = u.name
  overload : v.overload = u.overload
  kind : v.kind = u.kind
  identity : v.identity = u.identity
  timestamp : u.timestamp ≤ v.timestamp
  body : u.body.isSome → v.body.isSome
  slots : u.kind.isSharedTable → ∀ slot ∈ u.slots, slot ∈ v.slots

theorem BuildUnit.Becomes.refl (u : BuildUnit) : u.Becomes u :=
  ⟨rfl, rfl, rfl, rfl, Nat.le_refl _, id, fun _ _ => id⟩

theorem BuildUnit.Becomes.trans {u v w : BuildUnit} (huv : u.Becomes v) (hvw : v.Becomes w) :
    u.Becomes w where
  name := hvw.name.trans huv.name
  overload := hvw.overload.trans huv.overload
  kind := hvw.kind.trans huv.kind
  identity := hvw.identity.trans huv.identity
  timestamp := Nat.le_trans huv.timestamp hvw.timestamp
  body h := hvw.body (huv.body h)
  slots htable slot hslot := hvw.slots (huv.kind ▸ htable) slot (huv.slots htable slot hslot)

namespace BuildUnit

variable {u : BuildUnit} {slot : String} {slots : List String}

theorem hasSlot_addSlot {other : String} :
    (u.addSlot slot).hasSlot other ↔ other = slot ∨ u.hasSlot other := by
  rw [addSlot]
  split
  · next hslot => rw [iff_or_self]; rintro rfl; exact hslot
  · simp [hasSlot, or_comm]

theorem becomes_addSlot : u.Becomes (u.addSlot slot) := by
  rw [addSlot]
  split
  · exact .refl u
  · exact ⟨rfl, rfl, rfl, rfl, Nat.le_refl _, id, fun _ _ => by simp +contextual⟩

theorem becomes_foldl_addSlot (slots : List String) (u : BuildUnit) :
    u.Becomes (slots.foldl addSlot u) := by
  induction slots generalizing u with
  | nil => exact .refl u
  | cons slot slots ih => exact becomes_addSlot.trans (ih _)

theorem hasSlot_foldl_addSlot (slots : List String) (u : BuildUnit) {other : String} :
    (slots.foldl addSlot u).hasSlot other ↔ other ∈ slots ∨ u.hasSlot other := by
  induction slots generalizing u with
  | nil => simp
  | cons slot slots ih => rw [List.foldl_cons, ih, hasSlot_addSlot, List.mem_cons]; tauto

end BuildUnit

namespace Catalog

variable {c d e : Catalog} {id : Nat} {u v : BuildUnit} {name : String} {kind : UnitKind}
  {timestamp : Nat} {body : Option Body} {f : BuildUnit → BuildUnit}

/-- A catalog grows into another one: every unit stays at its number and becomes what is there. -/
def Grows (c d : Catalog) : Prop :=
  ∀ id u, c.get? id = some u → ∃ v, d.get? id = some v ∧ u.Becomes v

theorem Grows.refl (c : Catalog) : c.Grows c := fun _ u hget => ⟨u, hget, .refl u⟩

theorem Grows.trans (hcd : c.Grows d) (hde : d.Grows e) : c.Grows e := by
  intro id u hget
  obtain ⟨v, hv, huv⟩ := hcd id u hget
  obtain ⟨w, hw, hvw⟩ := hde id v hv
  exact ⟨w, hw, huv.trans hvw⟩

/-- What is at a number becomes what is there later. -/
theorem Grows.becomes (hgrows : c.Grows d) (hu : c.get? id = some u) (hv : d.get? id = some v) :
    u.Becomes v := by
  obtain ⟨w, hw, huw⟩ := hgrows id u hu
  obtain rfl : w = v := Option.some.inj (hw.symm.trans hv)
  exact huw

theorem Grows.size_le (hgrows : c.Grows d) : c.size ≤ d.size := by
  by_contra hnot
  have hlt : d.size < c.size := by omega
  obtain ⟨u, hget⟩ := exists_get? hlt
  obtain ⟨v, hv, _⟩ := hgrows _ u hget
  rw [get?_size] at hv
  cases hv

/-- A catalog grows when a unit is added. -/
theorem grows_push : c.Grows (c.push u) := by
  intro id v hget
  have hlt := lt_size_of_get? hget
  exact ⟨v, by rw [get?_push, if_neg (by omega), hget], .refl v⟩

/-- So it does when one is inserted. -/
theorem grows_insert : c.Grows (c.insert name kind timestamp body) := grows_push

/-- So it does when one becomes another one. -/
theorem grows_modify (hunit : ∀ u, c.get? id = some u → u.Becomes (f u)) :
    c.Grows (c.modify id f) := by
  intro other u hget
  rw [get?_modify_eq]
  split
  · next heq =>
    subst heq
    have hbecomes := hunit u hget
    exact ⟨f u, by rw [hget, Option.map_some, ← hbecomes.name], hbecomes⟩
  · exact ⟨u, hget, .refl u⟩

/-- A known unit is described by the same definitions ever after. -/
theorem Grows.describes_iff (hgrows : c.Grows d) (hlt : id < c.size) :
    d.Describes name kind timestamp id ↔ c.Describes name kind timestamp id := by
  obtain ⟨u, hu⟩ := exists_get? hlt
  obtain ⟨v, hv, huv⟩ := hgrows id u hu
  simp only [Describes, hu, hv, Option.some.injEq, exists_eq_left', huv.name, huv.identity]

/-- What a definition denotes it denotes forever. -/
theorem Grows.findMatch (hgrows : c.Grows d) (hmatch : c.findMatch name kind timestamp = some id) :
    d.findMatch name kind timestamp = some id := by
  rw [findMatch_eq_some_iff] at hmatch ⊢
  have hlt := hmatch.1.lt_size
  refine ⟨(hgrows.describes_iff hlt).2 hmatch.1, fun other hother hdescribes => ?_⟩
  exact hmatch.2 other hother ((hgrows.describes_iff (Nat.lt_trans hother hlt)).1 hdescribes)

/-- A unit that is added because nothing is denoted yet is what is denoted from then on. -/
theorem findMatch_insert (hmatch : c.findMatch name kind timestamp = none) :
    (c.insert name kind timestamp body).findMatch name kind timestamp = some c.size := by
  rw [findMatch_eq_none_iff] at hmatch
  rw [findMatch_eq_some_iff]
  refine ⟨⟨_, by rw [get?_insert, if_pos rfl], rfl, rfl⟩, fun other hlt hdescribes => ?_⟩
  exact hmatch other ((grows_insert.describes_iff hlt).1 hdescribes)

end Catalog

end ScriptBuild
