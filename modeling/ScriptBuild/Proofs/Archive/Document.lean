import ScriptBuild.Archive.Document
import ScriptBuild.Proofs.Json.RoundTrip

namespace ScriptBuild

open Json (Value)

namespace Archive

/-- A number is read back if it is below the bound of its field. -/
theorem nat?_ofNat (bound n : Nat) :
    Value.nat? bound (.ofNat n) = if n < bound then some n else none := by
  have hdigits : (Nat.toDigits 10 n).all Char.isDigit := List.all_eq_true.2 fun c hmem =>
    Nat.isDigit_of_mem_toDigits (by decide) (by decide) hmem
  have hvalue : (Nat.toDigits 10 n).foldl (fun n c => 10 * n + (c.toNat - '0'.toNat)) 0 = n :=
    Nat.ofDigitChars_toDigits (by decide) (by decide)
  rw [Value.ofNat, Value.nat?, if_pos hdigits, hvalue]

/-- A text is read back whatever its characters are, as the escapes that it is written with stand
for them again. -/
theorem string?_ofString (s : String) : (Value.ofString s).string? = some s := by
  simp [Value.ofString, Value.string?]

/-- What is written about some things is read back if all of them can be read. -/
theorem mapM_map {α : Type} {read : Value → Option α} {write : α → Value} (fits : α → Bool)
    (h : ∀ x, read (write x) = if fits x then some x else none) (xs : List α) :
    (xs.map write).mapM read = if xs.all fits then some xs else none := by
  induction xs with
  | nil => rfl
  | cons x xs ih =>
    rw [List.map_cons, List.mapM_cons, h, ih]
    cases hx : fits x <;> cases hxs : xs.all fits <;> simp [hx, hxs]

/-- A list of texts is read back from the array in which it is written. -/
theorem list_texts (names : List String) :
    list Value.string? (some (texts names)) = some names := by
  have hread (s : String) : (Value.ofString s).string? = if true then some s else none :=
    string?_ofString s
  have hall := mapM_map (fun _ => true) hread names
  rwa [List.all_eq_true.2 fun _ _ => rfl, if_pos rfl] at hall

/-- Tags are told apart by their written forms. -/
theorem tag?_ofString (tag : KindTag) : tag? (.ofString tag.text) = some tag := by
  have htext : tag? (.ofString tag.text) =
      (Value.ofString tag.text).string?.bind KindTag.ofText? := by
    rw [Value.ofString, tag?]
    simp
  rw [htext, string?_ofString]
  cases tag <;> rfl

/-- A path is read back, and so is that there is none, for which no field is written. -/
theorem path?_map (path : Option FilePath) :
    path? (path.map fun path => .ofString path.text) = some path := by
  cases path with
  | none => rfl
  | some path =>
    have htext := string?_ofString path.text
    rw [Value.ofString] at htext
    simp [path?, Value.ofString, htext]

/-- Whether the numbers of a dependency fit. -/
def Dependency.fits (d : Dependency) : Bool := d.overload < small

/-- Whether the numbers of a row fit. -/
def Row.fits (row : Row) : Bool :=
  row.overload < small && row.timestamp < large && row.dependencies.all Dependency.fits

/-- Whether the numbers of a row of the registry fit. -/
def Export.fits (row : Export) : Bool := row.overload < small

/-- Whether the numbers of an archive fit. -/
def fits (a : Archive) : Bool :=
  a.version < small && a.units.all Row.fits && a.registry.all Export.fits

/-- A dependency is read back if its numbers fit, and refused otherwise. -/
theorem Dependency.ofValue?_toValue (d : Dependency) :
    Dependency.ofValue? d.toValue = if d.fits then some d else none := by
  have hfields : fields? ["name", "overload_id", "symbols"] d.toValue =
      some [some (.ofString d.name), some (.ofNat d.overload), some (texts d.symbols)] := by
    simp [fields?, Dependency.toValue, member, valuesOf]
  rw [Dependency.ofValue?, hfields]
  by_cases hoverload : d.overload < small <;>
    simp [required, string?_ofString, nat?_ofNat, list_texts, fits, hoverload]

/-- A row of the registry is read back if its numbers fit, and refused otherwise. -/
theorem Export.ofValue?_toValue (row : Export) :
    Export.ofValue? row.toValue = if row.fits then some row else none := by
  have hfields : fields? ["name", "overload_id", "symbol"] row.toValue =
      some [some (.ofString row.name), some (.ofNat row.overload),
        some (.ofString row.symbol)] := by
    simp [fields?, Export.toValue, member, valuesOf]
  rw [Export.ofValue?, hfields]
  by_cases hoverload : row.overload < small <;>
    simp [required, string?_ofString, nat?_ofNat, fits, hoverload]

/-- The fields of a row are found in its object under their keys. -/
theorem Row.fields?_toValue (row : Row) :
    fields? ["name", "overload_id", "path", "timestamp", "kind", "local_slots", "dependencies",
      "unresolved"] row.toValue =
      some [some (.ofString row.name), some (.ofNat row.overload),
        row.path.map fun path => .ofString path.text, some (.ofNat row.timestamp),
        some (.ofString row.tag.text), some (texts row.slots),
        some (.array (row.dependencies.map Dependency.toValue)), some (texts row.unresolved)] := by
  cases hpath : row.path <;> simp [fields?, Row.toValue, member, valuesOf, hpath]

/-- The row of a unit is read back if its numbers and those of its dependencies fit, and refused
otherwise. -/
theorem Row.ofValue?_toValue (row : Row) :
    Row.ofValue? row.toValue = if row.fits then some row else none := by
  have hdependencies : list Dependency.ofValue?
      (some (.array (row.dependencies.map Dependency.toValue))) =
      if row.dependencies.all Dependency.fits then some row.dependencies else none :=
    mapM_map Dependency.fits Dependency.ofValue?_toValue row.dependencies
  rw [Row.ofValue?, Row.fields?_toValue]
  by_cases hoverload : row.overload < small <;> by_cases htime : row.timestamp < large <;>
    cases hall : row.dependencies.all Dependency.fits <;>
    simp [required, string?_ofString, nat?_ofNat, list_texts, tag?_ofString, path?_map,
      hdependencies, fits, hoverload, htime, hall]

/-- An archive is read back from its value exactly if all its numbers fit. -/
theorem ofValue?_toValue (a : Archive) : ofValue? a.toValue = if a.fits then some a else none := by
  have hfields : fields? ["version", "units", "registry"] a.toValue =
      some [some (.ofNat a.version), some (.array (a.units.map Row.toValue)),
        some (.array (a.registry.map Export.toValue))] := by
    simp [fields?, toValue, member, valuesOf]
  have hunits : list Row.ofValue? (some (.array (a.units.map Row.toValue))) =
      if a.units.all Row.fits then some a.units else none :=
    mapM_map Row.fits Row.ofValue?_toValue a.units
  have hregistry : list Export.ofValue? (some (.array (a.registry.map Export.toValue))) =
      if a.registry.all Export.fits then some a.registry else none :=
    mapM_map Export.fits Export.ofValue?_toValue a.registry
  rw [ofValue?, hfields]
  by_cases hversion : a.version < small <;> cases hrows : a.units.all Row.fits <;>
    cases hexports : a.registry.all Export.fits <;>
    simp [required, nat?_ofNat, hunits, hregistry, fits, hversion, hrows, hexports]

theorem plain_texts (names : List String) : (texts names).Plain := by
  refine .array _ fun v hmem => ?_
  obtain ⟨name, _, rfl⟩ := List.mem_map.1 hmem
  exact .text _

/-- An object whose members are written under their keys. -/
theorem plain_object {members : List (List Char × Value)}
    (h : ∀ m ∈ members, ∃ key v, m = member key v ∧ v.Plain) : (Value.object members).Plain := by
  refine .object _ (fun m hmem => ?_) fun m hmem => ?_
  · obtain ⟨key, v, rfl, _⟩ := h m hmem
    exact ⟨key.toList, rfl⟩
  · obtain ⟨key, v, rfl, hplain⟩ := h m hmem
    exact hplain

theorem Dependency.plain_toValue (d : Dependency) : d.toValue.Plain := by
  refine plain_object ?_
  simp only [List.forall_mem_cons, List.not_mem_nil, false_imp_iff, implies_true, and_true]
  exact ⟨⟨_, _, rfl, .text _⟩, ⟨_, _, rfl, .number _⟩, ⟨_, _, rfl, plain_texts _⟩⟩

theorem Export.plain_toValue (row : Export) : row.toValue.Plain := by
  refine plain_object ?_
  simp only [List.forall_mem_cons, List.not_mem_nil, false_imp_iff, implies_true, and_true]
  exact ⟨⟨_, _, rfl, .text _⟩, ⟨_, _, rfl, .number _⟩, ⟨_, _, rfl, .text _⟩⟩

theorem plain_map {α : Type} {write : α → Value} (h : ∀ x, (write x).Plain) (xs : List α) :
    (Value.array (xs.map write)).Plain := by
  refine .array _ fun v hmem => ?_
  obtain ⟨x, _, rfl⟩ := List.mem_map.1 hmem
  exact h x

/-- The object of a row has each of its keys once. -/
theorem Row.plain_toValue (row : Row) : row.toValue.Plain := by
  refine plain_object ?_
  simp only [List.forall_mem_append, List.forall_mem_cons, List.not_mem_nil, false_imp_iff,
    implies_true, and_true, Option.mem_toList, Option.map_eq_some_iff]
  refine ⟨⟨⟨⟨_, _, rfl, .text _⟩, ⟨_, _, rfl, .number _⟩⟩, ?_⟩, ⟨_, _, rfl, .number _⟩,
    ⟨_, _, rfl, .text _⟩, ⟨_, _, rfl, plain_texts _⟩,
    ⟨_, _, rfl, plain_map Dependency.plain_toValue _⟩, ⟨_, _, rfl, plain_texts _⟩⟩
  rintro _ ⟨path, _, rfl⟩
  exact ⟨_, _, rfl, .text _⟩

/-- The object of an archive has each of its keys once, at all levels, so that reading what is
printed gives the object itself. -/
theorem plain_toValue (a : Archive) : a.toValue.Plain := by
  refine plain_object ?_
  simp only [List.forall_mem_cons, List.not_mem_nil, false_imp_iff, implies_true, and_true]
  exact ⟨⟨_, _, rfl, .number _⟩, ⟨_, _, rfl, plain_map Row.plain_toValue _⟩,
    ⟨_, _, rfl, plain_map Export.plain_toValue _⟩⟩

/-- An archive is read back from its document exactly if its numbers fit. -/
theorem parse?_document (a : Archive) : parse? a.document = if a.fits then some a else none := by
  rw [parse?, document, Value.parse?_document (plain_toValue a), Option.bind_some, ofValue?_toValue]

/-- An archive of the current version is read back from its document. One with a number that does
not fit is taken for the archive of no units. -/
theorem parseOrEmpty_document (a : Archive) (hversion : a.version = formatVersion) :
    parseOrEmpty a.document = if a.fits then a else empty := by
  rw [parseOrEmpty, parse?_document]
  cases a.fits <;> simp [hversion]

end Archive

end ScriptBuild
