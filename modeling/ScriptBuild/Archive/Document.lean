import ScriptBuild.Archive.Basic
import ScriptBuild.Json.Printer
import ScriptBuild.Json.Reader

namespace ScriptBuild

open Json (Value)

namespace Archive

/-- The values under a key among the members of an object. -/
def valuesOf (key : String) (members : List (String × Value)) : List Value :=
  (members.filter fun m => m.1 == key).map (·.2)

/-- The fields of a record, none for one that is not given. A record is an object, or an array of
    its fields in their order. Fields that nobody knows are passed over, and a field that is given
    twice is refused. -/
def fields? (names : List String) : Value → Option (List (Option Value))
  | .array items =>
    if items.length ≤ names.length then
      some (items.map some ++ List.replicate (names.length - items.length) none)
    else none
  | .object members => do
    let members ← members.mapM fun (key, v) =>
      (Json.Text.decode key).map fun key => (String.ofList key, v)
    names.mapM fun name =>
      match valuesOf name members with
      | [] => some none
      | [v] => some (some v)
      | _ => none
  | _ => none

/-- A field that has to be given. -/
def required (read : Value → Option α) (v : Option Value) : Option α := v.bind read

/-- A list that is empty if the field is not given. -/
def list (read : Value → Option α) : Option Value → Option (List α)
  | none => some []
  | some v => v.items?.bind fun items => items.mapM read

/-- A path, which may be missing or null. -/
def path? : Option Value → Option (Option FilePath)
  | none | some .null => some none
  | some v => v.string?.map fun text => some ⟨text⟩

/-- The numbers of 32 bits, which versions and overload numbers are. -/
def small : Nat := 0x100000000

/-- The numbers of 64 bits, which timestamps are. -/
def large : Nat := 0x10000000000000000

/-- A tag: its written form, or an object with that form as its only key and null under it. -/
def tag? : Value → Option KindTag
  | .object [(key, .null)] => (Json.Text.decode key).bind fun k => KindTag.ofText? (String.ofList k)
  | v => v.string?.bind KindTag.ofText?

/-- Reads the imports from one unit. -/
def Dependency.ofValue? (v : Value) : Option Dependency := do
  match ← fields? ["name", "overload_id", "symbols"] v with
  | [name, overload, symbols] =>
    some ⟨← required Value.string? name, ← required (Value.nat? small) overload,
      ← required (fun v => list Value.string? (some v)) symbols⟩
  | _ => none

/-- Reads the row of a unit. -/
def Row.ofValue? (v : Value) : Option Row := do
  match ← fields? ["name", "overload_id", "path", "timestamp", "kind", "local_slots",
      "dependencies", "unresolved"] v with
  | [name, overload, path, timestamp, kind, slots, dependencies, unresolved] =>
    some ⟨← required Value.string? name, ← required (Value.nat? small) overload, ← path? path,
      ← required (Value.nat? large) timestamp, ← required tag? kind, ← list Value.string? slots,
      ← list Dependency.ofValue? dependencies, ← list Value.string? unresolved⟩
  | _ => none

/-- Reads a row of the registry. -/
def Export.ofValue? (v : Value) : Option Export := do
  match ← fields? ["name", "overload_id", "symbol"] v with
  | [name, overload, symbol] =>
    some ⟨← required Value.string? name, ← required (Value.nat? small) overload,
      ← required Value.string? symbol⟩
  | _ => none

/-- Reads an archive of any version. -/
def ofValue? (v : Value) : Option Archive := do
  match ← fields? ["version", "units", "registry"] v with
  | [version, units, registry] =>
    some ⟨← required (Value.nat? small) version, ← list Row.ofValue? units,
      ← list Export.ofValue? registry⟩
  | _ => none

/-- The archive that a document holds, of any version; none if it is malformed. -/
def parse? (document : String) : Option Archive := (Value.parse? document).bind ofValue?

/-- The archive that a document holds. A document that is malformed or of another version counts as
    the archive of no units. -/
def parseOrEmpty (document : String) : Archive :=
  match parse? document with
  | some a => if a.version == formatVersion then a else empty
  | none => empty

/-- A member of an object. -/
def member (key : String) (v : Value) : List Char × Value := (Json.Text.encode key.toList, v)

/-- An array of texts. -/
def texts (names : List String) : Value := .array (names.map Value.ofString)

/-- The value of the imports from one unit. -/
def Dependency.toValue (d : Dependency) : Value :=
  .object [member "name" (.ofString d.name), member "overload_id" (.ofNat d.overload),
    member "symbols" (texts d.symbols)]

/-- The value of the row of a unit. There is no field for a path that is missing. -/
def Row.toValue (row : Row) : Value :=
  .object (
    [member "name" (.ofString row.name), member "overload_id" (.ofNat row.overload)] ++
    (row.path.map fun path => member "path" (.ofString path.text)).toList ++
    [member "timestamp" (.ofNat row.timestamp), member "kind" (.ofString row.tag.text),
      member "local_slots" (texts row.slots),
      member "dependencies" (.array (row.dependencies.map Dependency.toValue)),
      member "unresolved" (texts row.unresolved)])

/-- The value of a row of the registry. -/
def Export.toValue (row : Export) : Value :=
  .object [member "name" (.ofString row.name), member "overload_id" (.ofNat row.overload),
    member "symbol" (.ofString row.symbol)]

/-- The value of an archive. It is an object, whose fields stand in their order, as are all records
    that are written. -/
def toValue (a : Archive) : Value :=
  .object [member "version" (.ofNat a.version), member "units" (.array (a.units.map Row.toValue)),
    member "registry" (.array (a.registry.map Export.toValue))]

/-- The document of an archive. -/
def document (a : Archive) : String := a.toValue.document

end Archive

namespace Program

/-- The document that keeps a program. -/
def save (p : Program) : String := (Archive.ofProgram p).document

/-- The program that a document keeps. -/
def restore (document : String) : Program := (Archive.parseOrEmpty document).toProgram

end Program

end ScriptBuild
