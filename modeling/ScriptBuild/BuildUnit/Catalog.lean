import ScriptBuild.BuildUnit.Basic
import Std.Data.ExtTreeMap

namespace ScriptBuild

/-- The positions of the units of a name. -/
def BuildUnit.positions (units : Array BuildUnit) (name : String) : List Nat :=
  (List.range units.size).filter fun id => units[id]?.any (·.name == name)

theorem BuildUnit.positions_push {units : Array BuildUnit} {u : BuildUnit} {name : String} :
    positions (units.push u) name =
      positions units name ++ if u.name = name then [units.size] else [] := by
  have hold : (List.range units.size).filter (fun id => (units.push u)[id]?.any (·.name == name)) =
      positions units name := by
    refine List.filter_congr fun id hid => ?_
    rw [Array.getElem?_push, if_neg (Nat.ne_of_lt (List.mem_range.1 hid))]
  rw [positions, Array.size_push, List.range_succ, List.filter_append, hold, List.filter_cons,
    Array.getElem?_push_size]
  simp

theorem BuildUnit.positions_of_names {units others : Array BuildUnit} {name : String}
    (hnames : ∀ id : Nat, (others[id]?).map BuildUnit.name = (units[id]?).map BuildUnit.name) :
    positions others name = positions units name := by
  have hsize : others.size = units.size := by
    refine Nat.le_antisymm (Nat.le_of_not_lt fun hlt => ?_) (Nat.le_of_not_lt fun hlt => ?_)
    · simpa [hlt] using hnames units.size
    · simpa [hlt] using hnames others.size
  rw [positions, positions, hsize]
  refine List.filter_congr fun id _ => ?_
  have hname := hnames id
  cases hother : others[id]? <;> cases hunit : units[id]? <;> simp_all

/-- All units that were ever discovered, numbered in the order of their discovery, with an index by
name. The number of a unit is its position. -/
structure Catalog where
  units : Array BuildUnit
  /-- The numbers of the units of each name, in the order of their discovery. -/
  byName : Std.ExtTreeMap String (List Nat)
  listed : ∀ name : String, byName.getD name [] = BuildUnit.positions units name
  proper : ∀ name : String, byName[name]? ≠ some []
deriving DecidableEq

namespace Catalog

/-- No units. -/
def empty : Catalog where
  units := #[]
  byName := ∅
  listed _ := by simp [BuildUnit.positions]
  proper _ := by simp

instance : Inhabited Catalog := ⟨empty⟩

/-- The number of units. -/
def size (c : Catalog) : Nat := c.units.size

/-- The unit with a given number. -/
def get? (c : Catalog) (id : Nat) : Option BuildUnit := c.units[id]?

/-- The numbers of all units. -/
def ids (c : Catalog) : List Nat := List.range c.size

/-- The units of one name, in the order of their discovery. -/
def overloads (c : Catalog) (name : String) : List Nat := c.byName.getD name []

/-- Adds a unit at the end, and lists it under its name. -/
def push (c : Catalog) (u : BuildUnit) : Catalog where
  units := c.units.push u
  byName := c.byName.insert u.name (c.overloads u.name ++ [c.size])
  listed name := by
    rw [Std.ExtTreeMap.getD_insert, BuildUnit.positions_push, ← c.listed, overloads, size]
    by_cases hname : u.name = name <;> simp [hname]
  proper name := by
    rw [Std.ExtTreeMap.getElem?_insert]
    split
    · simp
    · exact c.proper name

/-- The first overload number that is larger than those of all units of a name. -/
def nextOverload (c : Catalog) (name : String) : Nat :=
  (c.overloads name).foldl (fun next id => max next (((c.get? id).map (·.overload + 1)).getD 0)) 0

/-- Adds a unit at the end, with a new overload number and without slots. -/
def insert (c : Catalog) (name : String) (kind : UnitKind) (timestamp : Nat) (body : Option Body) :
    Catalog :=
  c.push ⟨name, c.nextOverload name, kind, timestamp, body, []⟩

/-- Changes one unit. It keeps the name under which it is listed. -/
def modify (c : Catalog) (id : Nat) (f : BuildUnit → BuildUnit) : Catalog where
  units := c.units.modify id fun u => { f u with name := u.name }
  byName := c.byName
  listed name := by
    rw [c.listed]
    refine (BuildUnit.positions_of_names fun other => ?_).symm
    rw [Array.getElem?_modify]
    split <;> simp [Function.comp_def]
  proper := c.proper

/-- Changes all units. They keep the names under which they are listed. -/
def map (c : Catalog) (f : BuildUnit → BuildUnit) : Catalog where
  units := c.units.map fun u => { f u with name := u.name }
  byName := c.byName
  listed name := by
    rw [c.listed]
    refine (BuildUnit.positions_of_names fun other => ?_).symm
    simp [Function.comp_def]
  proper := c.proper

/-- Some units that are discovered one after the other. -/
def ofList (units : List BuildUnit) : Catalog := units.foldl push empty

/-- Whether a unit is what a definition of the given kind and time denotes, its name aside: the kinds
agree, and so does the path of a file or the time of something ephemeral. -/
def denotes (kind : UnitKind) (timestamp : Nat) (u : BuildUnit) : Bool :=
  u.kind.tag == kind.tag &&
    if kind.isSharedTable then true
    else if kind.isEphemeral then u.timestamp == timestamp
    else FilePath.sameOption u.kind.path? kind.path?

/-- The known unit that a definition denotes. -/
def findMatch (c : Catalog) (name : String) (kind : UnitKind) (timestamp : Nat) : Option Nat :=
  (c.overloads name).find? fun id => (c.get? id).any (denotes kind timestamp)

/-- The unit with a given name and overload number. -/
def find (c : Catalog) (name : String) (overload : Nat) : Option Nat :=
  (c.overloads name).find? fun id => (c.get? id).any (·.overload == overload)

end Catalog

end ScriptBuild
