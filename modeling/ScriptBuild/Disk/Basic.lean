import ScriptBuild.Disk.Refusal
import ScriptBuild.FilePath
import Std.Data.ExtTreeMap

namespace ScriptBuild

/-- What a file holds: a text, or bytes that are none. -/
inductive Content where
  | text (text : String)
  | bytes (bytes : List UInt8)
deriving DecidableEq, Repr

/-- The content with the given bytes. -/
def Content.ofBytes (bytes : List UInt8) : Content :=
  match String.fromUTF8? ⟨bytes.toArray⟩ with
  | some decoded => .text decoded
  | none => .bytes bytes

/-- What a place on the disk holds, and when that was changed last. -/
inductive Node where
  /-- A directory changes when a name in it appears or goes. -/
  | directory (changed : Int)
  | file (content : Content) (changed : Int)
deriving DecidableEq, Repr

namespace Node

/-- Whether there is a directory. -/
def isDirectory : Node → Bool
  | directory _ => true
  | file _ _ => false

/-- The time of the last change. -/
def changed : Node → Int
  | directory changed | file _ changed => changed

/-- The same with another time of its last change. -/
def changedAt (time : Int) : Node → Node
  | directory _ => directory time
  | file content _ => file content time

end Node

/-- The names that lead from the working directory to a place. -/
abbrev Place := List String

/-- Where a path leads. -/
inductive Spot where
  | inside (place : Place)
  /-- A directory around the working directory. Nothing but such directories is known there. -/
  | outside
deriving DecidableEq, Repr

/-- The directory around a spot. -/
def Spot.around : Spot → Spot
  | inside [] | outside => outside
  | inside place => inside place.dropLast

/-- The files and directories below the working directory, and the times of the last changes of that
    directory itself and of those around it. All times are in milliseconds. -/
structure Disk where
  nodes : Std.ExtTreeMap Place Node
  changed : Int
  changedAround : Int
deriving DecidableEq

namespace Disk

/-- The disk with an empty working directory that was made at a given time. -/
def new (time : Int) : Disk := ⟨∅, time, time⟩

instance : Inhabited Disk := ⟨new 0⟩

/-- What a place holds. The working directory is always there. -/
def at? (d : Disk) (place : Place) : Option Node :=
  if place.isEmpty then some (.directory d.changed) else d.nodes[place]?

/-- What a spot holds. -/
def atSpot? (d : Disk) : Spot → Option Node
  | .inside place => d.at? place
  | .outside => some (.directory d.changedAround)

/-- The longest name that can be given to a file, in bytes. -/
def longestName : Nat := 255

/-- The longest path that the system takes, in bytes. -/
def longestPath : Nat := 4095

/-- The steps of a path, unless the system takes no such path at all. -/
def route (p : FilePath) : Except Refusal (List String) :=
  if p.text.toList.contains (Char.ofNat 0) then .error .badName
  else if p.text.isEmpty then .error .missing
  else if longestPath < p.text.utf8ByteSize then .error .nameTooLong
  else .ok p.steps

/-- Where the first step of a path starts. -/
def start (p : FilePath) : Spot := if p.isAbsolute then .outside else .inside []

/-- Whether a step leads to something that has a name. -/
def isName (step : String) : Bool := step != "." && step != ".."

/-- What has a name in a directory. No name can be too long. -/
def named (d : Disk) (directory : Spot) (name : String) : Except Refusal (Option Node) :=
  if longestName < name.utf8ByteSize then .error .nameTooLong
  else match directory with
    | .inside place => .ok d.nodes[place ++ [name]]?
    | .outside => .ok none

/-- Takes a step from a spot, which has to be a directory. It may lead to an empty spot. -/
def enter (d : Disk) (spot : Spot) (step : String) : Except Refusal Spot :=
  match d.atSpot? spot with
  | none => .error .missing
  | some (.file _ _) => .error .notDirectory
  | some (.directory _) =>
    if step == "." then .ok spot
    else if step == ".." then .ok spot.around
    else if longestName < step.utf8ByteSize then .error .nameTooLong
    else match spot with
      | .inside place => .ok (.inside (place ++ [step]))
      | .outside => .error .missing

/-- Takes some steps. Each of them needs a directory to start from, and the first one that cannot be
    taken decides why a path is refused. -/
def walk (d : Disk) (spot : Spot) (steps : List String) : Except Refusal Spot :=
  steps.foldlM d.enter spot

/-- What a path names, and where. -/
def find (d : Disk) (p : FilePath) : Except Refusal (Spot × Node) := do
  let spot ← d.walk (start p) (← route p)
  match d.atSpot? spot with
  | none => .error .missing
  | some node =>
    if p.endsInSlash && !node.isDirectory then .error .notDirectory else .ok (spot, node)

/-- Where a path allows something to be made or removed: a directory, and the name in it. There is
    no name if the last step has none. -/
def target (d : Disk) (p : FilePath) : Except Refusal (Spot × Option String) := do
  let steps ← route p
  let directory ← d.walk (start p) steps.dropLast
  match d.atSpot? directory with
  | none => .error .missing
  | some (.file _ _) => .error .notDirectory
  | some (.directory _) => .ok (directory, steps.getLast?.filter isName)

/-- What a path names. -/
def lookup (d : Disk) (p : FilePath) : Option Node := (d.find p).toOption.map (·.2)

/-- Whether a path names a file. -/
def isFile (d : Disk) (p : FilePath) : Bool := (d.lookup p).any (!·.isDirectory)

/-- Whether a path names a directory. -/
def isDirectory (d : Disk) (p : FilePath) : Bool := (d.lookup p).any (·.isDirectory)

/-- Whether a path names anything. -/
def hasPath (d : Disk) (p : FilePath) : Bool := (d.lookup p).isSome

/-- The text of a file. -/
def read (d : Disk) (p : FilePath) : Except Refusal String := do
  match ← d.find p with
  | (_, .file (.text text) _) => .ok text
  | (_, .file (.bytes _) _) => .error .notText
  | (_, .directory _) => .error .isDirectory

/-- The text of a file; none if it cannot be read. -/
def text? (d : Disk) (p : FilePath) : Option String := (d.read p).toOption

/-- The time of the last change of what a path names. -/
def changed? (d : Disk) (p : FilePath) : Option Int := (d.lookup p).map (·.changed)

/-- The names in a directory. -/
def namesIn (d : Disk) (p : FilePath) : List String :=
  match d.find p with
  | .ok (.inside place, .directory _) => d.nodes.keys.filterMap fun other =>
      if other.dropLast == place then other.getLast? else none
  | _ => []

/-- The spelling of a place, directories with a slash at the end. -/
def spelling (place : Place) (node : Node) : String :=
  "/".intercalate place ++ if node.isDirectory then "/" else ""

/-- All that is below a place, spelled from there, in the order of the spellings. -/
def listing (d : Disk) (place : Place) : List String :=
  let inside := d.nodes.toList.filter fun (other, _) =>
    place.isPrefixOf other && place.length < other.length
  (inside.map fun (other, node) => spelling (other.drop place.length) node).mergeSort
    fun a b => (compare a b).isLE

end Disk

end ScriptBuild
