import ScriptBuild.Disk.Basic

namespace ScriptBuild.Disk

/-- Sets what a place holds. -/
def put (d : Disk) (place : Place) (node : Node) : Disk :=
  if place.isEmpty then { d with changed := node.changed }
  else { d with nodes := d.nodes.insert place node }

/-- Notes that a name appeared in a directory or went from it. -/
def stamp (d : Disk) (place : Place) (now : Int) : Disk := d.put place (.directory now)

/-- Gives a name in a directory something to stand for. The directory changes if the name is new. -/
def give (d : Disk) (directory : Place) (name : String) (node : Node) (now : Int) : Disk :=
  let place := directory ++ [name]
  if d.nodes.contains place then d.put place node else (d.put place node).stamp directory now

/-- Takes a name from a directory, with all that is below it. -/
def take (d : Disk) (directory : Place) (name : String) (now : Int) : Disk :=
  let place := directory ++ [name]
  ({ d with nodes := d.nodes.filter fun other _ => !place.isPrefixOf other }).stamp directory now

/-- Writes a file. -/
def write (d : Disk) (p : FilePath) (content : Content) (now : Int) : Except Refusal Disk := do
  match ← d.target p with
  | (_, none) => .error .isDirectory
  | (directory, some name) =>
    if p.endsInSlash then .error .isDirectory
    else match ← d.named directory name, directory with
      | some (.directory _), _ => .error .isDirectory
      | _, .inside place => .ok (d.give place name (.file content now) now)
      | _, .outside => .error .denied

/-- Makes a directory. -/
def makeDirectory (d : Disk) (p : FilePath) (now : Int) : Except Refusal Disk := do
  match ← d.target p with
  | (_, none) => .error .occupied
  | (directory, some name) =>
    match ← d.named directory name, directory with
    | some _, _ => .error .occupied
    | none, .inside place => .ok (d.give place name (.directory now) now)
    | none, .outside => .error .denied

/-- Makes a directory if there is none, given the spellings of those around it, which are made first
    if that is what it takes. -/
def makeWithin (d : Disk) (p : FilePath) (now : Int) : List FilePath → Disk × Except Refusal Unit
  | [] => attempt d
  | directory :: around =>
    match d.makeDirectory p now with
    | .error .missing =>
      match d.makeWithin directory now around with
      | (d, .ok ()) => attempt d
      | failed => failed
    | _ => attempt d
where
  /-- Makes the directory itself, or finds it. -/
  attempt (d : Disk) : Disk × Except Refusal Unit :=
    if p.text.isEmpty then (d, .ok ())
    else match d.makeDirectory p now with
      | .ok made => (made, .ok ())
      | .error reason => (d, if d.isDirectory p then .ok () else .error reason)

/-- Makes a directory and those around it, as far as they are not there yet. Those that were made
    before a refusal stay. -/
def makeDirectories (d : Disk) (p : FilePath) (now : Int) : Disk × Except Refusal Unit :=
  d.makeWithin p now p.around

/-- Changes the time of a file or a directory. -/
def touch (d : Disk) (p : FilePath) (time : Int) : Except Refusal Disk := do
  match ← d.find p with
  | (.inside place, node) => .ok (d.put place (node.changedAt time))
  | (.outside, _) => .error .denied

/-- Moves a file, replacing the file that is there. -/
def rename (d : Disk) (old new : FilePath) (now : Int) : Except Refusal Disk := do
  let source ← d.target old
  let goal ← d.target new
  match source, goal with
  | (directory, some name), (other, some goalName) =>
    let moved ← d.named directory name
    let replaced ← d.named other goalName
    match moved, replaced, directory, other with
    | none, _, _, _ => .error .missing
    | some node, replaced, .inside place, .inside goalPlace =>
      if node.isDirectory then .error .isDirectory
      else if old.endsInSlash || new.endsInSlash then .error .notDirectory
      else if replaced.any (·.isDirectory) then .error .isDirectory
      else if place ++ [name] == goalPlace ++ [goalName] then .ok d
      else .ok ((((d.take place name now).put (goalPlace ++ [goalName]) node)).stamp goalPlace now)
    | _, _, _, _ => .error .denied
  | _, _ => .error .busy

/-- Copies a file. The target is emptied first, so a file that is copied onto itself is lost. -/
def copy (d : Disk) (source goal : FilePath) (now : Int) : Except Refusal Disk := do
  match ← d.find source with
  | (_, .directory _) => .error .notFile
  | (spot, .file content _) =>
    let onItself := (d.find goal).toOption.any (·.1 == spot)
    d.write goal (if onItself then .text "" else content) now

/-- Removes a file. -/
def removeFile (d : Disk) (p : FilePath) (now : Int) : Except Refusal Disk := do
  match ← d.target p with
  | (_, none) => .error .isDirectory
  | (directory, some name) =>
    match ← d.named directory name, directory with
    | some (.directory _), _ => .error .isDirectory
    | some (.file _ _), .inside place =>
      if p.endsInSlash then .error .notDirectory else .ok (d.take place name now)
    | _, _ => .error .missing

/-- Removes whatever a path names, with all that is in it. -/
def remove (d : Disk) (p : FilePath) (now : Int) : Except Refusal Disk := do
  match ← d.find p with
  | (.inside place, _) =>
    match place.getLast? with
    | some name => .ok (d.take place.dropLast name now)
    | none => .ok { d with nodes := ∅, changed := now }
  | (.outside, _) => .error .denied

/-- Removes a directory with all that is in it. -/
def removeTree (d : Disk) (p : FilePath) (now : Int) : Except Refusal Disk := do
  match ← d.find p with
  | (_, .directory _) => d.remove p now
  | (_, .file _ _) => .error .notDirectory

end ScriptBuild.Disk
