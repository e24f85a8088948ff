import ScriptBuild.CommandLine.Run
import Std.Time.DateTime.Timestamp

namespace ScriptBuild.CommandLine

/-- A time of the file system in milliseconds. -/
def milliseconds (t : IO.FS.SystemTime) : Int := t.sec * 1000 + t.nsec.toNat / 1000000

/-- What programs are run by if none may be started. -/
def refusing : Host Unit := ⟨fun _ _ state => (state, .error .denied)⟩

/-- Reads the entries of a directory, and all that is below them. -/
partial def readEntries (d : Disk) (place : Place) (entries : Array IO.FS.DirEntry) : IO Disk :=
  entries.foldlM
    (fun d entry => do
      let here := place ++ [entry.fileName]
      let changed := milliseconds (← entry.path.metadata).modified
      if ← entry.path.isDir then
        readEntries (d.put here (.directory changed)) here (← entry.path.readDir)
      else
        let bytes ← IO.FS.readBinFile entry.path
        return d.put here (.file (.ofBytes bytes.toList) changed)) d

/-- Makes a place hold what it should. -/
def writeNode (place : Place) (node : Node) : IO Unit :=
  let path := "/".intercalate place
  match node with
  | .directory _ => IO.FS.createDirAll path
  | .file (.text text) _ => IO.FS.writeFile path text
  | .file (.bytes bytes) _ => IO.FS.writeBinFile path ⟨bytes.toArray⟩

/-- Removes what a place held. -/
def removeNode (place : Place) (node : Node) : IO Unit :=
  let path := "/".intercalate place
  match node with
  | .directory _ => IO.FS.removeDir path
  | .file _ _ => IO.FS.removeFile path

/-- Brings the working directory from one state to another. Directories are made before what is in
    them, and removed after it. -/
def bringUpToDate (former latter : Disk) : IO Unit := do
  for (place, node) in former.nodes.toList.reverse do
    if latter.nodes[place]?.isNone then removeNode place node
  for (place, node) in latter.nodes.toList do
    if former.nodes[place]? != some node then writeNode place node

/-- The variables of the environment that some options can come from. -/
def readVariables (options : List OptionSpec) : IO (List (String × String)) := do
  let found ← (options.filterMap (·.environment)).mapM fun name => do
    return (← IO.getEnv name).map fun value => (name, value)
  return found.filterMap id

end ScriptBuild.CommandLine

open ScriptBuild ScriptBuild.CommandLine in
/-- Runs the program. It reads the files below the working directory, runs its command on them as a
    value, and brings the directory up to date with what came of it. It starts no other programs: a
    build goes as far as it can without tools. -/
def main (arguments : List String) : IO UInt32 := do
  let here ← IO.currentDir
  let former ← readEntries (.new (milliseconds (← here.metadata).modified)) [] (← here.readDir)
  let known ← readVariables setupOptions
  let now := (← Std.Time.Timestamp.now).toMillisecondsSinceUnixEpoch.val
  let setting : Setting Unit := ⟨refusing, now.toNat⟩
  let (transcript, (_, latter)) :=
    setting.runArguments (fun name => known.lookup name) arguments ((), former)
  bringUpToDate former latter
  transcript.output.forM IO.println
  transcript.diagnostics.forM fun d => IO.eprintln d.line
  return transcript.code.number.toUInt32
