import ScriptBuild.Archive.Document
import ScriptBuild.Disk.Change
import ScriptBuild.Fault

namespace ScriptBuild.Archive

/-- The archive in a file. A file that is missing or no text counts as the archive of no units. -/
def load (d : Disk) (path : FilePath) : Archive :=
  match d.text? path with
  | some document => parseOrEmpty document
  | none => empty

/-- The file that a new archive is written to first. -/
def draftPath (path : FilePath) : FilePath := path.withExtension "json.tmp"

/-- Replaces the archive in a file. It is written beside its place and then moved there, so that at
    any time the place holds either the old document or the new one. If the draft cannot be moved it
    stays behind. -/
def store (a : Archive) (d : Disk) (path : FilePath) (now : Int) : Disk × Except Fault Unit :=
  let draft := draftPath path
  match d.write draft (.text a.document) now with
  | .error reason => (d, .error (.unreadable draft reason))
  | .ok drafted =>
    match drafted.rename draft path now with
    | .error reason => (drafted, .error (.unreadable path reason))
    | .ok done => (done, .ok ())

end ScriptBuild.Archive
