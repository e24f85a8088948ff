import ScriptBuild.Definition
import ScriptBuild.Disk.Basic
import ScriptBuild.Fault
import ScriptBuild.SearchPath

namespace ScriptBuild

/-- What a resolution asks of the outside: where names are defined and what the bodies of units say,
    as lists of events. -/
structure World where
  lookup : NameLookup
  events : Body → Except Fault (List Event)

/-- How messages name the source of a snippet. -/
def snippetOrigin : String := "<snippet>"

/-- The events of a source that messages name by its origin. -/
def eventsFrom (origin source : String) : Except Fault (List Event) :=
  (Event.ofSource source).mapError (Fault.malformed origin)

/-- The events of a body, whose file is read from the disk. A shared table says nothing. -/
def Disk.events (d : Disk) : Body → Except Fault (List Event)
  | .file path =>
    match d.read path with
    | .ok source => eventsFrom path.text source
    | .error reason => .error (.unreadable path reason)
  | .inline source => eventsFrom snippetOrigin source
  | .table => .ok []

/-- The world of a search path over a disk. -/
def World.ofDisk (s : SearchPath) (d : Disk) : World := ⟨s.lookup d, d.events⟩

end ScriptBuild
