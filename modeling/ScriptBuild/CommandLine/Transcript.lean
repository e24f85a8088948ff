import ScriptBuild.Build.Report
import ScriptBuild.CommandLine.Arguments
import ScriptBuild.Disk.Basic
import ScriptBuild.Fault

namespace ScriptBuild.CommandLine

/-- How grave a diagnostic is. -/
inductive Severity where
  | warning
  | error
deriving DecidableEq, Repr

/-- A message for whoever runs the program: a warning or an error. One that belongs to a place in a
    readable source is to be shown with that place. -/
structure Diagnostic where
  severity : Severity
  text : String
  /-- The file and the part of it that the message is about. -/
  place : Option (FilePath × Span)
deriving DecidableEq, Repr

namespace Diagnostic

/-- A warning that belongs to no place. -/
def warning (text : String) : Diagnostic := ⟨.warning, text, none⟩

/-- An error that belongs to no place. -/
def error (text : String) : Diagnostic := ⟨.error, text, none⟩

/-- The line that a diagnostic is shown as, led by its place if it has one. -/
def line (d : Diagnostic) : String :=
  let kind := match d.severity with
    | .warning => "warning: "
    | .error => "error: "
  match d.place with
  | none => kind ++ d.text
  | some (path, span) => path.text ++ ":" ++ span.text ++ ": " ++ kind ++ d.text

/-- The diagnostic of a fault. A malformed token is shown in its source if that can be read. -/
def ofFault (d : Disk) : Fault → Diagnostic
  | .malformed origin fault =>
    if (d.text? ⟨origin⟩).isSome then ⟨.error, fault.message, some (⟨origin⟩, fault.span)⟩
    else error (Fault.malformed origin fault).message
  | fault => error fault.message

/-- The place of a reference in the file of its unit, if that can be read. -/
def placeOf? (d : Disk) (u : BuildUnit) (r : UnresolvedReference) : Option (FilePath × Span) := do
  let span ← r.span
  let path ← u.kind.path?
  if (d.text? path).isSome then some (path, span) else none

/-- The diagnostic of a name that was found nowhere. -/
def ofUnresolved (d : Disk) (units : Catalog) (r : UnresolvedReference) : Option Diagnostic :=
  (units.get? r.unit).map fun u =>
    match placeOf? d u r with
    | some place => ⟨.warning, "`" ++ r.name ++ "` is not defined on the search path", some place⟩
    | none =>
      warning ("`" ++ r.name ++ "` used in " ++ u.display ++ " is not defined on the search path")

end Diagnostic

/-- How the program ends. -/
inductive ExitCode where
  | success
  | failure
  /-- The arguments are at fault. -/
  | usage
deriving DecidableEq, Repr

/-- The number of an exit code. -/
def ExitCode.number : ExitCode → Nat
  | success => 0
  | failure => 1
  | usage => 2

/-- What the program writes, in lines, and how it ends. -/
structure Transcript where
  output : List String
  diagnostics : List Diagnostic
  code : ExitCode
deriving DecidableEq, Repr

namespace Transcript

/-- A run that fails with a single error. -/
def failed (d : Diagnostic) : Transcript := ⟨[], [d], .failure⟩

/-- The width of the column of actions. -/
def actionWidth : Nat := 12

/-- The name of an action, set to the right of its column. -/
def actionColumn (action : Action) : String :=
  "  " ++ String.ofList (action.text.toList.leftpad actionWidth ' ') ++ "  "

/-- The line about a step that was taken. -/
def recordLine (r : StepRecord) : String :=
  actionColumn r.step.action ++ r.display ++ (if r.skipped then " (up to date)" else " (done)")

/-- The line about an entry point that was built. -/
def builtLine? : Outcome → Option String
  | .built name _ artifact => some ("Built " ++ name ++ " -> " ++ artifact.text)
  | _ => none

/-- The names of some units. -/
def displays (units : Catalog) (ids : List Nat) : List String :=
  ids.filterMap fun id => (units.get? id).map (·.display)

/-- What is at a place in the order of a build. -/
def placeText (units : Catalog) : PlanNode → String
  | .unit id => "".intercalate (displays units [id])
  | .cycle _ members => "cycle [" ++ ", ".intercalate (displays units members) ++ "]"

/-- How a freshness is shown. -/
def freshnessText : Freshness → String
  | .new => "New"
  | .updated => "Updated"
  | .dependencyUpdated => "DependencyUpdated"
  | .old => "Old"

/-- The lines about a plan. -/
def planLines (units : Catalog) (freshness : Nat → Freshness) (p : Plan) : List String :=
  let places := p.order.zipIdx.map fun (node, i) =>
    "  " ++ toString (i + 1) ++ ". " ++ placeText units node
  let steps := p.steps.map fun s =>
    actionColumn s.action ++ "".intercalate (displays units [s.unit]) ++
      " (" ++ freshnessText (freshness s.unit) ++ ")"
  "Build order:" :: places ++ "Steps:" :: steps

end Transcript

/-- The name and the version of the program. -/
def versionLine : String := "scriptc 0.1.0"

/-- The lines of a short help text. -/
def helpLines : List String :=
  ["Incremental native builds for scripts", "",
    "Usage:",
    "  scriptc build [OPTIONS] [ENTRIES]...",
    "  scriptc plan [OPTIONS] <ENTRY>",
    "  scriptc refresh [OPTIONS]",
    "  scriptc clean [--cache-dir <CACHE_DIR>]"]

/-- The message of a fault in the arguments. -/
def UsageFault.message : UsageFault → String
  | unknown argument => "unexpected argument '" ++ argument ++ "' found"
  | valueMissing option => "a value is required for '--" ++ option ++ "' but none was supplied"
  | valueUnexpected option => "unexpected value for '--" ++ option ++ "' found"
  | valueInvalid option => "invalid value for '--" ++ option ++ "'"
  | repeated option => "the argument '--" ++ option ++ "' cannot be used multiple times"
  | argumentMissing => "a required argument was not provided"
  | commandMissing => "a command is required"

/-- What is written in place of running a command. -/
def Transcript.ofInterruption : Interruption → Transcript
  | .help => ⟨helpLines, [], .success⟩
  | .version => ⟨[versionLine], [], .success⟩
  | .fault fault => ⟨[], [.error fault.message], .usage⟩

end ScriptBuild.CommandLine
