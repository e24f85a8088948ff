import ScriptBuild.Disk.Refusal
import ScriptBuild.FilePath
import ScriptBuild.Source.Outline

namespace ScriptBuild

/-- How a program ended that did not succeed. -/
inductive ExitStatus where
  | exited (code : Int)
  | killed (signal : Nat)
deriving DecidableEq, Repr

namespace ExitStatus

/-- The names of the signals, from number one on. -/
def signalNames : List String :=
  ["SIGHUP", "SIGINT", "SIGQUIT", "SIGILL", "SIGTRAP", "SIGABRT", "SIGBUS", "SIGFPE", "SIGKILL",
    "SIGUSR1", "SIGSEGV", "SIGUSR2", "SIGPIPE", "SIGALRM", "SIGTERM", "SIGSTKFLT", "SIGCHLD",
    "SIGCONT", "SIGSTOP", "SIGTSTP", "SIGTTIN", "SIGTTOU", "SIGURG", "SIGXCPU", "SIGXFSZ",
    "SIGVTALRM", "SIGPROF", "SIGWINCH", "SIGIO", "SIGPWR", "SIGSYS"]

/-- How a message shows a status. -/
def text : ExitStatus → String
  | exited code => "exit status: " ++ toString code
  | killed signal =>
    let name := match signal with
      | 0 => none
      | n + 1 => signalNames[n]?
    "signal: " ++ toString signal ++
      match name with
      | some name => " (" ++ name ++ ")"
      | none => ""

end ExitStatus

/-- Why a build stops. -/
inductive Fault where
  /-- A source, or the archive of earlier builds, cannot be read or replaced. -/
  | unreadable (path : FilePath) (reason : Refusal)
  /-- A source has a malformed token. -/
  | malformed (origin : String) (fault : SyntaxFault)
  /-- A tool ran and did not succeed. -/
  | toolFailed (tool : String) (path : FilePath) (status : ExitStatus) (output : String)
  /-- A tool cannot be run at all. -/
  | toolMissing (tool : String) (reason : Refusal)
  /-- A file of the build cannot be written or copied. -/
  | unwritable (path : FilePath) (reason : Refusal)
  /-- A directory of the build cannot be made. -/
  | noDirectory (path : FilePath) (reason : Refusal)
  /-- The library that modules are linked with is missing. -/
  | noRuntime (path : FilePath)
  /-- There are more units than numbers for them. -/
  | tooManyUnits
  /-- There is no code for a unit. -/
  | noCode (unit : String) (reason : String)
deriving DecidableEq, Repr

/-- The message of a fault. -/
def Fault.message : Fault → String
  | unreadable path reason => "failed to read " ++ path.text ++ ": " ++ reason.text
  | malformed origin fault => origin ++ ":" ++ fault.span.text ++ ": " ++ fault.message
  | toolFailed tool path status output =>
    tool ++ " failed on " ++ path.text ++ " (" ++ status.text ++ ")\n" ++ output
  | toolMissing tool reason => "failed to run " ++ tool ++ ": " ++ reason.text
  | unwritable path reason => "I/O error on " ++ path.text ++ ": " ++ reason.text
  | noDirectory path reason =>
    "configuration error: cannot create " ++ path.text ++ ": " ++ reason.text
  | noRuntime path => "configuration error: runtime library " ++ path.text ++ " not found"
  | tooManyUnits => "too many units"
  | noCode unit reason => "code generation failed for " ++ unit ++ ": " ++ reason

end ScriptBuild
