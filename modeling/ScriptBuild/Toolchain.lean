import ScriptBuild.Disk.Basic
import ScriptBuild.Fault
import ScriptBuild.Layout
import ScriptBuild.Text.Utf8

namespace ScriptBuild

/-- What a tool is asked to do. -/
inductive Invocation where
  /-- Make an object from a source, with the directories that headers are looked for in. -/
  | compile (source output : FilePath) (includes : List FilePath)
  /-- Make a module from objects and the libraries that it needs. -/
  | link (objects : List FilePath) (output : FilePath) (libraries : List FilePath)
deriving DecidableEq, Repr

namespace Invocation

/-- The file that is made. -/
def output : Invocation → FilePath
  | compile _ output _ | link _ output _ => output

/-- The file that messages name: the source that is compiled, or the module that is linked. -/
def subject : Invocation → FilePath
  | compile source _ _ => source
  | link _ output _ => output

end Invocation

/-- Tools with a state of their own, which turn generated code into modules. A toolchain is known by
    what its runs do: a run changes that state and the disk, also if it fails. -/
structure Toolchain (σ : Type) where
  run : Invocation → σ × Disk → (σ × Disk) × Except Fault Unit

/-- How a program ended, and what it wrote about it. -/
inductive Completion where
  | success
  | failure (status : ExitStatus) (messages : List UInt8)
deriving DecidableEq, Repr

/-- What can run programs by their names, unless it refuses to. -/
structure Host (σ : Type) where
  run : String → List String → σ × Disk → (σ × Disk) × Except Refusal Completion

/-- A compiler that links as well, with further options for both uses. -/
structure Compiler where
  command : String
  compileOptions : List String
  linkOptions : List String
deriving DecidableEq, Repr

namespace Compiler

/-- The compiler of a setup. -/
def ofConfig (c : BuildConfig) : Compiler := ⟨c.compiler, c.compilerFlags, c.linkerFlags⟩

/-- A compiler without further options. -/
def plain (command : String) : Compiler := ⟨command, [], []⟩

/-- The command line of a run, after the name of the compiler. -/
def arguments (c : Compiler) : Invocation → List String
  | .compile source output includes =>
    ["-c", "-fPIC"] ++ c.compileOptions ++
      includes.flatMap (fun directory => ["-I", directory.text]) ++
      ["-o", output.text, source.text]
  | .link objects output libraries =>
    ["-shared", "-o", output.text] ++ objects.map (·.text) ++ libraries.map (·.text) ++
      c.linkOptions

/-- What the end of a run means. -/
def outcome (c : Compiler) (i : Invocation) : Except Refusal Completion → Except Fault Unit
  | .ok .success => .ok ()
  | .ok (.failure status messages) =>
    .error (.toolFailed c.command i.subject status (String.ofList (Text.Utf8.decode messages)))
  | .error reason => .error (.toolMissing c.command reason)

/-- The toolchain that calls a compiler. -/
def toolchain {σ : Type} (c : Compiler) (host : Host σ) : Toolchain σ where
  run i state :=
    let (state, completion) := host.run c.command (c.arguments i) state
    (state, c.outcome i completion)

end Compiler

end ScriptBuild
