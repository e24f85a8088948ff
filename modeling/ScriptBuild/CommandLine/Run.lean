import ScriptBuild.Build.Session
import ScriptBuild.CommandLine.Command
import ScriptBuild.CommandLine.Transcript

namespace ScriptBuild.CommandLine

variable {σ : Type}

/-- What programs are run by, and the time of the run. -/
structure Setting (σ : Type) where
  host : Host σ
  now : Nat

/-- What a command changes: the state of what runs programs, and the disk. -/
abbrev CommandM (σ : Type) := StateM (σ × Disk)

/-- The name of an entry point that is given as code. -/
def snippetName : String := "snippet"

namespace Setting

variable (s : Setting σ)

/-- The builder of a setup. -/
def builder (c : BuildConfig) : Builder σ :=
  ⟨c, Stub.generate, (Compiler.ofConfig c).toolchain s.host, s.now⟩

/-- Prepares a build and runs it on the archive of its setup. A fault is what the run ends with. -/
def session {α : Type} (c : BuildConfig) (computation : Builder σ → BuildM σ α)
    (report : BuildState σ → α → Transcript) : CommandM σ Transcript := fun (tools, disk) =>
  match c.prepare disk s.now with
  | (disk, .error fault) => (.failed (.ofFault disk fault), (tools, disk))
  | (disk, .ok ()) =>
    match computation (s.builder c) (.start c disk tools) with
    | .ok a state => (report state a, (state.tools, state.disk))
    | .error fault state => (.failed (.ofFault state.disk fault), (state.tools, state.disk))

/-- The diagnostics of names that were found nowhere. -/
def unresolvedDiagnostics (state : BuildState σ) (references : List UnresolvedReference) :
    List Diagnostic :=
  references.filterMap (Diagnostic.ofUnresolved state.disk state.resolution.program.units)

/-- What is written about a build. It is a success if any module was built. -/
def reportBuild (verbose : Bool) (state : BuildState σ) (r : Report) : Transcript where
  output := (if verbose then r.records.map Transcript.recordLine else []) ++
    r.outcomes.filterMap Transcript.builtLine?
  diagnostics := r.warnings.map .warning ++ unresolvedDiagnostics state r.unresolved
  code := if r.builtCount > 0 then .success else .failure

/-- What is written about a plan. -/
def reportPlan (entry : String) (state : BuildState σ) : Option Plan → Transcript
  | none => .failed (.error (Entry.notBuildableText entry))
  | some p =>
    { output := Transcript.planLines state.resolution.program.units state.resolution.freshness p
      diagnostics := p.warnings.map .warning ++
        unresolvedDiagnostics state state.resolution.run.unresolved
      code := .success }

/-- What is written about known entry points that were built again. -/
def reportRefresh (verbose : Bool) (state : BuildState σ) (r : Report) : Transcript :=
  if r.outcomes.isEmpty then ⟨["Nothing to refresh"], [], .success⟩
  else reportBuild verbose state r

/-- The entry points of a request. -/
def entries (r : BuildRequest) : List Entry :=
  r.entries.map Entry.ofArgument ++ (r.snippet.map (.snippet snippetName)).toList

/-- Builds what a request asks for. -/
def build (r : BuildRequest) : CommandM σ Transcript :=
  let entries := entries r
  if entries.isEmpty then
    pure (.failed (.error "nothing to build; name an entry point or pass --eval"))
  else if r.config.outputName.isSome && entries.length > 1 then
    pure (.failed (.error "--output needs exactly one entry point"))
  else s.session r.config (·.build entries) (reportBuild r.verbose)

/-- Accepts that something to be removed is not there. -/
def removed (d : Disk) : Except Refusal Disk → Except Refusal Disk
  | .error .missing => .ok d
  | result => result

/-- Removes the archive and all generated files. -/
def clean (cacheDirectory : FilePath) : CommandM σ Transcript := fun (tools, disk) =>
  let layout := Layout.within cacheDirectory
  match removed disk (disk.removeFile layout.cacheFile s.now) with
  | .error reason => (failed reason, (tools, disk))
  | .ok disk =>
    match removed disk (disk.removeTree layout.objectsDirectory s.now) with
    | .error reason => (failed reason, (tools, disk))
    | .ok disk =>
      (⟨["Removed " ++ layout.objectsDirectory.text], [], .success⟩, (tools, disk))
where
  failed (reason : Refusal) : Transcript :=
    .failed (.error ("failed to clean cache: " ++ reason.text))

/-- Runs a command. Each run opens the archive anew, and what it changes on the disk is all that the
    next run sees of it. -/
def run : Command → CommandM σ Transcript
  | .build request => s.build request
  | .plan entry config =>
    s.session config (·.planEntry (.ofArgument entry)) (reportPlan entry)
  | .refresh config verbose => s.session config (·.refresh) (reportRefresh verbose)
  | .clean cacheDirectory => s.clean cacheDirectory

/-- Runs the program with its environment and its arguments. -/
def runArguments (environment : String → Option String) (arguments : List String) :
    CommandM σ Transcript :=
  match Command.ofArguments environment arguments with
  | .ok command => s.run command
  | .error interruption => pure (.ofInterruption interruption)

end Setting

end ScriptBuild.CommandLine
