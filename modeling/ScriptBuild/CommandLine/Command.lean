import ScriptBuild.CommandLine.Arguments
import ScriptBuild.Layout

namespace ScriptBuild.CommandLine

/-- What is built, as the arguments say it. -/
structure BuildRequest where
  entries : List String
  /-- Code that is given in place of a file. -/
  snippet : Option String
  config : BuildConfig
  verbose : Bool
deriving DecidableEq, Repr

/-- A command of the program. -/
inductive Command where
  | build (request : BuildRequest)
  | plan (entry : String) (config : BuildConfig)
  | refresh (config : BuildConfig) (verbose : Bool)
  | clean (cacheDirectory : FilePath)
deriving DecidableEq, Repr

/-- Any text. -/
def anyText (_ : String) : Bool := true

/-- Any text that can be a path. -/
def isPath (text : String) : Bool := !text.isEmpty

/-- The written form of a mode. -/
def modeText : ArtifactMode → String
  | .single => "single"
  | .perUnit => "per-unit"

/-- The mode with a given written form. -/
def modeOf? (text : String) : Option ArtifactMode :=
  [ArtifactMode.single, ArtifactMode.perUnit].find? fun mode => modeText mode == text

/-- An option with a text as its value. -/
def textOption (long : String) (short : Option Char) (arity : Arity)
    (environment : Option String) : OptionSpec :=
  ⟨long, short, arity, false, environment, none, anyText⟩

/-- An option with a path as its value. -/
def pathOption (long : String) (environment : Option String) : OptionSpec :=
  { textOption long none .single environment with accepts := isPath }

/-- An option whose values are passed on to a compiler. -/
def passedOption (long : String) : OptionSpec :=
  { textOption long none .many none with takesHyphens := true }

/-- The directory of the archive and of generated code. -/
def cacheOption : OptionSpec := pathOption "cache-dir" (some "SCRIPTC_CACHE_DIR")

/-- The directories that are searched, which a colon separates. -/
def searchOption : OptionSpec where
  long := "path"
  short := some 'p'
  arity := .many
  takesHyphens := false
  environment := some "SCRIPTC_PATH"
  separator := some ':'
  accepts := isPath

/-- The options of all commands that build or plan. Some of them may come from the environment. -/
def setupOptions : List OptionSpec :=
  [cacheOption, searchOption, textOption "verbose" (some 'v') .flag none,
    pathOption "out-dir" none,
    { textOption "mode" none .single none with accepts := fun text => (modeOf? text).isSome },
    textOption "cc" none .single (some "SCRIPTC_CC"), passedOption "cflag", passedOption "ldflag",
    pathOption "runtime" (some "SCRIPTC_RUNTIME")]

/-- The options of the command that builds entry points. -/
def buildOptions : List OptionSpec :=
  [textOption "eval" none .single none, textOption "output" (some 'o') .single none] ++ setupOptions

/-- The setup that options describe. Without a search path the working directory is searched. -/
def configOf (a : Arguments) : BuildConfig :=
  let d := BuildConfig.default
  let path (long : String) : Option FilePath := (a.value? long).map FilePath.mk
  let directories := (a.values "path").map FilePath.mk
  { cacheDirectory := (path "cache-dir").getD d.cacheDirectory
    outDirectory := (path "out-dir").getD d.outDirectory
    outputName := a.value? "output"
    searchPath := if directories.isEmpty then [⟨"."⟩] else directories
    mode := ((a.value? "mode").bind modeOf?).getD d.mode
    compiler := (a.value? "cc").getD d.compiler
    compilerFlags := a.values "cflag"
    linkerFlags := a.values "ldflag"
    runtime := path "runtime" }

/-- The names of the commands. -/
def commandNames : List String := ["build", "plan", "refresh", "clean", "help"]

/-- Reads what help is asked for: all commands, or one. -/
def readTopic : List String → Interruption
  | [] => .help
  | topic :: more =>
    if !commandNames.contains topic then .fault (.unknown topic)
    else match more with
      | [] => .help
      | argument :: _ => .fault (.unknown argument)

/-- Reads the arguments of a command that is known by its name. -/
def readCommand (environment : String → Option String) (name : String) (arguments : List String) :
    Except Interruption Command := do
  match name with
  | "build" =>
    let a ← read buildOptions 0 none environment arguments
    return .build ⟨a.positional, a.value? "eval", configOf a, a.has "verbose"⟩
  | "plan" =>
    let a ← read setupOptions 1 (some 1) environment arguments
    match a.positional with
    | entry :: _ => return .plan entry (configOf a)
    | [] => .error (.fault .argumentMissing)
  | "refresh" =>
    let a ← read setupOptions 0 (some 0) environment arguments
    return .refresh (configOf a) (a.has "verbose")
  | "clean" =>
    let a ← read [cacheOption] 0 (some 0) environment arguments
    return .clean (configOf a).cacheDirectory
  | "help" => .error (readTopic arguments)
  | _ => .error (.fault (.unknown name))

/-- Reads the arguments of the program. Before the name of the command only two options are known,
    and each of them ends the reading at once. -/
def Command.ofArguments (environment : String → Option String) :
    List String → Except Interruption Command
  | [] => .error (.fault .commandMissing)
  | argument :: arguments =>
    match Shape.of argument with
    | .long "help" none | .short ('h' :: _) => .error .help
    | .long "version" none | .short ('V' :: _) => .error .version
    | .plain => readCommand environment argument arguments
    | .stop => .error (.fault .commandMissing)
    | .long .. | .short _ => .error (.fault (.unknown argument))

end ScriptBuild.CommandLine
