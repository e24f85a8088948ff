namespace ScriptBuild.CommandLine

/-- How often an option can be given, and what it needs. -/
inductive Arity where
  /-- It stands alone, once at most. -/
  | flag
  /-- It needs a value, once at most. -/
  | single
  /-- It needs a value each time. -/
  | many
deriving DecidableEq, Repr

/-- An option that a command knows. -/
structure OptionSpec where
  long : String
  short : Option Char
  arity : Arity
  /-- Its value may look like an option itself. -/
  takesHyphens : Bool
  /-- The variable of the environment that stands in for it. -/
  environment : Option String
  /-- What separates several values in one. -/
  separator : Option Char
  /-- Which values are valid. -/
  accepts : String → Bool

/-- Why arguments cannot be read. -/
inductive UsageFault where
  | unknown (argument : String)
  | valueMissing (option : String)
  | valueUnexpected (option : String)
  | valueInvalid (option : String)
  | repeated (option : String)
  | argumentMissing
  | commandMissing
deriving DecidableEq, Repr

/-- Why the arguments give no command: they ask for help instead, or are at fault. -/
inductive Interruption where
  | help
  | version
  | fault (fault : UsageFault)
deriving DecidableEq, Repr

/-- The options that were given, each with its value and in the order of the arguments, and the
    arguments that are none. -/
structure Arguments where
  options : List (String × String)
  positional : List String
deriving DecidableEq, Repr

namespace Arguments

/-- No arguments. -/
def empty : Arguments := ⟨[], []⟩

/-- The values of an option. -/
def values (a : Arguments) (long : String) : List String :=
  (a.options.filter (·.1 == long)).map (·.2)

/-- The value of an option. -/
def value? (a : Arguments) (long : String) : Option String := (a.values long).head?

/-- Whether an option was given. -/
def has (a : Arguments) (long : String) : Bool := !(a.values long).isEmpty

end Arguments

/-- The parts of a text between separators. -/
def splitAt (separator : Char) : List Char → List (List Char)
  | [] => [[]]
  | c :: cs =>
    match splitAt separator cs with
    | part :: parts => if c == separator then [] :: part :: parts else (c :: part) :: parts
    | [] => [[c]]

namespace OptionSpec

/-- The values that a text stands for. -/
def split (o : OptionSpec) (text : String) : List String :=
  match o.separator with
  | some separator => (splitAt separator text.toList).map String.ofList
  | none => [text]

/-- Adds the values that an option is given. -/
def add (o : OptionSpec) (text : String) (a : Arguments) : Except Interruption Arguments :=
  if o.arity != .many && a.has o.long then .error (.fault (.repeated o.long))
  else if (o.split text).all o.accepts then
    .ok { a with options := a.options ++ (o.split text).map fun value => (o.long, value) }
  else .error (.fault (.valueInvalid o.long))

/-- Whether an argument can be the value of the option before it. -/
def takes (o : OptionSpec) (argument : String) : Bool :=
  o.takesHyphens || argument == "-" || argument.toList.head? != some '-'

end OptionSpec

/-- What an argument looks like. -/
inductive Shape where
  /-- The lone pair of hyphens. -/
  | stop
  | long (name : String) (value : Option String)
  /-- Short options, all but the last of them flags. -/
  | short (letters : List Char)
  | plain
deriving DecidableEq, Repr

/-- What an argument looks like. -/
def Shape.of (argument : String) : Shape :=
  match argument.toList with
  | ['-', '-'] => .stop
  | '-' :: '-' :: cs =>
    let name := String.ofList (cs.takeWhile (· != '='))
    match cs.dropWhile (· != '=') with
    | [] => .long name none
    | _ :: value => .long name (some (String.ofList value))
  | ['-'] => .plain
  | '-' :: cs => .short cs
  | _ => .plain

/-- What an option asks for that has been read. -/
inductive Pending where
  | nothing
  /-- The value is the next argument. -/
  | valueOf (option : OptionSpec)

section

variable (options : List OptionSpec)

/-- Reads a long option. -/
def readLong (a : Arguments) (name : String) (value : Option String) :
    Except Interruption (Arguments × Pending) := do
  match options.find? (·.long == name), value with
  | none, none =>
    .error (if name == "help" then .help else .fault (.unknown ("--" ++ name)))
  | none, some _ =>
    .error (.fault (if name == "help" then .valueUnexpected name else .unknown ("--" ++ name)))
  | some o, none =>
    if o.arity == .flag then return (← o.add "" a, .nothing) else return (a, .valueOf o)
  | some o, some value =>
    if o.arity == .flag then .error (.fault (.valueUnexpected o.long))
    else return (← o.add value a, .nothing)

/-- Reads short options that are run together. The rest after the first one with a value is that
    value, with or without an equals sign between. -/
def readShort (a : Arguments) : List Char → Except Interruption (Arguments × Pending)
  | [] => .ok (a, .nothing)
  | c :: cs => do
    match options.find? (·.short == some c) with
    | none =>
      .error (if c == 'h' then .help else .fault (.unknown (String.ofList ['-', c])))
    | some o =>
      if o.arity == .flag then readShort (← o.add "" a) cs
      else
        match cs with
        | [] => return (a, .valueOf o)
        | '=' :: value | value => return (← o.add (String.ofList value) a, .nothing)

/-- Reads arguments up to the end. A command takes a limited number of arguments that are no
    options, or any number. -/
def readAll (limit : Option Nat) (pending : Pending) (a : Arguments) :
    List String → Except Interruption Arguments
  | [] =>
    match pending with
    | .nothing => .ok a
    | .valueOf o => .error (.fault (.valueMissing o.long))
  | argument :: later => do
    match pending with
    | .valueOf o =>
      if o.takes argument then readAll limit .nothing (← o.add argument a) later
      else .error (.fault (.valueMissing o.long))
    | .nothing =>
      match Shape.of argument with
      | .stop =>
        let positional := a.positional ++ later
        match positional[limit.getD positional.length]? with
        | some extra => .error (.fault (.unknown extra))
        | none => .ok { a with positional }
      | .long name value =>
        let (a, pending) ← readLong options a name value
        readAll limit pending a later
      | .short letters =>
        let (a, pending) ← readShort options a letters
        readAll limit pending a later
      | .plain =>
        if limit == some a.positional.length then .error (.fault (.unknown argument))
        else readAll limit .nothing { a with positional := a.positional ++ [argument] } later

/-- Adds the options that are not given but are found in the environment. -/
def fromEnvironment (environment : String → Option String) (a : Arguments) :
    Except Interruption Arguments :=
  options.foldlM
    (fun a o =>
      match o.environment.bind environment with
      | some value => if a.has o.long then .ok a else o.add value a
      | none => .ok a) a

/-- Reads the arguments of a command, of which a certain number must be no options and a limited
    number can be. Short forms of options can be run together, and a value may be attached to its
    option or follow it. After a lone pair of hyphens nothing is an option any more. What an option
    is not given on the command line it may find in the environment. -/
def read (least : Nat) (limit : Option Nat) (environment : String → Option String)
    (arguments : List String) : Except Interruption Arguments := do
  let a ← readAll options limit .nothing .empty arguments
  let a ← fromEnvironment options environment a
  if a.positional.length < least then .error (.fault .argumentMissing) else .ok a

end

end ScriptBuild.CommandLine
