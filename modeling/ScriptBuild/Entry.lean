import ScriptBuild.SearchPath

namespace ScriptBuild

/-- An entry point as it is asked for: a name that is searched for, a name in one directory, or a
    snippet of code. A function of the same name elsewhere is no substitute for one that is asked
    for in a directory. -/
inductive Entry where
  | named (name : String)
  | located (name : String) (directory : FilePath)
  | snippet (name : String) (text : String)
deriving DecidableEq, Repr

namespace Entry

/-- The name of an entry point. -/
def name : Entry → String
  | named name | located name _ | snippet name _ => name

/-- An entry point as it is written on a command line: the path of a script, or a name. -/
def ofArgument (argument : String) : Entry :=
  let path : FilePath := ⟨argument⟩
  match path.stem?, path.extension? == some SearchPath.scriptExtension with
  | some stem, true =>
    match path.parent? with
    | some directory => located stem (if directory.text.isEmpty then ⟨"."⟩ else directory)
    | none => located stem ⟨"."⟩
  | _, _ => named argument

/-- What an entry point stands for. -/
inductive Meaning where
  /-- Whatever its name denotes. -/
  | byName
  | defined (definition : Definition)
  /-- Nothing, as its directory does not have it. -/
  | missingIn (directory : FilePath)
deriving DecidableEq, Repr

/-- Whether a definition is a file in a directory. -/
def isWithin (directory : FilePath) (d : Definition) : Bool :=
  d.kind.path?.any (·.startsWith directory)

/-- What an entry point stands for at a given time. -/
def meaning (s : SearchPath) (d : Disk) (now : Nat) : Entry → Meaning
  | named _ => .byName
  | located name directory =>
    match (s.find d name (some directory)).filter (isWithin directory) with
    | some definition => .defined definition
    | none => .missingIn directory
  | snippet _ text => .defined (.snippet text now)

end Entry

end ScriptBuild
