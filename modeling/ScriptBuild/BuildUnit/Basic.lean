import ScriptBuild.FilePath

namespace ScriptBuild

/-- What a unit is, with the path of those that are files: a script, the file of a class, a
    precompiled module, a snippet of code, or one of the two shared tables of global variables and
    of built-in functions. The kind says what makes a unit the same one in a later run. -/
inductive UnitKind where
  | script (path : FilePath)
  | precompiled (path : FilePath)
  | globals
  | builtins
  | snippet
  | classFile (path : FilePath)
  | unknown
deriving DecidableEq, Repr

/-- The kind of a unit without its path. -/
inductive KindTag where
  | script
  | precompiled
  | globals
  | builtins
  | snippet
  | classFile
  | unknown
deriving DecidableEq, Repr

namespace KindTag

/-- All tags. -/
def all : List KindTag :=
  [script, precompiled, globals, builtins, snippet, classFile, unknown]

/-- The written form of a tag. -/
def text : KindTag → String
  | script => "script"
  | precompiled => "precompiled"
  | globals => "globals"
  | builtins => "builtins"
  | snippet => "snippet"
  | classFile => "class-meta"
  | unknown => "unknown"

/-- The tag with a given written form. -/
def ofText? (text : String) : Option KindTag := all.find? fun tag => tag.text == text

/-- The kind with a given tag. A file whose path is lost is unknown; the other kinds ignore it. -/
def withPath (tag : KindTag) (path : Option FilePath) : UnitKind :=
  match tag, path with
  | script, some path => .script path
  | precompiled, some path => .precompiled path
  | classFile, some path => .classFile path
  | globals, _ => .globals
  | builtins, _ => .builtins
  | snippet, _ => .snippet
  | _, _ => .unknown

end KindTag

namespace UnitKind

/-- The tag of a kind. -/
def tag : UnitKind → KindTag
  | script _ => .script
  | precompiled _ => .precompiled
  | globals => .globals
  | builtins => .builtins
  | snippet => .snippet
  | classFile _ => .classFile
  | unknown => .unknown

/-- The path of a file. -/
def path? : UnitKind → Option FilePath
  | script path | precompiled path | classFile path => some path
  | _ => none

/-- Kinds that are files, whose timestamps are compared with the file system. -/
def isFile (kind : UnitKind) : Bool := kind.path?.isSome

/-- Kinds that the time of their creation identifies. -/
def isEphemeral : UnitKind → Bool
  | snippet | unknown => true
  | _ => false

/-- Kinds of which there is one unit that collects slots. -/
def isSharedTable : UnitKind → Bool
  | globals | builtins => true
  | _ => false

/-- Kinds with a body of code. -/
def hasBody : UnitKind → Bool
  | script _ | snippet | classFile _ => true
  | _ => false

end UnitKind

/-- Where the body of a unit is found. -/
inductive Body where
  | file (path : FilePath)
  | inline (text : String)
  /-- A shared table, which has no body. -/
  | table
deriving DecidableEq, Repr

/-- The body that a kind implies: the file of a file, and the table of a shared table. -/
def UnitKind.body? (kind : UnitKind) : Option Body :=
  match kind.path? with
  | some path => some (.file path)
  | none => if kind.isSharedTable then some .table else none

/-- Whether two kinds are the same but for the spelling of their paths. -/
def UnitKind.same (a b : UnitKind) : Bool :=
  a.tag == b.tag && FilePath.sameOption a.path? b.path?

/-- Whether two bodies are the same but for the spelling of their paths. -/
def Body.same : Body → Body → Bool
  | .file p, .file q => p.same q
  | a, b => a == b

/-- What is known about a unit this run. -/
inductive Freshness where
  /-- Seen for the first time. -/
  | new
  /-- Its file is newer than what is recorded, or it is a table that grew. -/
  | updated
  /-- Unchanged, but one of its imports now resolves elsewhere. -/
  | dependencyUpdated
  | old
deriving DecidableEq, Repr

/-- Whether a unit has to be built. -/
def Freshness.needsBuild (freshness : Freshness) : Bool := freshness != .old

/-- One unit. Units of one name are told apart by their overload numbers; the slots are the names
    that the unit exports, in the order of their discovery. -/
structure BuildUnit where
  name : String
  overload : Nat
  kind : UnitKind
  timestamp : Nat
  body : Option Body
  slots : List String
deriving DecidableEq, Repr

namespace BuildUnit

/-- The directory from which the names of a unit are looked up. -/
def directory? (u : BuildUnit) : Option FilePath := u.kind.path?.bind FilePath.parent?

/-- Whether a unit exports a name. -/
def hasSlot (u : BuildUnit) (slot : String) : Bool := u.slots.contains slot

/-- Adds a slot at the end unless it is there. -/
def addSlot (u : BuildUnit) (slot : String) : BuildUnit :=
  if u.hasSlot slot then u else { u with slots := u.slots ++ [slot] }

/-- Whether two units are the same but for the spelling of their paths. -/
def same (u v : BuildUnit) : Bool :=
  u.name == v.name && u.overload == v.overload && u.kind.same v.kind &&
    u.timestamp == v.timestamp && u.slots == v.slots &&
    match u.body, v.body with
    | some a, some b => a.same b
    | none, none => true
    | _, _ => false

/-- How messages name a unit: overloads after the first show their number. -/
def display (u : BuildUnit) : String :=
  if u.overload == 0 then u.name else u.name ++ "~" ++ toString u.overload

/-- The spelling of a character in file names: ASCII letters and digits stay, an underscore is
    doubled, and any other character becomes its number in hexadecimal between underscores. -/
def escapeChar (c : Char) : List Char :=
  if c.isAlphanum then [c]
  else if c == '_' then ['_', '_']
  else '_' :: Nat.toDigits 16 c.toNat ++ ['_']

/-- The name under which the files of a unit are written, made of its name and its overload. -/
def stem (u : BuildUnit) : String :=
  String.ofList (u.name.toList.flatMap escapeChar ++ '_' :: Nat.toDigits 10 u.overload)

end BuildUnit

end ScriptBuild
