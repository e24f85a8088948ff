namespace ScriptBuild

/-- A path as it is written, which is also how it is shown. What it names is the list of its
    components. -/
structure FilePath where
  text : String
deriving DecidableEq, Repr, Inhabited

namespace FilePath

/-- A step of a path. -/
inductive Component where
  /-- The top of the file system, in front only. -/
  | root
  /-- The directory itself, in front only. -/
  | current
  | parent
  | name (name : String)
deriving DecidableEq, Repr

/-- The segments between slashes, each with the number of characters up to its end. -/
def segmentsFrom (seen : Nat) (current : List Char) : List Char → List (List Char × Nat)
  | [] => [(current.reverse, seen)]
  | c :: cs =>
    if c == '/' then (current.reverse, seen) :: segmentsFrom (seen + 1) [] cs
    else segmentsFrom (seen + 1) (c :: current) cs

/-- What a segment stands for; a single point counts only in front. -/
def componentOf (inFront : Bool) (segment : List Char) : Option Component :=
  if segment == [] then none
  else if segment == ['.'] then if inFront then some .current else none
  else if segment == ['.', '.'] then some .parent
  else some (.name (String.ofList segment))

/-- The components, each with the number of characters up to its end. -/
def pieces (p : FilePath) : List (Component × Nat) :=
  let place (inFront : Bool) (segment : List Char × Nat) :=
    (componentOf inFront segment.1).map fun c => (c, segment.2)
  match p.text.toList with
  | '/' :: cs => (.root, 1) :: (segmentsFrom 1 [] cs).filterMap (place false)
  | cs =>
    match segmentsFrom 0 [] cs with
    | [] => []
    | first :: rest => (place true first).toList ++ rest.filterMap (place false)

/-- The components of a path, in which empty segments and inner points do not count. Two spellings
    name the same file exactly if their components are the same; two points are never folded. -/
def components (p : FilePath) : List Component := p.pieces.map (·.1)

/-- Whether two spellings name the same file. -/
def same (p q : FilePath) : Bool := p.components == q.components

/-- Whether two paths, where there are any, name the same file. -/
def sameOption : Option FilePath → Option FilePath → Bool
  | some p, some q => p.same q
  | none, none => true
  | _, _ => false

/-- Whether a path lies in a directory or is that directory. -/
def startsWith (p directory : FilePath) : Bool := directory.components.isPrefixOf p.components

/-- Whether a path starts at the top of the file system. -/
def isAbsolute (p : FilePath) : Bool := p.text.toList.head? == some '/'

/-- The spelling cut after a number of characters. -/
def upTo (p : FilePath) (size : Nat) : FilePath := ⟨String.ofList (p.text.toList.take size)⟩

/-- The path without its last component. The empty path and the root have none to lose. -/
def parent? (p : FilePath) : Option FilePath :=
  match p.pieces.reverse with
  | [] | (.root, _) :: _ => none
  | [_] => some ⟨""⟩
  | _ :: (_, stop) :: _ => some (p.upTo stop)

/-- The last component with its end, if it is a name. -/
def lastName? (p : FilePath) : Option (String × Nat) :=
  match p.pieces.getLast? with
  | some (.name name, stop) => some (name, stop)
  | _ => none

/-- The name of the file. -/
def fileName? (p : FilePath) : Option String := p.lastName?.map (·.1)

/-- A file name cut at its last point, unless that is its first character. -/
def splitName (name : List Char) : List Char × Option (List Char) :=
  let extension := (name.reverse.takeWhile (· != '.')).reverse
  let stem := name.take (name.length - extension.length - 1)
  if stem.isEmpty || extension.length == name.length then (name, none) else (stem, some extension)

/-- The file name without its extension. -/
def stem? (p : FilePath) : Option String :=
  p.fileName?.map fun name => String.ofList (splitName name.toList).1

/-- What follows the last point of the file name. -/
def extension? (p : FilePath) : Option String :=
  p.fileName?.bind fun name => (splitName name.toList).2.map String.ofList

/-- The spellings of the directories around a path, innermost first. For a relative path the empty
    one is the last. -/
def around (p : FilePath) : List FilePath :=
  (p.pieces.dropLast.reverse.map fun (_, stop) => p.upTo stop) ++
    if p.isAbsolute || p.text.isEmpty then [] else [⟨""⟩]

/-- The segments that are not empty, which are the steps that the system takes along a path. Unlike
    components they keep every point. -/
def steps (p : FilePath) : List String :=
  (segmentsFrom 0 [] p.text.toList).filterMap fun (segment, _) =>
    if segment.isEmpty then none else some (String.ofList segment)

/-- Whether a path ends in a slash, so that it can only name a directory. -/
def endsInSlash (p : FilePath) : Bool := p.text.toList.getLast? == some '/'

/-- The path of something inside a directory. An absolute path stays as it is. -/
def join (directory p : FilePath) : FilePath :=
  if p.isAbsolute || directory.text.isEmpty then p
  else if directory.text.toList.getLast? == some '/' then ⟨directory.text ++ p.text⟩
  else ⟨directory.text ++ "/" ++ p.text⟩

/-- The path of an entry of a directory. -/
def entry (directory : FilePath) (name : String) : FilePath := directory.join ⟨name⟩

/-- The path with another extension. A path that does not end in a name stays as it is. A path that
    ends in a point and an extension loses the extension and gains none, because two points are no
    name. -/
def withExtension (p : FilePath) (extension : String) : FilePath :=
  match p.lastName? with
  | none => p
  | some (name, stop) =>
    let stem := (splitName name.toList).1
    let kept := (p.upTo (stop - name.length + stem.length)).text ++ "."
    if stem == ['.'] && stop == p.text.length then ⟨kept⟩ else ⟨kept ++ extension⟩

end FilePath

end ScriptBuild
