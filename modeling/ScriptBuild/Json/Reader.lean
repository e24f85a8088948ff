import ScriptBuild.Json.Value

namespace ScriptBuild.Json

/-- A reader takes a value off the front of a text, or fails. -/
abbrev Reader (α : Type) := List Char → Option (α × List Char)

namespace Reader

/-- The blanks between the parts of a document. -/
def isBlank (c : Char) : Bool := c == ' ' || c == '\t' || c == '\n' || c == '\r'

/-- Drops the blanks in front. -/
def skipBlanks (cs : List Char) : List Char := cs.dropWhile isBlank

/-- A given word. -/
def word (expected : List Char) (value : α) : Reader α := fun cs =>
  if expected.isPrefixOf cs then some (value, cs.drop expected.length) else none

/-- The inside of a text after its opening quote, up to and without its closing one. -/
def written : List Char → Option (List Char × List Char)
  | [] => none
  | '"' :: rest => some ([], rest)
  | '\\' :: 'u' :: a :: b :: c :: d :: rest =>
    if (Text.codeUnit? a b c d).isSome then
      (written rest).map fun (cs, rest) => ('\\' :: 'u' :: a :: b :: c :: d :: cs, rest)
    else none
  | '\\' :: c :: rest =>
    if (Text.shortEscape? c).isSome then
      (written rest).map fun (cs, rest) => ('\\' :: c :: cs, rest)
    else none
  | c :: rest =>
    if c == '\\' || c.toNat < 32 then none else (written rest).map fun (cs, rest) => (c :: cs, rest)

/-- The digits in front, and what follows them. -/
def digits (cs : List Char) : List Char × List Char := cs.span Char.isDigit

/-- At least one digit. -/
def someDigits : Reader (List Char) := fun cs =>
  let (ds, rest) := digits cs
  if ds.isEmpty then none else some (ds, rest)

/-- The whole part of a number: a zero alone, or digits that do not start with one. -/
def whole : Reader (List Char) := fun cs =>
  match cs with
  | '0' :: rest => some (['0'], rest)
  | _ => someDigits cs

/-- A fraction, if there is one. -/
def fraction : Reader (List Char) := fun cs =>
  match cs with
  | '.' :: rest => (someDigits rest).map fun (ds, rest) => ('.' :: ds, rest)
  | _ => some ([], cs)

/-- An exponent, if there is one. -/
def power : Reader (List Char) := fun cs =>
  match cs with
  | c :: rest =>
    if c == 'e' || c == 'E' then
      match rest with
      | sign :: later =>
        if sign == '+' || sign == '-' then
          (someDigits later).map fun (ds, rest) => (c :: sign :: ds, rest)
        else (someDigits rest).map fun (ds, rest) => (c :: ds, rest)
      | [] => none
    else some ([], cs)
  | [] => some ([], cs)

/-- The literal of a number. -/
def number : Reader (List Char) := fun cs => do
  let (sign, rest) := match cs with
    | '-' :: rest => (['-'], rest)
    | _ => ([], cs)
  let (w, rest) ← whole rest
  let (f, rest) ← fraction rest
  let (p, rest) ← power rest
  some (sign ++ w ++ f ++ p, rest)

/-- What stands after an item in a list: another item or the end. -/
inductive Separator where
  | more
  | done

/-- The separator after an item, where `close` ends the list. -/
def separator (close : Char) : Reader Separator := fun cs =>
  match skipBlanks cs with
  | c :: rest =>
    if c == ',' then some (.more, rest) else if c == close then some (.done, rest) else none
  | [] => none

mutual

/-- A value, with blanks allowed in front. Each level and each item uses up one unit of fuel. -/
def value (fuel : Nat) (cs : List Char) : Option (Value × List Char) :=
  match fuel with
  | 0 => none
  | fuel + 1 =>
    match skipBlanks cs with
    | [] => none
    | c :: rest =>
      if c == '"' then (written rest).map fun (s, rest) => (.text s, rest)
      else if c == '[' then
        match skipBlanks rest with
        | ']' :: rest => some (.array [], rest)
        | rest => (items fuel rest).map fun (vs, rest) => (.array vs, rest)
      else if c == '\x7b' then
        match skipBlanks rest with
        | '\x7d' :: rest => some (.object [], rest)
        | rest => (members fuel rest).map fun (ms, rest) => (.object ms, rest)
      else if c == 'n' then word "null".toList .null (c :: rest)
      else if c == 't' then word "true".toList (.bool true) (c :: rest)
      else if c == 'f' then word "false".toList (.bool false) (c :: rest)
      else (number (c :: rest)).map fun (n, rest) => (.number n, rest)

/-- The items of an array that is not empty, with its closing bracket. -/
def items (fuel : Nat) (cs : List Char) : Option (List Value × List Char) :=
  match fuel with
  | 0 => none
  | fuel + 1 => do
    let (v, rest) ← value fuel cs
    match ← separator ']' rest with
    | (.done, rest) => some ([v], rest)
    | (.more, rest) =>
      let (vs, rest) ← items fuel rest
      some (v :: vs, rest)

/-- The members of an object that is not empty, with its closing brace. -/
def members (fuel : Nat) (cs : List Char) : Option (List (List Char × Value) × List Char) :=
  match fuel with
  | 0 => none
  | fuel + 1 =>
    match skipBlanks cs with
    | '"' :: rest => do
      let (key, rest) ← written rest
      match skipBlanks rest with
      | ':' :: rest =>
        let (v, rest) ← value fuel rest
        match ← separator '\x7d' rest with
        | (.done, rest) => some ([(key, v)], rest)
        | (.more, rest) =>
          let (ms, rest) ← members fuel rest
          some ((key, v) :: ms, rest)
      | _ => none
    | _ => none

end

end Reader

/-- The value that a whole document writes down. The grammar is strict: blanks are the four of the
    standard, numbers have no needless zeros or signs, texts hold no control characters and only the
    known escapes. Nothing is decoded, so a number may be too large and a text may hold a surrogate
    alone. Every level and every item takes at least one character, so the length of the document is
    fuel enough. -/
def Value.parse? (document : String) : Option Value :=
  let cs := document.toList
  match Reader.value cs.length cs with
  | some (v, rest) => if (Reader.skipBlanks rest).isEmpty then some v else none
  | none => none

end ScriptBuild.Json
