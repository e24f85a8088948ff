namespace ScriptBuild.Json

/-- A JSON value. The literal of a number and the inside of a text are as written, so that a value
    can be read without deciding what its parts mean. A text is decoded only where it is used. -/
inductive Value where
  | null
  | bool (b : Bool)
  | number (literal : List Char)
  | text (written : List Char)
  | array (items : List Value)
  | object (members : List (List Char × Value))

namespace Text

/-- The hexadecimal digit of a number below 16. -/
def hexDigit (n : Nat) : Char := (Nat.digitChar n)

/-- The value of a hexadecimal digit. -/
def hexValue? (c : Char) : Option Nat :=
  if c.isDigit then some (c.toNat - '0'.toNat)
  else if 'a' ≤ c && c ≤ 'f' then some (c.toNat - 'a'.toNat + 10)
  else if 'A' ≤ c && c ≤ 'F' then some (c.toNat - 'A'.toNat + 10)
  else none

/-- The value of four hexadecimal digits. -/
def codeUnit? (a b c d : Char) : Option Nat := do
  let a ← hexValue? a
  let b ← hexValue? b
  let c ← hexValue? c
  let d ← hexValue? d
  some (a * 4096 + b * 256 + c * 16 + d)

/-- A character as it is written inside a text. Quotes, backslashes and control characters are
    escaped, and nothing else is. -/
def encodeChar (c : Char) : List Char :=
  if c == '"' then ['\\', '"']
  else if c == '\\' then ['\\', '\\']
  else if c == '\n' then ['\\', 'n']
  else if c == '\r' then ['\\', 'r']
  else if c == '\t' then ['\\', 't']
  else if c.toNat == 8 then ['\\', 'b']
  else if c.toNat == 12 then ['\\', 'f']
  else if c.toNat < 32 then
    ['\\', 'u', '0', '0', hexDigit (c.toNat / 16), hexDigit (c.toNat % 16)]
  else [c]

/-- A text as it is written between its quotes. -/
def encode (s : List Char) : List Char := s.flatMap encodeChar

/-- What a one-letter escape stands for. -/
def shortEscape? : Char → Option Char
  | '"' => some '"'
  | '\\' => some '\\'
  | '/' => some '/'
  | 'b' => some (Char.ofNat 8)
  | 'f' => some (Char.ofNat 12)
  | 'n' => some '\n'
  | 'r' => some '\r'
  | 't' => some '\t'
  | _ => none

/-- What a written text stands for. Two escaped surrogates make one character; a surrogate alone
    stands for nothing. -/
def decode : List Char → Option (List Char)
  | [] => some []
  | '\\' :: 'u' :: a :: b :: c :: d :: rest => do
    let unit ← codeUnit? a b c d
    if 0xd800 ≤ unit && unit < 0xdc00 then
      match rest with
      | '\\' :: 'u' :: a :: b :: c :: d :: rest =>
        let low ← codeUnit? a b c d
        if 0xdc00 ≤ low && low < 0xe000 then
          let tail ← decode rest
          some (Char.ofNat (0x10000 + (unit - 0xd800) * 1024 + (low - 0xdc00)) :: tail)
        else none
      | _ => none
    else if 0xdc00 ≤ unit && unit < 0xe000 then none
    else
      let tail ← decode rest
      some (Char.ofNat unit :: tail)
  | '\\' :: c :: rest => do
    let char ← shortEscape? c
    let tail ← decode rest
    some (char :: tail)
  | c :: rest => do
    let tail ← decode rest
    some (c :: tail)

end Text

namespace Value

/-- The value of a text. -/
def ofString (s : String) : Value := .text (Text.encode s.toList)

/-- The text that a value stands for. -/
def string? : Value → Option String
  | text written => (Text.decode written).map String.ofList
  | _ => none

/-- The value of a natural number. -/
def ofNat (n : Nat) : Value := .number (Nat.toDigits 10 n)

/-- The natural number below `bound` that a value stands for. It has to be written with digits
    alone. -/
def nat? (bound : Nat) : Value → Option Nat
  | number literal =>
    if literal.all Char.isDigit then
      let n := literal.foldl (fun n c => 10 * n + (c.toNat - '0'.toNat)) 0
      if n < bound then some n else none
    else none
  | _ => none

/-- The items of an array. -/
def items? : Value → Option (List Value)
  | array items => some items
  | _ => none

end Value

end ScriptBuild.Json
