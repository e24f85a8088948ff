import ScriptBuild.Source.Token
import ScriptBuild.Text.CharClass

namespace ScriptBuild

open Text

/-- The number of bytes a text takes. -/
def utf8Length (cs : List Char) : Nat := cs.foldr (fun c length => c.utf8Size + length) 0

/-- One token with what is skipped before it: a gap of blanks, comments and continuations, then the
    characters of the token. The gaps and texts of all lexemes together are the source, so spans are
    running sums of their sizes in bytes. -/
structure Lexeme where
  gap : List Char
  text : List Char
  kind : TokenKind
  value : String
deriving DecidableEq, Repr

namespace Lexer

/-- The characters up to the next line feed. -/
def lineOf (cs : List Char) : List Char := cs.takeWhile (· != '\n')

/-- The number of characters from the line feed at the front up to the end of the first line that
    holds only the closing mark of a block comment; none if no such line follows. -/
def blockCommentTail : List Char → Option Nat
  | [] => none
  | _ :: cs =>
    let line := lineOf cs
    if trim line == ['%', '\x7d'] then some (1 + line.length)
    else (blockCommentTail (cs.drop line.length)).map (1 + line.length + ·)
termination_by cs => cs.length
decreasing_by simp only [List.length_drop, List.length_cons]; omega

/-- What stands at the front of a text between two tokens. The numbers count characters. -/
inductive GapPiece where
  /-- A token starts here, or the text ends. -/
  | none
  /-- A piece of `more + 1` characters; `spaces` says whether it separates its neighbours. -/
  | skip (more : Nat) (spaces : Bool)
  /-- A block comment that is never closed. -/
  | unclosed
deriving DecidableEq, Repr

/-- The piece of a gap at the front of a text. A block comment opens with a line of its own, which
    `atLineStart` permits; a continuation takes the rest of its line with the line feed. -/
def gapPiece (atLineStart : Bool) : List Char → GapPiece
  | [] => .none
  | c :: cs =>
    if c != '\n' && isBlank c then .skip 0 true
    else if c == '%' then
      let line := lineOf cs
      if atLineStart && trimEnd (c :: line) == ['%', '\x7b'] then
        match blockCommentTail (cs.drop line.length) with
        | some size => .skip (line.length + size) false
        | none => .unclosed
      else .skip line.length false
    else match c, cs with
      | '.', '.' :: '.' :: _ =>
        let line := lineOf cs
        .skip (line.length + if (cs.drop line.length).isEmpty then 0 else 1) true
      | _, _ => .none

/-- A whole gap: its length, whether it separates its neighbours, and whether it is cut short by a
    block comment that is never closed. -/
structure Gap where
  length : Nat
  spaced : Bool
  unclosed : Bool
deriving DecidableEq, Repr

/-- The gap at the front of a text. -/
def gap (atLineStart : Bool) (cs : List Char) : Gap :=
  match cs with
  | [] => ⟨0, false, false⟩
  | c :: cs =>
    match gapPiece atLineStart (c :: cs) with
    | .none => ⟨0, false, false⟩
    | .unclosed => ⟨0, false, true⟩
    | .skip more spaces =>
      let later := gap atLineStart (cs.drop more)
      ⟨more + 1 + later.length, spaces || later.spaced, later.unclosed⟩
termination_by cs.length
decreasing_by simp only [List.length_drop, List.length_cons]; omega

/-- A token read at the front of a text: it covers the first character and `more` after it. -/
structure Reading where
  more : Nat
  kind : TokenKind
  value : List Char
deriving DecidableEq, Repr

/-- The digits at the front of a text. -/
def digits (cs : List Char) : List Char := cs.takeWhile Char.isDigit

/-- An exponent at the front of a text, in its normal spelling: the letter `e`, a sign if one is
    written, and at least one digit; empty if there is none. It has as many characters as it
    covers. -/
def exponent : List Char → List Char
  | mark :: cs =>
    if mark == 'e' || mark == 'E' then
      match cs with
      | c :: rest =>
        if c == '+' || c == '-' then
          if (digits rest).isEmpty then [] else 'e' :: c :: digits rest
        else if (digits cs).isEmpty then [] else 'e' :: digits cs
      | [] => []
    else []
  | [] => []

/-- Whether a point after digits belongs to the number. It does not where it starts an element-wise
    operator or a continuation. -/
def pointContinuesNumber : List Char → Bool
  | '*' :: _ | '/' :: _ | '\\' :: _ | '^' :: _ | '\'' :: _ => false
  | '.' :: '.' :: _ => false
  | _ => true

/-- A number that starts with a digit, in its normal spelling: the imaginary unit is always `i`. It
    has as many characters as it covers. -/
def number (cs : List Char) : List Char :=
  let whole := digits cs
  let fraction := match cs.drop whole.length with
    | '.' :: rest => if pointContinuesNumber rest then '.' :: digits rest else []
    | _ => []
  let power := exponent (cs.drop (whole.length + fraction.length))
  let unit := match cs.drop (whole.length + fraction.length + power.length) with
    | 'i' :: _ | 'j' :: _ => ['i']
    | _ => []
  whole ++ fraction ++ power ++ unit

/-- A text up to its closing quote: the characters it stands for and the number of characters read
    after the opening quote, the closing one included. A doubled quote stands for one. Without a
    closing quote on the line the first component is none. -/
def quoted (quote : Char) : List Char → Option (List Char) × Nat
  | [] => (none, 0)
  | c :: cs =>
    if c == quote then
      match cs with
      | d :: rest =>
        if d == quote then
          let (value, size) := quoted quote rest
          (value.map (quote :: ·), size + 2)
        else (some [], 1)
      | [] => (some [], 1)
    else if c == '\n' then (none, 0)
    else
      let (value, size) := quoted quote cs
      (value.map (c :: ·), size + 1)

/-- A text after its opening quote. -/
def readText (quote : Char) (cs : List Char) : Reading :=
  match quoted quote cs with
  | (some value, size) => ⟨size, .text, value⟩
  | (none, size) => ⟨size, .malformed, "Unterminated string literal".toList⟩

/-- A name or a reserved word. -/
def readWord (c : Char) (cs : List Char) : Reading :=
  let tail := cs.takeWhile isWordChar
  let kind := match Keyword.ofText? (String.ofList (c :: tail)) with
    | some word => .keyword word
    | none => .name
  ⟨tail.length, kind, c :: tail⟩

/-- A symbol that covers `more + 1` characters. -/
def readSymbol (more : Nat) (s : Symbol) : Reading := ⟨more, .symbol s, s.text.toList⟩

/-- What starts with a point: a number without whole part, an element-wise operator or the point
    itself. -/
def readPoint (cs : List Char) : Reading :=
  match cs with
  | '*' :: _ => readSymbol 1 .dotStar
  | '/' :: _ => readSymbol 1 .dotSlash
  | '\\' :: _ => readSymbol 1 .dotBackslash
  | '^' :: _ => readSymbol 1 .dotCaret
  | '\'' :: _ => readSymbol 1 .dotTranspose
  | _ =>
    let fraction := digits cs
    if fraction.isEmpty then readSymbol 0 .dot
    else
      let power := exponent (cs.drop fraction.length)
      ⟨fraction.length + power.length, .number, '0' :: '.' :: fraction ++ power⟩

/-- The symbol of two characters if the second one follows, else the symbol of one. -/
def readPair (cs : List Char) (second : Char) (short long : Symbol) : Reading :=
  if cs.head? == some second then readSymbol 1 long else readSymbol 0 short

/-- The symbols that need no look at what follows. -/
def symbolOf? : Char → Option Symbol
  | '+' => some .plus
  | '-' => some .minus
  | '*' => some .star
  | '/' => some .slash
  | '\\' => some .backslash
  | '^' => some .caret
  | ':' => some .colon
  | '(' => some .lparen
  | ')' => some .rparen
  | '\x7b' => some .lbrace
  | '\x7d' => some .rbrace
  | '[' => some .lbracket
  | ']' => some .rbracket
  | ';' => some .semicolon
  | ',' => some .comma
  | '@' => some .atSign
  | _ => none

/-- The token that starts with the character `c`. A quote is a transposition if it touches the end
    of an operand, which `afterOperand` says. -/
def readToken (afterOperand : Bool) (c : Char) (cs : List Char) : Reading :=
  match c with
  | '\n' => ⟨0, .newline, ['\n']⟩
  | '\'' => if afterOperand then readSymbol 0 .transpose else readText '\'' cs
  | '"' => readText '"' cs
  | '.' => readPoint cs
  | '=' => readPair cs '=' .assign .eq
  | '<' => readPair cs '=' .lt .le
  | '>' => readPair cs '=' .gt .ge
  | '~' | '!' => readPair cs '=' .tilde .ne
  | '&' => readPair cs '&' .amp .ampAmp
  | '|' => readPair cs '|' .pipe .pipePipe
  | _ =>
    match symbolOf? c with
    | some s => readSymbol 0 s
    | none =>
      if c.isDigit then
        let value := number (c :: cs)
        ⟨value.length - 1, .number, value⟩
      else if isLetter c then readWord c cs
      else ⟨0, .malformed, "Unexpected character: ".toList ++ [c]⟩

/-- Whether the next token is the first of its line, judged by the token before it. -/
def startsLine : Option TokenKind → Bool
  | none | some .newline => true
  | _ => false

/-- The lexemes of a text that follows a token of kind `previous`. The last one is the end of the
    text, which covers nothing. -/
def lexemesAfter (previous : Option TokenKind) (cs : List Char) : List Lexeme :=
  let skipped := gap (startsLine previous) cs
  match _h : cs.drop skipped.length with
  | [] => [⟨cs.take skipped.length, [], .eof, ""⟩]
  | c :: rest =>
    if skipped.unclosed then
      [⟨cs.take skipped.length, c :: rest, .malformed, "Unterminated block comment"⟩,
        ⟨[], [], .eof, ""⟩]
    else
      let touches := !skipped.spaced && previous.any TokenKind.endsOperand
      let reading := readToken touches c rest
      ⟨cs.take skipped.length, c :: rest.take reading.more, reading.kind,
          String.ofList reading.value⟩ ::
        lexemesAfter (some reading.kind) (rest.drop reading.more)
termination_by cs.length
decreasing_by
  have shorter := congrArg List.length _h
  simp only [List.length_drop, List.length_cons] at shorter ⊢
  omega

end Lexer

/-- The lexemes of a source. -/
def lexemes (source : String) : List Lexeme := Lexer.lexemesAfter none source.toList

namespace Token

/-- The tokens of lexemes whose first gap starts at byte `offset`. -/
def ofLexemes (offset : Nat) : List Lexeme → List Token
  | [] => []
  | lexeme :: later =>
    let start := offset + utf8Length lexeme.gap
    let stop := start + utf8Length lexeme.text
    ⟨lexeme.kind, ⟨start, stop⟩, lexeme.value⟩ :: ofLexemes stop later

/-- The tokens of a source, the last of which is its end. -/
def ofSource (source : String) : List Token := ofLexemes 0 (lexemes source)

end Token

end ScriptBuild
