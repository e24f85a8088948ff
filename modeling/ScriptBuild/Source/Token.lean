namespace ScriptBuild

/-- The bytes from `start` up to, not including, `stop`. -/
structure Span where
  start : Nat
  stop : Nat
deriving DecidableEq, Repr, Inhabited

/-- A span as a message shows it. -/
def Span.text (s : Span) : String := toString s.start ++ ".." ++ toString s.stop

/-- The reserved words. -/
inductive Keyword where
  | function | endBlock | ifThen | elseIf | elseThen | forLoop | parforLoop | whileLoop
  | switchOn | caseOf | otherwise | tryBlock | catchBlock | returnNow | breakLoop | continueLoop
  | globalVar | persistentVar | classdef | spmd
deriving DecidableEq, Repr

namespace Keyword

/-- Every reserved word. -/
def all : List Keyword :=
  [function, endBlock, ifThen, elseIf, elseThen, forLoop, parforLoop, whileLoop, switchOn, caseOf,
    otherwise, tryBlock, catchBlock, returnNow, breakLoop, continueLoop, globalVar, persistentVar,
    classdef, spmd]

/-- The spelling of a reserved word. -/
def text : Keyword → String
  | function => "function"
  | endBlock => "end"
  | ifThen => "if"
  | elseIf => "elseif"
  | elseThen => "else"
  | forLoop => "for"
  | parforLoop => "parfor"
  | whileLoop => "while"
  | switchOn => "switch"
  | caseOf => "case"
  | otherwise => "otherwise"
  | tryBlock => "try"
  | catchBlock => "catch"
  | returnNow => "return"
  | breakLoop => "break"
  | continueLoop => "continue"
  | globalVar => "global"
  | persistentVar => "persistent"
  | classdef => "classdef"
  | spmd => "spmd"

/-- The reserved word with a given spelling. -/
def ofText? (word : String) : Option Keyword := all.find? fun k => k.text == word

/-- Words that open a block which an `end` of its own closes. -/
def opensBlock : Keyword → Bool
  | function | ifThen | forLoop | parforLoop | whileLoop | switchOn | tryBlock | spmd
  | classdef => true
  | _ => false

end Keyword

/-- Operators and delimiters. -/
inductive Symbol where
  | plus | minus | star | slash | backslash | caret
  | dotStar | dotSlash | dotBackslash | dotCaret
  | transpose | dotTranspose
  | assign | eq | ne | lt | gt | le | ge
  | amp | ampAmp | pipe | pipePipe | tilde | colon
  | lparen | rparen | lbrace | rbrace | lbracket | rbracket
  | semicolon | comma | dot | atSign
deriving DecidableEq, Repr

namespace Symbol

/-- The spelling of a symbol. Negation has two spellings in a source, of which this is the one
    that its tokens carry. -/
def text : Symbol → String
  | plus => "+"
  | minus => "-"
  | star => "*"
  | slash => "/"
  | backslash => "\\"
  | caret => "^"
  | dotStar => ".*"
  | dotSlash => "./"
  | dotBackslash => ".\\"
  | dotCaret => ".^"
  | transpose => "'"
  | dotTranspose => ".'"
  | assign => "="
  | eq => "=="
  | ne => "~="
  | lt => "<"
  | gt => ">"
  | le => "<="
  | ge => ">="
  | amp => "&"
  | ampAmp => "&&"
  | pipe => "|"
  | pipePipe => "||"
  | tilde => "~"
  | colon => ":"
  | lparen => "("
  | rparen => ")"
  | lbrace => "\x7b"
  | rbrace => "\x7d"
  | lbracket => "["
  | rbracket => "]"
  | semicolon => ";"
  | comma => ","
  | dot => "."
  | atSign => "@"

/-- The brackets that open a nested level. -/
def isOpener : Symbol → Bool
  | lparen | lbracket | lbrace => true
  | _ => false

/-- The brackets that close a nested level. -/
def isCloser : Symbol → Bool
  | rparen | rbracket | rbrace => true
  | _ => false

end Symbol

/-- What a token is. -/
inductive TokenKind where
  | keyword (word : Keyword)
  | symbol (symbol : Symbol)
  | number
  | text
  | name
  | newline
  | eof
  | malformed
deriving DecidableEq, Repr

namespace TokenKind

/-- Whether a block opens here that an `end` closes. -/
def opensBlock : TokenKind → Bool
  | keyword word => word.opensBlock
  | _ => false

/-- The tokens after which a quote that touches them is a transposition and not a text. -/
def endsOperand : TokenKind → Bool
  | name | number | keyword .endBlock => true
  | symbol s => s.isCloser || s == .transpose || s == .dotTranspose
  | _ => false

/-- The tokens that end a statement outside brackets. -/
def isSeparator : TokenKind → Bool
  | newline | eof | symbol .semicolon | symbol .comma => true
  | _ => false

/-- A bracket that opens a nested level. -/
def isOpener : TokenKind → Bool
  | symbol s => s.isOpener
  | _ => false

/-- A bracket that closes a nested level. -/
def isCloser : TokenKind → Bool
  | symbol s => s.isCloser
  | _ => false

/-- The bracket depth after a token of this kind. A closer without its opener leaves depth zero. -/
def depthAfter (kind : TokenKind) (depth : Nat) : Nat :=
  if kind.isOpener then depth + 1 else if kind.isCloser then depth - 1 else depth

end TokenKind

/-- A token: what it is, the bytes it covers, and its value. The value is the name, the number in
    its normal spelling, the text without its quotes, or the complaint of a malformed token. -/
structure Token where
  kind : TokenKind
  span : Span
  value : String
deriving DecidableEq, Repr

/-- Whether a token is a name. -/
def Token.isName (t : Token) : Bool := t.kind == .name

end ScriptBuild
