import ScriptBuild.Source.Event
import ScriptBuild.Source.Lexer

namespace ScriptBuild

namespace Outline

/-- Cuts tokens at the separators outside brackets. `depth` is the bracket depth, and `current`
    holds the tokens of the unfinished statement, last first. -/
def statementsFrom (depth : Nat) (current : List Token) : List Token → List (List Token)
  | [] => if current.isEmpty then [] else [current.reverse]
  | t :: ts =>
    let depth := t.kind.depthAfter depth
    if depth == 0 && t.kind.isSeparator then
      if current.isEmpty then statementsFrom depth [] ts
      else current.reverse :: statementsFrom depth [] ts
    else statementsFrom depth (t :: current) ts

/-- The statements of a source, none of them empty. -/
def statements (tokens : List Token) : List (List Token) := statementsFrom 0 [] tokens

/-- Counts block openers and `end`s outside brackets. -/
def countBlocks (depth openers ends : Nat) : List Token → Nat × Nat
  | [] => (openers, ends)
  | t :: ts =>
    if depth == 0 && t.kind == .keyword .endBlock then countBlocks depth openers (ends + 1) ts
    else if depth == 0 && t.kind.opensBlock then countBlocks depth (openers + 1) ends ts
    else countBlocks (t.kind.depthAfter depth) openers ends ts

/-- Whether every function of a source is closed by an `end` of its own. Then openers and `end`s
    balance; otherwise there is one opener too many for each function. A class always closes its
    functions. -/
def closesFunctions (tokens : List Token) : Bool :=
  tokens.any (·.kind == .keyword .classdef) ||
    let (openers, ends) := countBlocks 0 0 0 tokens
    openers == ends

/-- The two sides of the first assignment sign outside brackets. -/
def splitAssignment (depth : Nat) : List Token → Option (List Token × List Token)
  | [] => none
  | t :: ts =>
    if depth == 0 && t.kind == .symbol .assign then some ([], ts)
    else (splitAssignment (t.kind.depthAfter depth) ts).map fun (left, right) => (t :: left, right)

/-- Whether a blank or a comment stands between two tokens. -/
def apart (left right : Token) : Bool := left.span.stop < right.span.start

/-- A name with only words after it, such as `hold on`. -/
def isCommand : List Token → Bool
  | command :: word :: words =>
    command.isName && apart command word &&
      (word :: words).all fun t => t.kind == .name || t.kind == .number
  | _ => false

/-- Whether an element of an output list can end with a token before a blank. -/
def endsElement (kind : TokenKind) : Bool :=
  kind == .name || kind == .symbol .rparen || kind == .symbol .rbrace || kind == .symbol .tilde

/-- Whether an element of an output list can start with a token after a blank. -/
def startsElement (kind : TokenKind) : Bool := kind == .name || kind == .symbol .tilde

/-- Cuts the inside of an output list such as `[a, b(i), ~]` into its elements, which commas
    separate, or blanks between two operands. `current` holds the unfinished element, last first. -/
def elementsFrom (depth : Nat) (current : List Token) : List Token → List (List Token)
  | [] => if current.isEmpty then [] else [current.reverse]
  | t :: ts =>
    if depth != 0 || t.kind.isOpener || t.kind.isCloser then
      elementsFrom (t.kind.depthAfter depth) (t :: current) ts
    else if t.kind == .symbol .comma then
      if current.isEmpty then elementsFrom depth [] ts
      else current.reverse :: elementsFrom depth [] ts
    else if current.head?.any fun last =>
        apart last t && startsElement t.kind && endsElement last.kind then
      current.reverse :: elementsFrom depth [t] ts
    else elementsFrom depth (t :: current) ts

/-- The elements of the inside of an output list, none of them empty. -/
def elements (tokens : List Token) : List (List Token) := elementsFrom 0 [] tokens

/-- Where in an expression the next token stands. -/
inductive Place where
  /-- Among operands and operators; directly after a point a name is a field. -/
  | operand (afterPoint : Bool)
  /-- Directly after the `@` with the given span. -/
  | afterAt (span : Span)
  /-- Inside the parameter list of a closure. -/
  | parameters
deriving DecidableEq, Repr

/-- How far an expression has been read: the bracket depth, the depths at which the open closure
    bodies started, innermost first, and the place of the next token. -/
structure ExpressionState where
  depth : Nat
  bodies : List Nat
  place : Place
deriving DecidableEq, Repr

namespace ExpressionState

/-- The start of an expression. -/
def start : ExpressionState := ⟨0, [], .operand false⟩

/-- Closes the innermost bodies that satisfy a test on their starting depth. -/
def closeBodies (s : ExpressionState) (test : Nat → Bool) : ExpressionState × List Event :=
  ({ s with bodies := s.bodies.dropWhile test }, (s.bodies.takeWhile test).map fun _ => .exit)

/-- A token among operands. A closure body ends at a separator on its own bracket level and at a
    bracket that closes around it. -/
def operand (s : ExpressionState) (afterPoint : Bool) (t : Token) : ExpressionState × List Event :=
  let s := { s with depth := t.kind.depthAfter s.depth, place := .operand false }
  if t.kind.isCloser then s.closeBodies (s.depth < ·)
  else match t.kind with
    | .symbol .comma | .symbol .semicolon | .newline => s.closeBodies (· == s.depth)
    | .symbol .atSign => ({ s with place := .afterAt t.span }, [])
    | .symbol .dot => ({ s with place := .operand true }, [])
    | .name => (s, if afterPoint then [] else [.reference t.value t.span])
    | _ => (s, [])

/-- One token of an expression. After `@` comes the parameter list of a closure, or the name of the
    function that it refers to. -/
def step (s : ExpressionState) (t : Token) : ExpressionState × List Event :=
  match s.place with
  | .operand afterPoint => s.operand afterPoint t
  | .afterAt span =>
    match t.kind with
    | .symbol .lparen =>
      ({ s with bodies := s.depth :: s.bodies, place := .parameters }, [.enter .closure none span])
    | .name => ({ s with place := .operand false }, [.reference t.value t.span])
    | _ => s.operand false t
  | .parameters =>
    match t.kind with
    | .symbol .rparen => ({ s with place := .operand false }, [])
    | .name => (s, [.declare .assigned t.value t.span])
    | _ => (s, [])

/-- The events of the remaining tokens of an expression, whose end closes all bodies. -/
def events (s : ExpressionState) : List Token → List Event
  | [] => s.bodies.map fun _ => .exit
  | t :: ts =>
    let (s, now) := s.step t
    now ++ s.events ts

end ExpressionState

/-- The events of an expression. -/
def expression (tokens : List Token) : List Event := ExpressionState.start.events tokens

/-- A block that is open. -/
inductive Block where
  | function
  | control
  | classBody
  /-- A section of a class that holds no code. -/
  | data
deriving DecidableEq, Repr

/-- The sections of a class that hold no code. -/
def dataSections : List String := ["properties", "events", "enumeration"]

/-- What closing a block says: only functions are scopes. -/
def Block.closing : Block → List Event
  | function => [.exit]
  | _ => []

/-- Declares the names among some tokens. -/
def declareNames (declaration : Declaration) (tokens : List Token) : List Event :=
  (tokens.filter Token.isName).map fun t => .declare declaration t.value t.span

/-- The parts of a dotted name after its first one, and the tokens after the name. -/
def dottedParts : List Token → List String × List Token
  | dot :: part :: rest =>
    if dot.kind == .symbol .dot && part.isName then
      let (parts, rest) := dottedParts rest
      (part.value :: parts, rest)
    else ([], dot :: part :: rest)
  | tokens => ([], tokens)

/-- A function header after its keyword: `name(parameters)`, `output = name(parameters)` or
    `[a, b] = name(parameters)`. The name may have several parts, as an accessor has. Where
    functions have no `end` of their own, a header closes the function before it. -/
def functionHeader (ended : Bool) (blocks : List Block) (header : List Token) :
    List Block × List Event :=
  let (blocks, closed) := if ended then (blocks, []) else ([], blocks.flatMap Block.closing)
  let (outputs, signature) := (splitAssignment 0 header).getD ([], header)
  match signature with
  | [] => (blocks, closed)
  | first :: rest =>
    if first.isName then
      let (parts, parameters) := dottedParts rest
      let name := ".".intercalate (first.value :: parts)
      (.function :: blocks,
        closed ++
          [.declare .function name first.span, .enter .function (some name) first.span] ++
          declareNames .assigned parameters ++ declareNames .assigned outputs)
    else (blocks, closed)

/-- What stands between two parentheses around a whole loop header. -/
def loopInside (header : List Token) : List Token :=
  match header with
  | first :: rest =>
    match rest.getLast? with
    | some last =>
      if first.kind == .symbol .lparen && last.kind == .symbol .rparen then rest.dropLast
      else header
    | none => header
  | [] => header

/-- The header of a counting loop after its keyword: a variable and its range. -/
def loopHeader (header : List Token) : List Event :=
  match loopInside header with
  | counter :: eq :: range =>
    if counter.isName && eq.kind == .symbol .assign then
      expression range ++ [.declare .assigned counter.value counter.span]
    else expression (counter :: eq :: range)
  | inside => expression inside

/-- What stands between the brackets of an output list. -/
def outputsInside (rest : List Token) : List Token :=
  match rest.getLast? with
  | some last => if last.kind == .symbol .rbracket then rest.dropLast else rest
  | none => rest

/-- What the left side of an assignment reads, and the tokens of the names that it assigns. -/
def targets (left : List Token) : List Event × List Token :=
  match left with
  | [] => ([], [])
  | first :: rest =>
    if first.kind == .symbol .lbracket then
      let parts := (elements (outputsInside rest)).map fun element =>
        match element with
        | [] => ([], [])
        | name :: indices =>
          if name.isName then (expression indices, [name]) else (expression element, [])
      (parts.flatMap (·.1), parts.flatMap (·.2))
    else if first.isName then (expression rest, [first])
    else (expression left, [])

/-- A statement that starts with no keyword: a command, an assignment or an expression. -/
def simpleStatement (tokens : List Token) : List Event :=
  if isCommand tokens then
    (tokens.take 1).map fun t => .reference t.value t.span
  else match splitAssignment 0 tokens with
    | none => expression tokens
    | some (left, right) =>
      let (reads, names) := targets left
      expression right ++ reads ++ declareNames .assigned names

/-- The superclasses in a class header, which follow the first `<`. -/
def superclasses (header : List Token) : List Token :=
  (header.dropWhile (·.kind != .symbol .lt)).drop 1

/-- The name that a handler gives to what it catches, if it is all that follows the keyword. -/
def caughtName? : List Token → Option Token
  | [t] => if t.isName then some t else none
  | _ => none

/-- One statement: the open blocks after it, innermost first, and its events. `ended` says whether
    functions have an `end` of their own. -/
def statement (ended : Bool) (blocks : List Block) : List Token → List Block × List Event
  | [] => (blocks, [])
  | first :: rest =>
    if blocks.head? == some .data then
      (if first.kind == .keyword .endBlock then blocks.tail else blocks, [])
    else match first.kind with
      | .keyword .function => functionHeader ended blocks rest
      | .keyword .endBlock => (blocks.tail, (blocks.take 1).flatMap Block.closing)
      | .keyword .forLoop | .keyword .parforLoop => (.control :: blocks, loopHeader rest)
      | .keyword .ifThen | .keyword .whileLoop | .keyword .switchOn | .keyword .spmd =>
        (.control :: blocks, expression rest)
      | .keyword .tryBlock => statement ended (.control :: blocks) rest
      | .keyword .elseIf | .keyword .caseOf => (blocks, expression rest)
      | .keyword .elseThen | .keyword .otherwise => statement ended blocks rest
      | .keyword .catchBlock =>
        match caughtName? rest with
        | some caught => (blocks, [.declare .assigned caught.value caught.span])
        | none => statement ended blocks rest
      | .keyword .globalVar => (blocks, declareNames .global rest)
      | .keyword .persistentVar => (blocks, declareNames .persistent rest)
      | .keyword .classdef => (.classBody :: blocks, expression (superclasses rest))
      | .keyword .returnNow | .keyword .breakLoop | .keyword .continueLoop => (blocks, [])
      | .name =>
        if blocks.head? == some .classBody then
          if dataSections.contains first.value then (.data :: blocks, [])
          else if first.value == "methods" then (.control :: blocks, [])
          else (blocks, [])
        else (blocks, simpleStatement (first :: rest))
      | _ => (blocks, simpleStatement (first :: rest))

/-- The events of the remaining statements, after which all blocks are closed. -/
def statementEvents (ended : Bool) (blocks : List Block) : List (List Token) → List Event
  | [] => blocks.flatMap Block.closing
  | s :: later =>
    let (blocks, now) := statement ended blocks s
    now ++ statementEvents ended blocks later

/-- The events of well-formed tokens. -/
def events (tokens : List Token) : List Event :=
  statementEvents (closesFunctions tokens) [] (statements tokens)

end Outline

/-- The first malformed token of a source, with its complaint. -/
structure SyntaxFault where
  span : Span
  message : String
deriving DecidableEq, Repr

/-- The events of a source, or its first malformed token. The tokens are cut into statements outside
    brackets, and of each statement only as much is understood as is needed to tell declarations,
    references and scopes. No arrangement of tokens is refused; only a malformed token is. -/
def Event.ofSource (source : String) : Except SyntaxFault (List Event) :=
  let tokens := Token.ofSource source
  match tokens.find? (·.kind == .malformed) with
  | some bad => .error ⟨bad.span, bad.value⟩
  | none => .ok (Outline.events tokens)

end ScriptBuild
