import ScriptBuild.Json.Value

namespace ScriptBuild.Json.Value

/-- A line feed and the indent of a level. -/
def newline (level : Nat) : List Char := '\n' :: List.replicate (2 * level) ' '

mutual

/-- A value that stands on the given level. -/
def render (level : Nat) : Value → List Char
  | null => "null".toList
  | bool true => "true".toList
  | bool false => "false".toList
  | number literal => literal
  | text written => '"' :: written ++ ['"']
  | array [] => ['[', ']']
  | array (v :: vs) =>
    '[' :: newline (level + 1) ++ render (level + 1) v ++ renderItems (level + 1) vs ++
      newline level ++ [']']
  | object [] => ['\x7b', '\x7d']
  | object ((key, v) :: ms) =>
    '\x7b' :: newline (level + 1) ++ '"' :: key ++ ['"', ':', ' '] ++ render (level + 1) v ++
      renderMembers (level + 1) ms ++ newline level ++ ['\x7d']

/-- The items after the first one. -/
def renderItems (level : Nat) : List Value → List Char
  | [] => []
  | v :: vs => ',' :: newline level ++ render level v ++ renderItems level vs

/-- The members after the first one. -/
def renderMembers (level : Nat) : List (List Char × Value) → List Char
  | [] => []
  | (key, v) :: ms =>
    ',' :: newline level ++ '"' :: key ++ ['"', ':', ' '] ++ render level v ++
      renderMembers level ms

end

/-- The document of a value, written for reading by eye: one item or member to a line, two blanks of
    indent to a level, and empty arrays and objects on one line. -/
def document (v : Value) : String := String.ofList (v.render 0)

end ScriptBuild.Json.Value
