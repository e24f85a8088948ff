import ScriptBuild.BuildUnit.Basic
import ScriptBuild.Fault

namespace ScriptBuild

namespace BuildUnit

/-- What a unit exports: its slots, or its own name if it has none. -/
def exports (u : BuildUnit) : List String := if u.slots.isEmpty then [u.name] else u.slots

/-- A character in the symbol of a slot, where all but ASCII letters and digits become
    underscores. -/
def symbolChar (c : Char) : Char := if c.isAlphanum then c else '_'

/-- The symbol of an exported slot. -/
def symbol (u : BuildUnit) (slot : String) : String :=
  "sc_" ++ u.stem ++ "_" ++ String.ofList (slot.toList.map symbolChar)

/-- The macro that keeps the header of a unit from being read twice. -/
def guard (u : BuildUnit) : String := "SC_" ++ u.stem ++ "_H"

/-- The line that includes the header of a unit. -/
def includeLine (u : BuildUnit) : String := "#include \"" ++ u.stem ++ ".h\"\n"

end BuildUnit

namespace Stub

/-- What code is generated from: the unit, the units that it imports from with the imported names,
    the names that were found nowhere, and whether it is in a cycle. -/
structure Request where
  unit : BuildUnit
  dependencies : List (BuildUnit × List String)
  unresolved : List String
  cyclic : Bool

/-- The files that are generated for a unit. Forward declarations are there for members of cycles
    only. -/
structure Generated where
  header : String
  source : String
  forward : Option String
deriving DecidableEq, Repr

/-- The pieces of a text one after the other. -/
def concat (pieces : List String) : String := "".intercalate pieces

/-- The declaration of an exported slot. -/
def declaration (u : BuildUnit) (slot : String) : String :=
  if u.kind == .globals then "extern void *" ++ u.symbol slot ++ ";\n"
  else "void " ++ u.symbol slot ++ "(void);\n"

/-- The header of a unit. -/
def header (u : BuildUnit) : String :=
  "/* " ++ u.display ++ " */\n#ifndef " ++ u.guard ++ "\n#define " ++ u.guard ++ "\n" ++
    concat (u.exports.map (declaration u)) ++ "#endif\n"

/-- The source of the global variables. -/
def tableSource (u : BuildUnit) : String :=
  u.includeLine ++ concat (u.slots.map fun slot => "void *" ++ u.symbol slot ++ " = 0;\n")

/-- Whether generated code can refer to the symbols of a unit. -/
def isCallable (u : BuildUnit) : Bool :=
  match u.kind with
  | .builtins | .precompiled _ => false
  | _ => true

/-- The use of an imported name: global variables are named, and functions that the other unit
    exports are called. -/
def use (other : BuildUnit) (name : String) : String :=
  if other.kind == .globals then "    (void)" ++ other.symbol name ++ ";\n"
  else if other.exports.contains name then "    " ++ other.symbol name ++ "();\n"
  else ""

/-- The function of an exported slot. -/
def function (u : BuildUnit) (body slot : String) : String :=
  "\nvoid " ++ u.symbol slot ++ "(void)\n\x7b\n" ++ body ++ "\x7d\n"

/-- The functions of the exported slots, of which the first one has a body. -/
def functions (u : BuildUnit) (body : String) : List String → String
  | [] => ""
  | slot :: slots => function u body slot ++ concat (slots.map (function u ""))

/-- The source of a unit with functions. Each exported slot becomes a function, and the first of
    them calls what the unit imports, so that the linker sees the dependencies that were
    resolved. -/
def functionSource (r : Request) : String :=
  let callable := r.dependencies.filter fun (other, _) => isCallable other
  let uses := concat (callable.flatMap fun (other, names) => names.map (use other))
  r.unit.includeLine ++ concat (callable.map fun (other, _) => other.includeLine) ++
    concat (r.unresolved.map fun name => "/* resolved at run time: " ++ name ++ " */\n") ++
    functions r.unit uses r.unit.exports

/-- The forward declarations of a unit: its functions with empty bodies. -/
def forwardSource (u : BuildUnit) : String :=
  "/* forward declarations of " ++ u.display ++ " */\n" ++
    concat (u.exports.map fun slot => "void " ++ u.symbol slot ++ "(void) \x7b\x7d\n")

/-- Generates the code of a unit, if there is code for its kind. -/
def generate (r : Request) : Except Fault Generated :=
  let forward := if r.cyclic then some (forwardSource r.unit) else none
  match r.unit.kind with
  | .globals => .ok ⟨header r.unit, tableSource r.unit, forward⟩
  | .script _ | .snippet | .classFile _ => .ok ⟨header r.unit, functionSource r, forward⟩
  | kind => .error (.noCode r.unit.display (kind.tag.text ++ " units are not translated"))

end Stub

end ScriptBuild
