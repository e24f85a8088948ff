import ScriptBuild.Proofs.Source.Grammar
import ScriptBuild.Proofs.Source.Nesting

namespace ScriptBuild

/-- A function as its scope announces it: its name, and where the name stands. -/
structure FunctionScope where
  name : String
  span : Span
deriving DecidableEq, Repr

namespace Event

/-- The scopes that are open after an event, innermost first. One that is no function has no
    name. -/
def track (opened : List (Option FunctionScope)) : Event → List (Option FunctionScope)
  | enter .function name span => name.map (⟨·, span⟩) :: opened
  | enter .closure _ _ | enter .unit _ _ => none :: opened
  | exit => opened.tail
  | declare .. | reference .. => opened

/-- Each event with the functions that are open before it, innermost first. -/
def placed (opened : List (Option FunctionScope)) : List Event → List (List FunctionScope × Event)
  | [] => []
  | e :: es => (opened.filterMap id, e) :: placed (e.track opened) es

/-- Events that all belong to the same functions. -/
def within (path : List FunctionScope) (events : List Event) :
    List (List FunctionScope × Event) :=
  events.map (path, ·)

end Event

namespace Grammar

open Outline Event

/-- What the first statement of a block reports. -/
def Led.startEvents (start : Led Keyword.opensControl) : List Event :=
  match start.word with
  | .forLoop | .parforLoop => loopHeader start.rest
  | .tryBlock => simpleStatement start.rest
  | _ => expression start.rest

/-- What the first statement of a part of a block reports. -/
def Led.partEvents (start : Led Keyword.startsPart) : List Event :=
  match start.word with
  | .elseIf | .caseOf => expression start.rest
  | .catchBlock =>
    match caughtName? start.rest with
    | some caught => [.declare .assigned caught.value caught.span]
    | none => simpleStatement start.rest
  | _ => simpleStatement start.rest

/-- The scope of a function: its whole name, and where the name starts. -/
def Header.scope (h : Header) : FunctionScope :=
  ⟨".".intercalate (h.name.value :: h.parts.map (·.2.value)), h.name.span⟩

/-- The variables that a header declares. -/
def Header.variables (h : Header) : List Event :=
  declareNames .assigned h.parameters ++
    declareNames .assigned (h.outputs.elim [] Outputs.tokens)

/-- What a header reports: the function outside of it, its parameters and outputs inside. -/
def Header.placed (h : Header) (path : List FunctionScope) : List (List FunctionScope × Event) :=
  within path [.declare .function h.scope.name h.scope.span,
      .enter .function (some h.scope.name) h.scope.span] ++
    within (h.scope :: path) h.variables

/-- What a script in the given functions reports, each event with the functions it belongs to. -/
def Script.placed (path : List FunctionScope) : Script → List (List FunctionScope × Event)
  | done => []
  | simple statement _ rest => within path (simpleStatement statement.tokens) ++ rest.placed path
  | part start _ rest => within path start.partEvents ++ rest.placed path
  | block start _ body _ _ rest =>
    within path start.startEvents ++ body.placed path ++ rest.placed path
  | function header _ body _ _ rest =>
    header.placed path ++ body.placed (header.scope :: path) ++
      within (header.scope :: path) [.exit] ++ rest.placed path

/-- What a function without an `end` reports: it is left before the next one is reported. -/
def Section.placed (s : Section) : List (List FunctionScope × Event) :=
  s.header.placed [] ++ s.body.placed [s.header.scope] ++ within [s.header.scope] [.exit]

/-- What a program reports, each event with the functions it belongs to. The events say the same by
    the scopes that are open when they are issued; so the scopes entered and left are the functions
    with their nesting, and no statement is reported in another function than its own. -/
def Program.placed : Program → List (List FunctionScope × Event)
  | ended _ _ script => script.placed []
  | unended _ _ script _ first later =>
    script.placed [] ++ (first :: later).flatMap Section.placed

variable {path : List FunctionScope} {es rest : List Event}

/-- Functions alone are open in a list of functions. -/
@[simp] theorem filterMap_id_map_some (path : List FunctionScope) :
    (path.map some).filterMap id = path := by
  simp [List.filterMap_map]

@[simp] theorem within_nil (path : List FunctionScope) : within path [] = [] := rfl

/-- What belongs to some functions does so piece by piece. -/
theorem within_append (path : List FunctionScope) (es es' : List Event) :
    within path (es ++ es') = within path es ++ within path es' :=
  List.map_append

/-- Events that are issued for closures, and open nothing but closures, belong to the functions
    around them. -/
theorem placed_of_issue {opened : List (Option FunctionScope)} {n m : Nat}
    (h : issue (List.replicate n .closure) (forClosures es) = some (List.replicate m .closure))
    (hclosures : ∀ kind name span, Event.enter kind name span ∈ es → kind = .closure) :
    Event.placed (List.replicate n none ++ opened) (es ++ rest) =
      within (opened.filterMap id) es ++ Event.placed (List.replicate m none ++ opened) rest := by
  induction es generalizing n with
  | nil =>
    obtain rfl : n = m := by
      have hlength := congrArg List.length (Option.some.inj h)
      simpa using hlength
    rfl
  | cons e es ih =>
    have hfunctions : (List.replicate n none ++ opened).filterMap id = opened.filterMap id := by
      simp
    obtain ⟨between, hstep, hrest⟩ := Option.bind_eq_some_iff.mp ((issue_cons _ _ _).symm.trans h)
    -- The step leads from some open closures to some others.
    obtain ⟨k, rfl, htrack⟩ : ∃ k, between = List.replicate k .closure ∧
        e.track (List.replicate n none ++ opened) = List.replicate k none ++ opened := by
      cases e with
      | enter kind name span =>
        obtain rfl := hclosures kind name span List.mem_cons_self
        cases hstep
        exact ⟨n + 1, rfl, rfl⟩
      | exit =>
        cases n with
        | zero => cases hstep
        | succ n =>
          cases hstep
          exact ⟨n, rfl, rfl⟩
      | declare declaration name span =>
        cases hstep
        exact ⟨n, rfl, rfl⟩
      | reference name span =>
        cases hstep
        exact ⟨n, rfl, rfl⟩
    have hlater := ih hrest fun kind name span hmem =>
      hclosures kind name span (List.mem_cons_of_mem e hmem)
    rw [List.cons_append, Event.placed, hfunctions, htrack, hlater]
    rfl

/-- A token of an expression opens closures only. -/
theorem closure_of_enter_mem_step {s : ExpressionState} {t : Token} {kind : ScopeKind}
    {name : Option String} {span : Span} (h : .enter kind name span ∈ (s.step t).2) :
    kind = .closure := by
  have hoperand (afterPoint : Bool) (h : .enter kind name span ∈ (s.operand afterPoint t).2) :
      kind = .closure := by
    unfold ExpressionState.operand ExpressionState.closeBodies at h
    dsimp only at h
    split at h
    · simp at h
    · split at h <;> simp at h
  unfold ExpressionState.step at h
  split at h
  · exact hoperand _ h
  · split at h
    · simp at h
      exact h.1
    · simp at h
    · exact hoperand _ h
  · split at h <;> simp at h

theorem closure_of_enter_mem_expression {tokens : List Token} {kind : ScopeKind}
    {name : Option String} {span : Span} (h : .enter kind name span ∈ expression tokens) :
    kind = .closure := by
  unfold expression at h
  generalize ExpressionState.start = s at h
  induction tokens generalizing s with
  | nil => simp [ExpressionState.events] at h
  | cons t ts ih =>
    rcases List.mem_append.mp h with h | h
    · exact closure_of_enter_mem_step h
    · exact ih _ h

/-- Plain events belong to the functions that are open around them. -/
theorem placed_plain (h : Plain es) :
    Event.placed (path.map some) (es ++ rest) =
      within path es ++ Event.placed (path.map some) rest := by
  induction h generalizing rest with
  | nothing => rfl
  | expression tokens =>
    have hissue : issue (List.replicate 0 .closure) (forClosures (expression tokens)) =
        some (List.replicate 0 .closure) := issue_expression tokens []
    have hplaced : Event.placed (path.map some) (expression tokens ++ rest) =
        within ((path.map some).filterMap id) (expression tokens) ++
          Event.placed (path.map some) rest :=
      placed_of_issue hissue fun _ _ _ => closure_of_enter_mem_expression
    rwa [filterMap_id_map_some] at hplaced
  | declare declaration name span => simp [Event.placed, within, Event.track]
  | reference name span => simp [Event.placed, within, Event.track]
  | append _ _ ih ih' => rw [List.append_assoc, ih, ih', within_append, List.append_assoc]

/-- The first statement of a block opens no function. -/
theorem plain_startEvents (start : Led Keyword.opensControl) : Plain start.startEvents := by
  unfold Led.startEvents
  split
  · exact .loopHeader _
  · exact .loopHeader _
  · exact .simpleStatement _
  · exact .expression _

/-- The first statement of a part of a block opens no function. -/
theorem plain_partEvents (start : Led Keyword.startsPart) : Plain start.partEvents := by
  unfold Led.partEvents
  split
  · exact .expression _
  · exact .expression _
  · split
    · exact .declare _ _ _
    · exact .simpleStatement _
  · exact .simpleStatement _

/-- The events of a header. -/
def Header.events (h : Header) : List Event :=
  [.declare .function h.scope.name h.scope.span,
    .enter .function (some h.scope.name) h.scope.span] ++ h.variables

/-- A header reports its function outside of it, and what it declares inside. -/
theorem placed_header (header : Header) :
    Event.placed (path.map some) (header.events ++ rest) =
      header.placed path ++ Event.placed ((header.scope :: path).map some) rest := by
  have hopen (later : List Event) : Event.placed (path.map some)
      ([.declare .function header.scope.name header.scope.span,
        .enter .function (some header.scope.name) header.scope.span] ++ later) =
      within path [.declare .function header.scope.name header.scope.span,
        .enter .function (some header.scope.name) header.scope.span] ++
        Event.placed ((header.scope :: path).map some) later := by
    simp [Event.placed, Event.track, within]
  have hvariables : Event.placed ((header.scope :: path).map some) (header.variables ++ rest) =
      within (header.scope :: path) header.variables ++
        Event.placed ((header.scope :: path).map some) rest :=
    placed_plain (.append (.declareNames .assigned header.parameters)
      (.declareNames .assigned (header.outputs.elim [] Outputs.tokens)))
  rw [Header.events, List.append_assoc, hopen, hvariables, ← List.append_assoc]
  rfl

/-- Balanced tokens without an assignment move the one that follows to the left. -/
theorem splitAssignment_append {depth : Nat} {ts us : List Token} (h : balanced depth ts = true)
    (hnone : splitAssignment depth ts = none) :
    splitAssignment depth (ts ++ us) =
      (splitAssignment 0 us).map fun (left, right) => (ts ++ left, right) := by
  induction ts generalizing depth with
  | nil =>
    obtain rfl : depth = 0 := by simpa [balanced] using h
    simp
  | cons t ts ih =>
    obtain ⟨hfits, hrest⟩ := Bool.and_eq_true_iff.mp h
    rw [splitAssignment] at hnone
    split at hnone
    · cases hnone
    · rename_i hassign
      have hlater := ih hrest (Option.map_eq_none_iff.mp hnone)
      rw [List.cons_append, splitAssignment, if_neg hassign, hlater, Option.map_map]
      rfl

/-- There is no assignment in the parts of a name. -/
theorem splitAssignment_parts {parts : List (Token × Token)}
    (h : ∀ p ∈ parts, p.1.kind = .symbol .dot ∧ p.2.kind = .name) :
    splitAssignment 0 (parts.flatMap fun p => [p.1, p.2]) = none := by
  induction parts with
  | nil => rfl
  | cons p ps ih =>
    obtain ⟨hdot, hname⟩ := h p List.mem_cons_self
    have hdepth : (TokenKind.symbol .dot).depthAfter 0 = 0 ∧ TokenKind.name.depthAfter 0 = 0 :=
      ⟨rfl, rfl⟩
    have hlater := ih fun q hq => h q (List.mem_cons_of_mem p hq)
    simp [splitAssignment, hdot, hname, hdepth, hlater]

/-- The parts of a name end where no point follows. -/
theorem dottedParts_append {parts : List (Token × Token)} {us : List Token}
    (h : ∀ p ∈ parts, p.1.kind = .symbol .dot ∧ p.2.kind = .name)
    (hus : ∀ t ∈ us.head?, t.kind ≠ .symbol .dot) :
    dottedParts (parts.flatMap (fun p => [p.1, p.2]) ++ us) = (parts.map (·.2.value), us) := by
  induction parts with
  | nil =>
    rw [List.flatMap_nil, List.nil_append]
    match us with
    | [] => rfl
    | [t] => rfl
    | t :: u :: later =>
      have ht : t.kind ≠ .symbol .dot := hus t rfl
      simp [dottedParts, ht]
  | cons p ps ih =>
    obtain ⟨hdot, hname⟩ := h p List.mem_cons_self
    have hlater := ih fun q hq => h q (List.mem_cons_of_mem p hq)
    simp only [List.flatMap_cons, List.cons_append, List.nil_append, dottedParts, hdot,
      Token.isName, hname, hlater, beq_self_eq_true, Bool.and_self, if_true, List.map_cons]

/-- A header is taken apart at its assignment sign and at the points in its name. -/
theorem functionHeader_rest (isEnded : Bool) (blocks : List Block) (header : Header) :
    functionHeader isEnded blocks header.rest =
      (.function :: (if isEnded then blocks else []),
        (if isEnded then [] else blocks.flatMap Block.closing) ++ header.events) := by
  have hsignature : splitAssignment 0
      (header.name :: (header.parts.flatMap (fun p => [p.1, p.2]) ++ header.parameters)) =
        none := by
    have hname : (header.name.kind == .symbol .assign) = false := by rw [header.name_eq]; rfl
    have hdepth : header.name.kind.depthAfter 0 = 0 := by rw [header.name_eq]; rfl
    rw [splitAssignment, hname, Bool.and_false, if_neg Bool.false_ne_true, hdepth,
      splitAssignment_append (balanced_parts header.parts_eq)
        (splitAssignment_parts header.parts_eq), header.unassigned]
    rfl
  have hsides : (splitAssignment 0 header.rest).getD ([], header.rest) =
      (header.outputs.elim [] Outputs.tokens,
        header.name :: (header.parts.flatMap (fun p => [p.1, p.2]) ++ header.parameters)) := by
    rw [Header.rest]
    cases houtputs : header.outputs with
    | none => simp [hsignature]
    | some o =>
      have hsign : (o.sign.kind == .symbol .assign) = true := by rw [o.sign_eq]; rfl
      simp only [Option.elim_some, List.append_assoc, List.cons_append, List.nil_append]
      rw [splitAssignment_append o.balanced o.unassigned, splitAssignment, hsign]
      simp
  have hisName : header.name.isName = true := by simp [Token.isName, header.name_eq]
  have hparts := dottedParts_append header.parts_eq header.ends_name
  unfold functionHeader
  rw [hsides]
  simp only [hisName, if_true, hparts]
  cases isEnded <;> simp [Header.events, Header.variables, Header.scope]

/-- The innermost block holds code. -/
def HoldsCode (blocks : List Block) : Prop :=
  blocks.head? ≠ some .data ∧ blocks.head? ≠ some .classBody

variable {isEnded : Bool} {blocks : List Block}

theorem holdsCode_nil : HoldsCode [] := by simp [HoldsCode]

/-- There is code in the blocks of control statements. -/
theorem holdsCode_control : HoldsCode (.control :: blocks) := by simp [HoldsCode]

theorem holdsCode_function : HoldsCode (.function :: blocks) := by simp [HoldsCode]

/-- A statement without a reserved word reports what a simple one does. -/
theorem statement_balanced (hcode : HoldsCode blocks) {ts : List Token}
    (h : balanced 0 ts = true) :
    statement isEnded blocks ts = (blocks, simpleStatement ts) := by
  cases ts with
  | nil => rfl
  | cons t ts =>
    have hfits := (Bool.and_eq_true_iff.mp h).1
    obtain ⟨hdata, hclass⟩ := hcode
    cases hkind : t.kind with
    | keyword word => simp [hkind, TokenKind.fits] at hfits
    | name => simp [statement, hkind, hdata, hclass]
    | _ => simp [statement, hkind, hdata]

theorem statement_start (hcode : HoldsCode blocks) (start : Led Keyword.opensControl) :
    statement isEnded blocks (start.first :: start.rest) =
      (.control :: blocks, start.startEvents) := by
  obtain ⟨word, first, ts, hkind, hallowed, hbalanced⟩ := start
  obtain ⟨hdata, -⟩ := hcode
  cases word <;> first
    | (cases hallowed; done)
    | simp [statement, hkind, hdata, Led.startEvents, statement_balanced holdsCode_control hbalanced]

theorem statement_part (hcode : HoldsCode blocks) (start : Led Keyword.startsPart) :
    statement isEnded blocks (start.first :: start.rest) = (blocks, start.partEvents) := by
  obtain ⟨word, first, ts, hkind, hallowed, hbalanced⟩ := start
  have hrest : statement isEnded blocks ts = (blocks, simpleStatement ts) :=
    statement_balanced hcode hbalanced
  obtain ⟨hdata, -⟩ := hcode
  cases word <;> first
    | (cases hallowed; done)
    | simp [statement, hkind, hdata, Led.partEvents, hrest]
  cases caughtName? ts <;> rfl

theorem statement_closer {block : Block} (hcode : HoldsCode (block :: blocks)) (closer : Closer) :
    statement isEnded (block :: blocks) [closer.token] = (blocks, block.closing) := by
  have hdata : block ≠ .data := by simpa using hcode.1
  simp [statement, closer.kind_eq, hdata]

/-- A header opens its function, inside of the blocks around it if functions have `end`s, and in
place of them otherwise. -/
theorem statement_header (hcode : HoldsCode blocks) (header : Header) :
    statement isEnded blocks (header.word :: header.rest) =
      (.function :: (if isEnded then blocks else []),
        (if isEnded then [] else blocks.flatMap Block.closing) ++ header.events) := by
  obtain ⟨hdata, -⟩ := hcode
  rw [← functionHeader_rest]
  simp [statement, header.word_eq, hdata]

/-- The exit of a function belongs to it, and what follows does not. -/
theorem placed_exit (scope : FunctionScope) :
    Event.placed ((scope :: path).map some) (.exit :: rest) =
      within (scope :: path) [.exit] ++ Event.placed (path.map some) rest := by
  simp [Event.placed, Event.track, within]

/-- A script is reported in the functions that are open around it, and leaves the open blocks as it
    found them. -/
theorem placed_script (script : Script) (hstyle : isEnded = true ∨ script.functionFree = true)
    (hcode : HoldsCode blocks) (later : List (List Token)) :
    Event.placed (path.map some)
        (statementEvents isEnded blocks (script.lines.map Line.tokens ++ later)) =
      script.placed path ++
        Event.placed (path.map some) (statementEvents isEnded blocks later) := by
  induction script generalizing blocks path later with
  | done => rfl
  | simple statement separators rest ih =>
    rw [Script.lines, List.map_cons, List.cons_append, statementEvents]
    simp only [Simple.line, statement_balanced hcode statement.balanced]
    rw [placed_plain (.simpleStatement _), ih hstyle hcode, Script.placed, List.append_assoc]
  | part start separators rest ih =>
    rw [Script.lines, List.map_cons, List.cons_append, statementEvents]
    simp only [Led.line, statement_part hcode start]
    rw [placed_plain (plain_partEvents start), ih hstyle hcode, Script.placed, List.append_assoc]
  | block start separators body closer last rest ihbody ihrest =>
    have hstyles : (isEnded = true ∨ body.functionFree = true) ∧
        (isEnded = true ∨ rest.functionFree = true) := by
      simp only [Script.functionFree, Bool.and_eq_true] at hstyle
      exact or_and_left.mp hstyle
    rw [Script.lines, List.map_cons, List.cons_append, statementEvents]
    simp only [Led.line, statement_start hcode start]
    rw [placed_plain (plain_startEvents start), List.map_append, List.append_assoc,
      ihbody hstyles.1 holdsCode_control, List.map_cons, List.cons_append, statementEvents]
    simp only [Closer.line, statement_closer holdsCode_control closer, Block.closing, List.nil_append]
    rw [ihrest hstyles.2 hcode, Script.placed, List.append_assoc, List.append_assoc]
  | function header separators body closer last rest ihbody ihrest =>
    obtain rfl : isEnded = true := by simpa [Script.functionFree] using hstyle
    rw [Script.lines, List.map_cons, List.cons_append, statementEvents]
    simp only [Header.line, statement_header hcode header, if_true, List.nil_append]
    rw [placed_header, List.map_append, List.append_assoc, ihbody (.inl rfl) holdsCode_function,
      List.map_cons (f := Line.tokens), List.cons_append, statementEvents]
    simp only [Closer.line, statement_closer holdsCode_function closer, Block.closing,
      List.cons_append, List.nil_append]
    rw [placed_exit, ihrest (.inl rfl) hcode, Script.placed]
    simp only [List.append_assoc]

/-- The header of a function without an `end` closes what is open. -/
theorem statementEvents_section (hcode : HoldsCode blocks) (s : Section)
    (later : List (List Token)) :
    statementEvents false blocks (s.lines.map Line.tokens ++ later) =
      blocks.flatMap Block.closing ++ (s.header.events ++
        statementEvents false [.function] (s.body.lines.map Line.tokens ++ later)) := by
  rw [Section.lines, List.map_cons, List.cons_append, statementEvents]
  simp only [Header.line, statement_header hcode, Bool.false_eq_true, if_false, List.append_assoc]

/-- A function without an `end` goes as far as its body, and is left by what follows. -/
theorem placed_section (s : Section) (later : List (List Token)) :
    Event.placed [] (s.header.events ++
        statementEvents false [.function] (s.body.lines.map Line.tokens ++ later)) =
      s.header.placed [] ++ s.body.placed [s.header.scope] ++
        Event.placed [some s.header.scope] (statementEvents false [.function] later) := by
  have hheader (es : List Event) : Event.placed [] (s.header.events ++ es) =
      s.header.placed [] ++ Event.placed [some s.header.scope] es :=
    @placed_header [] es s.header
  have hbody : Event.placed [some s.header.scope]
      (statementEvents false [.function] (s.body.lines.map Line.tokens ++ later)) = _ :=
    @placed_script [s.header.scope] false [.function] s.body (.inr s.functionFree) holdsCode_function
      later
  rw [hheader, hbody, List.append_assoc]
  rfl

/-- Functions without `end`s follow each other: each is left where the next one starts, or at the
    end. -/
theorem placed_sections (scope : FunctionScope) (sections : List Section) :
    Event.placed [some scope] (statementEvents false [.function]
        ((sections.flatMap Section.lines).map Line.tokens)) =
      within [scope] [.exit] ++ sections.flatMap Section.placed := by
  induction sections generalizing scope with
  | nil => simp [statementEvents, Block.closing, Event.placed, within]
  | cons s later ih =>
    have hexit (es : List Event) :
        Event.placed [some scope] ([.function].flatMap Block.closing ++ es) =
          within [scope] [.exit] ++ Event.placed [] es :=
      @placed_exit [] es scope
    rw [List.flatMap_cons, List.map_append, statementEvents_section holdsCode_function, hexit,
      placed_section, ih, List.flatMap_cons, Section.placed]
    simp only [List.append_assoc]

/-- The scopes of a program are its functions, with what each of them reports inside. -/
theorem Program.placed_events (p : Program) :
    Event.placed [] (Outline.events p.tokens) = p.placed := by
  rw [Outline.events, p.closesFunctions_tokens, p.statements_tokens]
  cases p with
  | ended leading separate script =>
    have hscript := @placed_script [] true [] script (.inl rfl) holdsCode_nil []
    rw [List.append_nil] at hscript
    rw [isEnded, lines, ← List.map_nil (f := some), hscript]
    simp [statementEvents, Event.placed, Program.placed]
  | unended leading separate script functionFree first later =>
    have hscript (rest : List (List Token)) : Event.placed []
        (statementEvents false [] (script.lines.map Line.tokens ++ rest)) =
          script.placed [] ++ Event.placed [] (statementEvents false [] rest) :=
      @placed_script [] false [] script (.inr functionFree) holdsCode_nil rest
    rw [isEnded, lines, List.map_append, hscript, List.flatMap_cons, List.map_append,
      statementEvents_section holdsCode_nil, List.flatMap_nil, List.nil_append, placed_section,
      placed_sections, Program.placed, List.flatMap_cons, Section.placed]
    simp only [List.append_assoc]

end Grammar

/-- Function nesting is recovered from every source that is a program in one of the two styles: the
    style is told apart, and each event is issued in exactly the functions in which it stands. -/
theorem Event.placed_ofSource (program : Grammar.Program) (source : String)
    (h : Token.ofSource source = program.tokens) :
    Outline.closesFunctions (Token.ofSource source) = program.isEnded ∧
      ∃ events, Event.ofSource source = .ok events ∧ Event.placed [] events = program.placed := by
  have hnone : program.tokens.find? (·.kind == .malformed) = none := by
    rw [List.find?_eq_none]
    intro t ht
    simpa using (program.ordinary_of_mem t ht).1
  refine ⟨?_, Outline.events program.tokens, ?_, program.placed_events⟩
  · rw [h, program.closesFunctions_tokens]
  · simp only [Event.ofSource, h, hnone]

namespace Grammar

/-- A reserved word that starts at an offset. -/
def keywordAt (word : Keyword) (start : Nat) : Token :=
  ⟨.keyword word, ⟨start, start + word.text.length⟩, word.text⟩

/-- A name that starts at an offset. -/
def nameAt (name : String) (start : Nat) : Token := ⟨.name, ⟨start, start + name.length⟩, name⟩

/-- A symbol that starts at an offset. -/
def symbolAt (symbol : Symbol) (start : Nat) : Token :=
  ⟨.symbol symbol, ⟨start, start + 1⟩, symbol.text⟩

/-- A line feed as the separator of two statements. -/
def feedAt (start : Nat) : Separators where
  tokens := [⟨.newline, ⟨start, start + 1⟩, "\n"⟩]
  ne_nil := nofun
  separate := by simp [TokenKind.isSeparator]

/-- A comma as the separator of two statements. -/
def commaAt (start : Nat) : Separators where
  tokens := [symbolAt .comma start]
  ne_nil := nofun
  separate := by simp [symbolAt, TokenKind.isSeparator]

/-- The header of a function without parameters and outputs. -/
def headerAt (start : Nat) (name : String) : Header where
  word := keywordAt .function start
  outputs := none
  name := nameAt name (start + 9)
  parts := []
  parameters := []
  word_eq := rfl
  name_eq := rfl
  parts_eq := by simp
  balanced := rfl
  unassigned := rfl
  ends_name := by simp

/-- A function with another one inside, which follows a block whose condition indexes with the word
    `end`. -/
def nestedProgram : Program :=
  .ended [] nofun
    (.function (headerAt 0 "f") (feedAt 10)
      (.block ⟨.ifThen, keywordAt .ifThen 11, [nameAt "x" 14, symbolAt .lparen 15,
          keywordAt .endBlock 16, symbolAt .rparen 19], rfl, rfl, rfl⟩ (commaAt 20)
        (.simple ⟨[nameAt "y" 22], nofun, rfl⟩ (commaAt 23) .done)
        ⟨keywordAt .endBlock 25, rfl⟩ (feedAt 28)
        (.function (headerAt 29 "g") (feedAt 39)
          (.simple ⟨[nameAt "z" 40], nofun, rfl⟩ (feedAt 41) .done)
          ⟨keywordAt .endBlock 42, rfl⟩ (feedAt 45) .done))
      ⟨keywordAt .endBlock 46, rfl⟩
      ⟨[⟨.eof, ⟨49, 49⟩, ""⟩], nofun, by simp [TokenKind.isSeparator]⟩ .done)

end Grammar

/-- The last index of a variable is no end of a block, and a block on one line has its own. -/
theorem Event.placed_nested_functions :
    Outline.closesFunctions
        (Token.ofSource "function f\nif x(end), y, end\nfunction g\nz\nend\nend") = true ∧
      ∃ events, Event.ofSource
          "function f\nif x(end), y, end\nfunction g\nz\nend\nend" = .ok events ∧
        Event.placed [] events = Grammar.nestedProgram.placed :=
  Event.placed_ofSource Grammar.nestedProgram _ (by decide +kernel)

end ScriptBuild
