import ScriptBuild.Source.Outline
import Mathlib.Data.List.Basic

namespace ScriptBuild

namespace Event

/-- Whether an event opens a scope. -/
def isEnter : Event → Bool
  | enter .. => true
  | _ => false

/-- Whether an event closes a scope. -/
def isExit : Event → Bool
  | exit => true
  | _ => false

/-- The scopes that are open after an event, innermost first. An exit closes the innermost one, and
    there has to be one. -/
def scopes (opened : List ScopeKind) : Event → Option (List ScopeKind)
  | enter kind _ _ => some (kind :: opened)
  | exit => opened.tail?
  | declare .. | reference .. => some opened

/-- The scopes that are open after some events. -/
def scopesAfter (opened : List ScopeKind) (events : List Event) : Option (List ScopeKind) :=
  events.foldlM scopes opened

/-- Scopes are closed only after they were opened, and all of them are closed in the end. -/
structure Balanced (events : List Event) : Prop where
  prefixes : ∀ before after, events = before ++ after →
    before.countP isExit ≤ before.countP isEnter
  total : events.countP isExit = events.countP isEnter

@[simp] theorem scopesAfter_nil (opened : List ScopeKind) : scopesAfter opened [] = some opened :=
  rfl

/-- The scopes that are open after some events follow one event after the other. -/
@[simp] theorem scopesAfter_cons (opened : List ScopeKind) (e : Event) (es : List Event) :
    scopesAfter opened (e :: es) = (e.scopes opened).bind (scopesAfter · es) := by
  simp [scopesAfter, List.foldlM_cons]

/-- The scopes that are open after two pieces follow from those after the first one. -/
theorem scopesAfter_append (opened : List ScopeKind) (before after : List Event) :
    scopesAfter opened (before ++ after) =
      (scopesAfter opened before).bind (scopesAfter · after) := by
  simp [scopesAfter, List.foldlM_append]

/-- The number of open scopes is what was entered and not yet left. -/
theorem length_of_scopesAfter {opened opened' : List ScopeKind} {events : List Event}
    (h : scopesAfter opened events = some opened') :
    opened'.length + events.countP isExit = opened.length + events.countP isEnter := by
  induction events generalizing opened with
  | nil =>
    cases h
    rfl
  | cons e es ih =>
    rw [scopesAfter_cons] at h
    obtain ⟨between, hstep, hrest⟩ := Option.bind_eq_some_iff.mp h
    have hlength := ih hrest
    cases e with
    | enter kind name span =>
      cases hstep
      simp only [List.length_cons, List.countP_cons, isExit, isEnter] at hlength ⊢
      simp only [Bool.false_eq_true, if_false, if_true]
      omega
    | exit =>
      cases opened with
      | nil => cases hstep
      | cons kind outer =>
        cases hstep
        simp only [List.length_cons, List.countP_cons, isExit, isEnter] at hlength ⊢
        simp only [Bool.false_eq_true, if_false, if_true]
        omega
    | declare declaration name span =>
      cases hstep
      simpa [List.countP_cons, isExit, isEnter] using hlength
    | reference name span =>
      cases hstep
      simpa [List.countP_cons, isExit, isEnter] using hlength

/-- Events that leave no scope open, and close none that is not, are balanced. -/
theorem balanced_of_scopesAfter {events : List Event} (h : scopesAfter [] events = some []) :
    Balanced events where
  prefixes := by
    intro before after hsplit
    rw [hsplit, scopesAfter_append] at h
    obtain ⟨opened, hbefore, -⟩ := Option.bind_eq_some_iff.mp h
    have hlength := length_of_scopesAfter hbefore
    simp only [List.length_nil] at hlength
    omega
  total := by
    have hlength := length_of_scopesAfter h
    simpa using hlength

end Event

namespace Outline

/-- The scopes that are open after an event that is issued for scopes of a kind: an exit closes a
    scope of that kind. -/
def scopesOf (opened : List ScopeKind) : Event × ScopeKind → Option (List ScopeKind)
  | (.exit, kind) => if opened.head? = some kind then some opened.tail else none
  | (e, _) => e.scopes opened

/-- The scopes that are open after some events, each issued for scopes of a kind. -/
def issue (opened : List ScopeKind) (issued : List (Event × ScopeKind)) :
    Option (List ScopeKind) :=
  issued.foldlM scopesOf opened

@[simp] theorem issue_nil (opened : List ScopeKind) : issue opened [] = some opened := rfl

@[simp] theorem issue_cons (opened : List ScopeKind) (e : Event × ScopeKind)
    (es : List (Event × ScopeKind)) :
    issue opened (e :: es) = (scopesOf opened e).bind (issue · es) := by
  simp [issue, List.foldlM_cons]

/-- Two pieces are issued one after the other. -/
theorem issue_append (opened : List ScopeKind) (before after : List (Event × ScopeKind)) :
    issue opened (before ++ after) = (issue opened before).bind (issue · after) := by
  simp [issue, List.foldlM_append]

/-- An event that closes a scope of its kind closes a scope. -/
theorem scopes_of_scopesOf {opened opened' : List ScopeKind} {e : Event × ScopeKind}
    (h : scopesOf opened e = some opened') : e.1.scopes opened = some opened' := by
  obtain ⟨e, kind⟩ := e
  cases e with
  | exit =>
    cases opened with
    | nil => simp [scopesOf] at h
    | cons innermost outer =>
      simp only [scopesOf, Option.ite_none_right_eq_some] at h
      exact h.2
  | enter kind name span => exact h
  | declare declaration name span => exact h
  | reference name span => exact h

/-- What an event is issued for does not decide which scope it closes. -/
theorem scopesAfter_of_issue {opened opened' : List ScopeKind} {issued : List (Event × ScopeKind)}
    (h : issue opened issued = some opened') :
    Event.scopesAfter opened (issued.map Prod.fst) = some opened' := by
  induction issued generalizing opened with
  | nil => exact h
  | cons e es ih =>
    rw [issue_cons] at h
    obtain ⟨between, hstep, hrest⟩ := Option.bind_eq_some_iff.mp h
    rw [List.map_cons, Event.scopesAfter_cons, scopes_of_scopesOf hstep]
    exact ih hrest

/-- An exit that is issued for a kind of scope closes a scope of that kind. -/
theorem scopesAfter_of_exit {opened opened' : List ScopeKind} {kind : ScopeKind}
    {before after : List (Event × ScopeKind)}
    (h : issue opened (before ++ (.exit, kind) :: after) = some opened') :
    ∃ outer, Event.scopesAfter opened (before.map Prod.fst) = some (kind :: outer) := by
  rw [issue_append] at h
  obtain ⟨between, hbefore, hrest⟩ := Option.bind_eq_some_iff.mp h
  rw [issue_cons] at hrest
  obtain ⟨outer, hexit, -⟩ := Option.bind_eq_some_iff.mp hrest
  simp only [scopesOf, Option.ite_none_right_eq_some] at hexit
  refine ⟨between.tail, ?_⟩
  rw [scopesAfter_of_issue hbefore]
  cases between with
  | nil => simp at hexit
  | cons innermost outer =>
    have hkind : innermost = kind := by simpa using hexit.1
    rw [hkind]
    rfl

/-- The events of an expression are issued for closures. -/
def forClosures (events : List Event) : List (Event × ScopeKind) :=
  events.map fun e => (e, .closure)

/-- The open closures of an expression inside the scopes around it. -/
def ExpressionState.opened (s : ExpressionState) (around : List ScopeKind) : List ScopeKind :=
  List.replicate s.bodies.length .closure ++ around

/-- As many exits as closures are open close all of them. -/
theorem issue_exits (n : Nat) (around : List ScopeKind) :
    issue (List.replicate n .closure ++ around) (forClosures (List.replicate n .exit)) =
      some around := by
  induction n with
  | zero => rfl
  | succ n ih => simpa [forClosures, List.replicate_succ, scopesOf] using ih

namespace ExpressionState

/-- The end of some closures closes their scopes. -/
theorem issue_closeBodies (s : ExpressionState) (test : Nat → Bool) (around : List ScopeKind) :
    issue (s.opened around) (forClosures (s.closeBodies test).2) =
      some ((s.closeBodies test).1.opened around) := by
  have hlength : s.bodies.length =
      (s.bodies.takeWhile test).length + (s.bodies.dropWhile test).length := by
    rw [← List.length_append, List.takeWhile_append_dropWhile]
  have hopened : s.opened around =
      List.replicate (s.bodies.takeWhile test).length .closure ++
        (s.closeBodies test).1.opened around := by
    rw [opened, hlength, List.replicate_add, List.append_assoc]
    rfl
  have hexits : (s.closeBodies test).2 =
      List.replicate (s.bodies.takeWhile test).length .exit := by
    simp [closeBodies, List.map_const']
  rw [hopened, hexits]
  exact issue_exits _ _

/-- An operand opens and closes closures as the state of the expression says. -/
theorem issue_operand (s : ExpressionState) (afterPoint : Bool) (t : Token)
    (around : List ScopeKind) :
    issue (s.opened around) (forClosures (s.operand afterPoint t).2) =
      some ((s.operand afterPoint t).1.opened around) := by
  unfold operand
  split
  · exact issue_closeBodies _ _ around
  · split
    · exact issue_closeBodies _ _ around
    · exact issue_closeBodies _ _ around
    · exact issue_closeBodies _ _ around
    · rfl
    · rfl
    · cases afterPoint <;> rfl
    · rfl

/-- A token of an expression opens and closes closures as the state of the expression says. -/
theorem issue_step (s : ExpressionState) (t : Token) (around : List ScopeKind) :
    issue (s.opened around) (forClosures (s.step t).2) = some ((s.step t).1.opened around) := by
  unfold step
  split
  · exact issue_operand s _ t around
  · split
    · rfl
    · rfl
    · exact issue_operand s _ t around
  · split
    · rfl
    · rfl
    · rfl

/-- An expression leaves no closure open, by induction on its tokens. -/
theorem issue_events (s : ExpressionState) (tokens : List Token) (around : List ScopeKind) :
    issue (s.opened around) (forClosures (s.events tokens)) = some around := by
  induction tokens generalizing s with
  | nil =>
    rw [events, List.map_const']
    exact issue_exits _ _
  | cons t ts ih =>
    rw [events, forClosures, List.map_append, issue_append]
    exact Option.bind_eq_some_iff.mpr ⟨_, issue_step s t around, ih _⟩

end ExpressionState

/-- An expression closes every closure that it opens, and nothing else. -/
theorem issue_expression (tokens : List Token) (around : List ScopeKind) :
    issue around (forClosures (expression tokens)) = some around :=
  ExpressionState.issue_events .start tokens around

/-- A piece of what an outline delivers. -/
inductive Part where
  | expression (tokens : List Token)
  | closing (block : Block)
  /-- The scope of a function with the given name. -/
  | header (name : String) (span : Span)
  | declared (declaration : Declaration) (name : String) (span : Span)
  | referred (name : String) (span : Span)

namespace Part

/-- The events of a piece. -/
def events : Part → List Event
  | expression tokens => Outline.expression tokens
  | closing block => block.closing
  | header name span => [.enter .function (some name) span]
  | declared declaration name span => [.declare declaration name span]
  | referred name span => [.reference name span]

/-- The kind of scope that a piece opens and closes. -/
def kind : Part → ScopeKind
  | expression _ => .closure
  | _ => .function

/-- The events of a piece, each with the kind of scope that it is issued for. -/
def issued (p : Part) : List (Event × ScopeKind) := p.events.map fun e => (e, p.kind)

end Part

/-- The events of some pieces are those that they issue. -/
theorem map_fst_issued (parts : List Part) :
    (parts.flatMap Part.issued).map Prod.fst = parts.flatMap Part.events := by
  induction parts with
  | nil => rfl
  | cons p ps ih =>
    rw [List.flatMap_cons, List.map_append, ih, List.flatMap_cons, Part.issued, List.map_map]
    congr 1
    exact List.map_id _

/-- The scopes of the open blocks, innermost first: only functions are scopes. -/
def functionsOf (blocks : List Block) : List ScopeKind :=
  (blocks.filter (· == .function)).map fun _ => .function

@[simp] theorem functionsOf_nil : functionsOf [] = [] := rfl

/-- The block of a control statement is no scope. -/
@[simp] theorem functionsOf_control (blocks : List Block) :
    functionsOf (.control :: blocks) = functionsOf blocks := rfl

/-- The body of a class is no scope. -/
@[simp] theorem functionsOf_classBody (blocks : List Block) :
    functionsOf (.classBody :: blocks) = functionsOf blocks := rfl

@[simp] theorem functionsOf_data (blocks : List Block) :
    functionsOf (.data :: blocks) = functionsOf blocks := rfl

@[simp] theorem functionsOf_function (blocks : List Block) :
    functionsOf (.function :: blocks) = .function :: functionsOf blocks := rfl

theorem closure_not_mem_functionsOf (blocks : List Block) :
    ScopeKind.closure ∉ functionsOf blocks := by
  simp [functionsOf]

/-- Events that open and close no function: those of expressions, declarations and references. -/
inductive Plain : List Event → Prop where
  | nothing : Plain []
  | expression (tokens : List Token) : Plain (Outline.expression tokens)
  | declare (declaration : Declaration) (name : String) (span : Span) :
      Plain [.declare declaration name span]
  | reference (name : String) (span : Span) : Plain [.reference name span]
  | append {events events' : List Event} (h : Plain events) (h' : Plain events') :
      Plain (events ++ events')

namespace Plain

theorem flatMap {α : Type} (l : List α) (f : α → List Event) (h : ∀ a ∈ l, Plain (f a)) :
    Plain (l.flatMap f) := by
  induction l with
  | nil => exact .nothing
  | cons a as ih =>
    rw [List.flatMap_cons]
    apply append (h a List.mem_cons_self)
    exact ih fun b hb => h b (List.mem_cons_of_mem a hb)

theorem declareNames (declaration : Declaration) (tokens : List Token) :
    Plain (Outline.declareNames declaration tokens) := by
  rw [Outline.declareNames, List.map_eq_flatMap]
  exact flatMap _ _ fun t _ => .declare declaration t.value t.span

theorem loopHeader (header : List Token) : Plain (Outline.loopHeader header) := by
  unfold Outline.loopHeader
  split
  · split
    · exact .append (.expression _) (.declare _ _ _)
    · exact .expression _
  · exact .expression _

/-- What an assignment reads on its left side is plain. -/
theorem targets (left : List Token) : Plain (Outline.targets left).1 := by
  unfold Outline.targets
  split
  · exact .nothing
  · split
    · rename_i first rest hbracket
      simp only [List.flatMap_map]
      apply flatMap
      intro element helement
      cases element with
      | nil => exact .nothing
      | cons name indices =>
        simp only
        split
        · exact .expression indices
        · exact .expression (name :: indices)
    · split
      · exact .expression _
      · exact .expression _

theorem simpleStatement (tokens : List Token) : Plain (Outline.simpleStatement tokens) := by
  unfold Outline.simpleStatement
  split
  · rw [List.map_eq_flatMap]
    exact flatMap _ _ fun t _ => .reference t.value t.span
  · split
    · exact .expression tokens
    · rename_i left right hsides
      exact .append (.append (.expression right) (targets left)) (declareNames _ _)

end Plain

/-- Some events are delivered in pieces that lead from some open scopes to others. -/
def Delivers (opened : List ScopeKind) (events : List Event) (opened' : List ScopeKind) : Prop :=
  ∃ parts : List Part, parts.flatMap Part.events = events ∧
    issue opened (parts.flatMap Part.issued) = some opened'

namespace Delivers

variable {opened opened' opened'' : List ScopeKind} {events events' : List Event}

theorem nothing (opened : List ScopeKind) : Delivers opened [] opened := ⟨[], rfl, rfl⟩

theorem append (h : Delivers opened events opened') (h' : Delivers opened' events' opened'') :
    Delivers opened (events ++ events') opened'' := by
  obtain ⟨parts, hparts, hissue⟩ := h
  obtain ⟨parts', hparts', hissue'⟩ := h'
  refine ⟨parts ++ parts', ?_, ?_⟩
  · rw [List.flatMap_append, hparts, hparts']
  · rw [List.flatMap_append, issue_append]
    exact Option.bind_eq_some_iff.mpr ⟨opened', hissue, hissue'⟩

theorem part (p : Part) (h : issue opened p.issued = some opened') :
    Delivers opened p.events opened' := by
  refine ⟨[p], List.flatMap_singleton .., ?_⟩
  rw [List.flatMap_singleton]
  exact h

theorem plain (opened : List ScopeKind) (h : Plain events) : Delivers opened events opened := by
  induction h with
  | nothing => exact nothing opened
  | expression tokens => exact part (.expression tokens) (issue_expression tokens opened)
  | declare declaration name span => exact part (.declared declaration name span) rfl
  | reference name span => exact part (.referred name span) rfl
  | append _ _ ih ih' => exact append ih ih'

/-- Closing some blocks closes the functions among them. -/
theorem closing (blocks rest : List Block) :
    Delivers (functionsOf (blocks ++ rest)) (blocks.flatMap Block.closing) (functionsOf rest) := by
  induction blocks with
  | nil => exact nothing _
  | cons block inner ih =>
    rw [List.flatMap_cons]
    apply append _ ih
    cases block with
    | function => exact part (.closing .function) rfl
    | control => exact nothing _
    | classBody => exact nothing _
    | data => exact nothing _

end Delivers

/-- A function header closes what it has to, and opens its function. -/
theorem delivers_functionHeader (ended : Bool) (blocks : List Block) (header : List Token) :
    Delivers (functionsOf blocks) (functionHeader ended blocks header).2
      (functionsOf (functionHeader ended blocks header).1) := by
  -- Without `end`s of their own, the functions that are open are closed first.
  have hclosed : Delivers (functionsOf blocks)
      (if ended then (blocks, ([] : List Event)) else ([], blocks.flatMap Block.closing)).2
      (functionsOf (if ended then (blocks, ([] : List Event))
        else ([], blocks.flatMap Block.closing)).1) := by
    cases ended with
    | true => exact .nothing _
    | false => simpa using Delivers.closing blocks []
  unfold functionHeader
  generalize (if ended then (blocks, ([] : List Event))
    else ([], blocks.flatMap Block.closing)) = start at hclosed
  obtain ⟨remaining, closed⟩ := start
  generalize (splitAssignment 0 header).getD ([], header) = sides
  obtain ⟨outputs, signature⟩ := sides
  cases signature with
  | nil => exact hclosed
  | cons first rest =>
    simp only
    split
    · rename_i hname
      simp only [functionsOf_function]
      have hopen : Delivers (functionsOf remaining)
          [.declare .function (".".intercalate (first.value :: (dottedParts rest).1)) first.span,
            .enter .function (some (".".intercalate (first.value :: (dottedParts rest).1)))
              first.span]
          (.function :: functionsOf remaining) := by
        have hdeclare := Delivers.plain (functionsOf remaining) (.declare .function
          (".".intercalate (first.value :: (dottedParts rest).1)) first.span)
        exact hdeclare.append (.part (.header _ _) rfl)
      apply Delivers.append _ (.plain _ (.declareNames _ outputs))
      apply Delivers.append _ (.plain _ (.declareNames _ (dottedParts rest).2))
      exact hclosed.append hopen
    · exact hclosed

/-- A statement leads from the functions among the open blocks to those among the blocks that are
    open after it. -/
theorem delivers_statement (ended : Bool) (blocks : List Block) (tokens : List Token) :
    Delivers (functionsOf blocks) (statement ended blocks tokens).2
      (functionsOf (statement ended blocks tokens).1) := by
  fun_induction statement ended blocks tokens with
  | case1 | case21 | case22 | case23 | case24 | case25 | case26 => exact .nothing _
  | case2 blocks first rest hdata =>
    -- An `end` closes a section that holds no code, which is no scope.
    cases blocks with
    | nil => simp at hdata
    | cons block outer =>
      have hblock : block = .data := by simpa using hdata
      subst hblock
      simp only
      split
      · exact .nothing _
      · exact .nothing _
  | case3 => exact delivers_functionHeader ended _ _
  | case4 blocks first rest =>
    have hinnermost := Delivers.closing (blocks.take 1) (blocks.drop 1)
    rw [List.take_append_drop, List.drop_one] at hinnermost
    exact hinnermost
  | case5 | case6 => exact .plain _ (.loopHeader _)
  | case7 | case8 | case9 | case10 | case12 | case13 | case20 => exact .plain _ (.expression _)
  | case11 blocks first rest hdata hkind ih | case14 blocks first rest hdata hkind ih
  | case15 blocks first rest hdata hkind ih => exact ih
  | case17 blocks first rest hdata hkind hcaught ih => exact ih
  | case16 => exact .plain _ (.declare _ _ _)
  | case18 | case19 => exact .plain _ (.declareNames _ _)
  | case27 | case28 => exact .plain _ (.simpleStatement _)

/-- The events of the remaining statements, statement by statement; the last list closes the blocks
    that are still open. -/
def eventsByStatement (ended : Bool) (blocks : List Block) : List (List Token) → List (List Event)
  | [] => [blocks.flatMap Block.closing]
  | s :: later =>
    (statement ended blocks s).2 :: eventsByStatement ended (statement ended blocks s).1 later

/-- The events of the statements are those of the whole, statement by statement. -/
theorem flatten_eventsByStatement (ended : Bool) (blocks : List Block)
    (statements : List (List Token)) :
    (eventsByStatement ended blocks statements).flatten =
      statementEvents ended blocks statements := by
  induction statements generalizing blocks with
  | nil => exact List.append_nil _
  | cons s later ih => rw [eventsByStatement, List.flatten_cons, ih, statementEvents]

/-- The scopes that are open after some pieces, statement by statement. -/
def issueAll (opened : List ScopeKind) (pieces : List (List Part)) : Option (List ScopeKind) :=
  issue opened (pieces.flatten.flatMap Part.issued)

theorem issueAll_cons (opened : List ScopeKind) (parts : List Part) (later : List (List Part)) :
    issueAll opened (parts :: later) =
      (issue opened (parts.flatMap Part.issued)).bind (issueAll · later) := by
  simp [issueAll, List.flatMap_append, issue_append]

/-- The pieces of a source from its open blocks on: between statements exactly the functions among
    the open blocks are open, so that no closure is, and in the end nothing is. -/
theorem exists_pieces (ended : Bool) (blocks : List Block) (statements : List (List Token)) :
    ∃ pieces : List (List Part),
      pieces.map (·.flatMap Part.events) = eventsByStatement ended blocks statements ∧
      issueAll (functionsOf blocks) pieces = some [] ∧
      ∀ earlier later, pieces = earlier ++ later →
        ∃ opened, issueAll (functionsOf blocks) earlier = some opened ∧
          ScopeKind.closure ∉ opened := by
  induction statements generalizing blocks with
  | nil =>
    obtain ⟨parts, hparts, hissue⟩ := Delivers.closing blocks []
    rw [List.append_nil] at hissue
    refine ⟨[parts], by simp [hparts, eventsByStatement], by simpa [issueAll] using hissue, ?_⟩
    intro earlier later hsplit
    cases earlier with
    | nil => exact ⟨_, rfl, closure_not_mem_functionsOf blocks⟩
    | cons first more =>
      obtain ⟨hfirst, hmore⟩ := List.cons_eq_cons.mp hsplit
      obtain ⟨rfl, rfl⟩ := List.append_eq_nil_iff.mp hmore.symm
      subst hfirst
      exact ⟨[], by simpa [issueAll] using hissue, List.not_mem_nil⟩
  | cons s rest ih =>
    obtain ⟨parts, hparts, hissue⟩ := delivers_statement ended blocks s
    obtain ⟨pieces, hpieces, hend, hbetween⟩ := ih (statement ended blocks s).1
    have hthrough (qs : List (List Part)) : issueAll (functionsOf blocks) (parts :: qs) =
        issueAll (functionsOf (statement ended blocks s).1) qs := by
      rw [issueAll_cons, hissue]
      rfl
    refine ⟨parts :: pieces, by rw [List.map_cons, hparts, hpieces, eventsByStatement],
      by rw [hthrough, hend], ?_⟩
    intro earlier later hsplit
    cases earlier with
    | nil => exact ⟨_, rfl, closure_not_mem_functionsOf blocks⟩
    | cons first more =>
      obtain ⟨rfl, hmore⟩ := List.cons_eq_cons.mp hsplit
      obtain ⟨opened, hopened, hclosed⟩ := hbetween more later hmore
      exact ⟨opened, by rw [hthrough, hopened], hclosed⟩

/-- The events of well-formed tokens, statement by statement. -/
def byStatement (tokens : List Token) : List (List Event) :=
  eventsByStatement (closesFunctions tokens) [] (statements tokens)

/-- The scopes in the events of some tokens are well nested: they are balanced, no closure is open
    when a statement begins, and an exit that is issued for a kind of scope closes one of that kind.
    The pieces in the last part are what each statement is delivered in. Functions are closed
    through the stack of blocks, where a stray `end` pops whatever is open, and closures through a
    stack of bracket depths inside one expression; the two never get in each other's way, as an
    expression closes every closure that it opens before it ends. -/
structure WellNested (tokens : List Token) (events : List Event) : Prop where
  flatten : (byStatement tokens).flatten = events
  balanced : Event.Balanced events
  between : ∀ earlier later, byStatement tokens = earlier ++ later →
    ∃ opened, Event.scopesAfter [] earlier.flatten = some opened ∧ ScopeKind.closure ∉ opened
  issued : ∃ pieces : List (List Part),
    pieces.map (·.flatMap Part.events) = byStatement tokens ∧
    ∀ before kind after,
      pieces.flatten.flatMap Part.issued = before ++ (.exit, kind) :: after →
        ∃ outer, Event.scopesAfter [] (before.map Prod.fst) = some (kind :: outer)

/-- The events of pieces in groups are those of all pieces. -/
theorem flatten_map_events (pieces : List (List Part)) :
    (pieces.map (·.flatMap Part.events)).flatten = pieces.flatten.flatMap Part.events := by
  induction pieces with
  | nil => rfl
  | cons parts later ih => rw [List.map_cons, List.flatten_cons, ih, List.flatten_cons,
      List.flatMap_append]

/-- The scopes in the events of any tokens are well nested. -/
theorem wellNested_events (tokens : List Token) : WellNested tokens (events tokens) := by
  obtain ⟨pieces, hpieces, hend, hbetween⟩ :=
    exists_pieces (closesFunctions tokens) [] (statements tokens)
  have hflatten : (byStatement tokens).flatten = events tokens :=
    flatten_eventsByStatement _ [] (statements tokens)
  -- The pieces of any number of statements are issued for the scopes that their events are about.
  have hafter {qs : List (List Part)} {opened : List ScopeKind}
      (h : issueAll [] qs = some opened) :
      Event.scopesAfter [] (qs.map (·.flatMap Part.events)).flatten = some opened := by
    rw [flatten_map_events, ← map_fst_issued]
    exact scopesAfter_of_issue h
  refine ⟨hflatten, ?_, ?_, pieces, hpieces, ?_⟩
  · apply Event.balanced_of_scopesAfter
    have hall := hafter hend
    rw [hpieces] at hall
    rw [← hflatten]
    exact hall
  · intro earlier later hsplit
    unfold byStatement at hsplit
    rw [← hpieces] at hsplit
    obtain ⟨first, rest, hpieces', rfl, -⟩ := List.map_eq_append_iff.mp hsplit
    obtain ⟨opened, hopened, hclosed⟩ := hbetween first rest hpieces'
    exact ⟨opened, hafter hopened, hclosed⟩
  · intro before kind after hexit
    have hall : issue [] (before ++ (.exit, kind) :: after) = some [] := by
      rw [← hexit]
      exact hend
    exact scopesAfter_of_exit hall

end Outline

/-- Scopes are well nested in every source whose tokens are well formed, whatever its blocks and
    brackets look like. -/
theorem Event.wellNested_ofSource (source : String)
    (h : ∀ t ∈ Token.ofSource source, t.kind ≠ .malformed) :
    ∃ events, Event.ofSource source = .ok events ∧
      Outline.WellNested (Token.ofSource source) events := by
  have hnone : (Token.ofSource source).find? (·.kind == .malformed) = none := by
    rw [List.find?_eq_none]
    intro t ht
    simpa using h t ht
  refine ⟨Outline.events (Token.ofSource source), ?_, Outline.wellNested_events _⟩
  simp only [Event.ofSource, hnone]

/-- Stray and missing `end`s, brackets that do not fit and closures that are cut short. -/
theorem Event.wellNested_stray_ends :
    ∃ events,
      Event.ofSource "end\nfunction f(a\nx = @(b) b + [@(c) c\nif x, end\nend)" = .ok events ∧
      Outline.WellNested
        (Token.ofSource "end\nfunction f(a\nx = @(b) b + [@(c) c\nif x, end\nend)") events :=
  Event.wellNested_ofSource _ (by decide +kernel)

end ScriptBuild
