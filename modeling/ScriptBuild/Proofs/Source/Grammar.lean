import ScriptBuild.Source.Outline

namespace ScriptBuild

/-- Whether a token may stand at a bracket depth inside a statement: outside brackets it is no
    separator, brackets are closed only after they were opened, and the only reserved word is an
    `end` that stands for the last index. -/
def TokenKind.fits (kind : TokenKind) (depth : Nat) : Bool :=
  match kind with
  | malformed => false
  | keyword word => word == .endBlock && 0 < depth
  | kind => 0 < depth || !(kind.isSeparator || kind.isCloser)

/-- Blocks that hold statements and are no scopes. -/
def Keyword.opensControl : Keyword → Bool
  | ifThen | forLoop | parforLoop | whileLoop | switchOn | tryBlock | spmd => true
  | _ => false

/-- Words that start a part of a block. -/
def Keyword.startsPart : Keyword → Bool
  | elseIf | elseThen | caseOf | otherwise | catchBlock => true
  | _ => false

namespace Grammar

/-- Tokens that belong into one statement and close all brackets, those around them included. -/
def balanced (depth : Nat) : List Token → Bool
  | [] => depth == 0
  | t :: ts => t.kind.fits depth && balanced (t.kind.depthAfter depth) ts

/-- What stands between two statements. -/
structure Separators where
  tokens : List Token
  ne_nil : tokens ≠ []
  separate : ∀ t ∈ tokens, t.kind.isSeparator = true

/-- A statement that starts with no reserved word. -/
structure Simple where
  tokens : List Token
  ne_nil : tokens ≠ []
  balanced : balanced 0 tokens = true

/-- A reserved word and what follows it in its statement. -/
structure Led (allowed : Keyword → Bool) where
  word : Keyword
  first : Token
  rest : List Token
  kind_eq : first.kind = .keyword word
  allowed : allowed word = true
  balanced : balanced 0 rest = true

/-- The `end` of a block. -/
structure Closer where
  token : Token
  kind_eq : token.kind = .keyword .endBlock

/-- The left side of the assignment in a function header, with its sign. -/
structure Outputs where
  tokens : List Token
  sign : Token
  balanced : balanced 0 tokens = true
  unassigned : Outline.splitAssignment 0 tokens = none
  sign_eq : sign.kind = .symbol .assign

/-- A function header: `outputs = name.part(parameters)`, where all but the name may be missing. -/
structure Header where
  word : Token
  outputs : Option Outputs
  name : Token
  parts : List (Token × Token)
  parameters : List Token
  word_eq : word.kind = .keyword .function
  name_eq : name.kind = .name
  parts_eq : ∀ p ∈ parts, p.1.kind = .symbol .dot ∧ p.2.kind = .name
  balanced : balanced 0 parameters = true
  unassigned : Outline.splitAssignment 0 parameters = none
  ends_name : ∀ t ∈ parameters.head?, t.kind ≠ .symbol .dot

/-- The statements of a body. The parts of a block are statements of its body, each started by a
    word of its own. -/
inductive Script where
  | done
  | simple (statement : Simple) (separators : Separators) (rest : Script)
  | part (start : Led Keyword.startsPart) (separators : Separators) (rest : Script)
  | block (start : Led Keyword.opensControl) (separators : Separators) (body : Script)
      (closer : Closer) (later : Separators) (rest : Script)
  | function (header : Header) (separators : Separators) (body : Script)
      (closer : Closer) (later : Separators) (rest : Script)

/-- Whether no function stands among some statements. -/
def Script.functionFree : Script → Bool
  | done => true
  | simple _ _ rest | part _ _ rest => rest.functionFree
  | block _ _ body _ _ rest => body.functionFree && rest.functionFree
  | function .. => false

/-- A function without an `end`. -/
structure Section where
  header : Header
  separators : Separators
  body : Script
  functionFree : body.functionFree = true

/-- A program in one of the two styles. It is a tree of the tokens that it is written with. An
    outline sees only their list, which it cuts into statements; it learns from two counters which
    of the two styles the program has. -/
inductive Program where
  /-- Every function is closed by its own `end`. -/
  | ended (leading : List Token) (separate : ∀ t ∈ leading, t.kind.isSeparator = true)
      (script : Script)
  /-- No function is: each runs to the next one or to the end, after statements that belong to
      none. -/
  | unended (leading : List Token) (separate : ∀ t ∈ leading, t.kind.isSeparator = true)
      (script : Script) (functionFree : script.functionFree = true) (first : Section)
      (later : List Section)

/-- The tokens of a statement: balanced ones, after a reserved word or after none. -/
inductive Whole : List Token → Prop where
  | simple {tokens : List Token} (hne : tokens ≠ []) (h : balanced 0 tokens = true) : Whole tokens
  | led {word : Keyword} {first : Token} {rest : List Token} (hkind : first.kind = .keyword word)
      (hword : word ≠ .classdef) (h : balanced 0 rest = true) : Whole (first :: rest)

/-- A statement and the separators after it. -/
structure Line where
  tokens : List Token
  separators : Separators
  whole : Whole tokens

/-- The tokens of a statement and those of the separators after it. -/
def Line.all (line : Line) : List Token := line.tokens ++ line.separators.tokens

/-- The tokens of a header after its word. -/
def Header.rest (h : Header) : List Token :=
  (h.outputs.elim [] fun o => o.tokens ++ [o.sign]) ++
    h.name :: (h.parts.flatMap (fun p => [p.1, p.2]) ++ h.parameters)

/-- Tokens that close all brackets may be followed by balanced ones. -/
theorem balanced_append {depth : Nat} {ts us : List Token} (h : balanced depth ts = true)
    (h' : balanced 0 us = true) : balanced depth (ts ++ us) = true := by
  induction ts generalizing depth with
  | nil =>
    obtain rfl : depth = 0 := by simpa [balanced] using h
    exact h'
  | cons t ts ih =>
    obtain ⟨hfits, hrest⟩ := Bool.and_eq_true_iff.mp h
    rw [List.cons_append, balanced, hfits, ih hrest]
    rfl

theorem balanced_parts {parts : List (Token × Token)}
    (h : ∀ p ∈ parts, p.1.kind = .symbol .dot ∧ p.2.kind = .name) :
    balanced 0 (parts.flatMap fun p => [p.1, p.2]) = true := by
  induction parts with
  | nil => rfl
  | cons p ps ih =>
    obtain ⟨hdot, hpart⟩ := h p List.mem_cons_self
    have hlater := ih fun q hq => h q (List.mem_cons_of_mem p hq)
    rw [List.flatMap_cons]
    refine balanced_append ?_ hlater
    simp only [balanced, hdot, hpart]
    rfl

theorem Header.balanced_rest (h : Header) : Grammar.balanced 0 h.rest = true := by
  refine balanced_append ?_ ?_
  · cases h.outputs with
    | none => rfl
    | some o =>
      refine balanced_append o.balanced ?_
      rw [Grammar.balanced, o.sign_eq]
      rfl
  · rw [Grammar.balanced, h.name_eq]
    exact balanced_append (balanced_parts h.parts_eq) h.balanced

/-- A simple statement as it is written. -/
def Simple.line (s : Simple) (separators : Separators) : Line :=
  ⟨s.tokens, separators, .simple s.ne_nil s.balanced⟩

/-- A statement after a reserved word as it is written. -/
def Led.line {allowed : Keyword → Bool} (start : Led allowed) (hclass : allowed .classdef = false)
    (separators : Separators) : Line where
  tokens := start.first :: start.rest
  separators := separators
  whole := by
    refine .led start.kind_eq (fun hword => ?_) start.balanced
    have hallowed := start.allowed
    rw [hword, hclass] at hallowed
    cases hallowed

/-- The `end` of a block as it is written. -/
def Closer.line (closer : Closer) (separators : Separators) : Line :=
  ⟨[closer.token], separators, .led closer.kind_eq nofun rfl⟩

/-- A function header as it is written. -/
def Header.line (h : Header) (separators : Separators) : Line :=
  ⟨h.word :: h.rest, separators, .led h.word_eq nofun h.balanced_rest⟩

/-- The statements of a body in the order in which they are written. -/
def Script.lines : Script → List Line
  | done => []
  | simple statement separators rest => statement.line separators :: rest.lines
  | part start separators rest => start.line rfl separators :: rest.lines
  | block start separators body closer later rest =>
    start.line rfl separators :: (body.lines ++ closer.line later :: rest.lines)
  | function header separators body closer later rest =>
    header.line separators :: (body.lines ++ closer.line later :: rest.lines)

/-- The statements of a function without an `end`. -/
def Section.lines (s : Section) : List Line := s.header.line s.separators :: s.body.lines

/-- The separators before the first statement of a program. -/
def Program.leading : Program → List Token
  | ended leading _ _ | unended leading _ _ _ _ _ => leading

/-- The statements of a program in the order in which they are written. -/
def Program.lines : Program → List Line
  | ended _ _ script => script.lines
  | unended _ _ script _ first later => script.lines ++ (first :: later).flatMap Section.lines

/-- The tokens of a program. -/
def Program.tokens (p : Program) : List Token := p.leading ++ p.lines.flatMap Line.all

/-- Nothing but separators stands before the first statement. -/
theorem Program.separator_of_mem_leading (p : Program) :
    ∀ t ∈ p.leading, t.kind.isSeparator = true := by
  cases p with
  | ended _ separate _ => exact separate
  | unended _ separate _ _ _ _ => exact separate

variable {depth openers ends : Nat} {ts rest current : List Token} {t : Token}

/-- A token that fits into a statement separates none. -/
theorem isSeparator_of_fits {kind : TokenKind} (h : kind.fits depth = true) :
    (kind.depthAfter depth == 0 && kind.isSeparator) = false := by
  cases kind with
  | symbol s => cases s <;> simp_all [TokenKind.fits, TokenKind.depthAfter, TokenKind.isSeparator,
      TokenKind.isOpener, TokenKind.isCloser, Symbol.isOpener, Symbol.isCloser, Nat.pos_iff_ne_zero]
  | newline | eof => simp_all [TokenKind.fits, TokenKind.depthAfter, TokenKind.isSeparator,
      TokenKind.isOpener, TokenKind.isCloser, Nat.pos_iff_ne_zero]
  | keyword | number | text | name | malformed => simp [TokenKind.isSeparator]

/-- Balanced tokens are taken into the current statement. -/
theorem statementsFrom_balanced (h : balanced depth ts = true) :
    Outline.statementsFrom depth current (ts ++ rest) =
      Outline.statementsFrom 0 (ts.reverse ++ current) rest := by
  induction ts generalizing depth current with
  | nil =>
    obtain rfl : depth = 0 := by simpa [balanced] using h
    rfl
  | cons t ts ih =>
    obtain ⟨hfits, hrest⟩ := Bool.and_eq_true_iff.mp h
    rw [List.cons_append, Outline.statementsFrom]
    simp only [isSeparator_of_fits hfits, Bool.false_eq_true, if_false]
    rw [ih hrest, List.reverse_cons, List.append_assoc]
    rfl

theorem depthAfter_of_isSeparator {kind : TokenKind} (h : kind.isSeparator = true) :
    kind.depthAfter depth = depth := by
  cases kind with
  | symbol s => cases s <;> first | rfl | cases h
  | newline | eof => rfl
  | keyword | number | text | name | malformed => cases h

theorem statementsFrom_separators (h : ∀ t ∈ ts, t.kind.isSeparator = true) :
    Outline.statementsFrom 0 [] (ts ++ rest) = Outline.statementsFrom 0 [] rest := by
  induction ts with
  | nil => rfl
  | cons t ts ih =>
    have ht := h t List.mem_cons_self
    rw [List.cons_append, Outline.statementsFrom]
    simp only [depthAfter_of_isSeparator ht, ht, beq_self_eq_true, Bool.and_self, if_true,
      List.isEmpty_nil]
    exact ih fun u hu => h u (List.mem_cons_of_mem t hu)

/-- The tokens of a statement are collected, and the first separator after them ends it. -/
theorem statementsFrom_line (line : Line) :
    Outline.statementsFrom 0 [] (line.all ++ rest) =
      line.tokens :: Outline.statementsFrom 0 [] rest := by
  obtain ⟨tokens, ⟨separators, hne, hseparate⟩, hwhole⟩ := line
  have hcollect : Outline.statementsFrom 0 [] (tokens ++ (separators ++ rest)) =
      Outline.statementsFrom 0 tokens.reverse (separators ++ rest) := by
    cases hwhole with
    | simple hne h => rw [statementsFrom_balanced h, List.append_nil]
    | @led word first rest' hkind hword h =>
      rw [List.cons_append, Outline.statementsFrom]
      simp only [hkind, TokenKind.isSeparator, Bool.and_false, Bool.false_eq_true, if_false]
      have hdepth : (TokenKind.keyword word).depthAfter 0 = 0 := rfl
      rw [hdepth, statementsFrom_balanced h, List.reverse_cons]
  have hfilled : tokens.reverse.isEmpty = false := by cases hwhole <;> simp_all
  rw [Line.all, List.append_assoc, hcollect]
  cases separators with
  | nil => exact absurd rfl hne
  | cons t ts =>
    have ht := hseparate t List.mem_cons_self
    rw [List.cons_append, Outline.statementsFrom]
    simp only [depthAfter_of_isSeparator ht, ht, beq_self_eq_true, Bool.and_self, if_true, hfilled,
      Bool.false_eq_true, if_false, List.reverse_reverse]
    rw [statementsFrom_separators fun u hu => hseparate u (List.mem_cons_of_mem t hu)]

/-- The statements of a program are cut as they were written. -/
theorem Program.statements_tokens (p : Program) :
    Outline.statements p.tokens = p.lines.map Line.tokens := by
  have hlines (lines : List Line) :
      Outline.statementsFrom 0 [] (lines.flatMap Line.all) = lines.map Line.tokens := by
    induction lines with
    | nil => rfl
    | cons line later ih => rw [List.flatMap_cons, statementsFrom_line, ih, List.map_cons]
  rw [Outline.statements, tokens, statementsFrom_separators p.separator_of_mem_leading, hlines]

theorem countBlocks_balanced (h : balanced depth ts = true) :
    Outline.countBlocks depth openers ends (ts ++ rest) =
      Outline.countBlocks 0 openers ends rest := by
  induction ts generalizing depth with
  | nil =>
    obtain rfl : depth = 0 := by simpa [balanced] using h
    rfl
  | cons t ts ih =>
    obtain ⟨hfits, hrest⟩ := Bool.and_eq_true_iff.mp h
    have hword (word : Keyword) (hkind : t.kind = .keyword word) : ¬ depth = 0 := by
      rw [hkind] at hfits
      simp only [TokenKind.fits, Bool.and_eq_true, decide_eq_true_eq] at hfits
      exact Nat.ne_of_gt hfits.2
    have hend : ¬ (depth == 0 && t.kind == .keyword .endBlock) = true := by
      simp only [Bool.and_eq_true, beq_iff_eq]
      exact fun h => hword _ h.2 h.1
    have hopens : ¬ (depth == 0 && t.kind.opensBlock) = true := by
      simp only [Bool.and_eq_true, beq_iff_eq]
      rintro ⟨hdepth, hopens⟩
      cases hkind : t.kind with
      | keyword word => exact hword word hkind hdepth
      | _ => simp [hkind, TokenKind.opensBlock] at hopens
    rw [List.cons_append, Outline.countBlocks, if_neg hend, if_neg hopens]
    exact ih hrest

theorem countBlocks_separators (h : ∀ t ∈ ts, t.kind.isSeparator = true) :
    Outline.countBlocks 0 openers ends (ts ++ rest) = Outline.countBlocks 0 openers ends rest := by
  induction ts with
  | nil => rfl
  | cons t ts ih =>
    have ht := h t List.mem_cons_self
    have hend : ¬ ((0 == 0) && t.kind == .keyword .endBlock) = true := by
      intro hend
      have hkind : t.kind = .keyword .endBlock := by simpa using hend
      rw [hkind] at ht
      cases ht
    have hopens : ¬ ((0 == 0) && t.kind.opensBlock) = true := by
      cases hkind : t.kind with
      | keyword word =>
        rw [hkind] at ht
        cases ht
      | _ => simp [TokenKind.opensBlock]
    rw [List.cons_append, Outline.countBlocks, if_neg hend, if_neg hopens,
      depthAfter_of_isSeparator ht]
    exact ih fun u hu => h u (List.mem_cons_of_mem t hu)

/-- A simple statement opens and closes no block. -/
theorem countBlocks_simple (statement : Simple) (separators : Separators) :
    Outline.countBlocks 0 openers ends ((statement.line separators).all ++ rest) =
      Outline.countBlocks 0 openers ends rest := by
  rw [Line.all, List.append_assoc]
  exact (countBlocks_balanced statement.balanced).trans (countBlocks_separators separators.separate)

/-- A statement that starts with a reserved word counts as an opener if the word opens a block. -/
theorem countBlocks_word {word : Keyword} (hkind : t.kind = .keyword word)
    (hword : word ≠ .endBlock) (h : balanced 0 ts = true) (separators : Separators) :
    Outline.countBlocks 0 openers ends (t :: ts ++ separators.tokens ++ rest) =
      Outline.countBlocks 0 (openers + word.opensBlock.toNat) ends rest := by
  have hend : ¬ ((0 == 0) && t.kind == .keyword .endBlock) = true := by simpa [hkind] using hword
  have hafter : Outline.countBlocks 0 (openers + word.opensBlock.toNat) ends
      (ts ++ (separators.tokens ++ rest)) =
        Outline.countBlocks 0 (openers + word.opensBlock.toNat) ends rest :=
    (countBlocks_balanced h).trans (countBlocks_separators separators.separate)
  rw [List.append_assoc, List.cons_append, Outline.countBlocks, if_neg hend, ← hafter]
  simp only [hkind, TokenKind.opensBlock, beq_self_eq_true, Bool.true_and]
  cases word.opensBlock <;> rfl

theorem countBlocks_closer (closer : Closer) (separators : Separators) :
    Outline.countBlocks 0 openers ends ((closer.line separators).all ++ rest) =
      Outline.countBlocks 0 openers (ends + 1) rest := by
  rw [Line.all, List.append_assoc, Closer.line, List.cons_append, List.nil_append,
    Outline.countBlocks, if_pos (by simp [closer.kind_eq])]
  exact countBlocks_separators separators.separate

/-- A statement after a reserved word is counted if the word opens a block. -/
theorem countBlocks_led {allowed : Keyword → Bool} (start : Led allowed)
    (hclass : allowed .classdef = false) (hend : allowed .endBlock = false)
    (separators : Separators) :
    Outline.countBlocks 0 openers ends ((start.line hclass separators).all ++ rest) =
      Outline.countBlocks 0 (openers + start.word.opensBlock.toNat) ends rest := by
  refine countBlocks_word start.kind_eq (fun hword => ?_) start.balanced separators
  have hallowed := start.allowed
  rw [hword, hend] at hallowed
  cases hallowed

/-- A word that starts a part of a block opens none. -/
theorem opensBlock_of_startsPart {word : Keyword} (h : word.startsPart = true) :
    word.opensBlock = false := by
  cases word <;> first | rfl | cases h

/-- A word that starts a control statement opens a block. -/
theorem opensBlock_of_opensControl {word : Keyword} (h : word.opensControl = true) :
    word.opensBlock = true := by
  cases word <;> first | rfl | cases h

/-- A part of a block is not counted. -/
theorem countBlocks_part (start : Led Keyword.startsPart) (separators : Separators) :
    Outline.countBlocks 0 openers ends ((start.line rfl separators).all ++ rest) =
      Outline.countBlocks 0 openers ends rest := by
  rw [countBlocks_led start rfl rfl, opensBlock_of_startsPart start.allowed]
  rfl

theorem countBlocks_start (start : Led Keyword.opensControl) (separators : Separators) :
    Outline.countBlocks 0 openers ends ((start.line rfl separators).all ++ rest) =
      Outline.countBlocks 0 (openers + 1) ends rest := by
  rw [countBlocks_led start rfl rfl, opensBlock_of_opensControl start.allowed]
  rfl

/-- A function is counted as an opened block. -/
theorem countBlocks_header (header : Header) (separators : Separators) :
    Outline.countBlocks 0 openers ends ((header.line separators).all ++ rest) =
      Outline.countBlocks 0 (openers + 1) ends rest :=
  countBlocks_word header.word_eq nofun header.balanced_rest separators

/-- The number of blocks in a script, functions included. -/
def Script.blocks : Script → Nat
  | done => 0
  | simple _ _ rest | part _ _ rest => rest.blocks
  | block _ _ body _ _ rest | function _ _ body _ _ rest => body.blocks + rest.blocks + 1

/-- Every block of a script counts once as an opener and once as an `end`. -/
theorem countBlocks_script (script : Script) :
    Outline.countBlocks 0 openers ends (script.lines.flatMap Line.all ++ rest) =
      Outline.countBlocks 0 (openers + script.blocks) (ends + script.blocks) rest := by
  induction script generalizing openers ends rest with
  | done => rfl
  | simple statement separators later ih =>
    rw [Script.lines, List.flatMap_cons, List.append_assoc, countBlocks_simple, ih]
    rfl
  | part start separators later ih =>
    rw [Script.lines, List.flatMap_cons, List.append_assoc, countBlocks_part, ih]
    rfl
  | block start separators body closer last later ihbody ihlater =>
    rw [Script.lines, List.flatMap_cons, List.append_assoc, countBlocks_start, List.flatMap_append,
      List.append_assoc, ihbody, List.flatMap_cons, List.append_assoc, countBlocks_closer, ihlater,
      Script.blocks]
    congr 1 <;> omega
  | function header separators body closer last later ihbody ihlater =>
    rw [Script.lines, List.flatMap_cons, List.append_assoc, countBlocks_header, List.flatMap_append,
      List.append_assoc, ihbody, List.flatMap_cons, List.append_assoc, countBlocks_closer, ihlater,
      Script.blocks]
    congr 1 <;> omega

/-- A function without an `end` counts as one opener more. -/
theorem countBlocks_sections (sections : List Section) :
    ∃ blocks, Outline.countBlocks 0 openers ends ((sections.flatMap Section.lines).flatMap Line.all) =
      (openers + blocks + sections.length, ends + blocks) := by
  induction sections generalizing openers ends with
  | nil => exact ⟨0, rfl⟩
  | cons s later ih =>
    obtain ⟨blocks, hlater⟩ := @ih (openers + 1 + s.body.blocks) (ends + s.body.blocks)
    refine ⟨s.body.blocks + blocks, ?_⟩
    rw [List.flatMap_cons, List.flatMap_append, Section.lines, List.flatMap_cons, List.append_assoc,
      countBlocks_header, countBlocks_script, hlater, List.length_cons]
    congr 1 <;> omega

/-- The tokens that a program is not written with. -/
def Ordinary (kind : TokenKind) : Prop := kind ≠ .malformed ∧ kind ≠ .keyword .classdef

theorem ordinary_of_isSeparator {kind : TokenKind} (h : kind.isSeparator = true) :
    Ordinary kind := by
  constructor <;> rintro rfl <;> cases h

/-- A token that fits into a statement is ordinary. -/
theorem ordinary_of_fits {kind : TokenKind} (h : kind.fits depth = true) : Ordinary kind := by
  constructor <;> rintro rfl <;> cases h

theorem ordinary_of_balanced (h : balanced depth ts = true) : ∀ t ∈ ts, Ordinary t.kind := by
  induction ts generalizing depth with
  | nil => exact nofun
  | cons t ts ih =>
    obtain ⟨hfits, hrest⟩ := Bool.and_eq_true_iff.mp h
    rintro u (_ | ⟨_, hu⟩)
    · exact ordinary_of_fits hfits
    · exact ih hrest u hu

theorem ordinary_of_whole (h : Whole ts) : ∀ t ∈ ts, Ordinary t.kind := by
  cases h with
  | simple hne h => exact ordinary_of_balanced h
  | led hkind hword h =>
    rintro u (_ | ⟨_, hu⟩)
    · rw [hkind]
      exact ⟨nofun, by simpa using hword⟩
    · exact ordinary_of_balanced h u hu

/-- The tokens that a program is written with are ordinary. -/
theorem Program.ordinary_of_mem (p : Program) : ∀ t ∈ p.tokens, Ordinary t.kind := by
  intro t ht
  rcases List.mem_append.mp ht with ht | ht
  · exact ordinary_of_isSeparator (p.separator_of_mem_leading t ht)
  · obtain ⟨line, -, ht⟩ := List.mem_flatMap.mp ht
    rcases List.mem_append.mp ht with ht | ht
    · exact ordinary_of_whole line.whole t ht
    · exact ordinary_of_isSeparator (line.separators.separate t ht)

/-- Whether the functions of a program have `end`s of their own. -/
def Program.isEnded : Program → Bool
  | ended .. => true
  | unended .. => false

/-- The counters tell the two styles apart: where functions have no `end`, each of them is an opener
    too many. -/
theorem Program.closesFunctions_tokens (p : Program) :
    Outline.closesFunctions p.tokens = p.isEnded := by
  have hclass : p.tokens.any (·.kind == .keyword .classdef) = false := by
    rw [List.any_eq_false]
    intro t ht
    simpa using (p.ordinary_of_mem t ht).2
  have hcount : Outline.countBlocks 0 0 0 p.tokens =
      Outline.countBlocks 0 0 0 (p.lines.flatMap Line.all) :=
    countBlocks_separators p.separator_of_mem_leading
  rw [Outline.closesFunctions, hclass, hcount, Bool.false_or]
  cases p with
  | ended leading separate script =>
    have hscript : Outline.countBlocks 0 0 0 (script.lines.flatMap Line.all ++ []) = _ :=
      countBlocks_script script
    rw [List.append_nil] at hscript
    rw [lines, hscript]
    simp [Outline.countBlocks, isEnded]
  | unended leading separate script functionFree first later =>
    obtain ⟨blocks, hsections⟩ :=
      @countBlocks_sections (0 + script.blocks) (0 + script.blocks) (first :: later)
    rw [lines, List.flatMap_append, countBlocks_script, hsections]
    simp [isEnded]

end Grammar

end ScriptBuild
