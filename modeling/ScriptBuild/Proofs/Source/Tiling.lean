import ScriptBuild.Source.Lexer
import Mathlib.Data.List.Basic

namespace ScriptBuild

open Text

@[simp] theorem utf8Length_nil : utf8Length [] = 0 := rfl

@[simp] theorem utf8Length_cons (c : Char) (cs : List Char) :
    utf8Length (c :: cs) = c.utf8Size + utf8Length cs := rfl

@[simp] theorem utf8Length_append (cs ds : List Char) :
    utf8Length (cs ++ ds) = utf8Length cs + utf8Length ds := by
  induction cs with
  | nil => simp
  | cons c cs ih => simp [ih, Nat.add_assoc]

/-- A text that is not empty takes bytes. -/
theorem utf8Length_pos {cs : List Char} (h : cs ≠ []) : 0 < utf8Length cs := by
  cases cs with
  | nil => exact absurd rfl h
  | cons c cs => exact Nat.add_pos_left c.utf8Size_pos _

/-- The size of a string is the length of its characters. -/
theorem utf8ByteSize_ofList (cs : List Char) : (String.ofList cs).utf8ByteSize = utf8Length cs := by
  induction cs with
  | nil => rfl
  | cons c cs ih =>
    rw [← List.singleton_append, String.ofList_append, String.utf8ByteSize_append, ih,
      ← String.singleton_eq_ofList, String.utf8ByteSize_singleton]
    rfl

/-- The characters of a string take its size. -/
theorem utf8Length_toList (source : String) : utf8Length source.toList = source.utf8ByteSize := by
  rw [← utf8ByteSize_ofList, String.ofList_toList]

/-- A span covers a text that stands between two others, which together are the whole source. -/
structure Span.Covers (s : Span) (source before text after : List Char) : Prop where
  source_eq : source = before ++ text ++ after
  start_eq : s.start = utf8Length before
  stop_eq : s.stop = utf8Length before + utf8Length text

/-- A prefix of a text ends on a boundary between its characters. -/
theorem isValid_of_append {source : String} {before after : List Char}
    (h : source.toList = before ++ after) :
    (⟨utf8Length before⟩ : String.Pos.Raw).IsValid source := by
  refine String.Pos.Raw.isValid_iff_exists_append.mpr
    ⟨String.ofList before, String.ofList after, ?_, ?_⟩
  · rw [← String.ofList_append, ← h, String.ofList_toList]
  · rw [← utf8ByteSize_ofList]
    rfl

/-- A name or a reserved word. -/
def TokenKind.isWord : TokenKind → Bool
  | name | keyword _ => true
  | _ => false

namespace Lexer

/-- The characters after the last line feed of a text. -/
def lastLine (cs : List Char) : List Char := (cs.reverse.takeWhile (· != '\n')).reverse

/-- A line ends before a text: at a line feed, or with the source. -/
def EndsLine (after : List Char) : Prop := after = [] ∨ after.head? = some '\n'

/-- No token can stand before this place on its line: only blanks do, or the line is over. -/
def BeginsLine (before after : List Char) : Prop :=
  (∀ c ∈ lastLine before, isBlank c = true) ∨ EndsLine after

/-- Text without a line feed continues the last line. -/
theorem lastLine_append {before line : List Char} (h : '\n' ∉ line) :
    lastLine (before ++ line) = lastLine before ++ line := by
  have hall : ∀ c ∈ line.reverse, (c != '\n') = true := fun c hc =>
    bne_iff_ne.mpr fun heq => h (heq ▸ List.mem_reverse.mp hc)
  simp [lastLine, List.takeWhile_append_of_pos hall]

/-- After a line feed the last line is empty. -/
theorem lastLine_append_newline (before : List Char) : lastLine (before ++ ['\n']) = [] := by
  simp [lastLine]

theorem newline_notMem_lineOf (cs : List Char) : '\n' ∉ lineOf cs := fun h => by
  have hall := List.all_takeWhile (p := (· != '\n')) (l := cs)
  simpa using List.all_eq_true.mp hall _ h

/-- A text is its first line and what follows. -/
theorem lineOf_append (cs : List Char) : lineOf cs ++ cs.dropWhile (· != '\n') = cs :=
  List.takeWhile_append_dropWhile

/-- What follows the first line starts with a line feed. -/
theorem drop_lineOf (cs : List Char) :
    cs.drop (lineOf cs).length = cs.dropWhile (· != '\n') := by
  nth_rewrite 2 [← lineOf_append cs]
  exact List.drop_left

theorem take_lineOf (cs : List Char) : cs.take (lineOf cs).length = lineOf cs := by
  nth_rewrite 2 [← lineOf_append cs]
  exact List.take_left

theorem endsLine_drop_lineOf (cs : List Char) : EndsLine (cs.drop (lineOf cs).length) := by
  rw [drop_lineOf]
  cases hrest : cs.dropWhile (· != '\n') with
  | nil => exact .inl rfl
  | cons c rest =>
    have hhead := List.head?_dropWhile_not (· != '\n') cs
    rw [hrest] at hhead
    simp only [List.head?_cons] at hhead
    exact .inr (by simpa using hhead)

/-- What may be skipped in one piece between a text before and a text after. This is said of the
    source itself, and not of the state in which the lexer reads it: whether a block comment may
    open is then a matter of the line it stands on. -/
inductive Piece (before : List Char) : List Char → List Char → Prop where
  | blank {c : Char} {after : List Char} (hblank : isBlank c = true) (hfeed : c ≠ '\n') :
      Piece before [c] after
  /-- The rest of a line after the comment sign, without the line feed. -/
  | comment {line after : List Char} (hline : '\n' ∉ line) (hend : EndsLine after) :
      Piece before ('%' :: line) after
  /-- Whole lines: the first one holds only the opening mark, the last one only the closing mark,
      and none between them does. -/
  | blockComment {opening closing after : List Char} {lines : List (List Char)}
      (hopening : '\n' ∉ opening)
      (hopens : trim (lastLine before ++ '%' :: opening) = ['%', '\x7b'])
      (hlines : ∀ line ∈ lines, '\n' ∉ line ∧ trim line ≠ ['%', '\x7d'])
      (hclosing : '\n' ∉ closing) (hcloses : trim closing = ['%', '\x7d'])
      (hend : EndsLine after) :
      Piece before ('%' :: opening ++ (lines ++ [closing]).flatMap ('\n' :: ·)) after
  /-- The rest of a line after three points, with the line feed. -/
  | continuation {line after : List Char} (hline : '\n' ∉ line) :
      Piece before ('.' :: '.' :: '.' :: line ++ ['\n']) after
  /-- A continuation on the last line, which has no line feed. -/
  | lastContinuation {line : List Char} (hline : '\n' ∉ line) :
      Piece before ('.' :: '.' :: '.' :: line) []

/-- What may be skipped between a text before and a text after: any number of pieces. -/
inductive Skipped : List Char → List Char → List Char → Prop where
  | nil {before after : List Char} : Skipped before [] after
  | cons {before piece later after : List Char} (hpiece : Piece before piece (later ++ after))
      (hlater : Skipped (before ++ piece) later after) : Skipped before (piece ++ later) after

theorem not_isBlank_percent : isBlank '%' = false := by decide

/-- After blanks only, a line that opens a block comment holds nothing but the opening mark. -/
theorem trim_append_of_blank {blanks line : List Char}
    (hblanks : ∀ c ∈ blanks, isBlank c = true) (h : trimEnd ('%' :: line) = ['%', '\x7b']) :
    trim (blanks ++ '%' :: line) = ['%', '\x7b'] := by
  rw [trim, List.dropWhile_append_of_pos hblanks,
    List.dropWhile_cons_of_neg (by simp [not_isBlank_percent]), h]

/-- The lines of a block comment after its first one. -/
theorem lines_of_blockCommentTail {rest : List Char} {size : Nat}
    (h : blockCommentTail rest = some size) (hrest : EndsLine rest) :
    ∃ (lines : List (List Char)) (closing : List Char),
      rest.take size = (lines ++ [closing]).flatMap ('\n' :: ·) ∧
        (∀ line ∈ lines, '\n' ∉ line ∧ trim line ≠ ['%', '\x7d']) ∧
        '\n' ∉ closing ∧ trim closing = ['%', '\x7d'] ∧ EndsLine (rest.drop size) := by
  fun_induction blockCommentTail rest generalizing size with
  | case1 => cases h
  | case2 c cs line =>
    rename_i hcloses
    cases h
    obtain rfl : c = '\n' := by simpa [EndsLine] using hrest
    refine ⟨[], lineOf cs, ?_, by simp, newline_notMem_lineOf cs, by simpa [line] using hcloses, ?_⟩
    · simp [line, Nat.add_comm 1, take_lineOf]
    · simpa [line, Nat.add_comm 1] using endsLine_drop_lineOf cs
  | case3 c cs line hopen =>
    rename_i ih
    obtain ⟨later, hlater, rfl⟩ := Option.map_eq_some_iff.mp h
    obtain rfl : c = '\n' := by simpa [EndsLine] using hrest
    obtain ⟨lines, closing, htake, hlines, hclosing, hcloses, hend⟩ :=
      ih hlater (endsLine_drop_lineOf cs)
    have hsize : 1 + line.length + later = line.length + later + 1 := by omega
    refine ⟨line :: lines, closing, ?_, ?_, hclosing, hcloses, ?_⟩
    · rw [hsize, List.take_succ_cons, List.take_add, htake, take_lineOf]
      simp [line]
    · rintro l (_ | ⟨_, hl⟩)
      · exact ⟨newline_notMem_lineOf cs, by simpa [line] using hopen⟩
      · exact hlines l hl
    · rw [hsize, List.drop_succ_cons, ← List.drop_drop]
      exact hend

variable {atLineStart spaces : Bool} {before cs : List Char} {c : Char} {more : Nat}

/-- A continuation takes the rest of its line, and the line feed if there is one. -/
theorem piece_continuation (points : List Char) (hmore : more = (lineOf ('.' :: '.' :: points)).length +
      if (('.' :: '.' :: points).drop (lineOf ('.' :: '.' :: points)).length).isEmpty then 0 else 1) :
    Piece before ('.' :: ('.' :: '.' :: points).take more) (('.' :: '.' :: points).drop more) ∧
      BeginsLine (before ++ '.' :: ('.' :: '.' :: points).take more)
        (('.' :: '.' :: points).drop more) := by
  have hline : lineOf ('.' :: '.' :: points) = '.' :: '.' :: lineOf points := by simp [lineOf]
  have hfeed := newline_notMem_lineOf points
  rcases endsLine_drop_lineOf ('.' :: '.' :: points) with hend | hend
  · have hmore : more = (lineOf ('.' :: '.' :: points)).length := by simpa [hend] using hmore
    rw [hmore, take_lineOf, hend, hline]
    exact ⟨.lastContinuation hfeed, .inr (.inl rfl)⟩
  · obtain ⟨after, hafter⟩ := List.head?_eq_some_iff.mp hend
    have hmore : more = (lineOf ('.' :: '.' :: points)).length + 1 := by simpa [hafter] using hmore
    have htake : ('.' :: '.' :: points).take more = '.' :: '.' :: lineOf points ++ ['\n'] := by
      rw [hmore, List.take_add, take_lineOf, hafter, hline]
      rfl
    rw [htake, hmore, ← List.drop_drop, hafter]
    refine ⟨.continuation hfeed, .inl ?_⟩
    rw [← List.cons_append, ← List.append_assoc, lastLine_append_newline]
    simp

/-- A piece that the lexer skips is one that may be skipped. At the start of a line it also leaves
    the lexer at the start of a line: a comment takes the rest of its line, and a continuation the
    line feed as well. -/
theorem piece_of_gapPiece (h : gapPiece atLineStart (c :: cs) = .skip more spaces)
    (hstart : atLineStart = true → BeginsLine before (c :: cs)) :
    Piece before (c :: cs.take more) (cs.drop more) ∧
      (atLineStart = true → BeginsLine (before ++ c :: cs.take more) (cs.drop more)) := by
  unfold gapPiece at h
  dsimp only at h
  split at h
  next hblank =>
    obtain ⟨hfeed, hblank⟩ : c ≠ '\n' ∧ isBlank c = true := by simpa using hblank
    cases h
    refine ⟨.blank hblank hfeed, fun hat => ?_⟩
    rcases hstart hat with hbefore | hend
    · refine .inl fun d hd => ?_
      rw [List.take_zero, lastLine_append (by simpa using hfeed.symm)] at hd
      rcases List.mem_append.mp hd with hd | hd
      · exact hbefore d hd
      · obtain rfl : d = c := by simpa using hd
        exact hblank
    · exact absurd (by simpa [EndsLine] using hend) hfeed
  next =>
    split at h
    next hpercent =>
      obtain rfl : c = '%' := by simpa using hpercent
      have hcomment : EndsLine (cs.drop (lineOf cs).length) := endsLine_drop_lineOf cs
      split at h
      next hopens =>
        obtain ⟨hat, hopens⟩ : atLineStart = true ∧
            trimEnd ('%' :: lineOf cs) = ['%', '\x7b'] := by simpa using hopens
        split at h
        next size hsize =>
          cases h
          obtain ⟨lines, closing, htake, hlines, hclosing, hcloses, hend⟩ :=
            lines_of_blockCommentTail hsize hcomment
          have hbefore : ∀ d ∈ lastLine before, isBlank d = true := by
            rcases hstart hat with hbefore | hend
            · exact hbefore
            · exact absurd hend (by simp [EndsLine])
          rw [List.drop_drop] at hend
          refine ⟨?_, fun _ => .inr hend⟩
          rw [List.take_add, take_lineOf, htake]
          exact .blockComment (newline_notMem_lineOf cs) (trim_append_of_blank hbefore hopens)
            hlines hclosing hcloses hend
        next => cases h
      next =>
        cases h
        refine ⟨?_, fun _ => .inr hcomment⟩
        rw [take_lineOf]
        exact .comment (newline_notMem_lineOf cs) hcomment
    next =>
      split at h
      next _ _ points _ _ =>
        cases h
        obtain ⟨hpiece, hbegins⟩ := piece_continuation points rfl
        exact ⟨hpiece, fun _ => hbegins⟩
      next => cases h

/-- What the lexer skips before a token may be skipped. -/
theorem skipped_gap (hstart : atLineStart = true → BeginsLine before cs) :
    Skipped before (cs.take (gap atLineStart cs).length) (cs.drop (gap atLineStart cs).length) := by
  fun_induction gap atLineStart cs generalizing before with
  | case1 => exact .nil
  | case2 => exact .nil
  | case3 => exact .nil
  | case4 c cs more spaces hpiece =>
    rename_i later ih
    obtain ⟨hskip, hnext⟩ := piece_of_gapPiece hpiece hstart
    have hlater := ih hnext
    have hsize : more + 1 + later.length = more + later.length + 1 := by omega
    simp only [hsize, List.take_succ_cons, List.drop_succ_cons, List.take_add, ← List.drop_drop]
    rw [← List.cons_append]
    refine .cons ?_ hlater
    rwa [List.take_append_drop]

/-- What a reading says is true of the text that it covers. -/
structure Reading.Faithful (r : Reading) (c : Char) (cs : List Char) : Prop where
  kind_ne_eof : r.kind ≠ .eof
  newline : r.kind = .newline → c :: cs.take r.more = ['\n']
  word : r.kind.isWord = true → r.value = c :: cs.take r.more

/-- A reading of any kind but a few says nothing about its text. -/
theorem Reading.faithful_of_kind {r : Reading} (hword : r.kind.isWord = false)
    (hnewline : r.kind ≠ .newline) (heof : r.kind ≠ .eof) : r.Faithful c cs :=
  ⟨heof, fun h => absurd h hnewline, fun h => by simp [hword] at h⟩

/-- What is read as a symbol covers its own characters. -/
theorem faithful_readSymbol (s : Symbol) : (readSymbol more s).Faithful c cs :=
  Reading.faithful_of_kind rfl (by simp [readSymbol]) (by simp [readSymbol])

/-- What is read as a symbol of one or two characters covers them. -/
theorem faithful_readPair (second : Char) (short long : Symbol) (rest : List Char) :
    (readPair rest second short long).Faithful c cs := by
  unfold readPair
  split <;> exact faithful_readSymbol _

/-- A literal text covers what stands between its quotes, and the quotes. -/
theorem faithful_readText (quote : Char) (rest : List Char) :
    (readText quote rest).Faithful c cs := by
  unfold readText
  split <;> exact Reading.faithful_of_kind rfl nofun nofun

/-- What begins with a point covers its own characters. -/
theorem faithful_readPoint (rest : List Char) : (readPoint rest).Faithful c cs := by
  unfold readPoint
  split
  case h_6 =>
    dsimp only
    split
    · exact faithful_readSymbol _
    · exact Reading.faithful_of_kind rfl nofun nofun
  all_goals exact faithful_readSymbol _

theorem faithful_readWord : (readWord c cs).Faithful c cs where
  kind_ne_eof := by
    unfold readWord
    dsimp only
    split <;> nofun
  newline := by
    unfold readWord
    dsimp only
    split <;> nofun
  word _ := by
    have htail : cs.take (cs.takeWhile isWordChar).length = cs.takeWhile isWordChar := by
      nth_rewrite 2 [← List.takeWhile_append_dropWhile (p := isWordChar) (l := cs)]
      exact List.take_left
    simp [readWord, htail]

/-- A token covers its own characters. -/
theorem faithful_readToken (afterOperand : Bool) : (readToken afterOperand c cs).Faithful c cs := by
  unfold readToken
  split
  · exact ⟨nofun, fun _ => rfl, nofun⟩
  · split
    · exact faithful_readSymbol _
    · exact faithful_readText _ _
  · exact faithful_readText _ _
  · exact faithful_readPoint _
  iterate 7 exact faithful_readPair _ _ _ _
  · split
    · exact faithful_readSymbol _
    · split
      · exact Reading.faithful_of_kind rfl nofun nofun
      · split
        · exact faithful_readWord
        · exact Reading.faithful_of_kind rfl nofun nofun

/-- Lexemes tile a text that follows another one: each takes a gap and a text off its front, until
    only the end is left. -/
inductive Tiles : List Char → List Char → List Lexeme → Prop where
  | eof {before gap : List Char} (hgap : Skipped before gap []) :
      Tiles before gap [⟨gap, [], .eof, ""⟩]
  | token {before gap text rest : List Char} {kind : TokenKind} {value : String}
      {later : List Lexeme} (hgap : Skipped before gap (text ++ rest)) (htext : text ≠ [])
      (hkind : kind ≠ .eof) (hword : kind.isWord = true → value = String.ofList text)
      (hlater : Tiles (before ++ gap ++ text) rest later) :
      Tiles before (gap ++ text ++ rest) (⟨gap, text, kind, value⟩ :: later)

theorem eq_newline_of_startsLine {kind : TokenKind} (h : startsLine (some kind) = true) :
    kind = .newline := by
  cases kind <;> first | rfl | cases h

/-- The lexemes of a text tile it. A line starts at the start of the source and after a line feed,
    which is a token of its own. -/
theorem tiles_lexemesAfter {previous : Option TokenKind}
    (hstart : startsLine previous = true → BeginsLine before cs) :
    Tiles before cs (lexemesAfter previous cs) := by
  fun_induction lexemesAfter previous cs generalizing before with
  | case1 previous cs skipped =>
    rename_i hrest
    have hgap : Skipped before (cs.take skipped.length) (cs.drop skipped.length) :=
      skipped_gap hstart
    have hall : cs.take skipped.length = cs := by
      simpa [hrest] using List.take_append_drop skipped.length cs
    rw [hrest] at hgap
    nth_rewrite 1 [← hall]
    exact .eof hgap
  | case2 previous cs skipped c rest hrest =>
    rename_i hunclosed
    have hgap : Skipped before (cs.take skipped.length) (cs.drop skipped.length) :=
      skipped_gap hstart
    have hcs : cs.take skipped.length ++ (c :: rest) ++ [] = cs := by
      rw [List.append_nil, ← hrest, List.take_append_drop]
    rw [hrest] at hgap
    nth_rewrite 1 [← hcs]
    exact .token (by simpa using hgap) (by simp) nofun nofun (.eof .nil)
  | case3 previous cs skipped c rest hrest hclosed touches reading =>
    rename_i ih
    have hgap : Skipped before (cs.take skipped.length) (cs.drop skipped.length) :=
      skipped_gap hstart
    have hsplit : c :: rest.take reading.more ++ rest.drop reading.more = c :: rest := by
      rw [List.cons_append, List.take_append_drop]
    have hcs : cs.take skipped.length ++ (c :: rest.take reading.more) ++ rest.drop reading.more =
        cs := by
      rw [List.append_assoc, hsplit, ← hrest, List.take_append_drop]
    have hfaithful : reading.Faithful c rest := faithful_readToken touches
    rw [hrest, ← hsplit] at hgap
    nth_rewrite 1 [← hcs]
    refine .token hgap (by simp) hfaithful.kind_ne_eof (fun h => by rw [hfaithful.word h]) (ih ?_)
    intro hline
    rw [hfaithful.newline (eq_newline_of_startsLine hline), BeginsLine, lastLine_append_newline]
    exact .inl nofun

end Lexer

namespace Token

open Lexer

/-- The spans before the first of some tokens and between two consecutive ones. -/
def gapsFrom (start : Nat) (tokens : List Token) : List Span :=
  List.zipWith Span.mk (start :: tokens.map (·.span.stop)) (tokens.map (·.span.start))

/-- What it means that tokens tile a source. Every lexeme takes a gap and a text off the front of
    what is left, so that gaps and texts together are the source and spans can only increase. -/
structure Tiling (source : String) (tokens : List Token) : Prop where
  /-- The last token is the only end, and the only one that covers nothing. -/
  eof : ∃ earlier, tokens =
      earlier ++ [⟨.eof, ⟨source.utf8ByteSize, source.utf8ByteSize⟩, ""⟩] ∧
        ∀ t ∈ earlier, t.kind ≠ .eof ∧ t.span.start < t.span.stop
  boundaries : ∀ t ∈ tokens,
    (⟨t.span.start⟩ : String.Pos.Raw).IsValid source ∧
      (⟨t.span.stop⟩ : String.Pos.Raw).IsValid source
  increasing : tokens.Pairwise fun t u => t.span.stop ≤ u.span.start
  gaps : ∀ gap ∈ gapsFrom 0 tokens, ∃ before text after : List Char,
    gap.Covers source.toList before text after ∧ Skipped before text after
  words : ∀ t ∈ tokens, t.kind.isWord = true → ∃ before after : List Char,
    t.span.Covers source.toList before t.value.toList after

variable {before rest : List Char} {lexemes : List Lexeme}

/-- The span of a token starts after the gap before it, and is as long as its text. -/
theorem ofLexemes_cons (gap text : List Char) (kind : TokenKind) (value : String) :
    ofLexemes (utf8Length before) (⟨gap, text, kind, value⟩ :: lexemes) =
      ⟨kind, ⟨utf8Length (before ++ gap), utf8Length (before ++ gap ++ text)⟩, value⟩ ::
        ofLexemes (utf8Length (before ++ gap ++ text)) lexemes := by
  simp only [ofLexemes, utf8Length_append]

/-- The last token is the end of the source, and all others have characters. -/
theorem eof_of_tiles (h : Tiles before rest lexemes) :
    ∃ earlier, ofLexemes (utf8Length before) lexemes =
      earlier ++ [⟨.eof, ⟨utf8Length (before ++ rest), utf8Length (before ++ rest)⟩, ""⟩] ∧
        ∀ t ∈ earlier, t.kind ≠ .eof ∧ t.span.start < t.span.stop := by
  induction h with
  | eof hgap => exact ⟨[], by simp [ofLexemes], nofun⟩
  | @token before gap text rest kind value later hgap htext hkind hword hlater ih =>
    obtain ⟨earlier, hlast, hearlier⟩ := ih
    rw [ofLexemes_cons, hlast]
    refine ⟨_ :: earlier, by rw [List.cons_append, ← List.append_assoc, ← List.append_assoc], ?_⟩
    rintro t (_ | ⟨_, ht⟩)
    · refine ⟨hkind, ?_⟩
      rw [utf8Length_append (before ++ gap)]
      exact Nat.lt_add_of_pos_right (utf8Length_pos htext)
    · exact hearlier t ht

/-- Every token of a tiling covers a text of the source, which is its value if it is a word. -/
theorem covers_of_tiles (h : Tiles before rest lexemes) :
    ∀ t ∈ ofLexemes (utf8Length before) lexemes, ∃ earlier text later : List Char,
      t.span.Covers (before ++ rest) earlier text later ∧
        (t.kind.isWord = true → t.value.toList = text) := by
  induction h with
  | @eof before gap hgap =>
    rw [ofLexemes_cons]
    intro t ht
    obtain rfl := List.mem_singleton.mp ht
    exact ⟨before ++ gap, [], [], ⟨by simp, rfl, by simp⟩, nofun⟩
  | @token before gap text rest kind value later hgap htext hkind hword hlater ih =>
    rw [ofLexemes_cons]
    rintro t (_ | ⟨_, ht⟩)
    · refine ⟨before ++ gap, text, rest, ⟨by simp, rfl, utf8Length_append _ _⟩, fun h => ?_⟩
      rw [hword h, String.toList_ofList]
    · obtain ⟨earlier, covered, later, hcovers, hvalue⟩ := ih t ht
      exact ⟨earlier, covered, later, by simpa using hcovers, hvalue⟩

/-- Tokens of a tiling start after the text before them, and each of them ends before the next. -/
theorem increasing_of_tiles (h : Tiles before rest lexemes) :
    (∀ t ∈ ofLexemes (utf8Length before) lexemes, utf8Length before ≤ t.span.start) ∧
      (ofLexemes (utf8Length before) lexemes).Pairwise fun t u => t.span.stop ≤ u.span.start := by
  induction h with
  | eof hgap => simp [ofLexemes]
  | @token before gap text rest kind value later hgap htext hkind hword hlater ih =>
    obtain ⟨hafter, hpairwise⟩ := ih
    rw [ofLexemes_cons]
    refine ⟨?_, .cons hafter hpairwise⟩
    rintro t (_ | ⟨_, ht⟩)
    · simp
    · have hle : utf8Length before ≤ utf8Length (before ++ gap ++ text) := by simp
      exact Nat.le_trans hle (hafter t ht)

/-- What stands between two tokens is what may be skipped there. -/
theorem gaps_of_tiles (h : Tiles before rest lexemes) :
    ∀ gap ∈ gapsFrom (utf8Length before) (ofLexemes (utf8Length before) lexemes),
      ∃ earlier text later : List Char,
        gap.Covers (before ++ rest) earlier text later ∧ Skipped earlier text later := by
  induction h with
  | @eof before gap hgap =>
    rw [ofLexemes_cons]
    intro s hs
    obtain rfl := List.mem_singleton.mp hs
    exact ⟨before, gap, [], ⟨by simp, rfl, utf8Length_append _ _⟩, hgap⟩
  | @token before gap text rest kind value later hgap htext hkind hword hlater ih =>
    rw [ofLexemes_cons]
    rintro s (_ | ⟨_, hs⟩)
    · exact ⟨before, gap, text ++ rest, ⟨by simp, rfl, utf8Length_append _ _⟩, hgap⟩
    · obtain ⟨earlier, covered, later, hcovers, hskipped⟩ := ih s hs
      exact ⟨earlier, covered, later, by simpa using hcovers, hskipped⟩

/-- The tokens of every source tile it. Lexing always ends, since each lexeme but the last takes at
    least one character off the text. -/
theorem tiling_ofSource (source : String) : Tiling source (ofSource source) := by
  have htiles : Tiles [] source.toList (lexemes source) :=
    tiles_lexemesAfter fun _ => .inl (by simp [lastLine])
  have hcovers := covers_of_tiles htiles
  exact
    { eof := by
        rw [← utf8Length_toList]
        exact eof_of_tiles htiles
      boundaries := by
        intro t ht
        obtain ⟨before, text, after, ⟨hsource, hstart, hstop⟩, -⟩ := hcovers t ht
        rw [List.nil_append] at hsource
        refine ⟨?_, ?_⟩
        · rw [hstart]
          have hparts : source.toList = before ++ (text ++ after) := by
            rw [hsource, List.append_assoc]
          exact isValid_of_append hparts
        · rw [hstop, ← utf8Length_append]
          exact isValid_of_append hsource
      increasing := (increasing_of_tiles htiles).2
      gaps := gaps_of_tiles htiles
      words := by
        intro t ht hword
        obtain ⟨before, text, after, hcover, hvalue⟩ := hcovers t ht
        exact ⟨before, after, hvalue hword ▸ hcover⟩ }

end Token

end ScriptBuild
