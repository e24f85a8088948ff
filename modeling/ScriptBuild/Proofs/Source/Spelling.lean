import ScriptBuild.Proofs.Source.Numerals
import ScriptBuild.Proofs.Source.Tiling
import Mathlib.Data.List.TakeWhile

namespace ScriptBuild

open Text

/-- A text with every quote doubled. -/
def doubled (quote : Char) (cs : List Char) : List Char :=
  cs.flatMap fun c => if c = quote then [quote, quote] else [c]

namespace Token

/-- The canonical text of a token: a literal text between quotes, a line feed, or the value. -/
def spelling (quote : Char) (content : TokenKind × String) : List Char :=
  match content.1 with
  | .text => quote :: (doubled quote content.2.toList ++ [quote])
  | .newline => ['\n']
  | _ => content.2.toList

/-- What stands before a token that is not the first: a blank, or nothing before a transposition. -/
def separator (kind : TokenKind) : List Char := if kind = .symbol .transpose then [] else [' ']

/-- Tokens in their canonical text, with a separator between any two of them. They can be read back,
    whatever the source had between them and however it spelled them: no token can continue at a
    blank, and where a transposition follows without one, the token before it ends an operand that
    the quote cannot continue. -/
def written (quote : Char) : List (TokenKind × String) → List Char
  | [] => []
  | [t] => spelling quote t
  | t :: next :: later => spelling quote t ++ separator next.1 ++ written quote (next :: later)

end Token

namespace Lexer

open Token

variable {previous : Option TokenKind} {kind : TokenKind} {value cs tail : List Char} {c quote : Char}
  {touches : Bool}

/-- What a token can say that is not malformed. -/
inductive Canonical : TokenKind → List Char → Prop where
  | newline : Canonical .newline ['\n']
  | symbol (s : Symbol) : Canonical (.symbol s) s.text.toList
  | text {value : List Char} (hvalue : '\n' ∉ value) : Canonical .text value
  | number {value : List Char} (hvalue : Numeral value) : Canonical .number value
  | word {c : Char} {cs : List Char} (hc : isLetter c = true) (hblank : isBlank c = false)
      (hcs : ∀ d ∈ cs, isWordChar d = true) : Canonical (readWord c cs).kind (c :: cs)

/-- Whether a transposition may follow a token. After a number that ends with its point the quote
would belong to the point. -/
def TakesTranspose (kind : TokenKind) (value : List Char) : Prop :=
  kind.endsOperand = true ∧ (kind = .number → value.getLast? ≠ some '.')

/-- What may follow a token so that it ends there: a blank, or the quote of a transposition. -/
def Stops (kind : TokenKind) (value tail : List Char) : Prop :=
  ∀ c ∈ tail.head?, c = ' ' ∨ c = '\'' ∧ TakesTranspose kind value

/-- The spelling of a token is read as that token, before all that lets it end. -/
def ReadsBack (quote : Char) (kind : TokenKind) (value tail : List Char) : Prop :=
  ∃ c cs, spelling quote (kind, String.ofList value) = c :: cs ∧
    readToken (kind == .symbol .transpose) c (cs ++ tail) = ⟨cs.length, kind, value⟩ ∧
    ∀ atLineStart, gapPiece atLineStart (c :: (cs ++ tail)) = .none

theorem readsBack_symbol (s : Symbol) (h : Stops (.symbol s) s.text.toList tail) :
    ReadsBack quote (.symbol s) s.text.toList tail := by
  match tail with
  | [] => cases s <;> exact ⟨_, _, rfl, rfl, fun _ => rfl⟩
  | c :: tail =>
    rcases h c rfl with rfl | ⟨rfl, hoperand, -⟩
    · cases s <;> exact ⟨_, _, rfl, rfl, fun _ => rfl⟩
    · cases s <;> first | exact ⟨_, _, rfl, rfl, fun _ => rfl⟩ | cases hoperand

theorem readsBack_newline : ReadsBack quote .newline ['\n'] tail :=
  ⟨'\n', [], rfl, rfl, fun _ => rfl⟩

/-- A number in its normal spelling begins with a digit. -/
theorem head_isDigit_of_numeral (h : Numeral value) :
    ∃ c cs, value = c :: cs ∧ c.isDigit = true := by
  obtain @⟨whole, frac, power, unit, hne, hwhole, -, -, -⟩ := h
  obtain ⟨c, cs, rfl⟩ := List.exists_cons_of_ne_nil hne
  exact ⟨c, _, rfl, hwhole c List.mem_cons_self⟩

/-- A number in its normal spelling is read back. -/
theorem readsBack_number (hvalue : Numeral value) (h : Stops .number value tail) :
    ReadsBack quote .number value tail := by
  obtain ⟨c, cs, heq, hdigit⟩ := head_isDigit_of_numeral hvalue
  have hread : number (c :: (cs ++ tail)) = c :: cs := by
    rw [← List.cons_append, ← heq]
    exact number_append hvalue fun d hd => (h d hd).imp_right fun ⟨hd, _, hlast⟩ => ⟨hd, hlast rfl⟩
  refine ⟨c, cs, ?_, ?_, fun atLineStart => gapPiece_of_isDigit hdigit atLineStart _⟩
  · rw [← heq]
    exact String.toList_ofList
  · rw [readToken_of_isDigit hdigit, hread, heq, List.length_cons, Nat.add_sub_cancel]

/-- A doubled quote is a quote in a literal text. -/
theorem quoted_quote (quote : Char) (cs : List Char) : quoted quote (quote :: quote :: cs) =
    ((quoted quote cs).1.map (quote :: ·), (quoted quote cs).2 + 2) := by
  rw [quoted.eq_def]
  simp

/-- Any other character of a line stands for itself in a literal text. -/
theorem quoted_other (hquote : c ≠ quote) (hfeed : c ≠ '\n') (cs : List Char) :
    quoted quote (c :: cs) = ((quoted quote cs).1.map (c :: ·), (quoted quote cs).2 + 1) := by
  rw [quoted.eq_def]
  simp [hquote, hfeed]

/-- A literal text with its quotes doubled is read as that text. -/
theorem quoted_doubled (hvalue : '\n' ∉ value) (htail : ∀ c ∈ tail.head?, c ≠ quote) :
    quoted quote (doubled quote value ++ quote :: tail) =
      (some value, (doubled quote value).length + 1) := by
  induction value with
  | nil =>
    cases tail with
    | nil => simp [doubled, quoted]
    | cons c tail => simp [doubled, quoted, htail c rfl]
  | cons c value ih =>
    rw [List.mem_cons, not_or] at hvalue
    obtain ⟨hfeed, hvalue⟩ := hvalue
    by_cases hc : c = quote
    · have hdoubled : doubled quote (c :: value) = quote :: quote :: doubled quote value := by
        simp [doubled, hc]
      rw [hdoubled, List.cons_append, List.cons_append, quoted_quote, ih hvalue, hc]
      rfl
    · have hdoubled : doubled quote (c :: value) = c :: doubled quote value := by simp [doubled, hc]
      rw [hdoubled, List.cons_append, quoted_other hc (Ne.symm hfeed), ih hvalue]
      rfl

theorem readsBack_text (hquote : quote = '\'' ∨ quote = '"') (hvalue : '\n' ∉ value)
    (h : Stops .text value tail) : ReadsBack quote .text value tail := by
  have htail : ∀ c ∈ tail.head?, c ≠ quote := fun c hc => by
    rcases h c hc with rfl | ⟨-, hoperand, -⟩
    · rcases hquote with rfl | rfl <;> decide
    · cases hoperand
  have hread : readText quote (doubled quote value ++ [quote] ++ tail) =
      ⟨(doubled quote value ++ [quote]).length, .text, value⟩ := by
    rw [readText, List.append_assoc, List.singleton_append, quoted_doubled hvalue htail,
      List.length_append, List.length_singleton]
  refine ⟨quote, doubled quote value ++ [quote], ?_, ?_, fun atLineStart => ?_⟩
  · simp [spelling]
  · rcases hquote with rfl | rfl
    · exact hread
    · exact hread
  · rcases hquote with rfl | rfl <;> rfl

/-- A digit is no letter, and neither is a character with a meaning of its own. -/
theorem isDigit_of_isLetter (h : isLetter c = true) : c.isDigit = false := by
  by_contra hdigit
  rcases eq_of_isDigit (by simpa using hdigit) with
    rfl | rfl | rfl | rfl | rfl | rfl | rfl | rfl | rfl | rfl <;> exact absurd h (by decide)

/-- No letter is a symbol. -/
theorem symbolOf?_of_isLetter (h : isLetter c = true) : symbolOf? c = none := by
  unfold symbolOf?
  split
  case h_17 => rfl
  all_goals exact absurd h (by decide)

/-- A token that begins with a letter is a word. -/
theorem readToken_of_isLetter (h : isLetter c = true) (touches : Bool) (cs : List Char) :
    readToken touches c cs = readWord c cs := by
  unfold readToken
  split
  case h_12 => rw [symbolOf?_of_isLetter h, isDigit_of_isLetter h, h]; rfl
  all_goals exact absurd h (by decide)

/-- A word is a reserved word or a name. -/
theorem kind_readWord (c : Char) (cs : List Char) :
    (∃ word, (readWord c cs).kind = .keyword word) ∨ (readWord c cs).kind = .name := by
  rw [readWord]
  dsimp only
  split
  · next word _ => exact .inl ⟨word, rfl⟩
  · exact .inr rfl

/-- A word ends before a blank or a quote. -/
theorem readWord_append (hcs : ∀ d ∈ cs, isWordChar d = true)
    (htail : ∀ d ∈ tail.head?, d = ' ' ∨ d = '\'') :
    readWord c (cs ++ tail) = ⟨cs.length, (readWord c cs).kind, c :: cs⟩ := by
  have hword : (cs ++ tail).takeWhile isWordChar = cs := by
    rw [List.takeWhile_append_of_pos hcs]
    cases tail with
    | nil => simp
    | cons d tail =>
      have hd : isWordChar d = false := by rcases htail d rfl with rfl | rfl <;> decide
      simp [hd]
  simp only [readWord, hword, List.takeWhile_eq_self_iff.2 hcs]

theorem readsBack_word (hc : isLetter c = true) (hcs : ∀ d ∈ cs, isWordChar d = true)
    (hblank : isBlank c = false) (h : Stops (readWord c cs).kind (c :: cs) tail) :
    ReadsBack quote (readWord c cs).kind (c :: cs) tail := by
  refine ⟨c, cs, ?_, ?_, fun atLineStart => gapPiece_eq_none (.inr hblank) ?_ ?_⟩
  · rcases kind_readWord c cs with ⟨word, hkind⟩ | hkind
    · rw [spelling, hkind]
      exact String.toList_ofList
    · rw [spelling, hkind]
      exact String.toList_ofList
  · rw [readToken_of_isLetter hc, readWord_append hcs fun d hd => (h d hd).imp_right And.left]
  · rintro rfl
    exact absurd hc (by decide)
  · rintro rest ⟨rfl, -⟩
    exact absurd hc (by decide)

/-- Whatever a token can say is read back from its spelling. -/
theorem Canonical.readsBack (h : Canonical kind value) (hquote : quote = '\'' ∨ quote = '"')
    (hstops : Stops kind value tail) : ReadsBack quote kind value tail := by
  cases h with
  | newline => exact readsBack_newline
  | symbol s => exact readsBack_symbol s hstops
  | text hvalue => exact readsBack_text hquote hvalue hstops
  | number hvalue => exact readsBack_number hvalue hstops
  | word hc hblank hcs => exact readsBack_word hc hcs hblank hstops

/-- What is true of a token that starts with the character `c`. -/
structure Readable (touches : Bool) (c : Char) (cs : List Char) (r : Reading) : Prop where
  canonical : Canonical r.kind r.value
  transpose : r.kind = .symbol .transpose → c = '\'' ∧ touches = true ∧ r.value = ['\'']
  point : r.kind = .number → (cs.drop r.more).head? = some '\'' → r.value.getLast? ≠ some '.'

/-- A symbol that was read is in its normal spelling. -/
theorem readable_symbol {more : Nat} {s : Symbol}
    (h : s = .transpose → c = '\'' ∧ touches = true) :
    Readable touches c cs (readSymbol more s) where
  canonical := .symbol s
  transpose hkind := by
    obtain rfl : s = .transpose := by simpa [readSymbol] using hkind
    exact ⟨(h rfl).1, (h rfl).2, rfl⟩
  point := nofun

/-- A symbol of one or two characters is in its normal spelling. -/
theorem readable_pair {second : Char} {short long : Symbol} (hshort : short ≠ .transpose)
    (hlong : long ≠ .transpose) (rest : List Char) :
    Readable touches c cs (readPair rest second short long) := by
  unfold readPair
  split
  · exact readable_symbol fun h => absurd h hlong
  · exact readable_symbol fun h => absurd h hshort

theorem notMem_of_quoted (h : (quoted quote cs).1 = some value) (hquote : quote ≠ '\n') :
    '\n' ∉ value := by
  fun_induction quoted quote cs generalizing value with
  | case1 => cases h
  | case2 _ _ _ _ _ later size hlater =>
    rename_i ih
    obtain ⟨later, rfl, rfl⟩ := Option.map_eq_some_iff.1 h
    exact List.not_mem_cons_of_ne_of_not_mem hquote.symm (ih (by rw [hlater]))
  | case3 => cases h; exact List.not_mem_nil
  | case4 => cases h; exact List.not_mem_nil
  | case5 => cases h
  | case6 c _ _ hfeed later size hlater =>
    rename_i ih
    obtain ⟨later, rfl, rfl⟩ := Option.map_eq_some_iff.1 h
    have hfeed : c ≠ '\n' := by simpa using hfeed
    exact List.not_mem_cons_of_ne_of_not_mem hfeed.symm (ih (by rw [hlater]))

/-- A literal text that is closed can be spelled. -/
theorem readable_text (hquote : quote ≠ '\n') (h : (readText quote cs).kind ≠ .malformed) :
    Readable touches c cs (readText quote cs) := by
  unfold readText at h ⊢
  split
  · next value size heq =>
    exact ⟨.text (notMem_of_quoted (congrArg Prod.fst heq) hquote), nofun, nofun⟩
  · next size heq =>
    rw [heq] at h
    exact absurd rfl h

/-- What begins with a point can be spelled. -/
theorem readable_point : Readable touches c cs (readPoint cs) := by
  unfold readPoint
  split
  case h_6 =>
    dsimp only
    split
    · exact readable_symbol nofun
    · next hne =>
      have hne : digits cs ≠ [] := by simpa using hne
      have hdigits : ∀ d ∈ digits cs, d.isDigit = true := fun _ => isDigit_of_mem_digits
      have hzero : ∀ d ∈ ['0'], d.isDigit = true := by simp
      have hparts : '0' :: '.' :: digits cs ++ exponent (cs.drop (digits cs).length) =
          ['0'] ++ ('.' :: digits cs ++ (exponent (cs.drop (digits cs).length) ++ [])) := by simp
      refine ⟨?_, nofun, fun _ _ hlast => ?_⟩
      · rw [hparts]
        exact .number (.mk (by simp) hzero (.inr ⟨_, rfl, hdigits⟩) (exponent_cases _) (.inl rfl))
      · rw [hparts] at hlast
        obtain ⟨hfraction, -⟩ := parts_of_getLast? (by simp) hzero (.inr ⟨_, rfl, hdigits⟩)
          (exponent_cases _) (.inl rfl) hlast
        exact hne (List.cons.inj hfraction).2
  all_goals exact readable_symbol nofun

/-- A number that was read is in its normal spelling. -/
theorem readable_number (h : c.isDigit = true) : Readable touches c cs
    ⟨(number (c :: cs)).length - 1, .number, number (c :: cs)⟩ where
  canonical := .number (numeral_number h cs)
  transpose := nofun
  point _ hquote hlast := by
    refine head_of_getLast?_number h hlast ?_
    obtain ⟨d, ds, heq, -⟩ := head_isDigit_of_numeral (numeral_number h cs)
    rw [heq] at hquote ⊢
    exact hquote

/-- A word that was read is in its normal spelling. -/
theorem readable_word (hc : isLetter c = true) (hblank : isBlank c = false) :
    Readable touches c cs (readWord c cs) := by
  have hword : ∀ d ∈ cs.takeWhile isWordChar, isWordChar d = true :=
    List.all_eq_true.1 List.all_takeWhile
  have hkind : (readWord c (cs.takeWhile isWordChar)).kind = (readWord c cs).kind := by
    simp only [readWord, List.takeWhile_eq_self_iff.2 hword]
  refine ⟨?_, fun h => ?_, fun h => ?_⟩
  · rw [← hkind]
    exact .word hc hblank hword
  · rcases kind_readWord c cs with ⟨word, hkind⟩ | hkind <;> rw [hkind] at h <;> cases h
  · rcases kind_readWord c cs with ⟨word, hkind⟩ | hkind <;> rw [hkind] at h <;> cases h

/-- A transposition is not told by its character alone. -/
theorem symbolOf?_ne_transpose (c : Char) : symbolOf? c ≠ some .transpose := by
  unfold symbolOf?
  split <;> nofun

/-- What is true of every token that is not malformed. -/
theorem readable_readToken (hstart : c ≠ '\n' → isBlank c = false)
    (h : (readToken touches c cs).kind ≠ .malformed) :
    Readable touches c cs (readToken touches c cs) := by
  unfold readToken at h ⊢
  split
  · exact ⟨.newline, nofun, nofun⟩
  · split
    · next htouches => exact readable_symbol fun _ => ⟨rfl, htouches⟩
    · next htouches =>
      simp only [if_neg htouches] at h
      exact readable_text (by decide) h
  · exact readable_text (by decide) h
  · exact readable_point
  case h_12 hfeed _ _ _ _ _ _ _ _ _ _ =>
    split
    · next s heq => exact readable_symbol fun hs => absurd (hs ▸ heq) (symbolOf?_ne_transpose c)
    · next hsymbol =>
      split
      · next hdigit => exact readable_number hdigit
      · split
        · next hletter => exact readable_word hletter (hstart fun heq => hfeed heq)
        · next hdigit hletter => simp [hsymbol, hdigit, hletter] at h
  all_goals exact readable_pair (by decide) (by decide) cs

variable {atLineStart : Bool} {more : Nat} {rest : List Char}

/-- What is neither a gap nor a line feed is no blank. -/
theorem isBlank_of_gapPiece (h : gapPiece atLineStart (c :: cs) = .none) (hfeed : c ≠ '\n') :
    isBlank c = false := by
  by_contra hblank
  have hskip : (c != '\n' && isBlank c) = true := by simpa [hfeed] using hblank
  simp only [gapPiece, if_pos hskip] at h
  cases h

/-- A gap that is not cut short ends where nothing more can be skipped. -/
theorem gapPiece_of_gap (hclosed : (gap atLineStart cs).unclosed = false)
    (hrest : cs.drop (gap atLineStart cs).length = c :: rest) :
    gapPiece atLineStart (c :: rest) = .none := by
  fun_induction gap atLineStart cs with
  | case1 => cases hrest
  | case2 d ds hpiece => rwa [← hrest]
  | case3 => cases hclosed
  | case4 d ds more spaces hpiece =>
    rename_i later ih
    refine ih hclosed ?_
    rw [← hrest, List.drop_drop, Nat.add_right_comm, List.drop_succ_cons]

/-- What separates nothing is a comment, which goes up to the end of its line. -/
theorem endsLine_of_gapPiece (h : gapPiece atLineStart (c :: cs) = .skip more false) :
    EndsLine (cs.drop more) := by
  unfold gapPiece at h
  dsimp only at h
  split at h
  · cases h
  · split at h
    · split at h
      · split at h
        · next size hsize =>
          cases h
          obtain ⟨-, -, -, -, -, -, hend⟩ := lines_of_blockCommentTail hsize (endsLine_drop_lineOf cs)
          rwa [List.drop_drop] at hend
        · cases h
      · cases h
        exact endsLine_drop_lineOf cs
    · split at h <;> cases h

/-- There is no gap at the end of a line. -/
theorem gap_of_endsLine (h : EndsLine cs) : (gap atLineStart cs).length = 0 := by
  rcases h with rfl | h
  · rw [gap]
  · obtain ⟨rest, rfl⟩ := List.head?_eq_some_iff.1 h
    rw [gap_of_gapPiece rfl]

/-- A token touches the one before it, unless a line ends there. -/
theorem length_gap_of_not_spaced (h : (gap atLineStart cs).spaced = false) :
    (gap atLineStart cs).length = 0 ∨ EndsLine (cs.drop (gap atLineStart cs).length) := by
  cases cs with
  | nil => exact .inr (.inl List.drop_nil)
  | cons c cs =>
    rw [gap] at h ⊢
    split
    · exact .inl rfl
    · exact .inl rfl
    · next more spaces hpiece =>
      simp only [hpiece, Bool.or_eq_false_iff] at h
      obtain ⟨rfl, -⟩ := h
      have hend := endsLine_of_gapPiece hpiece
      right
      simpa [gap_of_endsLine hend] using hend

/-- A blank before a gap belongs to it. -/
theorem gap_blank (atLineStart : Bool) (cs : List Char) : gap atLineStart (' ' :: cs) =
    ⟨(gap atLineStart cs).length + 1, true, (gap atLineStart cs).unclosed⟩ := by
  have hpiece : gapPiece atLineStart (' ' :: cs) = .skip 0 true := rfl
  rw [gap]
  simp only [hpiece, List.drop_zero, Bool.true_or, Nat.zero_add, Nat.add_comm 1]

/-- Tokens that some source consists of: each has its normal value, a transposition stands only where
it may, and the end of the source comes last. -/
inductive Normal : Option (TokenKind × List Char) → List (TokenKind × String) → Prop where
  | eof {before : Option (TokenKind × List Char)} : Normal before [(.eof, "")]
  | cons {before : Option (TokenKind × List Char)} {kind : TokenKind} {value : List Char}
      {later : List (TokenKind × String)} (hcanonical : Canonical kind value)
      (htranspose : kind = .symbol .transpose → ∃ p, before = some p ∧ TakesTranspose p.1 p.2)
      (hlater : Normal (some (kind, value)) later) :
      Normal before ((kind, String.ofList value) :: later)

/-- A transposition is read at the very end of the token before it. -/
theorem head?_of_transpose (hspaced : (gap atLineStart cs).spaced = false)
    (hrest : cs.drop (gap atLineStart cs).length = '\'' :: rest) : cs.head? = some '\'' := by
  rcases length_gap_of_not_spaced hspaced with hzero | hend
  · rw [hzero, List.drop_zero] at hrest
    rw [hrest]
    rfl
  · rw [hrest] at hend
    simp [EndsLine] at hend

/-- The tokens of a source are of this form if none of them is malformed. -/
theorem normal_contentsAfter {before : Option (TokenKind × List Char)}
    (hprevious : before.map Prod.fst = previous)
    (hmalformed : ∀ p ∈ contentsAfter previous cs, p.1 ≠ .malformed)
    (hpoint : ∀ p ∈ before, p.1 = .number → cs.head? = some '\'' → p.2.getLast? ≠ some '.') :
    Normal before (contentsAfter previous cs) := by
  unfold contentsAfter at hmalformed ⊢
  fun_induction lexemesAfter previous cs generalizing before with
  | case1 => exact .eof
  | case2 => exact absurd rfl (hmalformed _ List.mem_cons_self)
  | case3 previous cs skipped c rest hrest hclosed touches reading =>
    rename_i ih
    rw [List.map_cons, List.forall_mem_cons] at hmalformed
    have hclosed : skipped.unclosed = false := by simpa using hclosed
    have hpiece := gapPiece_of_gap hclosed hrest
    obtain ⟨hcanonical, htranspose, hnumber⟩ : Readable touches c rest reading :=
      readable_readToken (isBlank_of_gapPiece hpiece) hmalformed.1
    refine .cons hcanonical (fun hkind => ?_) (ih rfl hmalformed.2 ?_)
    -- A transposition was read with nothing skipped before it, so that the token before it had the
    -- quote as its next character.
    · obtain ⟨rfl, htouches, -⟩ := htranspose hkind
      obtain ⟨hspaced, hoperand⟩ :
          skipped.spaced = false ∧ previous.any TokenKind.endsOperand = true := by
        simpa [touches] using htouches
      subst hprevious
      obtain ⟨p, rfl⟩ : ∃ p, before = some p := by
        cases before with
        | none => cases hoperand
        | some p => exact ⟨p, rfl⟩
      have hhead := head?_of_transpose hspaced hrest
      exact ⟨p, rfl, hoperand, fun hp => hpoint p rfl hp hhead⟩
    · rintro _ ⟨⟩
      exact hnumber

variable {before : Option (TokenKind × List Char)} {later : List (TokenKind × String)}

/-- What is read back from the spelling of a token, if nothing or a single blank is skipped. -/
theorem contentsAfter_spelling (hback : ReadsBack quote kind value tail) {blanks : List Char}
    (hblanks : blanks = [] ∨ blanks = [' '])
    (htouches : (blanks.isEmpty && previous.any TokenKind.endsOperand) = (kind == .symbol .transpose)) :
    contentsAfter previous (blanks ++ (spelling quote (kind, String.ofList value) ++ tail)) =
      (kind, String.ofList value) :: contentsAfter (some kind) tail := by
  obtain ⟨c, cs, hspelling, hread, hpiece⟩ := hback
  have hgap : gap (startsLine previous) (blanks ++ c :: (cs ++ tail)) =
      ⟨blanks.length, !blanks.isEmpty, false⟩ := by
    have hgap : gap (startsLine previous) (c :: (cs ++ tail)) = ⟨0, false, false⟩ :=
      gap_of_gapPiece (hpiece _)
    rcases hblanks with rfl | rfl
    · exact hgap
    · rw [List.singleton_append, gap_blank, hgap]
      rfl
  rw [hspelling, List.cons_append, contentsAfter_token hgap rfl List.drop_left, Bool.not_not, htouches,
    hread, List.drop_left]

theorem contentsAfter_blanks {blanks : List Char} (hblanks : blanks = [] ∨ blanks = [' ']) :
    contentsAfter previous blanks = [(.eof, "")] := by
  rcases hblanks with rfl | rfl
  · exact contentsAfter_eof rfl List.drop_nil
  · refine contentsAfter_eof (gap_blank _ _) ?_
    simp

/-- The canonical text of tokens, each with its separator before it. -/
def spelled (quote : Char) (list : List (TokenKind × String)) : List Char :=
  list.flatMap fun p => separator p.1 ++ spelling quote p

theorem written_cons (quote : Char) (p : TokenKind × String) (list : List (TokenKind × String)) :
    written quote (p :: list) = spelling quote p ++ spelled quote list := by
  induction list generalizing p with
  | nil => simp [written, spelled]
  | cons next later ih => simp [written, ih, spelled, List.append_assoc]

theorem Normal.ne_nil (h : Normal before later) : later ≠ [] := by
  cases h <;> exact List.cons_ne_nil _ _

/-- The last token of a source is its end. -/
theorem Normal.dropLast_append (h : Normal before later) : later.dropLast ++ [(.eof, "")] = later := by
  induction h with
  | eof => rfl
  | cons _ _ hlater ih => rw [List.dropLast_cons_of_ne_nil hlater.ne_nil, List.cons_append, ih]

theorem Canonical.value_eq {s : Symbol} (h : Canonical (.symbol s) value) : value = s.text.toList := by
  generalize hkind : TokenKind.symbol s = kind at h
  cases h with
  | symbol => cases hkind; rfl
  | @word c cs =>
    rcases kind_readWord c cs with ⟨word, hword⟩ | hword <;> rw [hword] at hkind <;> cases hkind
  | _ => cases hkind

/-- What is written after a token lets it end. -/
theorem stops_spelled {blanks : List Char} (hlater : Normal (some (kind, value)) later)
    (hblanks : blanks = [] ∨ blanks = [' ']) :
    Stops kind value (spelled quote later.dropLast ++ blanks) := by
  cases hlater with
  | eof =>
    rcases hblanks with rfl | rfl
    · nofun
    · rintro c ⟨⟩
      exact .inl rfl
  | @cons _ next _ _ hcanonical htranspose hlater =>
    rw [List.dropLast_cons_of_ne_nil hlater.ne_nil]
    intro c hc
    by_cases hnext : next = .symbol .transpose
    · obtain ⟨_, ⟨⟩, htakes⟩ := htranspose hnext
      subst hnext
      rw [hcanonical.value_eq] at hc
      cases hc
      exact .inr ⟨rfl, htakes⟩
    · rw [spelled, List.flatMap_cons, separator, if_neg hnext] at hc
      cases hc
      exact .inl rfl

/-- Normal tokens are read back. -/
theorem contentsAfter_spelled (hquote : quote = '\'' ∨ quote = '"') {blanks : List Char}
    (hblanks : blanks = [] ∨ blanks = [' ']) (h : Normal before later) :
    contentsAfter (before.map Prod.fst) (spelled quote later.dropLast ++ blanks) = later := by
  induction h with
  | eof => exact contentsAfter_blanks hblanks
  | @cons _ kind value later hcanonical htranspose hlater ih =>
    have hback : ReadsBack quote kind value (spelled quote later.dropLast ++ blanks) :=
      hcanonical.readsBack hquote (stops_spelled hlater hblanks)
    have ih : contentsAfter (some kind) (spelled quote later.dropLast ++ blanks) = later := ih
    rw [List.dropLast_cons_of_ne_nil hlater.ne_nil, spelled, List.flatMap_cons, List.append_assoc,
      List.append_assoc]
    change contentsAfter _ (_ ++ (_ ++ (spelled quote later.dropLast ++ blanks))) = _
    by_cases hkind : kind = .symbol .transpose
    · obtain ⟨p, rfl, hoperand, -⟩ := htranspose hkind
      rw [separator, if_pos hkind,
        contentsAfter_spelling hback (.inl rfl) (by simp [hkind, hoperand]), ih]
    · rw [separator, if_neg hkind, contentsAfter_spelling hback (.inr rfl) (by simp [hkind]), ih]

/-- Tokens written in one spelling, with a single blank between any two but before no transposition,
say what they said before, if none of them is malformed. Whether the end of the source counts as a
token here, after which nothing is written, makes no difference. -/
theorem contents_written (source : String) (quote : Char) (hquote : quote = '\'' ∨ quote = '"')
    (hmalformed : ∀ t ∈ Token.ofSource source, t.kind ≠ .malformed) :
    Token.contents (String.ofList (written quote (Token.contents source))) = Token.contents source ∧
      Token.contents (String.ofList (written quote (Token.contents source).dropLast)) =
        Token.contents source := by
  have hmalformed : ∀ p ∈ contentsAfter none source.toList, p.1 ≠ .malformed := by
    rw [← contents_eq, Token.contents, List.forall_mem_map]
    exact hmalformed
  have hnormal : Normal none (Token.contents source) := by
    rw [contents_eq]
    exact normal_contentsAfter rfl hmalformed nofun
  generalize Token.contents source = list at hnormal
  rw [contents_eq, contents_eq, String.toList_ofList, String.toList_ofList]
  cases hnormal with
  | eof => exact ⟨contentsAfter_blanks (.inl rfl), contentsAfter_blanks (.inl rfl)⟩
  | @cons _ kind value later hcanonical htranspose hlater =>
    have hkind : ¬ kind = .symbol .transpose := fun hkind => by
      obtain ⟨p, hp, -⟩ := htranspose hkind
      cases hp
    have hread : ∀ blanks, blanks = [] ∨ blanks = [' '] →
        contentsAfter none (spelling quote (kind, String.ofList value) ++
          (spelled quote later.dropLast ++ blanks)) = (kind, String.ofList value) :: later := by
      intro blanks hblanks
      have hback : ReadsBack quote kind value (spelled quote later.dropLast ++ blanks) :=
        hcanonical.readsBack hquote (stops_spelled hlater hblanks)
      exact (contentsAfter_spelling hback (.inl rfl) (by simp [hkind])).trans
        (congrArg _ (contentsAfter_spelled hquote hblanks hlater))
    constructor
    -- The end of the source has a separator before it, which is a gap at the end of the text.
    · rw [written_cons]
      have hend : spelled quote later = spelled quote later.dropLast ++ [' '] := by
        nth_rewrite 1 [← hlater.dropLast_append]
        exact List.flatMap_append
      rw [hend]
      exact hread [' '] (.inr rfl)
    · rw [List.dropLast_cons_of_ne_nil hlater.ne_nil, written_cons]
      have hend := hread [] (.inl rfl)
      rwa [List.append_nil] at hend

/-- A source with a comment, a continuation, doubled quotes and a number without whole part. -/
def wildSource : String := "y=.5E3j.'...\n *a' % b\n+\"c'\"\"\""

/-- All of this is written anew, and says the same. -/
theorem contents_written_wildSource :
    (∀ t ∈ Token.ofSource wildSource, t.kind ≠ .malformed) ∧
      Token.contents (String.ofList (written '\'' (Token.contents wildSource).dropLast)) =
        Token.contents wildSource ∧
      written '\'' (Token.contents wildSource).dropLast =
        "y = 0.5e3 j .' * a' \n + 'c''\"'".toList := by
  have hsound : ∀ t ∈ Token.ofSource wildSource, t.kind ≠ .malformed := by decide +kernel
  exact ⟨hsound, (contents_written _ '\'' (.inl rfl) hsound).2, by decide +kernel⟩

end Lexer

end ScriptBuild
