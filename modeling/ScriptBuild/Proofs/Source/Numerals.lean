import ScriptBuild.Source.Lexer
import Mathlib.Data.List.Basic
import Mathlib.Tactic.IntervalCases

namespace ScriptBuild

open Text

/-- What a token says, without the place where it stands. -/
def Token.content (t : Token) : TokenKind × String := (t.kind, t.value)

/-- What the tokens of a source say. -/
def Token.contents (source : String) : List (TokenKind × String) := (ofSource source).map content

namespace Lexer

variable {previous : Option TokenKind} {c d : Char} {cs ds rest tail : List Char} {skipped : Gap}

/-- The digits and the exponent at the front of a text, in their normal spelling. -/
def decimals (cs : List Char) : List Char := digits cs ++ exponent (cs.drop (digits cs).length)

/-- The fraction at the front of a text, with its point; empty if the point belongs to something
    else. A number without whole part is read in another way, which takes no imaginary unit: in this
    alone it differs from the number that starts with a zero. -/
def fraction : List Char → List Char
  | '.' :: cs => if pointContinuesNumber cs then '.' :: digits cs else []
  | _ => []

/-- The imaginary unit at the front of a text, in its normal spelling; empty if there is none. -/
def imaginaryUnit : List Char → List Char
  | 'i' :: _ | 'j' :: _ => ['i']
  | _ => []

/-- What continues a number after its whole part. -/
def numberTail (cs : List Char) : List Char :=
  fraction cs ++ exponent (cs.drop (fraction cs).length) ++
    imaginaryUnit (cs.drop ((fraction cs).length + (exponent (cs.drop (fraction cs).length)).length))

/-- What the tokens of a text say that follows a token of kind `previous`. -/
def contentsAfter (previous : Option TokenKind) (cs : List Char) : List (TokenKind × String) :=
  (lexemesAfter previous cs).map fun lexeme => (lexeme.kind, lexeme.value)

/-- What tokens say does not depend on where they stand. -/
theorem map_content_ofLexemes (offset : Nat) (list : List Lexeme) :
    (Token.ofLexemes offset list).map Token.content =
      list.map fun lexeme => (lexeme.kind, lexeme.value) := by
  induction list generalizing offset with
  | nil => rfl
  | cons lexeme list ih => simp only [Token.ofLexemes, List.map_cons, Token.content, ih]

/-- A source says what its text says after nothing. -/
theorem contents_eq (source : String) : Token.contents source = contentsAfter none source.toList :=
  map_content_ofLexemes 0 _

/-- A text with a gap only says that it ends. -/
theorem contentsAfter_eof (hgap : gap (startsLine previous) cs = skipped)
    (hrest : cs.drop skipped.length = []) : contentsAfter previous cs = [(.eof, "")] := by
  subst hgap
  rw [contentsAfter, lexemesAfter]
  split
  · rfl
  · next heq => rw [hrest] at heq; cases heq

/-- A text says what its first token says, and then what the rest says. -/
theorem contentsAfter_token (hgap : gap (startsLine previous) cs = skipped)
    (hclosed : skipped.unclosed = false) (hrest : cs.drop skipped.length = c :: rest) :
    contentsAfter previous cs =
      ((readToken (!skipped.spaced && previous.any TokenKind.endsOperand) c rest).kind,
        String.ofList (readToken (!skipped.spaced && previous.any TokenKind.endsOperand) c rest).value) ::
      contentsAfter
        (some (readToken (!skipped.spaced && previous.any TokenKind.endsOperand) c rest).kind)
        (rest.drop (readToken (!skipped.spaced && previous.any TokenKind.endsOperand) c rest).more) := by
  subst hgap
  rw [contentsAfter, lexemesAfter]
  split
  · next heq => rw [hrest] at heq; cases heq
  · next c' rest' heq =>
    obtain ⟨rfl, rfl⟩ := List.cons.inj (hrest.symm.trans heq)
    rw [hclosed]
    rfl

/-- Nothing is skipped before a character that is no blank, starts no comment and no continuation. -/
theorem gapPiece_eq_none {atLineStart : Bool} (hblank : c = '\n' ∨ isBlank c = false)
    (hpercent : c ≠ '%') (hpoints : ∀ rest, ¬ (c = '.' ∧ cs = '.' :: '.' :: rest)) :
    gapPiece atLineStart (c :: cs) = .none := by
  have hblank : ¬ ((c != '\n' && isBlank c) = true) := by
    rcases hblank with rfl | hblank
    · simp
    · simp [hblank]
  have hpercent : ¬ ((c == '%') = true) := by simpa using hpercent
  simp only [gapPiece, if_neg hblank, if_neg hpercent]
  split
  · exact absurd ⟨rfl, rfl⟩ (hpoints _)
  · rfl

/-- A token starts at the front of a text where nothing may be skipped. -/
theorem gap_of_gapPiece {atLineStart : Bool} (h : gapPiece atLineStart (c :: cs) = .none) :
    gap atLineStart (c :: cs) = ⟨0, false, false⟩ := by
  rw [gap]
  simp only [h]

theorem digits_append (hds : ∀ d ∈ ds, d.isDigit = true)
    (htail : ∀ c ∈ tail.head?, c.isDigit = false) : digits (ds ++ tail) = ds := by
  rw [digits, List.takeWhile_append_of_pos hds]
  cases tail with
  | nil => simp
  | cons c tail => simp [htail c rfl]

/-- The digits at the front of a text are digits. -/
theorem isDigit_of_mem_digits (h : d ∈ digits cs) : d.isDigit = true :=
  List.all_eq_true.1 List.all_takeWhile d h

theorem eq_of_isDigit (h : d.isDigit = true) : d = '0' ∨ d = '1' ∨ d = '2' ∨ d = '3' ∨ d = '4' ∨
    d = '5' ∨ d = '6' ∨ d = '7' ∨ d = '8' ∨ d = '9' := by
  obtain ⟨hlow, hhigh⟩ := Char.isDigit_iff_toNat.1 h
  rw [← Char.ofNat_toNat d]
  generalize d.toNat = n at hlow hhigh
  change 48 ≤ n at hlow
  change n ≤ 57 at hhigh
  interval_cases n <;> decide

theorem gapPiece_of_isDigit (h : c.isDigit = true) (atLineStart : Bool) (cs : List Char) :
    gapPiece atLineStart (c :: cs) = .none := by
  rcases eq_of_isDigit h with rfl | rfl | rfl | rfl | rfl | rfl | rfl | rfl | rfl | rfl <;> rfl

/-- A token that begins with a digit is a number. -/
theorem readToken_of_isDigit (h : c.isDigit = true) (afterOperand : Bool) (cs : List Char) :
    readToken afterOperand c cs =
      ⟨(number (c :: cs)).length - 1, .number, number (c :: cs)⟩ := by
  rcases eq_of_isDigit h with rfl | rfl | rfl | rfl | rfl | rfl | rfl | rfl | rfl | rfl <;> rfl

/-- A digit at the front is one of the digits there. -/
theorem digits_cons_of_isDigit (h : d.isDigit = true) (cs : List Char) :
    digits (d :: cs) = d :: digits cs := List.takeWhile_cons_of_pos h

/-- A point before a digit belongs to the number. -/
theorem pointContinuesNumber_of_isDigit (h : d.isDigit = true) (cs : List Char) :
    pointContinuesNumber (d :: cs) = true := by
  rcases eq_of_isDigit h with rfl | rfl | rfl | rfl | rfl | rfl | rfl | rfl | rfl | rfl <;> rfl

/-- The parts of a number, in their order. -/
theorem number_eq (cs : List Char) :
    number cs = digits cs ++ numberTail (cs.drop (digits cs).length) := by
  simp only [number, numberTail, List.drop_drop, List.append_assoc, Nat.add_assoc]
  rfl

/-- An exponent in its normal spelling. -/
inductive Power : List Char → Prop where
  | mk {sign ds : List Char} (hsign : sign ∈ [[], ['+'], ['-']]) (hne : ds ≠ [])
      (hds : ∀ d ∈ ds, d.isDigit = true) : Power ('e' :: (sign ++ ds))

/-- A number in its normal spelling: digits, a point with or without digits, an exponent and the
    imaginary unit, all but the first of which may be missing. Each part ends where the next
    character cannot continue it. -/
inductive Numeral : List Char → Prop where
  | mk {whole fraction power unit : List Char} (hne : whole ≠ []) (hwhole : ∀ d ∈ whole, d.isDigit = true)
      (hfraction : fraction = [] ∨ ∃ ds, fraction = '.' :: ds ∧ ∀ d ∈ ds, d.isDigit = true)
      (hpower : power = [] ∨ Power power) (hunit : unit = [] ∨ unit = ['i']) :
      Numeral (whole ++ (fraction ++ (power ++ unit)))

/-- An exponent is its mark, a sign or none, and at least one digit. -/
theorem exponent_cons_cons (mark c : Char) (cs : List Char) : exponent (mark :: c :: cs) =
    if mark == 'e' || mark == 'E' then
      if c == '+' || c == '-' then if (digits cs).isEmpty then [] else 'e' :: c :: digits cs
      else if (digits (c :: cs)).isEmpty then [] else 'e' :: digits (c :: cs)
    else [] := rfl

theorem exponent_eq_nil (h : ∀ c ∈ cs.head?, c ≠ 'e' ∧ c ≠ 'E') : exponent cs = [] := by
  match cs with
  | [] => rfl
  | [c] => exact ite_self _
  | mark :: c :: cs =>
    obtain ⟨hlower, hupper⟩ := h mark rfl
    rw [exponent_cons_cons, if_neg (by simp [hlower, hupper])]

/-- An exponent with a sign is read with all its digits. -/
theorem exponent_signed (hsign : c = '+' ∨ c = '-') (hne : digits cs ≠ []) :
    exponent ('e' :: c :: cs) = 'e' :: c :: digits cs := by
  rw [exponent_cons_cons, if_pos (by decide), if_pos (by simpa using hsign),
    if_neg (by simpa using hne)]

/-- An exponent without a sign is read with all its digits. -/
theorem exponent_unsigned (hne : digits cs ≠ []) : exponent ('e' :: cs) = 'e' :: digits cs := by
  cases cs with
  | nil => exact absurd rfl hne
  | cons c cs =>
    have hsign : ¬ ((c == '+' || c == '-') = true) := fun hsign => by
      simp only [Bool.or_eq_true, beq_iff_eq] at hsign
      rcases hsign with rfl | rfl <;> exact hne rfl
    rw [exponent_cons_cons, if_pos (by decide), if_neg hsign, if_neg (by simpa using hne)]

theorem exponent_append {power : List Char} (h : Power power)
    (htail : ∀ c ∈ tail.head?, c.isDigit = false) : exponent (power ++ tail) = power := by
  obtain @⟨sign, ds, hsign, hne, hds⟩ := h
  have hdigits : digits (ds ++ tail) = ds := digits_append hds htail
  have hne : digits (ds ++ tail) ≠ [] := by rwa [hdigits]
  rw [List.cons_append, List.append_assoc]
  simp only [List.mem_cons, List.not_mem_nil, or_false] at hsign
  rcases hsign with rfl | rfl | rfl
  · rw [List.nil_append, exponent_unsigned hne, hdigits, List.nil_append]
  · rw [List.singleton_append, exponent_signed (.inl rfl) hne, hdigits, List.singleton_append]
  · rw [List.singleton_append, exponent_signed (.inr rfl) hne, hdigits, List.singleton_append]

/-- A mark, a sign or none, and digits are an exponent in its normal spelling. -/
theorem power_of_digits (sign : List Char) (hsign : sign ∈ [[], ['+'], ['-']])
    (hne : ¬ ((digits cs).isEmpty = true)) : Power ('e' :: (sign ++ digits cs)) :=
  .mk hsign (by simpa using hne) fun _ => isDigit_of_mem_digits

/-- What is read as an exponent is in its normal spelling. -/
theorem exponent_cases (cs : List Char) : exponent cs = [] ∨ Power (exponent cs) := by
  unfold exponent
  split
  · split
    · split
      · split
        · next c rest hsign =>
          have hsign : [c] ∈ [[], ['+'], ['-']] := by simpa using hsign
          split
          · exact .inl rfl
          · next hne => exact .inr (power_of_digits [c] hsign hne)
        · split
          · exact .inl rfl
          · next hne => exact .inr (power_of_digits [] (by simp) hne)
      · exact .inl rfl
    · exact .inl rfl
  · exact .inl rfl

/-- The imaginary unit is spelled in one way. -/
theorem imaginaryUnit_cases (cs : List Char) : imaginaryUnit cs = [] ∨ imaginaryUnit cs = ['i'] := by
  unfold imaginaryUnit
  split <;> simp

theorem fraction_cases (cs : List Char) :
    fraction cs = [] ∨ ∃ ds, fraction cs = '.' :: ds ∧ ∀ d ∈ ds, d.isDigit = true := by
  unfold fraction
  split
  · split
    · exact .inr ⟨_, rfl, fun _ => isDigit_of_mem_digits⟩
    · exact .inl rfl
  · exact .inl rfl

/-- What is read as a number is in its normal spelling. -/
theorem numeral_number (h : c.isDigit = true) (cs : List Char) : Numeral (number (c :: cs)) := by
  rw [number_eq, numberTail, List.append_assoc]
  refine .mk ?_ (fun _ => isDigit_of_mem_digits) (fraction_cases _) (exponent_cases _)
    (imaginaryUnit_cases _)
  rw [digits_cons_of_isDigit h]
  exact List.cons_ne_nil _ _

theorem fraction_eq_nil (h : ∀ c ∈ cs.head?, c ≠ '.') : fraction cs = [] := by
  unfold fraction
  split
  · exact absurd rfl (h '.' rfl)
  · rfl

/-- An imaginary unit ends before a blank or a quote. -/
theorem imaginaryUnit_append {unit : List Char} (hunit : unit = [] ∨ unit = ['i'])
    (htail : ∀ c ∈ tail.head?, c = ' ' ∨ c = '\'') : imaginaryUnit (unit ++ tail) = unit := by
  rcases hunit with rfl | rfl
  · cases tail with
    | nil => rfl
    | cons c tail => rcases htail c rfl with rfl | rfl <;> rfl
  · rfl

/-- An exponent ends before an imaginary unit, a blank or a quote. -/
theorem exponent_append_unit {power unit : List Char} (hpower : power = [] ∨ Power power)
    (hunit : unit = [] ∨ unit = ['i']) (htail : ∀ c ∈ tail.head?, c = ' ' ∨ c = '\'') :
    exponent (power ++ (unit ++ tail)) = power := by
  have hnext : ∀ c ∈ (unit ++ tail).head?, c.isDigit = false ∧ c ≠ 'e' ∧ c ≠ 'E' := by
    intro c hc
    rcases hunit with rfl | rfl
    · rcases htail c hc with rfl | rfl <;> decide
    · cases hc
      decide
  rcases hpower with rfl | hpower
  · exact exponent_eq_nil fun c hc => (hnext c hc).2
  · exact exponent_append hpower fun c hc => (hnext c hc).1

/-- What may follow the digits of a numeral. -/
theorem head_of_power {power unit : List Char} (hpower : power = [] ∨ Power power)
    (hunit : unit = [] ∨ unit = ['i']) (htail : ∀ c ∈ tail.head?, c = ' ' ∨ c = '\'') :
    ∀ c ∈ (power ++ (unit ++ tail)).head?, c = 'e' ∨ c = 'i' ∨ c = ' ' ∨
      c = '\'' ∧ power = [] ∧ unit = [] ∧ tail.head? = some c := by
  intro c hc
  rcases hpower with rfl | ⟨-, -, -⟩
  · rcases hunit with rfl | rfl
    · rcases htail c hc with rfl | rfl
      · exact .inr (.inr (.inl rfl))
      · exact .inr (.inr (.inr ⟨rfl, rfl, rfl, hc⟩))
    · cases hc
      exact .inr (.inl rfl)
  · cases hc
    exact .inl rfl

/-- A point belongs to the number before digits, an exponent, an imaginary unit or a blank. -/
theorem pointContinuesNumber_append (hds : ∀ d ∈ ds, d.isDigit = true)
    (htail : ds = [] → ∀ c ∈ tail.head?, c = 'e' ∨ c = 'i' ∨ c = ' ') :
    pointContinuesNumber (ds ++ tail) = true := by
  cases ds with
  | cons d ds => exact pointContinuesNumber_of_isDigit (hds d List.mem_cons_self) _
  | nil =>
    cases tail with
    | nil => rfl
    | cons c tail => rcases htail rfl c rfl with rfl | rfl | rfl <;> rfl

/-- A numeral is read as far as it goes, before a blank and before a transposition. After a point
alone, the quote of a transposition would belong to the point. -/
theorem number_append {value : List Char} (h : Numeral value)
    (htail : ∀ c ∈ tail.head?, c = ' ' ∨ c = '\'' ∧ value.getLast? ≠ some '.') :
    number (value ++ tail) = value := by
  obtain @⟨whole, frac, power, unit, hne, hwhole, hfraction, hpower, hunit⟩ := h
  have hstop : ∀ c ∈ tail.head?, c = ' ' ∨ c = '\'' := fun c hc => (htail c hc).imp_right And.left
  have hnext := head_of_power hpower hunit hstop
  have hdigit : ∀ c ∈ (power ++ (unit ++ tail)).head?, c.isDigit = false := fun c hc => by
    rcases hnext c hc with rfl | rfl | rfl | ⟨rfl, -⟩ <;> rfl
  have hpoint : ∀ c ∈ (power ++ (unit ++ tail)).head?, c ≠ '.' := fun c hc => by
    rcases hnext c hc with rfl | rfl | rfl | ⟨rfl, -⟩ <;> decide
  have hwhole' : digits (whole ++ (frac ++ (power ++ (unit ++ tail)))) = whole := by
    refine digits_append hwhole ?_
    rcases hfraction with rfl | ⟨ds, rfl, -⟩
    · exact hdigit
    · rintro c ⟨⟩
      rfl
  have hfrac : fraction (frac ++ (power ++ (unit ++ tail))) = frac := by
    rcases hfraction with rfl | ⟨ds, rfl, hds⟩
    · exact fraction_eq_nil hpoint
    · have hcontinues : pointContinuesNumber (ds ++ (power ++ (unit ++ tail))) = true := by
        refine pointContinuesNumber_append hds fun hempty c hc => ?_
        rcases hnext c hc with he | hi | hblank | ⟨rfl, rfl, rfl, htail'⟩
        · exact .inl he
        · exact .inr (.inl hi)
        · exact .inr (.inr hblank)
        · subst hempty
          rcases htail _ htail' with hblank | ⟨-, hlast⟩
          · cases hblank
          · simp at hlast
      rw [List.cons_append, fraction, if_pos hcontinues, digits_append hds hdigit]
  rw [List.append_assoc, List.append_assoc, List.append_assoc, number_eq, hwhole', List.drop_left,
    numberTail, hfrac, ← List.drop_drop, List.drop_left, exponent_append_unit hpower hunit hstop,
    List.drop_left, imaginaryUnit_append hunit hstop, List.append_assoc]

/-- What ends with digits does not end with a point. -/
theorem getLast?_append_digits (hne : ds ≠ []) (hds : ∀ d ∈ ds, d.isDigit = true) (cs : List Char) :
    (cs ++ ds).getLast? ≠ some '.' := by
  intro hlast
  rw [List.getLast?_append_of_ne_nil _ hne] at hlast
  cases hds '.' (List.mem_of_getLast? hlast)

/-- A numeral that ends with its point has nothing after it. -/
theorem parts_of_getLast? {whole frac power unit : List Char} (hne : whole ≠ [])
    (hwhole : ∀ d ∈ whole, d.isDigit = true)
    (hfraction : frac = [] ∨ ∃ ds, frac = '.' :: ds ∧ ∀ d ∈ ds, d.isDigit = true)
    (hpower : power = [] ∨ Power power) (hunit : unit = [] ∨ unit = ['i'])
    (hlast : (whole ++ (frac ++ (power ++ unit))).getLast? = some '.') :
    frac = ['.'] ∧ power = [] ∧ unit = [] := by
  rcases hunit with rfl | rfl
  · rcases hpower with rfl | @⟨sign, ds, -, hds, hdigits⟩
    · rcases hfraction with rfl | ⟨ds, rfl, hdigits⟩
      · exact absurd (by simpa using hlast) (getLast?_append_digits hne hwhole [])
      · rcases List.eq_nil_or_concat ds with rfl | ⟨ds, d, rfl⟩
        · exact ⟨rfl, rfl, rfl⟩
        · refine absurd ?_ (getLast?_append_digits (by simp) hdigits (whole ++ ['.']))
          simpa using hlast
    · refine absurd ?_ (getLast?_append_digits hds hdigits (whole ++ (frac ++ ('e' :: sign))))
      simpa using hlast
  · simp at hlast

/-- A number that ends with its point is not followed by a quote. -/
theorem head_of_getLast?_number (h : c.isDigit = true)
    (hlast : (number (c :: cs)).getLast? = some '.') :
    ((c :: cs).drop (number (c :: cs)).length).head? ≠ some '\'' := by
  have hne : digits (c :: cs) ≠ [] := by
    rw [digits_cons_of_isDigit h]
    exact List.cons_ne_nil _ _
  rw [number_eq, numberTail, List.append_assoc] at hlast
  obtain ⟨hfrac, hpower, hunit⟩ := parts_of_getLast? hne (fun _ => isDigit_of_mem_digits)
    (fraction_cases _) (exponent_cases _) (imaginaryUnit_cases _) hlast
  have htail : numberTail ((c :: cs).drop (digits (c :: cs)).length) = ['.'] := by
    rw [numberTail, hunit, hpower, hfrac]
    rfl
  rw [number_eq, htail, List.length_append, ← List.drop_drop]
  generalize (c :: cs).drop (digits (c :: cs)).length = rest at hfrac
  intro hquote
  unfold fraction at hfrac
  split at hfrac
  · next after =>
    obtain ⟨after, rfl⟩ := List.head?_eq_some_iff.1 hquote
    cases hfrac
  · cases hfrac

/-- A point before a digit starts a number. -/
theorem readPoint_of_isDigit (h : d.isDigit = true) (cs : List Char) :
    readPoint (d :: cs) =
      ⟨(decimals (d :: cs)).length, .number, '0' :: '.' :: decimals (d :: cs)⟩ := by
  have hne : (digits (d :: cs)).isEmpty = false := by rw [digits_cons_of_isDigit h]; rfl
  unfold readPoint
  split
  case h_6 => simp [hne, decimals]
  all_goals next heq =>
    cases heq
    cases h

/-- A number that starts with a zero and a point is read with its digits, exponent and imaginary
unit. -/
theorem number_zero_point (h : d.isDigit = true) (cs : List Char) :
    number ('0' :: '.' :: d :: cs) = '0' :: '.' :: decimals (d :: cs) ++
      imaginaryUnit ((d :: cs).drop (decimals (d :: cs)).length) := by
  have hfraction : fraction ('.' :: d :: cs) = '.' :: digits (d :: cs) :=
    if_pos (pointContinuesNumber_of_isDigit h cs)
  have hwhole : digits ('0' :: '.' :: d :: cs) = ['0'] := rfl
  rw [number_eq, hwhole, List.length_singleton, List.drop_succ_cons, List.drop_zero, numberTail,
    hfraction]
  simp [decimals, Nat.add_right_comm _ 1]

/-- What follows the digits and the exponent at the front of a text. -/
def afterDecimals (cs : List Char) : List Char := cs.drop (decimals cs).length

/-- A number without whole part says what the one with a zero says, and leaves the imaginary unit to
what follows. -/
theorem contentsAfter_point (h : d.isDigit = true) (cs : List Char) :
    contentsAfter none ('.' :: d :: cs) =
      (.number, String.ofList ('0' :: '.' :: decimals (d :: cs))) ::
        contentsAfter (some .number) (afterDecimals (d :: cs)) := by
  have hpoint : d ≠ '.' := fun heq => by
    subst heq
    cases h
  have hpiece : gapPiece true ('.' :: d :: cs) = .none :=
    gapPiece_eq_none (.inr (by decide)) (by decide) fun rest heq =>
      hpoint (List.cons.inj heq.2).1
  rw [contentsAfter_token (gap_of_gapPiece hpiece) rfl (List.drop_zero ..)]
  have hread : readToken (!false && (none : Option TokenKind).any TokenKind.endsOperand) '.' (d :: cs) =
      readPoint (d :: cs) := rfl
  rw [hread, readPoint_of_isDigit h, afterDecimals]

/-- A number that starts with a zero and a point takes the imaginary unit. -/
theorem contentsAfter_zero_point (h : d.isDigit = true) (cs : List Char) :
    contentsAfter none ('0' :: '.' :: d :: cs) =
      (.number, String.ofList ('0' :: '.' :: decimals (d :: cs) ++
          imaginaryUnit (afterDecimals (d :: cs)))) ::
        contentsAfter (some .number) ((afterDecimals (d :: cs)).drop
          (imaginaryUnit (afterDecimals (d :: cs))).length) := by
  have hpiece : gapPiece true ('0' :: '.' :: d :: cs) = .none := gapPiece_of_isDigit rfl true _
  rw [contentsAfter_token (gap_of_gapPiece hpiece) rfl (List.drop_zero ..), readToken_of_isDigit rfl,
    number_zero_point h, afterDecimals]
  simp only [List.cons_append, List.length_cons, List.length_append, Nat.add_sub_cancel,
    List.drop_succ_cons, List.drop_drop]

/-- A number may start with its point instead of a zero, and nothing that a source says changes with
it, unless an imaginary unit follows: after a leading point the unit is a token of its own. -/
theorem contents_point_eq_iff (t : String) (h : ∃ d ∈ t.toList.head?, d.isDigit = true) :
    Token.contents ("." ++ t) = Token.contents ("0." ++ t) ↔
      ∀ c ∈ (afterDecimals t.toList).head?, c ≠ 'i' ∧ c ≠ 'j' := by
  obtain ⟨d, hhead, hdigit⟩ := h
  obtain ⟨cs, hcs⟩ := List.head?_eq_some_iff.1 hhead
  have hpoint : ("." ++ t).toList = '.' :: d :: cs := by rw [String.toList_append, hcs]; rfl
  have hzero : ("0." ++ t).toList = '0' :: '.' :: d :: cs := by rw [String.toList_append, hcs]; rfl
  rw [contents_eq, contents_eq, hpoint, hzero, hcs, contentsAfter_point hdigit,
    contentsAfter_zero_point hdigit]
  generalize afterDecimals (d :: cs) = after
  constructor
  · intro heq c hc
    obtain ⟨rest, rfl⟩ := List.head?_eq_some_iff.1 hc
    have hlength := congrArg (fun p => p.2.length) (List.cons.inj heq).1
    refine ⟨?_, ?_⟩ <;> rintro rfl <;> simp [imaginaryUnit] at hlength
  · intro hnone
    have hunit : imaginaryUnit after = [] := by
      unfold imaginaryUnit
      split
      · exact absurd rfl (hnone 'i' rfl).1
      · exact absurd rfl (hnone 'j' rfl).2
      · rfl
    rw [hunit, List.append_nil, List.length_nil, List.drop_zero]

/-- The point of a fraction with an exponent may lead, that of an imaginary number may not. -/
theorem contents_point_exponent :
    ((∃ d ∈ "5e-3.*x'".toList.head?, d.isDigit = true) ∧
        Token.contents ("." ++ "5e-3.*x'") = Token.contents ("0." ++ "5e-3.*x'")) ∧
      (∃ d ∈ "5i".toList.head?, d.isDigit = true) ∧
        Token.contents ("." ++ "5i") ≠ Token.contents ("0." ++ "5i") := by
  have hdigit : ∃ d ∈ "5e-3.*x'".toList.head?, d.isDigit = true := ⟨'5', rfl, rfl⟩
  have hdigit' : ∃ d ∈ "5i".toList.head?, d.isDigit = true := ⟨'5', rfl, rfl⟩
  have hafter : (afterDecimals "5e-3.*x'".toList).head? = some '.' := by decide
  have hafter' : (afterDecimals "5i".toList).head? = some 'i' := by decide
  refine ⟨⟨hdigit, (contents_point_eq_iff _ hdigit).2 fun c hc => ?_⟩, hdigit', fun heq => ?_⟩
  · rw [hafter] at hc
    cases hc
    decide
  · exact ((contents_point_eq_iff _ hdigit').1 heq 'i' hafter').1 rfl

end Lexer

end ScriptBuild
