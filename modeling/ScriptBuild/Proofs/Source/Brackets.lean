import ScriptBuild.Source.Token
import Mathlib.Data.List.Basic

namespace ScriptBuild

namespace Outline

/-- Brackets that belong together. -/
inductive Matches : TokenKind → TokenKind → Prop where
  | paren : Matches (.symbol .lparen) (.symbol .rparen)
  | bracket : Matches (.symbol .lbracket) (.symbol .rbracket)
  | brace : Matches (.symbol .lbrace) (.symbol .rbrace)

/-- Tokens whose brackets are balanced. -/
inductive Balanced : List Token → Prop where
  | nil : Balanced []
  | token {t : Token} {later : List Token} (hopener : t.kind.isOpener = false)
      (hcloser : t.kind.isCloser = false) (hlater : Balanced later) : Balanced (t :: later)
  | brackets {opener closer : Token} {inside later : List Token}
      (hmatches : Matches opener.kind closer.kind) (hinside : Balanced inside)
      (hlater : Balanced later) : Balanced (opener :: (inside ++ closer :: later))

/-- The kind of the token at a position. -/
def kindAt (ts : List Token) (i : Nat) : Option TokenKind := ts[i]?.map Token.kind

/-- The bracket level before the token at a position. It counts the brackets that are open there;
    which bracket closes which is said by the levels between them. -/
def level (ts : List Token) (i : Nat) : Nat :=
  (ts.take i).countP (·.kind.isOpener) - (ts.take i).countP (·.kind.isCloser)

/-- A bracket closes what another one opens: the level is what it was, and was higher between them. -/
structure Closes (ts : List Token) (opener closer : Nat) : Prop where
  lt : opener < closer
  level_eq : level ts (closer + 1) = level ts opener
  above : ∀ i ≤ closer, opener < i → level ts opener < level ts i

instance (ts : List Token) (opener closer : Nat) : Decidable (Closes ts opener closer) :=
  decidable_of_iff (opener < closer ∧ level ts (closer + 1) = level ts opener ∧
      ∀ i ≤ closer, opener < i → level ts opener < level ts i)
    ⟨fun ⟨hlt, heq, habove⟩ => ⟨hlt, heq, habove⟩, fun h => ⟨h.lt, h.level_eq, h.above⟩⟩

variable {ts inside later : List Token} {t opener closer : Token} {i : Nat} {kind kind' : TokenKind}

/-- The kind at a position is that of the token there. -/
theorem kindAt_eq (hi : ts[i]? = some t) : kindAt ts i = some t.kind := by rw [kindAt, hi]; rfl

/-- A token has the kind at its position. -/
theorem kind_eq (hi : ts[i]? = some t) (h : kindAt ts i = some kind) : t.kind = kind :=
  Option.some.inj ((kindAt_eq hi).symm.trans h)

/-- There is a token where there is a kind. -/
theorem lt_of_kindAt (h : kindAt ts i = some kind) : i < ts.length := by
  by_contra hge
  simp [kindAt, List.getElem?_eq_none (Nat.le_of_not_lt hge)] at h

theorem isCloser_of_isOpener (h : kind.isOpener = true) : kind.isCloser = false := by
  cases kind with
  | symbol s => cases s <;> first | rfl | cases h
  | _ => cases h

/-- The first of two brackets that belong together opens. -/
theorem Matches.isOpener (h : Matches kind kind') : kind.isOpener = true := by
  cases h <;> rfl

/-- The second of two brackets that belong together closes. -/
theorem Matches.isCloser (h : Matches kind kind') : kind'.isCloser = true := by
  cases h <;> rfl

/-- The second of two brackets that belong together does not open. -/
theorem Matches.not_opener (h : Matches kind kind') :
    kind'.isOpener = false := by
  cases h <;> rfl

/-- Balanced brackets are closed only after they were opened, and all of them are closed. -/
theorem Balanced.counts (h : Balanced ts) :
    (∀ i, (ts.take i).countP (·.kind.isCloser) ≤ (ts.take i).countP (·.kind.isOpener)) ∧
      ts.countP (·.kind.isCloser) = ts.countP (·.kind.isOpener) := by
  induction h with
  | nil => simp
  | token hopener hcloser _ ih =>
    refine ⟨fun i => ?_, by simpa [hopener, hcloser] using ih.2⟩
    cases i with
    | zero => simp
    | succ i => simpa [hopener, hcloser] using ih.1 i
  | @brackets opener closer inside later hmatches _ _ ihinside ihlater =>
    have hopener := isCloser_of_isOpener hmatches.isOpener
    refine ⟨fun i => ?_, ?_⟩
    · cases i with
      | zero => simp
      | succ i =>
        have hinside := ihinside.1 i
        rw [List.take_succ_cons, List.take_append]
        cases hrest : i - inside.length with
        | zero =>
          simp [hmatches.isOpener, hopener]
          omega
        | succ j =>
          have hlater := ihlater.1 j
          simp [hmatches.isOpener, hmatches.isCloser, hmatches.not_opener, hopener]
          omega
    · simp [hmatches.isOpener, hmatches.isCloser, hmatches.not_opener, hopener]
      omega

theorem level_zero (ts : List Token) : level ts 0 = 0 := by simp [level]

/-- The level after a token follows from the token and the level before it. -/
theorem level_succ (h : Balanced ts) (hi : ts[i]? = some t) :
    level ts (i + 1) = t.kind.depthAfter (level ts i) := by
  have hcount := h.counts.1 i
  have htake : ts.take (i + 1) = ts.take i ++ [t] := by rw [List.take_add_one, hi]; rfl
  simp only [level, htake, List.countP_append, List.countP_singleton, TokenKind.depthAfter]
  cases hopener : t.kind.isOpener with
  | true => simp [isCloser_of_isOpener hopener]; omega
  | false => cases hcloser : t.kind.isCloser <;> simp; omega

/-- A token that is no bracket has no part in the levels after it. -/
theorem level_token (hopener : t.kind.isOpener = false) (hcloser : t.kind.isCloser = false)
    (ts : List Token) (i : Nat) : level (t :: ts) (i + 1) = level ts i := by
  simp [level, hopener, hcloser]

/-- Inside of brackets all levels are one higher. -/
theorem level_inside (hmatches : Matches opener.kind closer.kind) (hinside : Balanced inside)
    (hi : i ≤ inside.length) :
    level (opener :: (inside ++ closer :: later)) (i + 1) = level inside i + 1 := by
  have hcount := hinside.counts.1 i
  simp [level, List.take_append_of_le_length hi, hmatches.isOpener,
    isCloser_of_isOpener hmatches.isOpener]
  omega

/-- Brackets that are closed have no part in the levels after them. -/
theorem level_later (hmatches : Matches opener.kind closer.kind) (hinside : Balanced inside)
    (later : List Token) (i : Nat) :
    level (opener :: (inside ++ closer :: later)) (i + (inside.length + 2)) = level later i := by
  have htake : (opener :: (inside ++ closer :: later)).take (i + (inside.length + 2)) =
      opener :: (inside ++ closer :: later.take i) := by
    rw [show i + (inside.length + 2) = inside.length + (i + 1) + 1 by omega, List.take_succ_cons,
      List.take_length_add_append, List.take_succ_cons]
  have hcount := hinside.counts.2
  simp [level, htake, hmatches.isOpener, hmatches.isCloser, hmatches.not_opener,
    isCloser_of_isOpener hmatches.isOpener]
  omega

/-- Brackets belong together also among other tokens, on another level. -/
theorem Closes.shift {us : List Token} {o c n k : Nat} (h : Closes ts o c)
    (hlevel : ∀ i ≤ c + 1, level us (i + n) = level ts i + k) : Closes us (o + n) (c + n) := by
  obtain ⟨hlt, hreturn, habove⟩ := h
  refine ⟨by omega, ?_, fun i hle hgt => ?_⟩
  · rw [Nat.add_right_comm, hlevel _ (Nat.le_refl _), hlevel o (by omega), hreturn]
  · obtain ⟨i, rfl⟩ : ∃ i', i = i' + n := ⟨i - n, by omega⟩
    rw [hlevel o (by omega), hlevel i (by omega)]
    exact Nat.add_lt_add_right (habove i (by omega) (by omega)) k

/-- The tokens inside of brackets stand after the opening one. -/
theorem kindAt_inside (opener closer : Token) (later : List Token) (hi : i < inside.length) :
    kindAt (opener :: (inside ++ closer :: later)) (i + 1) = kindAt inside i := by
  simp [kindAt, List.getElem?_append_left hi]

/-- The tokens after brackets stand after the closing one. -/
theorem kindAt_later (opener closer : Token) (inside later : List Token) (i : Nat) :
    kindAt (opener :: (inside ++ closer :: later)) (i + (inside.length + 2)) = kindAt later i := by
  rw [kindAt, kindAt, show i + (inside.length + 2) = inside.length + (i + 1) + 1 by omega,
    List.getElem?_cons_succ, List.getElem?_append_right (by omega)]
  simp

/-- Every bracket that opens is closed by one of its own form. -/
theorem Balanced.exists_closes {o : Nat} (h : Balanced ts)
    (ho : kindAt ts o = some kind) (hopener : kind.isOpener = true) :
    ∃ c kind', kindAt ts c = some kind' ∧ Matches kind kind' ∧ Closes ts o c := by
  induction h generalizing o with
  | nil => cases ho
  | @token t later hneutral hcloser hlater ih =>
    cases o with
    | zero =>
      cases ho
      rw [hneutral] at hopener
      cases hopener
    | succ o =>
      obtain ⟨c, kind', hc, hmatches, hcloses⟩ := ih ho
      exact ⟨c + 1, kind', hc, hmatches,
        hcloses.shift (k := 0) fun i _ => level_token hneutral hcloser later i⟩
  | @brackets opener closer inside later hmatches hinside hlater ihinside ihlater =>
    rcases Nat.lt_trichotomy o (inside.length + 1) with hlt | rfl | hgt
    · cases o with
      | zero =>
        cases ho
        refine ⟨inside.length + 1, closer.kind, by simp [kindAt], hmatches, by omega, ?_,
          fun i hle hgt => ?_⟩
        · have hreturn := level_later hmatches hinside later 0
          rwa [Nat.zero_add] at hreturn
        · obtain ⟨i, rfl⟩ : ∃ i', i = i' + 1 := ⟨i - 1, by omega⟩
          rw [level_zero, level_inside hmatches hinside (by omega)]
          omega
      | succ o =>
        rw [kindAt_inside opener closer later (by omega)] at ho
        obtain ⟨c, kind', hc, hmatches', hcloses⟩ := ihinside ho
        have hlt : c < inside.length := lt_of_kindAt hc
        exact ⟨c + 1, kind', (kindAt_inside opener closer later hlt).trans hc, hmatches',
          hcloses.shift (k := 1) fun i hi => level_inside hmatches hinside (by omega)⟩
    · obtain rfl : closer.kind = kind := by simpa [kindAt] using ho
      rw [hmatches.not_opener] at hopener
      cases hopener
    · obtain ⟨o, rfl⟩ : ∃ o', o = o' + (inside.length + 2) := ⟨o - (inside.length + 2), by omega⟩
      rw [kindAt_later] at ho
      obtain ⟨c, kind', hc, hmatches', hcloses⟩ := ihlater ho
      exact ⟨c + (inside.length + 2), kind', (kindAt_later ..).trans hc, hmatches',
        hcloses.shift (k := 0) fun i _ => level_later hmatches hinside later i⟩

/-- A bracket is closed in one place only. -/
theorem Closes.unique {o c c' : Nat} (h : Closes ts o c) (h' : Closes ts o c') : c = c' := by
  obtain ⟨hlt, hreturn, habove⟩ := h
  obtain ⟨hlt', hreturn', habove'⟩ := h'
  rcases Nat.lt_trichotomy c c' with hless | heq | hless
  · have := habove' (c + 1) (by omega) (by omega)
    omega
  · exact heq
  · have := habove (c' + 1) (by omega) (by omega)
    omega

end Outline

end ScriptBuild
