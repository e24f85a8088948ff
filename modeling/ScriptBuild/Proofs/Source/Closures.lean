import ScriptBuild.Source.Outline
import ScriptBuild.Proofs.Source.Brackets
import Mathlib.Data.List.Sort

namespace ScriptBuild

/-- References and entered scopes, each with the spans of the scopes around it, innermost first. There
is no answer if an exit closes no scope, or if a scope stays open. -/
def Event.inScopes (opened : List Span) : List Event → Option (List (Event × List Span))
  | [] => if opened.isEmpty then some [] else none
  | .enter kind name span :: es =>
    (inScopes (span :: opened) es).map ((.enter kind name span, opened) :: ·)
  | .exit :: es =>
    match opened with
    | [] => none
    | _ :: around => inScopes around es
  | .declare _ _ _ :: es => inScopes opened es
  | .reference name span :: es => (inScopes opened es).map ((.reference name span, opened) :: ·)

namespace Outline

/-- A closure sign, and where its parameter list ends. -/
structure IsClosure (ts : List Token) (start stop : Nat) : Prop where
  sign : kindAt ts start = some (.symbol .atSign)
  opener : kindAt ts (start + 1) = some (.symbol .lparen)
  closer : kindAt ts stop = some (.symbol .rparen)
  closes : Closes ts (start + 1) stop

/-- The token at a position is a parenthesis. -/
def IsParenthesis (ts : List Token) (i : Nat) : Prop :=
  kindAt ts i = some (.symbol .lparen) ∨ kindAt ts i = some (.symbol .rparen)

/-- A token stands in a parameter list or closes it. -/
def InParameters (ts : List Token) (i : Nat) : Prop :=
  ∃ start < i, ∃ stop < ts.length, IsClosure ts start stop ∧ start + 1 < i ∧ i ≤ stop

/-- The tokens that separate a body from what follows it. -/
def bodySeparators : List TokenKind := [.symbol .comma, .symbol .semicolon, .newline]

/-- A token ends the body of a closure: a separator on the bracket level of the sign does, and a
bracket that closes around it. -/
def EndsBody (ts : List Token) (start i : Nat) : Prop :=
  (∃ kind ∈ bodySeparators, kindAt ts i = some kind) ∧ level ts i = level ts start ∨
    level ts (i + 1) < level ts start

/-- The body of a closure has started before a token, and not ended before it. -/
def Reaches (ts : List Token) (start i : Nat) : Prop :=
  ∃ stop < i, IsClosure ts start stop ∧ ∀ j < i, stop < j → ¬ EndsBody ts start j

/-- A token belongs to the body of a closure. The body runs from the parameter list to the first
    separator on the bracket level of the sign, to the bracket that closes around it, or to the end
    of the expression. -/
def InBody (ts : List Token) (start i : Nat) : Prop := Reaches ts start i ∧ ¬ EndsBody ts start i

instance (ts : List Token) (start stop : Nat) : Decidable (IsClosure ts start stop) :=
  decidable_of_iff (kindAt ts start = some (.symbol .atSign) ∧
      kindAt ts (start + 1) = some (.symbol .lparen) ∧ kindAt ts stop = some (.symbol .rparen) ∧
      Closes ts (start + 1) stop)
    ⟨fun ⟨hsign, hopener, hcloser, hcloses⟩ => ⟨hsign, hopener, hcloser, hcloses⟩,
      fun h => ⟨h.sign, h.opener, h.closer, h.closes⟩⟩

instance (ts : List Token) (i : Nat) : Decidable (IsParenthesis ts i) :=
  inferInstanceAs (Decidable (_ ∨ _))

instance (ts : List Token) (i : Nat) : Decidable (InParameters ts i) :=
  inferInstanceAs (Decidable (∃ start < i, ∃ stop < ts.length, _ ∧ _ ∧ _))

instance (ts : List Token) (start i : Nat) : Decidable (EndsBody ts start i) :=
  inferInstanceAs (Decidable ((∃ kind ∈ bodySeparators, _) ∧ _ ∨ _))

instance (ts : List Token) (start i : Nat) : Decidable (Reaches ts start i) :=
  inferInstanceAs (Decidable (∃ stop < i, _ ∧ ∀ j < i, _ → ¬ _))

instance (ts : List Token) (start i : Nat) : Decidable (InBody ts start i) :=
  inferInstanceAs (Decidable (_ ∧ ¬ _))

/-- No parameter list of a closure has parentheses inside. -/
def PlainParameters (ts : List Token) : Prop :=
  ∀ start < ts.length, ∀ stop < ts.length, IsClosure ts start stop →
    ∀ i < stop, start + 1 < i → ¬ IsParenthesis ts i

instance (ts : List Token) : Decidable (PlainParameters ts) :=
  inferInstanceAs (Decidable (∀ start < ts.length, ∀ stop < ts.length, _ → ∀ i < stop, _ → ¬ _))

/-- Where the token at a position stands in the source. -/
def spanAt (ts : List Token) (i : Nat) : Span := (ts[i]?.map Token.span).getD default

/-- The kind of the token before a position. -/
def kindBefore (ts : List Token) (i : Nat) : Option TokenKind := (ts.take i).getLast?.map Token.kind

/-- The closures whose body a token belongs to, innermost first. -/
def bodiesAround (ts : List Token) (i : Nat) : List Nat :=
  ((List.range i).filter fun start => InBody ts start i).reverse

/-- What a token says in an expression: a name that is neither a field nor a parameter is read, and the
parenthesis after a closure sign starts a closure. -/
def said (ts : List Token) (i : Nat) : Option Event :=
  ts[i]?.bind fun t =>
    match t.kind with
    | .name =>
      if kindBefore ts i = some (.symbol .dot) ∨ InParameters ts i then none
      else some (.reference t.value t.span)
    | .symbol .lparen =>
      if kindBefore ts i = some (.symbol .atSign) then some (.enter .closure none (spanAt ts (i - 1)))
      else none
    | _ => none

/-- What a token says, with the closures whose body it belongs to. -/
def reported (ts : List Token) (i : Nat) : Option (Event × List Span) :=
  (said ts i).map (·, (bodiesAround ts i).map (spanAt ts))

variable {ts : List Token} {t : Token} {i start stop outer depth : Nat} {kind : TokenKind}
  {bodies opened around : List Nat} {s : ExpressionState} {afterPoint : Bool} {test : Nat → Bool}

/-- Before the next position there is the token at this one. -/
theorem kindBefore_succ (hi : ts[i]? = some t) : kindBefore ts (i + 1) = some t.kind := by
  rw [kindBefore, List.take_add_one, hi]
  simp

/-- What stands before a position stands at the position before it. -/
theorem exists_of_kindBefore (hi : ts[i]? = some t) (h : kindBefore ts i = some kind) :
    ∃ j, i = j + 1 ∧ kindAt ts j = some kind := by
  obtain ⟨hlt, -⟩ := List.getElem?_eq_some_iff.1 hi
  cases i with
  | zero => simp [kindBefore] at h
  | succ j =>
    have hj : ts[j]? = some ts[j] := List.getElem?_eq_getElem (by omega)
    refine ⟨j, rfl, ?_⟩
    rw [← h, kindBefore_succ hj, kindAt_eq hj]

/-- What stands at a position stands before the next one. -/
theorem kindBefore_of_kindAt (h : kindAt ts i = some kind) : kindBefore ts (i + 1) = some kind := by
  obtain ⟨t, hi, rfl⟩ := Option.map_eq_some_iff.1 h
  exact kindBefore_succ hi

theorem spanAt_eq (hi : ts[i]? = some t) : spanAt ts i = t.span := by rw [spanAt, hi]; rfl

/-- A token belongs to a parameter list that has begun before it and not ended before it. -/
theorem inParameters_iff : InParameters ts i ↔
    ∃ start stop, IsClosure ts start stop ∧ start + 1 < i ∧ i ≤ stop := by
  constructor
  · rintro ⟨start, -, stop, -, h⟩
    exact ⟨start, stop, h⟩
  · rintro ⟨start, stop, h, hgt, hle⟩
    exact ⟨start, by omega, stop, lt_of_kindAt h.closer, h, hgt, hle⟩

/-- The parenthesis that closes a parameter list belongs to it. -/
theorem IsClosure.inParameters (h : IsClosure ts start stop) : InParameters ts stop :=
  inParameters_iff.2 ⟨start, stop, h, h.closes.lt, Nat.le_refl stop⟩

/-- Between the sign and the parameter list the level is that of the sign. -/
theorem IsClosure.level_succ (hbalanced : Balanced ts) (h : IsClosure ts start stop) :
    level ts (start + 1) = level ts start := by
  obtain ⟨sign, hsign, hkind⟩ := Option.map_eq_some_iff.1 h.sign
  rw [Outline.level_succ hbalanced hsign, hkind]
  rfl

/-- No parenthesis stands inside a plain parameter list. -/
theorem IsClosure.not_parenthesis (h : IsClosure ts start stop) (hplain : PlainParameters ts)
    (hgt : start + 1 < i) (hlt : i < stop) : ¬ IsParenthesis ts i :=
  hplain start (lt_of_kindAt h.sign) stop (lt_of_kindAt h.closer) h i hlt hgt

/-- Parameter lists do not overlap. -/
theorem IsClosure.unique {start' stop' : Nat} (h : IsClosure ts start stop)
    (hplain : PlainParameters ts) (hgt : start + 1 < i) (hle : i ≤ stop)
    (h' : IsClosure ts start' stop') (hgt' : start' + 1 < i) (hle' : i ≤ stop') :
    start' = start ∧ stop' = stop := by
  rcases Nat.lt_trichotomy start start' with hlt | rfl | hlt
  · exact absurd (.inl h'.opener) (h.not_parenthesis hplain (by omega) (by omega))
  · exact ⟨rfl, h'.closes.unique h.closes⟩
  · exact absurd (.inl h.opener) (h'.not_parenthesis hplain (by omega) (by omega))

/-- The last token of a parameter list is its only closing parenthesis. -/
theorem IsClosure.eq_stop_iff (h : IsClosure ts start stop) (hplain : PlainParameters ts)
    (hi : ts[i]? = some t) (hgt : start + 1 < i) (hle : i ≤ stop) :
    i = stop ↔ t.kind = .symbol .rparen := by
  refine ⟨fun heq => kind_eq hi (heq ▸ h.closer), fun hparen => ?_⟩
  by_contra hne
  exact h.not_parenthesis hplain hgt (by omega) (.inr (by rw [kindAt_eq hi, hparen]))

/-- A body reaches the next token if it does not end at this one, or if its parameter list does. -/
theorem reaches_succ : Reaches ts start (i + 1) ↔ InBody ts start i ∨ IsClosure ts start i := by
  constructor
  · rintro ⟨stop, hstop, h, hends⟩
    rcases Nat.lt_succ_iff_lt_or_eq.1 hstop with hlt | rfl
    · exact .inl ⟨⟨stop, hlt, h, fun j hj => hends j (by omega)⟩, hends i (by omega) hlt⟩
    · exact .inr h
  · rintro (⟨⟨stop, hstop, h, hends⟩, hend⟩ | h)
    · refine ⟨stop, by omega, h, fun j hj hgt => ?_⟩
      rcases Nat.lt_succ_iff_lt_or_eq.1 hj with hlt | rfl
      · exact hends j hlt hgt
      · exact hend
    · exact ⟨i, by omega, h, fun j hj hgt => by omega⟩

/-- A body starts behind the sign and the parenthesis. -/
theorem lt_of_reaches (h : Reaches ts start i) : start + 2 < i := by
  obtain ⟨stop, hstop, hclosure, -⟩ := h
  have := hclosure.closes.lt
  omega

/-- The body of a closure never leaves the level of its sign. -/
theorem level_le_of_reaches (hbalanced : Balanced ts) (h : Reaches ts start i) :
    level ts start ≤ level ts i := by
  obtain ⟨stop, hstop, hclosure, hends⟩ := h
  have hstart := hclosure.level_succ hbalanced
  have hreturn := hclosure.closes.level_eq
  obtain ⟨i, rfl⟩ : ∃ i', i = i' + 1 := ⟨i - 1, by omega⟩
  rcases Nat.lt_succ_iff_lt_or_eq.1 hstop with hlt | rfl
  · have hend := hends i (by omega) hlt
    simp only [EndsBody, not_or, not_lt] at hend
    exact hend.2
  · omega

/-- A token that ends a body ends all bodies inside it. -/
theorem EndsBody.inner (h : EndsBody ts outer i) (hle : level ts outer ≤ level ts start)
    (hle' : level ts start ≤ level ts i) : EndsBody ts start i := by
  rcases h with ⟨hkind, hlevel⟩ | hlt
  · exact .inl ⟨hkind, by omega⟩
  · exact .inr (by omega)

/-- A closing bracket ends the bodies that are inside of it. -/
theorem endsBody_closer (hi : ts[i]? = some t) (hcloser : t.kind.isCloser = true) :
    EndsBody ts start i ↔ level ts (i + 1) < level ts start := by
  refine or_iff_right fun ⟨⟨kind, hmem, hkind⟩, _⟩ => ?_
  have hall : ∀ kind ∈ bodySeparators, kind.isCloser = false := by decide
  rw [kind_eq hi hkind, hall kind hmem] at hcloser
  cases hcloser

/-- A separator ends the bodies on its own level. -/
theorem endsBody_separator (hbalanced : Balanced ts) (hi : ts[i]? = some t)
    (hkind : t.kind ∈ bodySeparators) (hle : level ts start ≤ level ts i) :
    EndsBody ts start i ↔ level ts start = level ts (i + 1) := by
  have hall : ∀ kind ∈ bodySeparators, kind.isOpener = false ∧ kind.isCloser = false := by decide
  have hlevel : level ts (i + 1) = level ts i := by
    rw [level_succ hbalanced hi, TokenKind.depthAfter, (hall _ hkind).1, (hall _ hkind).2]
    rfl
  rw [EndsBody, hlevel, or_iff_left (by omega), and_iff_right ⟨_, hkind, kindAt_eq hi⟩, eq_comm]

theorem not_endsBody (hbalanced : Balanced ts) (hi : ts[i]? = some t)
    (hcloser : t.kind.isCloser = false) (hseparator : t.kind ∉ bodySeparators)
    (hle : level ts start ≤ level ts i) : ¬ EndsBody ts start i := by
  have hlevel : level ts i ≤ level ts (i + 1) := by
    rw [level_succ hbalanced hi, TokenKind.depthAfter, hcloser]
    split <;> simp
  rintro (⟨⟨kind, hmem, hkind⟩, -⟩ | hlt)
  · exact hseparator (kind_eq hi hkind ▸ hmem)
  · omega

/-- No token of a parameter list ends a body around it. -/
theorem IsClosure.not_endsBody (h : IsClosure ts start stop) (hbalanced : Balanced ts)
    (hgt : start + 1 < i) (hle : i ≤ stop) (houter : level ts outer ≤ level ts start) :
    ¬ EndsBody ts outer i := by
  have hlevel := h.level_succ hbalanced
  have hreturn := h.closes.level_eq
  have hinside := h.closes.above i hle hgt
  have hnext : level ts start ≤ level ts (i + 1) := by
    rcases Nat.lt_or_eq_of_le hle with hlt | rfl
    · have := h.closes.above (i + 1) hlt (by omega)
      omega
    · omega
  rintro (⟨-, heq⟩ | hlt) <;> omega

/-- The bodies around a token are those that reach the next one, unless a parameter list ends here. -/
theorem bodiesAround_eq (hnewest : opened.Pairwise (· > ·))
    (hreaches : ∀ start, start ∈ opened ↔ Reaches ts start (i + 1))
    (hkind : kindAt ts i ≠ some (.symbol .rparen)) : bodiesAround ts i = opened := by
  have hsorted : (bodiesAround ts i).Pairwise (· > ·) :=
    List.pairwise_reverse.2 (List.pairwise_lt_range.filter _)
  refine hsorted.eq_of_mem_iff hnewest fun start => ?_
  rw [hreaches, reaches_succ, bodiesAround, List.mem_reverse, List.mem_filter, List.mem_range,
    decide_eq_true_eq]
  constructor
  · exact fun h => .inl h.2
  · rintro (h | h)
    · have hlt := lt_of_reaches h.1
      exact ⟨by omega, h⟩
    · exact absurd h.closer hkind

/-- What is kept of the open closures, innermost first: the levels that they start on. -/
structure Keeps (ts : List Token) (bodies opened : List Nat) : Prop where
  bodies_eq : bodies = opened.map (level ts)
  newest : opened.Pairwise (· > ·)
  nested : opened.Pairwise fun inner outer => level ts outer ≤ level ts inner

/-- Among operands and operators the open closures are those whose body reaches the next token. -/
structure Among (ts : List Token) (i depth : Nat) (opened : List Nat) : Prop where
  outside : ¬ InParameters ts i
  depth_eq : depth = level ts i
  reaches : ∀ start, start ∈ opened ↔ Reaches ts start i

/-- What a place says of the tokens before it, and of the closures that are open there. -/
inductive At (ts : List Token) (i depth : Nat) (opened : List Nat) : Place → Prop where
  | operand {afterPoint : Bool} (hamong : Among ts i depth opened)
      (hpoint : afterPoint = true ↔ kindBefore ts i = some (.symbol .dot))
      (hsign : kindBefore ts i ≠ some (.symbol .atSign)) : At ts i depth opened (.operand afterPoint)
  | afterAt (hamong : Among ts i depth opened) (hsign : kindBefore ts i = some (.symbol .atSign)) :
      At ts i depth opened (.afterAt (spanAt ts (i - 1)))
  /-- The body of a closure counts as open from its parameter list on. -/
  | parameters {start stop : Nat} {around : List Nat} (hopened : opened = start :: around)
      (hclosure : IsClosure ts start stop) (hgt : start + 1 < i) (hle : i ≤ stop)
      (hdepth : depth = level ts start) (hreaches : ∀ a, a ∈ around ↔ Reaches ts a i) :
      At ts i depth opened .parameters

/-- The closures that are open before a token, and the state in which it is read. What is kept of
    the bodies while the tokens are read is the levels of those that reach the next token, innermost
    first. -/
structure Reads (ts : List Token) (i : Nat) (s : ExpressionState) (opened : List Nat) : Prop where
  keeps : Keeps ts s.bodies opened
  place : At ts i s.depth opened s.place

/-- Bodies are ended from the innermost one outwards, as long as a test on their levels says. -/
theorem Keeps.dropWhile (h : Keeps ts bodies opened) (test : Nat → Bool) :
    Keeps ts (bodies.dropWhile test) (opened.dropWhile (test ∘ level ts)) where
  bodies_eq := by rw [h.bodies_eq, List.dropWhile_map]
  newest := h.newest.sublist (List.dropWhile_sublist _)
  nested := h.nested.sublist (List.dropWhile_sublist _)

/-- A closure is newer than those whose body it stands in, and starts on no lower level. -/
theorem Keeps.cons (h : Keeps ts bodies opened) (hbalanced : Balanced ts)
    (hclosure : IsClosure ts start stop)
    (hreaches : ∀ a, a ∈ opened → Reaches ts a (start + 1)) :
    Keeps ts (level ts start :: bodies) (start :: opened) where
  bodies_eq := by rw [List.map_cons, h.bodies_eq]
  newest := List.pairwise_cons.2 ⟨fun a ha => by
    have := lt_of_reaches (hreaches a ha)
    omega, h.newest⟩
  nested := List.pairwise_cons.2 ⟨fun a ha => by
    rw [← hclosure.level_succ hbalanced]
    exact level_le_of_reaches hbalanced (hreaches a ha), h.nested⟩

/-- The open bodies start on no higher level than that of the next token. -/
theorem Among.level_le (h : Among ts i depth opened) (hbalanced : Balanced ts) :
    ∀ start ∈ opened, level ts start ≤ level ts i := fun start hmem =>
  level_le_of_reaches hbalanced ((h.reaches start).1 hmem)

/-- The bodies that reach the next token are those that this one does not end. -/
theorem Among.reaches_succ (h : Among ts i depth opened) (start : Nat) :
    Reaches ts start (i + 1) ↔ start ∈ opened ∧ ¬ EndsBody ts start i := by
  rw [Outline.reaches_succ, InBody, h.reaches]
  exact or_iff_left fun hclosure => h.outside hclosure.inParameters

/-- A parameter list starts nowhere but after a closure sign. -/
theorem Among.outside_succ (h : Among ts i depth opened)
    (hstart : kindBefore ts i = some (.symbol .atSign) → kindAt ts i ≠ some (.symbol .lparen)) :
    ¬ InParameters ts (i + 1) := by
  rw [inParameters_iff]
  rintro ⟨start, stop, hclosure, hgt, hle⟩
  rcases Nat.lt_succ_iff_lt_or_eq.1 hgt with hlt | rfl
  · exact h.outside (inParameters_iff.2 ⟨start, stop, hclosure, hlt, by omega⟩)
  · exact hstart (kindBefore_of_kindAt hclosure.sign) hclosure.opener

/-- A token that ends no body leaves all closures open. -/
theorem Among.reaches_stay (h : Among ts i depth opened) (hbalanced : Balanced ts)
    (hi : ts[i]? = some t) (hcloser : t.kind.isCloser = false) (hseparator : t.kind ∉ bodySeparators)
    (start : Nat) : start ∈ opened ↔ Reaches ts start (i + 1) := by
  rw [h.reaches_succ]
  refine (and_iff_left_of_imp fun hmem => ?_).symm
  exact not_endsBody hbalanced hi hcloser hseparator (h.level_le hbalanced start hmem)

/-- A token that neither starts nor ends a body leaves the open ones as they are. -/
theorem Among.stay (h : Among ts i depth opened) (hbalanced : Balanced ts) (hi : ts[i]? = some t)
    (hstart : kindBefore ts i = some (.symbol .atSign) → kindAt ts i ≠ some (.symbol .lparen))
    (hcloser : t.kind.isCloser = false) (hseparator : t.kind ∉ bodySeparators) :
    Among ts (i + 1) (t.kind.depthAfter depth) opened where
  outside := h.outside_succ hstart
  depth_eq := by rw [level_succ hbalanced hi, h.depth_eq]
  reaches := h.reaches_stay hbalanced hi hcloser hseparator

/-- A test that holds for the rest of a list only if it holds for its front removes exactly what
satisfies it. -/
theorem mem_dropWhile_iff {α : Type} {test : α → Bool} {l : List α} {a : α}
    (h : l.Pairwise fun a b => test b = true → test a = true) :
    a ∈ l.dropWhile test ↔ a ∈ l ∧ test a = false := by
  induction l with
  | nil => simp
  | cons b l ih =>
    rw [List.pairwise_cons] at h
    cases hb : test b with
    | true =>
      rw [List.dropWhile_cons_of_pos hb, ih h.2, List.mem_cons]
      refine and_congr_left fun ha => (or_iff_right ?_).symm
      rintro rfl
      rw [hb] at ha
      cases ha
    | false =>
      rw [List.dropWhile_cons_of_neg (by simp [hb])]
      refine (and_iff_left_of_imp fun hmem => ?_).symm
      rcases List.mem_cons.1 hmem with rfl | hmem
      · exact hb
      · by_contra ha
        have hb' := h.1 a hmem (by simpa using ha)
        rw [hb] at hb'
        cases hb'

/-- The bodies that a token ends are the innermost ones, so that a test on their levels removes them. -/
theorem Among.close (h : Among ts i depth opened) (hkeeps : Keeps ts bodies opened)
    (hbalanced : Balanced ts) (hi : ts[i]? = some t)
    (hstart : kindBefore ts i = some (.symbol .atSign) → kindAt ts i ≠ some (.symbol .lparen))
    (htest : ∀ start ∈ opened, test (level ts start) = true ↔ EndsBody ts start i) :
    Among ts (i + 1) (t.kind.depthAfter depth) (opened.dropWhile (test ∘ level ts)) := by
  have hsorted : opened.Pairwise fun a b => (test ∘ level ts) b = true → (test ∘ level ts) a = true :=
    hkeeps.nested.imp_of_mem fun {a b} ha hb hle hends =>
      (htest a ha).2 (((htest b hb).1 hends).inner hle (h.level_le hbalanced a ha))
  refine ⟨h.outside_succ hstart, by rw [level_succ hbalanced hi, h.depth_eq], fun start => ?_⟩
  rw [h.reaches_succ, mem_dropWhile_iff hsorted]
  refine and_congr_right fun hmem => ?_
  rw [← htest start hmem]
  simp

theorem inScopes_exits (before after : List Span) (bodies : List Nat)
    (h : bodies.length = before.length) (es : List Event) :
    Event.inScopes (before ++ after) ((bodies.map fun _ => .exit) ++ es) =
      Event.inScopes after es := by
  induction bodies generalizing before with
  | nil =>
    obtain rfl := List.eq_nil_of_length_eq_zero h.symm
    rfl
  | cons _ bodies ih =>
    cases before with
    | nil => cases h
    | cons span before => exact ih before (Nat.succ.inj h)

/-- The exits that are issued for bodies close their scopes. -/
theorem Keeps.inScopes_exits (h : Keeps ts bodies opened) (test : Nat → Bool) (es : List Event) :
    Event.inScopes (opened.map (spanAt ts)) ((bodies.takeWhile test).map (fun _ => .exit) ++ es) =
      Event.inScopes ((opened.dropWhile (test ∘ level ts)).map (spanAt ts)) es := by
  have hopened : opened.map (spanAt ts) = (opened.takeWhile (test ∘ level ts)).map (spanAt ts) ++
      (opened.dropWhile (test ∘ level ts)).map (spanAt ts) := by
    rw [← List.map_append, List.takeWhile_append_dropWhile]
  rw [hopened, h.bodies_eq, List.takeWhile_map]
  exact Outline.inScopes_exits _ _ _ (by simp) es

/-- Events that say what a token says, and change the open scopes with it. -/
def Says (ts : List Token) (i : Nat) (opened : List Nat) (now : List Event) (opened' : List Nat) :
    Prop :=
  ∀ es, Event.inScopes (opened.map (spanAt ts)) (now ++ es) =
    (Event.inScopes (opened'.map (spanAt ts)) es).map ((reported ts i).toList ++ ·)

/-- A token that says nothing leaves the open scopes as they are. -/
theorem says_nothing (h : said ts i = none) : Says ts i opened [] opened := fun es => by
  simp [reported, h]

/-- Only names and the signs of closures say something. -/
theorem said_eq_none (hi : ts[i]? = some t) (hname : t.kind ≠ .name)
    (hstart : kindBefore ts i = some (.symbol .atSign) → kindAt ts i ≠ some (.symbol .lparen)) :
    said ts i = none := by
  rw [said, hi, Option.bind_some]
  split
  · next hkind => exact absurd hkind hname
  · next hkind => exact if_neg fun hsign => hstart hsign (by rw [kindAt_eq hi, hkind])
  · rfl

/-- A name is read with the closures that are open after it, unless it is a field. -/
theorem says_name (hi : ts[i]? = some t) (hname : t.kind = .name) (houtside : ¬ InParameters ts i)
    (hkeeps : Keeps ts bodies opened)
    (hreaches : ∀ start, start ∈ opened ↔ Reaches ts start (i + 1))
    (hpoint : afterPoint = true ↔ kindBefore ts i = some (.symbol .dot)) :
    Says ts i opened (if afterPoint then [] else [.reference t.value t.span]) opened := by
  have hsaid : said ts i = if afterPoint then none else some (.reference t.value t.span) := by
    simp [said, hi, hname, houtside, ← hpoint]
  have haround : bodiesAround ts i = opened :=
    bodiesAround_eq hkeeps.newest hreaches (by simp [kindAt_eq hi, hname])
  intro es
  rw [reported, hsaid, haround]
  cases afterPoint with
  | true => simp
  | false => rfl

/-- A closure is entered from the closures that are open before it. -/
theorem says_enter (hi : ts[i]? = some t) (hparen : t.kind = .symbol .lparen)
    (hsign : kindBefore ts i = some (.symbol .atSign)) (hkeeps : Keeps ts bodies opened)
    (hreaches : ∀ start, start ∈ opened ↔ Reaches ts start (i + 1)) :
    Says ts i opened [.enter .closure none (spanAt ts (i - 1))] ((i - 1) :: opened) := by
  have hsaid : said ts i = some (.enter .closure none (spanAt ts (i - 1))) := by
    simp [said, hi, hparen, hsign]
  have haround : bodiesAround ts i = opened :=
    bodiesAround_eq hkeeps.newest hreaches (by simp [kindAt_eq hi, hparen])
  intro es
  rw [reported, hsaid, haround]
  rfl

/-- Closing the innermost bodies that satisfy a test closes those that a token ends, if the test says so
of the level of each open one. -/
theorem reads_closeBodies (hbalanced : Balanced ts) (hi : ts[i]? = some t)
    (hkeeps : Keeps ts s.bodies opened) (hamong : Among ts i depth opened)
    (hdepth : s.depth = t.kind.depthAfter depth) (hplace : s.place = .operand false)
    (hkind : t.kind ∈ bodySeparators ∨ t.kind.isCloser = true)
    (htest : ∀ start ∈ opened, test (level ts start) = true ↔ EndsBody ts start i) :
    ∃ opened', Reads ts (i + 1) (s.closeBodies test).1 opened' ∧
      Says ts i opened (s.closeBodies test).2 opened' := by
  have hother : ∀ kind ∈ [.symbol .dot, .symbol .atSign, .name, .symbol .lparen],
      kind ∉ bodySeparators ∧ TokenKind.isCloser kind = false := by decide
  have hne : ∀ kind ∈ [.symbol .dot, .symbol .atSign, .name, .symbol .lparen], t.kind ≠ kind := by
    rintro kind hmem rfl
    obtain ⟨hseparator, hcloser⟩ := hother _ hmem
    rcases hkind with hkind | hkind
    · exact hseparator hkind
    · rw [hcloser] at hkind
      cases hkind
  have hstart : kindBefore ts i = some (.symbol .atSign) → kindAt ts i ≠ some (.symbol .lparen) :=
    fun _ h => hne _ (by simp) (kind_eq hi h)
  have hnext := hamong.close hkeeps hbalanced hi hstart htest
  rw [← hdepth] at hnext
  refine ⟨_, ⟨hkeeps.dropWhile test, ?_⟩, fun es => ?_⟩
  · rw [ExpressionState.closeBodies, hplace]
    exact .operand hnext (by simp [kindBefore_succ hi, hne]) (by simp [kindBefore_succ hi, hne])
  · rw [ExpressionState.closeBodies, hkeeps.inScopes_exits]
    simp [reported, said_eq_none hi (hne _ (by simp)) hstart]

/-- A token among operands ends the bodies that it should, and says what it should. -/
theorem reads_operand (hbalanced : Balanced ts) (hi : ts[i]? = some t)
    (hkeeps : Keeps ts s.bodies opened) (hamong : Among ts i s.depth opened)
    (hpoint : afterPoint = true ↔ kindBefore ts i = some (.symbol .dot))
    (hstart : kindBefore ts i = some (.symbol .atSign) → kindAt ts i ≠ some (.symbol .lparen)) :
    ∃ opened', Reads ts (i + 1) (s.operand afterPoint t).1 opened' ∧
      Says ts i opened (s.operand afterPoint t).2 opened' := by
  have hdepth : t.kind.depthAfter s.depth = level ts (i + 1) := by
    rw [level_succ hbalanced hi, hamong.depth_eq]
  have hstay := hamong.stay hbalanced hi hstart
  have hbefore := kindBefore_succ hi
  have hseparator (hkind : t.kind ∈ bodySeparators) (start : Nat) (hmem : start ∈ opened) :
      (level ts start == t.kind.depthAfter s.depth) = true ↔ EndsBody ts start i := by
    rw [endsBody_separator hbalanced hi hkind (hamong.level_le hbalanced start hmem), hdepth,
      beq_iff_eq]
  unfold ExpressionState.operand
  dsimp only
  split
  · next hcloser =>
    refine reads_closeBodies hbalanced hi hkeeps hamong rfl rfl (.inr hcloser) fun start _ => ?_
    rw [endsBody_closer hi hcloser, hdepth, decide_eq_true_eq]
  · next hcloser =>
    have hcloser : t.kind.isCloser = false := by simpa using hcloser
    split
    -- The three separators close bodies by the same test.
    iterate 3
      next hkind =>
        have hkind : t.kind ∈ bodySeparators := by simp [bodySeparators, hkind]
        exact reads_closeBodies hbalanced hi hkeeps hamong rfl rfl (.inl hkind) (hseparator hkind)
    · next hkind =>
      have hnext := hstay hcloser (by simp [bodySeparators, hkind])
      have hplace := At.afterAt hnext (by rw [hbefore, hkind])
      rw [Nat.add_sub_cancel, spanAt_eq hi] at hplace
      exact ⟨opened, ⟨hkeeps, hplace⟩, says_nothing (said_eq_none hi (by simp [hkind]) hstart)⟩
    · next hkind =>
      have hnext := hstay hcloser (by simp [bodySeparators, hkind])
      exact ⟨opened, ⟨hkeeps, .operand hnext (by simp [hbefore, hkind]) (by simp [hbefore, hkind])⟩,
        says_nothing (said_eq_none hi (by simp [hkind]) hstart)⟩
    · next hkind =>
      have hnext := hstay hcloser (by simp [bodySeparators, hkind])
      exact ⟨opened, ⟨hkeeps, .operand hnext (by simp [hbefore, hkind]) (by simp [hbefore, hkind])⟩,
        says_name hi hkind hamong.outside hkeeps hnext.reaches hpoint⟩
    · next hcomma hsemicolon hnewline hsign hdot hname =>
      have hnext := hstay hcloser (by simpa [bodySeparators] using ⟨hcomma, hsemicolon, hnewline⟩)
      exact ⟨opened, ⟨hkeeps, .operand hnext (by simpa [hbefore] using hdot)
        (by simpa [hbefore] using hsign)⟩, says_nothing (said_eq_none hi hname hstart)⟩

/-- After a closure sign, a parenthesis starts a parameter list. -/
theorem reads_enter (hbalanced : Balanced ts) (hi : ts[i]? = some t)
    (hparen : t.kind = .symbol .lparen) (hsign : kindBefore ts i = some (.symbol .atSign))
    (hkeeps : Keeps ts bodies opened) (hamong : Among ts i depth opened) :
    Reads ts (i + 1) ⟨depth, depth :: bodies, .parameters⟩ ((i - 1) :: opened) ∧
      Says ts i opened [.enter .closure none (spanAt ts (i - 1))] ((i - 1) :: opened) := by
  have hkind : kindAt ts i = some (.symbol .lparen) := by rw [kindAt_eq hi, hparen]
  have hreaches : ∀ a, a ∈ opened ↔ Reaches ts a (i + 1) :=
    hamong.reaches_stay hbalanced hi (by rw [hparen]; rfl) (by simp [bodySeparators, hparen])
  refine ⟨?_, says_enter hi hparen hsign hkeeps hreaches⟩
  obtain ⟨start, rfl, hstart⟩ := exists_of_kindBefore hi hsign
  obtain ⟨stop, kind, hstop, hmatches, hcloses⟩ := hbalanced.exists_closes hkind rfl
  cases hmatches
  have hclosure : IsClosure ts start stop := ⟨hstart, hkind, hstop, hcloses⟩
  have hdepth : depth = level ts start := by rw [hamong.depth_eq, hclosure.level_succ hbalanced]
  refine ⟨?_, .parameters rfl hclosure (by omega) hcloses.lt hdepth hreaches⟩
  rw [hdepth]
  exact hkeeps.cons hbalanced hclosure fun a => (hamong.reaches a).1

/-- After a parameter list the new body is open besides those that were open before. -/
theorem IsClosure.among (h : IsClosure ts start stop) (hbalanced : Balanced ts)
    (hplain : PlainParameters ts) (hbody : ∀ a, a ∈ around ↔ InBody ts a stop) :
    Among ts (stop + 1) (level ts start) (start :: around) where
  outside := by
    rw [inParameters_iff]
    rintro ⟨start', stop', h', hgt', hle'⟩
    have hne : stop ≠ start' + 1 := by
      rintro rfl
      have hopener := h'.opener
      rw [h.closer] at hopener
      cases hopener
    obtain ⟨-, rfl⟩ := h.unique hplain h.closes.lt (Nat.le_refl stop) h' (by omega) (by omega)
    omega
  depth_eq := by rw [← h.level_succ hbalanced, h.closes.level_eq]
  reaches a := by
    rw [reaches_succ, List.mem_cons, hbody, or_comm]
    refine or_congr_right ⟨fun heq => heq ▸ h, fun h' => ?_⟩
    exact (h.unique hplain h.closes.lt (Nat.le_refl stop) h' h'.closes.lt (Nat.le_refl stop)).1

/-- In a parameter list nothing is read, and its end leaves the bodies open that were. -/
theorem reads_parameters (hbalanced : Balanced ts) (hplain : PlainParameters ts)
    (hi : ts[i]? = some t) (hkeeps : Keeps ts s.bodies (start :: around))
    (hclosure : IsClosure ts start stop) (hgt : start + 1 < i) (hle : i ≤ stop)
    (hdepth : s.depth = level ts start) (hreaches : ∀ a, a ∈ around ↔ Reaches ts a i)
    (hplace : s.place = .parameters) :
    Reads ts (i + 1) (s.step t).1 (start :: around) ∧
      Says ts i (start :: around) (s.step t).2 (start :: around) := by
  have hend := hclosure.eq_stop_iff hplain hi hgt hle
  have hbody : ∀ a, a ∈ around ↔ InBody ts a i := fun a => by
    rw [InBody, hreaches]
    refine (and_iff_left_of_imp fun h => ?_).symm
    exact hclosure.not_endsBody hbalanced hgt hle
      ((List.pairwise_cons.1 hkeeps.nested).1 a ((hreaches a).2 h))
  have hstay (hparen : t.kind ≠ .symbol .rparen) : i < stop ∧ Reads ts (i + 1) s (start :: around) := by
    have hlt : i < stop := Nat.lt_of_le_of_ne hle fun heq => hparen (hend.1 heq)
    refine ⟨hlt, hkeeps, ?_⟩
    rw [hplace]
    refine .parameters rfl hclosure (by omega) hlt hdepth fun a => ?_
    rw [reaches_succ, hbody]
    exact (or_iff_left fun h => hparen (kind_eq hi h.closer)).symm
  unfold ExpressionState.step
  simp only [hplace]
  split
  · next hparen =>
    obtain rfl : i = stop := hend.2 hparen
    have hbefore := kindBefore_succ hi
    have hnext := hclosure.among hbalanced hplain hbody
    rw [← hdepth] at hnext
    refine ⟨⟨hkeeps, .operand hnext ?_ ?_⟩, says_nothing ?_⟩
    · simp [hbefore, hparen]
    · simp [hbefore, hparen]
    · exact said_eq_none hi (by simp [hparen]) (by simp [kindAt_eq hi, hparen])
  · next hname =>
    have hinside : InParameters ts i := inParameters_iff.2 ⟨start, stop, hclosure, hgt, hle⟩
    have hsaid : said ts i = none := by simp [said, hi, hname, hinside]
    exact ⟨(hstay (by simp [hname])).2, fun es => by simp [reported, hsaid]; rfl⟩
  · next hparen hname =>
    -- An opening parenthesis would start another closure here, which the list cannot hold.
    obtain ⟨hlt, hreads⟩ := hstay hparen
    refine ⟨hreads, says_nothing (said_eq_none hi hname fun _ hopener => ?_)⟩
    exact hclosure.not_parenthesis hplain hgt hlt (.inl hopener)

/-- Every token of an expression ends the bodies that it should, and says what it should. -/
theorem reads_step (hbalanced : Balanced ts) (hplain : PlainParameters ts) (hi : ts[i]? = some t)
    (h : Reads ts i s opened) :
    ∃ opened', Reads ts (i + 1) (s.step t).1 opened' ∧ Says ts i opened (s.step t).2 opened' := by
  obtain ⟨hkeeps, hplace⟩ := h
  unfold ExpressionState.step
  generalize hat : s.place = place at hplace
  cases hplace with
  | operand hamong hpoint hsign =>
    exact reads_operand hbalanced hi hkeeps hamong hpoint fun h => absurd h hsign
  | afterAt hamong hsign =>
    have hbefore := kindBefore_succ hi
    have hpoint : false = true ↔ kindBefore ts i = some (.symbol .dot) := by simp [hsign]
    dsimp only
    split
    · next hparen => exact ⟨_, reads_enter hbalanced hi hparen hsign hkeeps hamong⟩
    · next hname =>
      have hnext := hamong.stay hbalanced hi (by simp [kindAt_eq hi, hname]) (by rw [hname]; rfl)
        (by simp [bodySeparators, hname])
      have htold := says_name hi hname hamong.outside hkeeps hnext.reaches hpoint
      rw [hname] at hnext
      exact ⟨opened, ⟨hkeeps, .operand hnext (by simp [hbefore, hname]) (by simp [hbefore, hname])⟩,
        htold⟩
    · next hparen _ =>
      exact reads_operand hbalanced hi hkeeps hamong hpoint fun _ h => hparen (kind_eq hi h)
  | @parameters start stop around hopened hclosure hgt hle hdepth hreaches =>
    subst hopened
    have hreads := reads_parameters hbalanced hplain hi hkeeps hclosure hgt hle hdepth hreaches hat
    rw [ExpressionState.step, hat] at hreads
    exact ⟨start :: around, hreads⟩

/-- The events of the remaining tokens of an expression say what these tokens say. -/
theorem inScopes_events (hbalanced : Balanced ts) (hplain : PlainParameters ts) (n : Nat)
    (hlength : i + n = ts.length) (h : Reads ts i s opened) :
    Event.inScopes (opened.map (spanAt ts)) (s.events (ts.drop i)) =
      some ((List.range' i n).filterMap (reported ts)) := by
  induction n generalizing i s opened with
  | zero =>
    -- The end of the expression closes what is still open.
    have hexits := inScopes_exits (opened.map (spanAt ts)) [] s.bodies
      (by rw [h.keeps.bodies_eq, List.length_map, List.length_map]) []
    rw [List.append_nil, List.append_nil] at hexits
    rw [List.drop_of_length_le (by omega), ExpressionState.events, hexits]
    rfl
  | succ n ih =>
    obtain ⟨t, hi⟩ : ∃ t, ts[i]? = some t := ⟨ts[i], List.getElem?_eq_getElem (by omega)⟩
    obtain ⟨opened', hreads, htold⟩ := reads_step hbalanced hplain hi h
    have hdrop : ts.drop i = t :: ts.drop (i + 1) := by
      rw [List.drop_eq_getElem?_toList_append, hi]
      rfl
    rw [hdrop]
    change Event.inScopes _ ((s.step t).2 ++ (s.step t).1.events _) = _
    rw [htold, ih (by omega) hreads, Option.map_some, List.range'_succ, List.filterMap_cons]
    cases reported ts i <;> rfl

/-- Where brackets are balanced and parameter lists have no parentheses inside, every name is read in
the scopes of exactly those closures whose body it belongs to, and every closure is entered in the
scopes of those whose body it belongs to. All scopes are closed in the end. -/
theorem inScopes_expression (hbalanced : Balanced ts) (hplain : PlainParameters ts) :
    Event.inScopes [] (expression ts) = some ((List.range ts.length).filterMap (reported ts)) := by
  have hstart : Reads ts 0 .start [] := by
    refine ⟨⟨rfl, .nil, .nil⟩, .operand ⟨?_, (level_zero ts).symm, fun start => ?_⟩ ?_ ?_⟩
    · rintro ⟨_, hlt, -⟩
      cases hlt
    · refine iff_of_false List.not_mem_nil fun ⟨_, hlt, _⟩ => ?_
      cases hlt
    · simp [kindBefore]
    · simp [kindBefore]
  have h := inScopes_events hbalanced hplain ts.length (Nat.zero_add _) hstart
  rwa [List.drop_zero, ← List.range_eq_range'] at h

/-- The tokens of `@(x) [x, @(y) y], z`. -/
def nestedClosures : List Token :=
  [⟨.symbol .atSign, ⟨0, 1⟩, "@"⟩, ⟨.symbol .lparen, ⟨1, 2⟩, "("⟩, ⟨.name, ⟨2, 3⟩, "x"⟩,
    ⟨.symbol .rparen, ⟨3, 4⟩, ")"⟩, ⟨.symbol .lbracket, ⟨5, 6⟩, "["⟩, ⟨.name, ⟨6, 7⟩, "x"⟩,
    ⟨.symbol .comma, ⟨7, 8⟩, ","⟩, ⟨.symbol .atSign, ⟨9, 10⟩, "@"⟩, ⟨.symbol .lparen, ⟨10, 11⟩, "("⟩,
    ⟨.name, ⟨11, 12⟩, "y"⟩, ⟨.symbol .rparen, ⟨12, 13⟩, ")"⟩, ⟨.name, ⟨14, 15⟩, "y"⟩,
    ⟨.symbol .rbracket, ⟨15, 16⟩, "]"⟩, ⟨.symbol .comma, ⟨16, 17⟩, ","⟩, ⟨.name, ⟨18, 19⟩, "z"⟩]

/-- A comma ends the bodies on its own level only, and a bracket those inside it. -/
theorem inScopes_nestedClosures :
    Balanced nestedClosures ∧ PlainParameters nestedClosures ∧
      Event.inScopes [] (expression nestedClosures) =
        some ((List.range nestedClosures.length).filterMap (reported nestedClosures)) ∧
      (List.range nestedClosures.length).filterMap (reported nestedClosures) =
        [(.enter .closure none ⟨0, 1⟩, []), (.reference "x" ⟨6, 7⟩, [⟨0, 1⟩]),
          (.enter .closure none ⟨9, 10⟩, [⟨0, 1⟩]), (.reference "y" ⟨14, 15⟩, [⟨9, 10⟩, ⟨0, 1⟩]),
          (.reference "z" ⟨18, 19⟩, [])] := by
  have hbalanced : Balanced nestedClosures :=
    have hx : Balanced [⟨.name, ⟨2, 3⟩, "x"⟩] := .token rfl rfl .nil
    have hy : Balanced [⟨.name, ⟨11, 12⟩, "y"⟩] := .token rfl rfl .nil
    have hinner : Balanced [⟨.name, ⟨6, 7⟩, "x"⟩, ⟨.symbol .comma, ⟨7, 8⟩, ","⟩,
        ⟨.symbol .atSign, ⟨9, 10⟩, "@"⟩, ⟨.symbol .lparen, ⟨10, 11⟩, "("⟩, ⟨.name, ⟨11, 12⟩, "y"⟩,
        ⟨.symbol .rparen, ⟨12, 13⟩, ")"⟩, ⟨.name, ⟨14, 15⟩, "y"⟩] :=
      .token rfl rfl (.token rfl rfl (.token rfl rfl (.brackets .paren hy (.token rfl rfl .nil))))
    have htail : Balanced [⟨.symbol .comma, ⟨16, 17⟩, ","⟩, ⟨.name, ⟨18, 19⟩, "z"⟩] :=
      .token rfl rfl (.token rfl rfl .nil)
    .token rfl rfl (.brackets .paren hx (.brackets .bracket hinner htail))
  have hplain : PlainParameters nestedClosures := by decide
  exact ⟨hbalanced, hplain, inScopes_expression hbalanced hplain, by decide⟩

end Outline

end ScriptBuild
