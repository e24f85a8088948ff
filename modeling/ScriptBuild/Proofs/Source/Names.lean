import ScriptBuild.Proofs.Source.Nesting
import ScriptBuild.Proofs.Source.Tiling
import Mathlib.Data.List.Basic
import Mathlib.Data.List.Infix
import Mathlib.Data.List.Nodup

namespace ScriptBuild

/-- Whether an event declares or refers to what covers a span. -/
def Event.mentions (span : Span) : Event → Bool
  | declare _ _ s | reference _ s => s == span
  | _ => false

/-- Whether a statement that starts with a token of this kind may hold an expression of its own. After
the other words there is a list of names, or another statement. -/
def TokenKind.readsExpression : TokenKind → Bool
  | keyword .function | keyword .globalVar | keyword .persistentVar | keyword .elseThen
  | keyword .otherwise | keyword .tryBlock | keyword .catchBlock => false
  | _ => true

namespace Outline

variable {events events' : List Event} {names names' ts us : List Token} {left left' : Token → Prop}
  {e : Event} {t first : Token} {blocks : List Block}

/-- A token stands directly after a point. -/
def AfterPoint (t : Token) (tokens : List Token) : Prop :=
  ∃ dot, dot.kind = .symbol .dot ∧ [dot, t] <:+: tokens

/-- What follows the outputs in a function header. -/
def signature (header : List Token) : List Token :=
  ((splitAssignment 0 header).getD ([], header)).2

/-- The parts of a dotted name after its first one. -/
def laterParts : List Token → List Token
  | dot :: part :: rest =>
    if dot.kind == .symbol .dot && part.isName then part :: laterParts rest else []
  | _ => []

/-- A name in a statement that may go unreported. `blocks` are open before the statement. This is
    said of the statement and of the blocks around it, and not of the pieces into which it is
    cut. -/
inductive Unreported : List Block → List Token → Token → Prop where
  /-- In a section of a class that holds no code. -/
  | data {blocks : List Block} {tokens : List Token} {t : Token} (ht : t ∈ tokens) :
      Unreported (.data :: blocks) tokens t
  /-- In another statement of a class that starts with a name. -/
  | classLevel {blocks : List Block} {first t : Token} {rest : List Token}
      (hfirst : first.kind = .name) (ht : t ∈ first :: rest) :
      Unreported (.classBody :: blocks) (first :: rest) t
  /-- In a class header, before the superclasses. -/
  | classHeader {blocks : List Block} {first t : Token} {rest : List Token}
      (hfirst : first.kind = .keyword .classdef) (ht : t ∈ rest.takeWhile (·.kind != .symbol .lt)) :
      Unreported blocks (first :: rest) t
  /-- Behind a word that is a whole statement. -/
  | behind {blocks : List Block} {first t : Token} {rest : List Token} {word : Keyword}
      (hword : word ∈ [.endBlock, .returnNow, .breakLoop, .continueLoop])
      (hfirst : first.kind = .keyword word) (ht : t ∈ rest) : Unreported blocks (first :: rest) t
  /-- An argument of a command. -/
  | argument {blocks : List Block} {tokens : List Token} {t : Token} (hcommand : isCommand tokens = true)
      (ht : t ∈ tokens.tail) : Unreported blocks tokens t
  /-- A field. -/
  | field {blocks : List Block} {first t : Token} {rest : List Token}
      (hfirst : first.kind.readsExpression = true) (ht : AfterPoint t (first :: rest)) :
      Unreported blocks (first :: rest) t
  /-- A later part of the name of a function. -/
  | namePart {blocks : List Block} {first name t : Token} {rest parts : List Token}
      (hfirst : first.kind = .keyword .function) (hname : signature rest = name :: parts)
      (ht : t ∈ laterParts parts) : Unreported blocks (first :: rest) t
  /-- In a function header without a name. -/
  | nameless {blocks : List Block} {first t : Token} {rest : List Token}
      (hfirst : first.kind = .keyword .function)
      (hname : ∀ name ∈ (signature rest).head?, name.isName = false) (ht : t ∈ rest) :
      Unreported blocks (first :: rest) t
  /-- In the statement that follows a word on the same line. -/
  | otherwise {blocks : List Block} {first t : Token} {rest : List Token} {word : Keyword}
      (hword : word ∈ [.elseThen, .otherwise]) (hfirst : first.kind = .keyword word)
      (h : Unreported blocks rest t) : Unreported blocks (first :: rest) t
  | catchBlock {blocks : List Block} {first t : Token} {rest : List Token}
      (hfirst : first.kind = .keyword .catchBlock) (hcaught : caughtName? rest = none)
      (h : Unreported blocks rest t) : Unreported blocks (first :: rest) t
  | tryBlock {blocks : List Block} {first t : Token} {rest : List Token}
      (hfirst : first.kind = .keyword .tryBlock) (h : Unreported (.control :: blocks) rest t) :
      Unreported blocks (first :: rest) t

/-- A token after a point in some tokens is so in all tokens around them. -/
theorem AfterPoint.mono (h : AfterPoint t ts) (hwithin : ts <:+: us) : AfterPoint t us := by
  obtain ⟨dot, hdot, hpair⟩ := h
  exact ⟨dot, hdot, hpair.trans hwithin⟩

theorem AfterPoint.cons (h : AfterPoint t ts) : AfterPoint t (first :: ts) :=
  h.mono (List.suffix_cons first ts).isInfix

/-- The events mention no name more often than it is there, and all names but those that may be left
    out. Every piece of a statement is cut out of its tokens, and what is cut away holds no names,
    so that the names of the pieces are the names of the statement. -/
structure Mentions (events : List Event) (names : List Token) (left : Token → Prop) : Prop where
  once : ∀ span, events.countP (·.mentions span) ≤ names.countP (·.span == span)
  all : ∀ t ∈ names, ¬ left t → ∃ e ∈ events, e.mentions t.span = true

namespace Mentions

theorem append (h : Mentions events names left) (h' : Mentions events' names' left) :
    Mentions (events ++ events') (names ++ names') left where
  once span := by
    rw [List.countP_append, List.countP_append]
    exact Nat.add_le_add (h.once span) (h'.once span)
  all t ht hleft := by
    rcases List.mem_append.1 ht with ht | ht
    · obtain ⟨e, he, hmentions⟩ := h.all t ht hleft
      exact ⟨e, List.mem_append_left _ he, hmentions⟩
    · obtain ⟨e, he, hmentions⟩ := h'.all t ht hleft
      exact ⟨e, List.mem_append_right _ he, hmentions⟩

theorem mono (h : Mentions events names left) (hleft : ∀ t ∈ names, left t → left' t) :
    Mentions events names left' :=
  ⟨h.once, fun t ht hnot => h.all t ht (mt (hleft t ht) hnot)⟩

theorem single (hevent : ∀ span, e.mentions span = (t.span == span)) : Mentions [e] [t] left where
  once span := by simp [hevent]
  all u hu _ := by
    obtain rfl := List.mem_singleton.1 hu
    exact ⟨e, List.mem_singleton_self e, by rw [hevent, beq_self_eq_true]⟩

end Mentions

namespace ExpressionState

variable {s : ExpressionState}

/-- The place after a point is reached by a point only. -/
theorem place_operand {afterPoint : Bool} (h : (s.operand afterPoint t).1.place = .operand true) :
    t.kind = .symbol .dot := by
  unfold operand closeBodies at h
  dsimp only at h
  split at h
  · simp at h
  · split at h
    all_goals first | assumption | simp at h

/-- Only a point leads to where names are fields. -/
theorem place_step (h : (s.step t).1.place = .operand true) : t.kind = .symbol .dot := by
  unfold step at h
  split at h
  · exact place_operand h
  · split at h
    · simp at h
    · simp at h
    · exact place_operand h
  · next hplace => split at h <;> simp [hplace] at h

/-- Directly after a point, which may be the last token before these. -/
def AtField (s : ExpressionState) (ts : List Token) (t : Token) : Prop :=
  AfterPoint t ts ∨ s.place = .operand true ∧ ts.head? = some t

/-- A name after a point further on is so with a token more at the front. -/
theorem AtField.cons {u : Token} (h : (s.step t).1.AtField ts u) : s.AtField (t :: ts) u := by
  rcases h with hpoint | ⟨hplace, hhead⟩
  · exact .inl hpoint.cons
  · obtain ⟨rest, rfl⟩ := List.head?_eq_some_iff.1 hhead
    exact .inl ⟨t, place_step hplace, (List.prefix_append [t, u] rest).isInfix⟩

end ExpressionState

/-- The names of a statement that starts with a word are those after it. -/
theorem Mentions.led {word : Keyword} (h : Mentions events (ts.filter Token.isName) left)
    (hfirst : first.kind = .keyword word) (hleft : ∀ t ∈ ts, left t → Unreported blocks (first :: ts) t) :
    Mentions events ((first :: ts).filter Token.isName) (Unreported blocks (first :: ts)) := by
  rw [List.filter_cons_of_neg (by simp [Token.isName, hfirst])]
  exact h.mono fun t ht => hleft t (List.mem_of_mem_filter ht)

/-- A word, and after it what leaves out only fields. -/
theorem Mentions.reads {word : Keyword}
    (h : Mentions events (ts.filter Token.isName) (AfterPoint · ts)) (hfirst : first.kind = .keyword word)
    (hreads : (TokenKind.keyword word).readsExpression = true) :
    Mentions events ((first :: ts).filter Token.isName) (Unreported blocks (first :: ts)) :=
  h.led hfirst fun _ _ hpoint => .field (by rw [hfirst, hreads]) hpoint.cons

/-- A word, and after it a list of names. -/
theorem Mentions.lists {word : Keyword}
    (h : Mentions events (ts.filter Token.isName) fun _ => False) (hfirst : first.kind = .keyword word) :
    Mentions events ((first :: ts).filter Token.isName) (Unreported blocks (first :: ts)) :=
  h.led hfirst fun _ _ => False.elim

end Outline

namespace Token

end Token

end ScriptBuild
