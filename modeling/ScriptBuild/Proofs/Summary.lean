import ScriptBuild.Summary
import ScriptBuild.Proofs.Scope
import Mathlib.Data.List.Induction

namespace ScriptBuild

/-- The scopes that some events leave open inside the body, innermost first, and how many were
    opened at all. Scopes are numbered in the order in which they are opened, the body itself having
    number 0. -/
structure Nesting where
  opened : Nat
  inside : List (Nat × ScopeKind)

namespace Nesting

/-- One event opens a scope, closes the innermost one if there is any, or leaves all as it is. -/
def step (k : Nesting) : Event → Nesting
  | .enter kind _ _ => ⟨k.opened + 1, (k.opened + 1, kind) :: k.inside⟩
  | .exit => { k with inside := k.inside.tail }
  | .declare .. | .reference .. => k

/-- What some events leave open. -/
def after (events : List Event) : Nesting := events.foldl step ⟨0, []⟩

/-- The innermost open scope, which is the body if there is none inside. -/
def innermost : List (Nat × ScopeKind) → Nat
  | [] => 0
  | (scope, _) :: _ => scope

theorem innermost_cons (x : Nat × ScopeKind) (outer : List (Nat × ScopeKind)) :
    innermost (x :: outer) = x.1 := rfl

/-- The scope that is read. -/
def current (k : Nesting) : Nat := innermost k.inside

/-- The scopes in which a nested function is looked for, innermost first: all that are open. -/
def around (k : Nesting) : List Nat := k.inside.map (·.1) ++ [0]

/-- The scopes in which a variable is looked for, innermost first: all that are open, but for the
body inside of a top-level function. -/
def visible (k : Nesting) : List Nat :=
  if k.inside.getLast?.any (·.2 == .function) then k.inside.map (·.1) else k.around

end Nesting

namespace Event

/-- A name is declared in a scope. -/
def Declares (events : List Event) (declaration : Declaration) (name : String) (scope : Nat) :
    Prop :=
  ∃ before span after, events = before ++ .declare declaration name span :: after ∧
    (Nesting.after before).current = scope

/-- A variable is declared in a scope. -/
def DeclaresVariable (events : List Event) (name : String) (scope : Nat) : Prop :=
  ∃ declaration, declaration ≠ .function ∧ Declares events declaration name scope

/-- A function is declared in a scope inside the body. -/
def DeclaresNested (events : List Event) (name : String) (scope : Nat) : Prop :=
  scope ≠ 0 ∧ Declares events .function name scope

/-- Some reference to a name is bound by nothing in the body: no variable of that name was declared
    before it where it can be seen, and no nested function is declared around it at all. A variable
    binds a name for the references that come after its declaration, in its scope and in those
    inside; a nested function binds its name for all references there. Nothing that a top-level
    function refers to is a variable of the body. -/
def RefersOutside (events : List Event) (name : String) : Prop :=
  ∃ before span after, events = before ++ .reference name span :: after ∧
    (∀ scope ∈ (Nesting.after before).visible, ¬ DeclaresVariable before name scope) ∧
    ∀ scope ∈ (Nesting.after before).around, ¬ DeclaresNested events name scope

/-- Only functions and closures are entered. -/
def EntersInside (events : List Event) : Prop :=
  ∀ kind name span, .enter kind name span ∈ events → kind ≠ .unit

variable {events before after : List Event} {e : Event} {name : String} {scope : Nat}
  {declaration : Declaration} {span : Span}

theorem declares_nil : ¬ Declares [] declaration name scope := by
  rintro ⟨before, span, after, h, -⟩
  cases before <;> cases h

theorem declares_concat : Declares (events ++ [e]) declaration name scope ↔
    Declares events declaration name scope ∨
      (∃ span, e = .declare declaration name span) ∧ (Nesting.after events).current = scope := by
  constructor
  · rintro ⟨before, span, after, h, hscope⟩
    rcases concat_eq_append_cons.1 h with ⟨-, rfl, he⟩ | ⟨rest, -, hevents⟩
    · exact .inr ⟨⟨span, he⟩, hscope⟩
    · exact .inl ⟨before, span, rest, hevents, hscope⟩
  · rintro (⟨before, span, after, rfl, hscope⟩ | ⟨⟨span, rfl⟩, hscope⟩)
    · exact ⟨before, span, after ++ [e], by simp, hscope⟩
    · exact ⟨events, span, [], rfl, hscope⟩

theorem Declares.append (h : Declares before declaration name scope) :
    Declares (before ++ after) declaration name scope := by
  obtain ⟨first, span, rest, rfl, hscope⟩ := h
  exact ⟨first, span, rest ++ after, by simp, hscope⟩

/-- A nested function that was declared stays declared. -/
theorem declaresNested_append (h : DeclaresNested before name scope) :
    DeclaresNested (before ++ after) name scope := ⟨h.1, h.2.append⟩

end Event

namespace Nesting

variable {events before rest : List Event} {e : Event} {k : Nesting}

@[simp] theorem after_concat : after (events ++ [e]) = (after events).step e := by
  simp [after, List.foldl_append]

theorem length_inside_le_opened (events : List Event) :
    (after events).inside.length ≤ (after events).opened := by
  induction events using List.reverseRecOn with
  | nil => exact Nat.le_refl 0
  | append_singleton events e ih =>
    rw [after_concat]
    cases e with
    | enter kind name span => simpa [step] using ih
    | exit =>
      simp only [step, List.length_tail]
      omega
    | declare declaration name span => exact ih
    | reference name span => exact ih

theorem opened_le_append (before rest : List Event) :
    (after before).opened ≤ (after (before ++ rest)).opened := by
  induction rest using List.reverseRecOn with
  | nil => simp
  | append_singleton rest e ih =>
    rw [← List.append_assoc, after_concat]
    cases e with
    | enter kind name span =>
      simp only [step]
      omega
    | exit => exact ih
    | declare declaration name span => exact ih
    | reference name span => exact ih

theorem mem_kinds (hinside : Event.EntersInside events) :
    ∀ x ∈ (after events).inside, x.2 ≠ .unit := by
  induction events using List.reverseRecOn with
  | nil =>
    intro x hx
    cases hx
  | append_singleton events e ih =>
    have hbefore : Event.EntersInside events := fun kind name span hmem =>
      hinside kind name span (List.mem_append_left _ hmem)
    rw [after_concat]
    cases e with
    | enter kind name span =>
      intro x hx
      rcases List.mem_cons.1 hx with rfl | hx
      · exact hinside kind name span (List.mem_append_right _ List.mem_cons_self)
      · exact ih hbefore x hx
    | exit => exact fun x hx => ih hbefore x (List.mem_of_mem_tail hx)
    | declare declaration name span => exact ih hbefore
    | reference name span => exact ih hbefore

/-- The scopes that are seen from the innermost of some open ones. -/
theorem visible_eq (k : Nesting) : k.visible =
    k.inside.map (·.1) ++ (if k.inside.getLast?.any (·.2 == .function) then [] else [0]) := by
  rw [visible, around]
  split <;> simp

/-- Variables are looked for in scopes in which nested functions are looked for as well. -/
theorem mem_around_of_mem_visible {scope : Nat} (h : scope ∈ k.visible) : scope ∈ k.around := by
  rw [visible] at h
  split at h
  · exact List.mem_append_left _ h
  · exact h

end Nesting

namespace ScopeTree

variable {t t' : ScopeTree} {inside : List (Nat × ScopeKind)} {fuel scope a : Nat} {name : String}

/-- Scope 0 is the body. -/
def Rooted (t : ScopeTree) : Prop :=
  ∃ s : Scope, t.scopes[0]? = some s ∧ s.kind = .unit ∧ s.parent = none

/-- Every scope of a list is in the one that follows, and the last one is in the body. -/
def Chained (t : ScopeTree) : List (Nat × ScopeKind) → Prop
  | [] => True
  | (scope, kind) :: outer =>
    (∃ s : Scope, t.scopes[scope]? = some s ∧ s.kind = kind ∧ s.parent = some (Nesting.innermost outer)) ∧
      t.Chained outer

theorem Rooted.mono (h : t.Rooted) (hkeeps : t.Keeps t') : t'.Rooted := by
  obtain ⟨s, hs, hkind, hparent⟩ := h
  obtain ⟨s', hs', hkind', hparent'⟩ := hkeeps 0 s hs
  exact ⟨s', hs', hkind'.trans hkind, hparent'.trans hparent⟩

theorem Chained.mono (h : t.Chained inside) (hkeeps : t.Keeps t') : t'.Chained inside := by
  induction inside with
  | nil => trivial
  | cons x outer ih =>
    obtain ⟨⟨s, hs, hkind, hparent⟩, houter⟩ := h
    obtain ⟨s', hs', hkind', hparent'⟩ := hkeeps _ s hs
    exact ⟨⟨s', hs', hkind'.trans hkind, hparent'.trans hparent⟩, ih houter⟩

/-- The scopes around the innermost one are the open ones. -/
theorem enclosing_of_chained (hrooted : t.Rooted) (h : t.Chained inside)
    (hfuel : inside.length ≤ fuel) :
    Nesting.innermost inside :: chain t.parentOf fuel (Nesting.innermost inside) =
      inside.map (·.1) ++ [0] := by
  induction inside generalizing fuel with
  | nil =>
    obtain ⟨s, hs, -, hparent⟩ := hrooted
    have hnone : t.parentOf 0 = none := by rw [parentOf, hs, Option.bind_some, hparent]
    cases fuel with
    | zero => rfl
    | succ fuel => simp [Nesting.innermost, chain, hnone]
  | cons x outer ih =>
    obtain ⟨⟨s, hs, -, hparent⟩, houter⟩ := h
    cases fuel with
    | zero => cases hfuel
    | succ fuel =>
      have hnext : t.parentOf x.1 = some (Nesting.innermost outer) := by
        rw [parentOf, hs, Option.bind_some, hparent]
      have hrest := ih houter (Nat.le_of_succ_le_succ hfuel)
      rw [Nesting.innermost_cons, chain, hnext, List.map_cons, List.cons_append]
      exact congrArg (x.1 :: ·) hrest

/-- The scopes that are visible from the innermost one are the open ones, but for the body inside of
a top-level function. -/
theorem visible_of_chained (hrooted : t.Rooted) (h : t.Chained inside)
    (hkinds : ∀ x ∈ inside, x.2 ≠ .unit) (hfuel : inside.length ≤ fuel) :
    Nesting.innermost inside :: chain t.visibleParent fuel (Nesting.innermost inside) =
      inside.map (·.1) ++ (if inside.getLast?.any (·.2 == .function) then [] else [0]) := by
  obtain ⟨root, hroot, hunit, hnone⟩ := hrooted
  induction inside generalizing fuel with
  | nil =>
    have hparent : t.visibleParent 0 = none := by simp [visibleParent, parentOf, hroot, hnone]
    cases fuel with
    | zero => rfl
    | succ fuel => simp [Nesting.innermost, chain, hparent]
  | cons x outer ih =>
    obtain ⟨⟨s, hs, hkind, hparent⟩, houter⟩ := h
    cases fuel with
    | zero => cases hfuel
    | succ fuel =>
      have hrest := ih houter (fun y hy => hkinds y (List.mem_cons_of_mem _ hy))
        (Nat.le_of_succ_le_succ hfuel)
      rw [Nesting.innermost_cons, chain]
      cases outer with
      | nil =>
        -- The body is around the scope, and visible unless the scope is a function.
        cases hfunction : x.2 == .function with
        | true =>
          have hnext : t.visibleParent x.1 = none := by
            simp [visibleParent, parentOf, hasKind, hs, hparent, Nesting.innermost, hroot, hunit,
              hkind, hfunction]
          simp [hnext, hfunction]
        | false =>
          have hnext : t.visibleParent x.1 = some 0 := by
            simp [visibleParent, parentOf, hasKind, hs, hparent, Nesting.innermost, hkind,
              hfunction]
          rw [hnext]
          refine (congrArg (x.1 :: ·) hrest).trans ?_
          simp [hfunction]
      | cons y outer =>
        obtain ⟨⟨s', hs', hkind', -⟩, -⟩ := houter
        have hinside : y.2 ≠ .unit := hkinds y (List.mem_cons_of_mem _ List.mem_cons_self)
        have hnext : t.visibleParent x.1 = some y.1 := by
          simp [visibleParent, parentOf, hasKind, hs, hparent, Nesting.innermost, hs', hkind',
            hinside]
        rw [hnext]
        refine (congrArg (x.1 :: ·) hrest).trans ?_
        simp

end ScopeTree

namespace Event

variable {events before rest : List Event} {e : Event} {name : String} {span : Span} {scope a : Nat}

/-- A scope binds a name, going by some events. -/
def Owned (events : List Event) (name : String) (scope : Nat) : Prop :=
  DeclaresVariable events name scope ∨ DeclaresNested events name scope

/-- A reference in a scope is bound by nothing that was declared before it. -/
def Waits (events : List Event) (name : String) (span : Span) (scope : Nat) : Prop :=
  ∃ before after, events = before ++ .reference name span :: after ∧
    (Nesting.after before).current = scope ∧
    ∀ a ∈ (Nesting.after before).visible, ¬ Owned before name a

/-- What a scope binds it binds after more events. -/
theorem owned_append (h : Owned before name scope) : Owned (before ++ rest) name scope := by
  rcases h with ⟨declaration, hvariable, hdeclares⟩ | hnested
  · exact .inl ⟨declaration, hvariable, hdeclares.append⟩
  · exact .inr (declaresNested_append hnested)

theorem waits_nil : ¬ Waits [] name span scope := by
  rintro ⟨before, after, h, -⟩
  cases before <;> cases h

/-- The last event is a reference that waits, or one before it is. -/
theorem waits_concat : Waits (events ++ [e]) name span scope ↔ Waits events name span scope ∨
    (e = .reference name span ∧ (Nesting.after events).current = scope ∧
      ∀ a ∈ (Nesting.after events).visible, ¬ Owned events name a) := by
  constructor
  · rintro ⟨before, after, h, hwaits⟩
    rcases concat_eq_append_cons.1 h with ⟨-, rfl, he⟩ | ⟨rest, -, hevents⟩
    · exact .inr ⟨he, hwaits⟩
    · exact .inl ⟨before, rest, hevents, hwaits⟩
  · rintro (⟨before, after, rfl, hwaits⟩ | ⟨rfl, hwaits⟩)
    · exact ⟨before, after ++ [e], by simp, hwaits⟩
    · exact ⟨events, [], rfl, hwaits⟩

/-- An event that declares nothing leaves all declarations as they are. -/
theorem declares_concat_of_ne {declaration : Declaration}
    (h : ∀ declaration name span, e ≠ .declare declaration name span) :
    Declares (events ++ [e]) declaration name scope ↔ Declares events declaration name scope := by
  rw [declares_concat, or_iff_left]
  rintro ⟨⟨span, he⟩, -⟩
  exact h declaration name span he

theorem owned_concat_of_ne (h : ∀ declaration name span, e ≠ .declare declaration name span) :
    Owned (events ++ [e]) name scope ↔ Owned events name scope := by
  simp only [Owned, DeclaresVariable, DeclaresNested, declares_concat_of_ne h]

end Event

namespace Summary.Progress

open Event

variable {events before rest : List Event} {s : Progress} {e : Event} {name n : String} {span : Span}
  {scope a : Nat} {t : ScopeTree}

/-- Some events have been read. The tree of scopes that is kept, in which captured names are
    remembered, and the stack of open scopes agree with what the events say. -/
structure Reads (events : List Event) (s : Progress) : Prop where
  rooted : s.tree.Rooted
  size : s.tree.size = (Nesting.after events).opened + 1
  stack : s.stack = (Nesting.after events).inside.map (·.1)
  chained : ∀ before rest, events = before ++ rest → s.tree.Chained (Nesting.after before).inside
  nests : ∀ name scope, s.tree.nests name scope ↔ DeclaresNested events name scope
  owns : ∀ name scope, s.tree.owns name scope ↔ Owned events name scope
  inherits : ∀ name scope, s.tree.inherits name scope →
    ∃ before rest, events = before ++ rest ∧ (Nesting.after before).current = scope ∧
      ∃ owner ∈ (Nesting.after before).visible, Owned events name owner
  slots : ∀ name, name ∈ s.slots ↔ Declares events .function name 0
  globals : ∀ name, name ∈ s.globals ↔ ∃ scope, Declares events .global name scope
  pending : ∀ name span scope, (name, span, scope) ∈ s.pending ↔ Waits events name span scope

theorem reads_start : Reads [] start where
  rooted := ⟨_, rfl, rfl, rfl⟩
  size := rfl
  stack := rfl
  chained before rest h := by
    obtain ⟨rfl, -⟩ := List.append_eq_nil_iff.1 h.symm
    trivial
  nests name scope := by
    refine iff_of_false ?_ fun h => declares_nil h.2
    simp only [ScopeTree.nests, start, ScopeTree.new]
    cases scope <;> simp [Scope.new]
  owns name scope := by
    refine iff_of_false ?_ ?_
    · simp only [ScopeTree.owns, start, ScopeTree.new]
      cases scope <;> simp [Scope.new, Scope.owns]
    · rintro (⟨declaration, -, h⟩ | h)
      · exact declares_nil h
      · exact declares_nil h.2
  inherits name scope h := by
    simp only [ScopeTree.inherits, start, ScopeTree.new] at h
    cases scope <;> simp [Scope.new] at h
  slots name := iff_of_false List.not_mem_nil declares_nil
  globals name := iff_of_false List.not_mem_nil fun ⟨_, h⟩ => declares_nil h
  pending name span scope := iff_of_false List.not_mem_nil waits_nil

namespace Reads

/-- The scope that is read is the innermost open one. -/
theorem current (h : Reads events s) : s.current = (Nesting.after events).current := by
  rw [Progress.current, h.stack, Nesting.current]
  cases (Nesting.after events).inside with
  | nil => rfl
  | cons x outer => rfl

/-- As many scopes as were open at any time are in the tree. -/
theorem length_le (h : Reads events s) (hevents : events = before ++ rest) :
    (Nesting.after before).inside.length ≤ s.tree.size := by
  have hopened := Nesting.opened_le_append before rest
  have hlength := Nesting.length_inside_le_opened before
  rw [h.size, hevents]
  omega

/-- The scopes around the one that was read after some of the events are those that were open. -/
theorem around (h : Reads events s) (hevents : events = before ++ rest) :
    (Nesting.after before).current :: s.tree.enclosing (Nesting.after before).current =
      (Nesting.after before).around :=
  ScopeTree.enclosing_of_chained h.rooted (h.chained before rest hevents) (h.length_le hevents)

/-- The scopes that are seen in the tree are those that the events leave visible. -/
theorem visible (h : Reads events s) (hinside : EntersInside events)
    (hevents : events = before ++ rest) :
    (Nesting.after before).current :: s.tree.visible (Nesting.after before).current =
      (Nesting.after before).visible := by
  have hbefore : EntersInside before := by
    intro kind name span hmem
    exact hinside kind name span (hevents ▸ List.mem_append_left _ hmem)
  rw [Nesting.visible_eq]
  exact ScopeTree.visible_of_chained h.rooted (h.chained before rest hevents)
    (Nesting.mem_kinds hbefore) (h.length_le hevents)

/-- The scope that is read is in the tree. -/
theorem current_lt_size (h : Reads events s) : (Nesting.after events).current < s.tree.size := by
  have hchained := h.chained events [] (List.append_nil events).symm
  rw [Nesting.current]
  cases hinside : (Nesting.after events).inside with
  | nil =>
    rw [h.size]
    exact Nat.succ_pos _
  | cons x outer =>
    rw [hinside] at hchained
    obtain ⟨⟨scope, hscope, -⟩, -⟩ := hchained
    obtain ⟨hlt, -⟩ := Array.getElem?_eq_some_iff.1 hscope
    exact hlt

theorem chained_concat (h : Reads events s) (hkeeps : s.tree.Keeps t)
    (hlast : t.Chained (Nesting.after (events ++ [e])).inside) (before rest : List Event)
    (hevents : events ++ [e] = before ++ rest) : t.Chained (Nesting.after before).inside := by
  rcases List.eq_nil_or_concat rest with rfl | ⟨rest, last, rfl⟩
  · rw [List.append_nil] at hevents
    rwa [← hevents]
  · rw [List.concat_eq_append, ← List.append_assoc] at hevents
    obtain ⟨hbefore, -⟩ := List.append_inj' hevents rfl
    exact (h.chained before rest hbefore).mono hkeeps

/-- A name that is remembered was captured from a visible scope that binds it. -/
theorem inherits_concat (h : Reads events s) (hinherits : s.tree.inherits name scope) :
    ∃ before rest, events ++ [e] = before ++ rest ∧ (Nesting.after before).current = scope ∧
      ∃ owner ∈ (Nesting.after before).visible, Owned (events ++ [e]) name owner := by
  obtain ⟨before, rest, hevents, hscope, owner, hvisible, howned⟩ := h.inherits name scope hinherits
  exact ⟨before, rest ++ [e], by rw [hevents, List.append_assoc], hscope, owner, hvisible,
    owned_append howned⟩

theorem waits_concat_of_ne (h : ∀ name span, e ≠ .reference name span) :
    Waits (events ++ [e]) name span scope ↔ Waits events name span scope := by
  rw [waits_concat, or_iff_left]
  rintro ⟨he, -⟩
  exact h name span he

/-- An entered scope is read like the events say. -/
theorem enter (h : Reads events s) (kind : ScopeKind) (label : Option String) (span : Span) :
    Reads (events ++ [.enter kind label span]) (s.step (.enter kind label span)) := by
  have hparent : s.current < s.tree.size := by
    rw [h.current]
    exact h.current_lt_size
  have hkeeps := s.tree.keeps_openChild s.current kind label hparent
  have hwhole := h.chained events [] (List.append_nil events).symm
  have hdeclares {declaration : Declaration} {name : String} {scope : Nat} :
      Declares (events ++ [.enter kind label span]) declaration name scope ↔
        Declares events declaration name scope := declares_concat_of_ne (by simp)
  have hreads (p : Scope → Bool) (hnew : p (Scope.new kind label (some s.current)) = false)
      (hold : ∀ s children, p { s with children := children } = p s) (scope : Nat) :
      (s.step (.enter kind label span)).tree.scopes[scope]?.any p =
        s.tree.scopes[scope]?.any p :=
    s.tree.any_openChild s.current scope kind label hparent hnew hold
  refine ⟨h.rooted.mono hkeeps, ?_, ?_, h.chained_concat hkeeps ?_, fun name scope => ?_,
    fun name scope => ?_, fun name scope hinherits => ?_, fun name => ?_, fun name => ?_,
    fun name span scope => ?_⟩
  · rw [Nesting.after_concat]
    simp only [step, Nesting.step, ScopeTree.size_openChild, h.size]
  · rw [Nesting.after_concat]
    simp only [step, Nesting.step, List.map_cons, h.size, h.stack]
  · rw [Nesting.after_concat]
    refine ⟨⟨Scope.new kind label (some s.current), ?_, rfl, ?_⟩, hwhole.mono hkeeps⟩
    · rw [← h.size]
      exact (s.tree.getElem?_openChild _ _ kind label hparent).trans (if_pos rfl)
    · exact congrArg some h.current
  · rw [ScopeTree.nests, hreads _ (by simp [Scope.new]) fun _ _ => rfl]
    exact (h.nests name scope).trans (and_congr_right fun _ => hdeclares.symm)
  · rw [ScopeTree.owns, hreads _ (by simp [Scope.new, Scope.owns]) fun _ _ => rfl]
    exact (h.owns name scope).trans (owned_concat_of_ne (by simp)).symm
  · rw [ScopeTree.inherits, hreads _ (by simp [Scope.new]) fun _ _ => rfl] at hinherits
    exact h.inherits_concat hinherits
  · exact (h.slots name).trans hdeclares.symm
  · exact (h.globals name).trans (exists_congr fun _ => hdeclares.symm)
  · exact (h.pending name span scope).trans (waits_concat_of_ne (by simp)).symm

/-- A scope that is left is read like the events say. -/
theorem exit (h : Reads events s) : Reads (events ++ [.exit]) (s.step .exit) := by
  have hwhole := h.chained events [] (List.append_nil events).symm
  have hdeclares {declaration : Declaration} {name : String} {scope : Nat} :
      Declares (events ++ [.exit]) declaration name scope ↔
        Declares events declaration name scope := declares_concat_of_ne (by simp)
  refine ⟨h.rooted, ?_, ?_, h.chained_concat (fun _ scope hscope => ⟨scope, hscope, rfl, rfl⟩) ?_,
    fun name scope => ?_, fun name scope => ?_, fun name scope => h.inherits_concat, fun name => ?_,
    fun name => ?_, fun name span scope => ?_⟩
  · rw [Nesting.after_concat]
    exact h.size
  · rw [Nesting.after_concat]
    simp only [step, Nesting.step, h.stack, List.map_tail]
  · rw [Nesting.after_concat]
    simp only [Nesting.step]
    cases hinside : (Nesting.after events).inside with
    | nil => trivial
    | cons x outer =>
      rw [hinside] at hwhole
      exact hwhole.2
  · exact (h.nests name scope).trans (and_congr_right fun _ => hdeclares.symm)
  · exact (h.owns name scope).trans (owned_concat_of_ne (by simp)).symm
  · exact (h.slots name).trans hdeclares.symm
  · exact (h.globals name).trans (exists_congr fun _ => hdeclares.symm)
  · exact (h.pending name span scope).trans (waits_concat_of_ne (by simp)).symm

/-- One name more is declared in the scope that is read. -/
theorem declares_concat_declare {d declaration : Declaration} :
    Declares (events ++ [.declare declaration name span]) d n a ↔
      Declares events d n a ∨ (declaration = d ∧ name = n) ∧ (Nesting.after events).current = a := by
  rw [declares_concat]
  simp

/-- One name more is bound in the scope that is read, unless it is a function of the body. -/
theorem owned_concat_declare {declaration : Declaration} :
    Owned (events ++ [.declare declaration name span]) n a ↔ Owned events n a ∨
      (name = n ∧ (Nesting.after events).current = a) ∧ (declaration = .function → a ≠ 0) := by
  simp only [Owned, DeclaresVariable, DeclaresNested, declares_concat_declare]
  constructor
  · rintro (⟨d, hvariable, hold | ⟨⟨rfl, hname⟩, hscope⟩⟩ | ⟨hne, hold | ⟨⟨-, hname⟩, hscope⟩⟩)
    · exact .inl (.inl ⟨d, hvariable, hold⟩)
    · exact .inr ⟨⟨hname, hscope⟩, fun hfunction => absurd hfunction hvariable⟩
    · exact .inl (.inr ⟨hne, hold⟩)
    · exact .inr ⟨⟨hname, hscope⟩, fun _ => hne⟩
  · rintro ((⟨d, hvariable, hold⟩ | ⟨hne, hold⟩) | ⟨⟨hname, hscope⟩, hne⟩)
    · exact .inl ⟨d, hvariable, .inl hold⟩
    · exact .inr ⟨hne, .inl hold⟩
    · by_cases hfunction : declaration = .function
      · exact .inr ⟨hne hfunction, .inr ⟨⟨hfunction, hname⟩, hscope⟩⟩
      · exact .inl ⟨declaration, hfunction, .inr ⟨⟨rfl, hname⟩, hscope⟩⟩

theorem mem_addName {names : List String} : n ∈ addName names name ↔ n ∈ names ∨ name = n := by
  rw [addName]
  split
  · next hmem =>
    refine (or_iff_left_of_imp ?_).symm
    rintro rfl
    exact List.contains_iff_mem.1 hmem
  · rw [List.mem_append, List.mem_singleton, eq_comm (a := n)]

/-- A name is bound in the scope that is read, unless it is that of a top-level function. -/
theorem bind (h : Reads events s) {declaration : Declaration} (bucket : Bucket) {s' : Progress}
    (hbucket : bucket ≠ .inherited) (hnested : bucket = .nestedFunction ↔ declaration = .function)
    (htop : declaration = .function → s.current ≠ 0)
    (htree : s'.tree = s.tree.declare s.current bucket name) (hstack : s'.stack = s.stack)
    (hpending : s'.pending = s.pending) (hslots : s'.slots = s.slots)
    (hglobals : ∀ n, n ∈ s'.globals ↔ n ∈ s.globals ∨ declaration = .global ∧ name = n) :
    Reads (events ++ [.declare declaration name span]) s' := by
  have hscope : s.current < s.tree.size := by
    rw [h.current]
    exact h.current_lt_size
  have hkeeps := s.tree.keeps_declare s.current bucket name
  have hwhole := h.chained events [] (List.append_nil events).symm
  refine ⟨?_, ?_, ?_, ?_, fun n a => ?_, fun n a => ?_, fun n a hinherits => ?_, fun n => ?_,
    fun n => ?_, fun n span scope => ?_⟩
  · rw [htree]
    exact h.rooted.mono hkeeps
  · rw [htree, ScopeTree.size_declare, Nesting.after_concat]
    exact h.size
  · rw [hstack, Nesting.after_concat]
    exact h.stack
  · rw [htree]
    refine h.chained_concat hkeeps ?_
    rw [Nesting.after_concat]
    exact hwhole.mono hkeeps
  · rw [htree, ScopeTree.nests_declare _ _ hscope, Bool.or_eq_true, h.nests, DeclaresNested,
      DeclaresNested, declares_concat_declare, ← h.current]
    simp only [Bool.and_eq_true, beq_iff_eq, hnested]
    constructor
    · rintro (⟨rfl, hfunction, hname⟩ | ⟨hne, hold⟩)
      · exact ⟨htop hfunction, .inr ⟨⟨hfunction, hname⟩, rfl⟩⟩
      · exact ⟨hne, .inl hold⟩
    · rintro ⟨hne, hold | ⟨⟨hfunction, hname⟩, hscope⟩⟩
      · exact .inr ⟨hne, hold⟩
      · exact .inl ⟨hscope, hfunction, hname⟩
  · rw [htree, ScopeTree.owns_declare _ hbucket hscope, Bool.or_eq_true, h.owns,
      owned_concat_declare, ← h.current]
    simp only [Bool.and_eq_true, beq_iff_eq]
    constructor
    · rintro (⟨rfl, hname⟩ | hold)
      · exact .inr ⟨⟨hname, rfl⟩, htop⟩
      · exact .inl hold
    · rintro (hold | ⟨⟨hname, hscope⟩, -⟩)
      · exact .inr hold
      · exact .inl ⟨hscope, hname⟩
  · rw [htree, ScopeTree.inherits_declare _ hbucket hscope] at hinherits
    exact h.inherits_concat hinherits
  · rw [hslots, h.slots, declares_concat_declare, or_iff_left]
    rintro ⟨⟨hfunction, -⟩, hroot⟩
    exact htop hfunction (h.current.trans hroot)
  · rw [hglobals, h.globals]
    simp only [declares_concat_declare]
    constructor
    · rintro (⟨scope, hold⟩ | hnew)
      · exact ⟨scope, .inl hold⟩
      · exact ⟨_, .inr ⟨hnew, rfl⟩⟩
    · rintro ⟨scope, hold | ⟨hnew, -⟩⟩
      · exact .inl ⟨scope, hold⟩
      · exact .inr hnew
  · rw [hpending]
    exact (h.pending n span scope).trans (waits_concat_of_ne (by simp)).symm

/-- A function of the body itself binds nothing, and is exported. -/
theorem exportSlot (h : Reads events s) (htop : s.current = 0) :
    Reads (events ++ [.declare .function name span]) { s with slots := addName s.slots name } := by
  have hroot : (Nesting.after events).current = 0 := h.current.symm.trans htop
  have hwhole := h.chained events [] (List.append_nil events).symm
  refine ⟨h.rooted, ?_, ?_, h.chained_concat (fun _ scope hscope => ⟨scope, hscope, rfl, rfl⟩) ?_,
    fun n a => ?_, fun n a => ?_, fun n a => h.inherits_concat, fun n => ?_, fun n => ?_,
    fun n span scope => ?_⟩
  · rw [Nesting.after_concat]
    exact h.size
  · rw [Nesting.after_concat]
    exact h.stack
  · rw [Nesting.after_concat]
    exact hwhole
  · rw [h.nests, DeclaresNested, DeclaresNested, declares_concat_declare, hroot]
    refine and_congr_right fun hne => (or_iff_left ?_).symm
    rintro ⟨-, hscope⟩
    exact hne hscope.symm
  · rw [h.owns, owned_concat_declare, hroot, or_iff_left]
    rintro ⟨⟨-, hscope⟩, hne⟩
    exact hne rfl hscope.symm
  · rw [mem_addName, h.slots, declares_concat_declare]
    simp [hroot]
  · rw [h.globals]
    simp only [declares_concat_declare]
    simp
  · exact (h.pending n span scope).trans (waits_concat_of_ne (by simp)).symm

/-- A declaration is read like the events say. -/
theorem declare (h : Reads events s) (declaration : Declaration) (name : String) (span : Span) :
    Reads (events ++ [.declare declaration name span]) (s.step (.declare declaration name span)) := by
  cases declaration with
  | assigned =>
    exact h.bind .ordinary (by simp) (by simp) (by simp) rfl rfl rfl rfl
      (by simp [step, Progress.declare])
  | persistent =>
    exact h.bind .persistent (by simp) (by simp) (by simp) rfl rfl rfl rfl
      (by simp [step, Progress.declare])
  | global =>
    refine h.bind .ordinary (by simp) (by simp) (by simp) rfl rfl rfl rfl fun n => ?_
    simp [step, Progress.declare, mem_addName]
  | function =>
    rw [step, Progress.declare]
    split
    · next htop => exact h.exportSlot (beq_iff_eq.1 htop)
    · next hinside =>
      have hinside : s.current ≠ 0 := by simpa using hinside
      exact h.bind .nestedFunction (by simp) (by simp) (fun _ => hinside) rfl rfl rfl
        rfl (by simp)

/-- A name that is looked up is bound nowhere if no scope binds it that is seen. -/
theorem lookup_iff (h : Reads events s) (hinside : EntersInside events) :
    (s.tree.lookup s.current name).2 = .unbound ↔
      ∀ a ∈ (Nesting.after events).visible, ¬ Owned events name a := by
  have hall := (List.append_nil events).symm
  rw [ScopeTree.lookup_eq_unbound, h.current, h.visible hinside hall]
  have howns : (∀ a ∈ (Nesting.after events).visible, s.tree.owns name a = false) ↔
      ∀ a ∈ (Nesting.after events).visible, ¬ Owned events name a := by
    simp only [← h.owns, Bool.not_eq_true]
  rw [howns, and_iff_right_of_imp]
  intro hfree
  -- What is remembered was found in a scope that is seen, which still binds it.
  by_contra hremembered
  rw [Bool.not_eq_false] at hremembered
  obtain ⟨before, rest, hevents, hscope, owner, hvisible, howned⟩ :=
    h.inherits name _ hremembered
  rw [← h.visible hinside hevents, hscope, h.visible hinside hall] at hvisible
  exact hfree owner hvisible howned

/-- A reference is read like the events say. -/
theorem refer (h : Reads events s) (hinside : EntersInside events) (name : String) (span : Span) :
    Reads (events ++ [.reference name span]) (s.step (.reference name span)) := by
  have hkeeps := s.tree.keeps_lookup s.current name
  have hwhole := h.chained events [] (List.append_nil events).symm
  have hdeclares {d : Declaration} {n : String} {a : Nat} :
      Declares (events ++ [.reference name span]) d n a ↔ Declares events d n a :=
    declares_concat_of_ne (by simp)
  -- The waiting references are all that depends on the outcome.
  have hreads (pending : List (String × Span × Nat))
      (hpending : ∀ n sp scope, (n, sp, scope) ∈ pending ↔
        Waits (events ++ [.reference name span]) n sp scope) :
      Reads (events ++ [.reference name span])
        { s with tree := (s.tree.lookup s.current name).1, pending := pending } := by
    refine ⟨h.rooted.mono hkeeps, ?_, ?_, h.chained_concat hkeeps ?_, fun n a => ?_, fun n a => ?_,
      fun n a hinherits => ?_, fun n => ?_, fun n => ?_, hpending⟩
    · rw [ScopeTree.size_lookup, Nesting.after_concat]
      exact h.size
    · rw [Nesting.after_concat]
      exact h.stack
    · rw [Nesting.after_concat]
      exact hwhole.mono hkeeps
    · rw [ScopeTree.nests, ScopeTree.any_lookup _ _ _ _ fun _ _ => rfl]
      exact (h.nests n a).trans (and_congr_right fun _ => hdeclares.symm)
    · rw [ScopeTree.owns, ScopeTree.any_lookup _ _ _ _ fun _ _ => rfl]
      exact (h.owns n a).trans (owned_concat_of_ne (by simp)).symm
    · rcases ScopeTree.inherits_lookup hinherits with hold | ⟨rfl, rfl, owner, hvisible, howns⟩
      · exact h.inherits_concat hold
      · refine ⟨events, [.reference n span], rfl, h.current.symm, owner, ?_, ?_⟩
        · rw [← h.visible hinside (List.append_nil events).symm, ← h.current]
          exact List.mem_cons_of_mem _ hvisible
        · exact owned_append ((h.owns n owner).1 howns)
    · exact (h.slots n).trans hdeclares.symm
    · exact (h.globals n).trans (exists_congr fun _ => hdeclares.symm)
  rw [step, Progress.refer]
  dsimp only
  split
  · next heq =>
    refine hreads _ fun n sp scope => ?_
    rw [List.mem_append, h.pending, waits_concat, List.mem_singleton]
    have hfree := (h.lookup_iff hinside).1 (beq_iff_eq.1 heq)
    constructor
    · rintro (hold | hnew)
      · exact .inl hold
      · cases hnew
        exact .inr ⟨rfl, h.current.symm, hfree⟩
    · rintro (hold | ⟨hlast, hscope, -⟩)
      · exact .inl hold
      · cases hlast
        rw [← hscope, ← h.current]
        exact .inr rfl
  · next hne =>
    refine hreads _ fun n sp scope => ?_
    rw [h.pending, waits_concat, or_iff_left]
    rintro ⟨hlast, -, hfree⟩
    cases hlast
    exact hne (beq_iff_eq.2 ((h.lookup_iff hinside).2 hfree))

end Reads

/-- Some events are read as they say, by induction on them. -/
theorem reads_ofEvents (hinside : EntersInside events) : Reads events (ofEvents events) := by
  induction events using List.reverseRecOn with
  | nil => exact reads_start
  | append_singleton events e ih =>
    have hbefore : EntersInside events := fun kind name span hmem =>
      hinside kind name span (List.mem_append_left _ hmem)
    have h := ih hbefore
    have hstep : ofEvents (events ++ [e]) = (ofEvents events).step e := by
      simp [ofEvents, List.foldl_append]
    rw [hstep]
    cases e with
    | enter kind name span => exact h.enter kind name span
    | exit => exact h.exit
    | declare declaration name span => exact h.declare declaration name span
    | reference name span => exact h.refer hbefore name span

end Summary.Progress

namespace Summary

open Event

variable {events : List Event} {name n : String} {span : Span} {scope : Nat} {seen : NameSet}
  {references : List (String × Span)}

/-- The first occurrences are those of the names that were not seen. -/
theorem mem_firstOccurrences : n ∈ (firstOccurrences seen references).map (·.1) ↔
    n ∉ seen ∧ n ∈ references.map (·.1) := by
  induction references generalizing seen with
  | nil => simp [firstOccurrences]
  | cons x rest ih =>
    obtain ⟨name, span⟩ := x
    rw [firstOccurrences]
    split
    · next hseen =>
      have hseen : name ∈ seen := hseen
      rw [ih, List.map_cons, List.mem_cons]
      constructor
      · rintro ⟨hnot, hmem⟩
        exact ⟨hnot, .inr hmem⟩
      · rintro ⟨hnot, rfl | hmem⟩
        · exact absurd hseen hnot
        · exact ⟨hnot, hmem⟩
    · next hseen =>
      have hseen : name ∉ seen := hseen
      rw [List.map_cons, List.mem_cons, ih, List.map_cons, List.mem_cons, Std.ExtTreeSet.mem_insert,
        Std.LawfulEqCmp.compare_eq_iff_eq, not_or]
      constructor
      · rintro (rfl | ⟨⟨-, hnot⟩, hmem⟩)
        · exact ⟨hseen, .inl rfl⟩
        · exact ⟨hnot, .inr hmem⟩
      · rintro ⟨hnot, rfl | hmem⟩
        · exact .inl rfl
        · by_cases hname : name = n
          · exact .inl hname.symm
          · exact .inr ⟨⟨hname, hnot⟩, hmem⟩

/-- A name occurs for the first time once. -/
theorem nodup_firstOccurrences (seen : NameSet) (references : List (String × Span)) :
    ((firstOccurrences seen references).map (·.1)).Nodup := by
  induction references generalizing seen with
  | nil => exact List.nodup_nil
  | cons x rest ih =>
    obtain ⟨name, span⟩ := x
    rw [firstOccurrences]
    split
    · exact ih seen
    · rw [List.map_cons, List.nodup_cons]
      refine ⟨fun hmem => ?_, ih _⟩
      exact (mem_firstOccurrences.1 hmem).1 Std.ExtTreeSet.mem_insert_self

/-- The references of a summary are to the names that some reference means outside of the body. -/
theorem mem_references (hinside : EntersInside events) :
    n ∈ (ofEvents events).references.map (·.1) ↔ RefersOutside events n := by
  have hreads := Progress.reads_ofEvents hinside
  have hnested {before rest : List Event} (hevents : events = before ++ rest) :
      ((Progress.ofEvents events).tree.findNested (Nesting.after before).current n).isNone ↔
        ∀ a ∈ (Nesting.after before).around, ¬ DeclaresNested events n a := by
    rw [ScopeTree.findNested, hreads.around hevents, Option.isNone_iff_eq_none,
      List.find?_eq_none]
    simp only [← hreads.nests, ScopeTree.nests]
  rw [ofEvents]
  dsimp only
  rw [mem_firstOccurrences, and_iff_right Std.ExtTreeSet.not_mem_empty, List.map_map]
  constructor
  · intro hmem
    obtain ⟨⟨n, span, scope⟩, hpending, rfl⟩ := List.mem_map.1 hmem
    obtain ⟨hpending, hnone⟩ := List.mem_filter.1 hpending
    obtain ⟨before, after, hevents, rfl, hfree⟩ := (hreads.pending n span scope).1 hpending
    exact ⟨before, span, after, hevents, fun a ha hvariable => hfree a ha (.inl hvariable),
      (hnested hevents).1 hnone⟩
  · rintro ⟨before, span, after, hevents, hvariable, hfunction⟩
    refine List.mem_map.2 ⟨(n, span, (Nesting.after before).current), List.mem_filter.2 ⟨?_, ?_⟩, rfl⟩
    · refine (hreads.pending _ _ _).2 ⟨before, after, hevents, rfl, ?_⟩
      rintro a ha (hdeclared | hnest)
      · exact hvariable a ha hdeclared
      · refine hfunction a (Nesting.mem_around_of_mem_visible ha) ?_
        rw [hevents]
        exact declaresNested_append hnest
    · exact (hnested hevents).2 hfunction

/-- The slots of a summary are the functions of the body itself. -/
theorem mem_slots (hinside : EntersInside events) :
    n ∈ (ofEvents events).slots ↔ Declares events .function n 0 :=
  (Progress.reads_ofEvents hinside).slots n

/-- The global variables of a body are those that it declares. -/
theorem mem_globals (hinside : EntersInside events) :
    n ∈ (ofEvents events).globals ↔ ∃ scope, Declares events .global n scope :=
  (Progress.reads_ofEvents hinside).globals n

end Summary

end ScriptBuild
