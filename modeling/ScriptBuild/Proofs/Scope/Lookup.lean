import ScriptBuild.Proofs.Scope
import Mathlib.Data.List.Induction
import Mathlib.Logic.Relation

namespace ScriptBuild

/-- The scope around that a lookup found. -/
def Binding.owner? : Binding → Option Nat
  | captured owner => some owner
  | here | unbound => none

namespace ScopeTree

variable {t t' : ScopeTree} {scope inner outer owner a : Nat} {name other : String}

/-- The names of a scope can be seen from directly inside it, except for those of a unit from a
function. -/
def Sees (t : ScopeTree) (inner outer : Nat) : Prop :=
  t.parentOf inner = some outer ∧
    ¬ (t.hasKind inner .function = true ∧ t.hasKind outer .unit = true)

/-- A scope is inside another one, at any depth. -/
def Within (t : ScopeTree) : Nat → Nat → Prop :=
  Relation.TransGen fun inner outer => t.parentOf inner = some outer

/-- The nearest scope around a scope that binds a name, as far as names can be seen. -/
inductive NearestOwner (t : ScopeTree) (name : String) : Nat → Nat → Prop
  | parent {inner outer : Nat} (hsees : t.Sees inner outer) (howns : t.owns name outer = true) :
      NearestOwner t name inner outer
  | further {inner outer owner : Nat} (hsees : t.Sees inner outer)
      (hnot : t.owns name outer = false) (h : NearestOwner t name outer owner) :
      NearestOwner t name inner owner

/-- The scope from which a scope captured a name. -/
def inheritedFrom (t : ScopeTree) (name : String) (scope : Nat) : Option Nat :=
  t.scopes[scope]?.bind (·.inherited[name]?)

/-- Every scope is younger than the one around it. -/
def Ordered (t : ScopeTree) : Prop :=
  ∀ inner outer, t.parentOf inner = some outer → outer < inner

/-- The visible parent is the scope that is seen from inside. -/
theorem visibleParent_eq_some : t.visibleParent inner = some outer ↔ t.Sees inner outer := by
  simp only [visibleParent, Sees, Option.filter_eq_some_iff, Bool.not_eq_true', Bool.and_eq_false_iff,
    not_and, Bool.not_eq_true]
  refine and_congr_right fun _ => ?_
  cases t.hasKind inner .function <;> simp

/-- A name that is remembered as captured was captured from some scope. -/
theorem inherits_iff_inheritedFrom :
    t.inherits name scope = true ↔ ∃ owner, t.inheritedFrom name scope = some owner := by
  cases hs : t.scopes[scope]? with
  | none => simp [inherits, inheritedFrom, hs]
  | some s =>
    rw [inherits, inheritedFrom, hs, Option.any_some, Option.bind_some, ← Option.isSome_iff_exists,
      Std.ExtTreeMap.isSome_getElem?_eq_contains]

theorem lt_size_of_parentOf (h : t.parentOf inner = some outer) : inner < t.size := by
  obtain ⟨s, hs, -⟩ := Option.bind_eq_some_iff.1 h
  exact (Array.getElem?_eq_some_iff.1 hs).1

/-- If every scope is younger than the one around it, the walk outwards never runs out of steps. -/
theorem mem_chain_iff {next : Nat → Option Nat} (hnext : ∀ a b, next a = some b → b < a) {fuel : Nat}
    (hfuel : scope < fuel) :
    owner ∈ chain next fuel scope ↔ Relation.TransGen (fun a b => next a = some b) scope owner := by
  induction fuel generalizing scope with
  | zero => exact absurd hfuel (Nat.not_lt_zero scope)
  | succ fuel ih =>
    rw [chain]
    constructor
    · intro h
      split at h
      · cases h
      · next parent hparent =>
        have hlt := hnext scope parent hparent
        rcases List.mem_cons.1 h with rfl | h
        · exact .single hparent
        · exact .head hparent ((ih (by omega)).1 h)
    · intro h
      rcases Relation.TransGen.head'_iff.1 h with ⟨parent, hparent, hpath⟩
      have hlt := hnext scope parent hparent
      simp only [hparent]
      rcases Relation.reflTransGen_iff_eq_or_transGen.1 hpath with rfl | hpath
      · exact List.mem_cons_self
      · exact List.mem_cons_of_mem _ ((ih (by omega)).2 hpath)

/-- What is seen from a scope is older. -/
theorem Ordered.of_visibleParent (h : t.Ordered) : ∀ a b, t.visibleParent a = some b → b < a :=
  fun a b hvisible => h a b (visibleParent_eq_some.1 hvisible).1

/-- The visible scopes are those to which one sees in one or more steps. -/
theorem Ordered.mem_visible_iff (h : t.Ordered) (hscope : scope < t.size) :
    owner ∈ t.visible scope ↔ Relation.TransGen t.Sees scope owner := by
  rw [visible, mem_chain_iff h.of_visibleParent hscope]
  simp only [visibleParent_eq_some]

/-- The walk outwards finds the nearest owner. -/
theorem Ordered.find?_chain_eq_some (h : t.Ordered) {fuel : Nat} (hfuel : scope < fuel) :
    (chain t.visibleParent fuel scope).find? (t.owns name) = some owner ↔
      t.NearestOwner name scope owner := by
  induction fuel generalizing scope with
  | zero => exact absurd hfuel (Nat.not_lt_zero scope)
  | succ fuel ih =>
    rw [chain]
    cases hparent : t.visibleParent scope with
    | none =>
      refine iff_of_false (by simp) fun hnearest => ?_
      have hsees : ∃ outer, t.Sees scope outer := by
        cases hnearest with
        | parent hsees => exact ⟨_, hsees⟩
        | further hsees => exact ⟨_, hsees⟩
      obtain ⟨outer, hsees⟩ := hsees
      rw [visibleParent_eq_some.2 hsees] at hparent
      cases hparent
    | some outer =>
      have hsees := visibleParent_eq_some.1 hparent
      have hlt := h scope outer hsees.1
      have honly {b : Nat} (hb : t.Sees scope b) : b = outer :=
        Option.some.inj (hb.1.symm.trans hsees.1)
      cases howns : t.owns name outer with
      | true =>
        simp only [List.find?_cons, howns, Option.some.injEq]
        constructor
        · rintro rfl
          exact .parent hsees howns
        · intro hnearest
          cases hnearest with
          | parent hsees' => exact (honly hsees').symm
          | further hsees' hnot =>
            rw [honly hsees', howns] at hnot
            cases hnot
      | false =>
        simp only [List.find?_cons, howns, ih (show outer < fuel by omega)]
        constructor
        · exact .further hsees howns
        · intro hnearest
          cases hnearest with
          | parent hsees' howns' =>
            rw [honly hsees', howns] at howns'
            cases howns'
          | further hsees' _ hfurther => rwa [honly hsees'] at hfurther

/-- A scope is younger than all that it is inside of. -/
theorem Ordered.lt_of_within (h : t.Ordered) (hwithin : t.Within inner outer) : outer < inner := by
  induction hwithin with
  | single hparent => exact h _ _ hparent
  | tail _ hparent ih => exact Nat.lt_trans (h _ _ hparent) ih

/-- The nearest owner is a scope around that binds the name. -/
theorem NearestOwner.within (h : t.NearestOwner name inner owner) :
    t.Within inner owner ∧ t.owns name owner = true := by
  induction h with
  | parent hsees howns => exact ⟨.single hsees.1, howns⟩
  | further hsees _ _ ih => exact ⟨.head hsees.1 ih.1, ih.2⟩

/-- A tree keeps its scopes and all that they bind. -/
structure Grows (t t' : ScopeTree) : Prop where
  keeps : t.Keeps t'
  owns : ∀ (name : String) (a : Nat), t.owns name a = true → t'.owns name a = true
  inherits : ∀ (name : String) (a : Nat), t.inherits name a = true → t'.inherits name a = true

theorem Grows.refl (t : ScopeTree) : t.Grows t :=
  ⟨fun _ s hs => ⟨s, hs, rfl, rfl⟩, fun _ _ => id, fun _ _ => id⟩

theorem Grows.trans {t'' : ScopeTree} (h : t.Grows t') (h' : t'.Grows t'') : t.Grows t'' where
  keeps a s hs := by
    obtain ⟨s', hs', hkind, hparent⟩ := h.keeps a s hs
    obtain ⟨s'', hs'', hkind', hparent'⟩ := h'.keeps a s' hs'
    exact ⟨s'', hs'', hkind'.trans hkind, hparent'.trans hparent⟩
  owns name a := h'.owns name a ∘ h.owns name a
  inherits name a := h'.inherits name a ∘ h.inherits name a

theorem Keeps.parentOf (h : t.Keeps t') (hparent : t.parentOf inner = some outer) :
    t'.parentOf inner = some outer := by
  obtain ⟨s, hs, hparent⟩ := Option.bind_eq_some_iff.1 hparent
  obtain ⟨s', hs', -, hparent'⟩ := h inner s hs
  rw [ScopeTree.parentOf, hs', Option.bind_some, hparent', hparent]

theorem Keeps.hasKind (h : t.Keeps t') {kind : ScopeKind} (ha : a < t.size) :
    t'.hasKind a kind = t.hasKind a kind := by
  have hs : t.scopes[a]? = some t.scopes[a] := Array.getElem?_eq_getElem ha
  obtain ⟨s', hs', hkind, -⟩ := h a _ hs
  rw [ScopeTree.hasKind, ScopeTree.hasKind, hs, hs', Option.any_some, Option.any_some, hkind]

theorem Keeps.size_le (h : t.Keeps t') : t.size ≤ t'.size := by
  rcases Nat.eq_zero_or_pos t.size with hzero | hpos
  · omega
  · have hlast : t.size - 1 < t.scopes.size := Nat.sub_lt hpos Nat.one_pos
    obtain ⟨s', hs', -⟩ := h (t.size - 1) _ (Array.getElem?_eq_getElem hlast)
    have hlt : t.size - 1 < t'.size := (Array.getElem?_eq_some_iff.1 hs').1
    omega

/-- A scope stays inside those that it is inside of. -/
theorem Keeps.within (h : t.Keeps t') (hwithin : t.Within inner outer) : t'.Within inner outer :=
  Relation.TransGen.mono (fun _ _ => h.parentOf) _ _ hwithin

/-- What is seen from a scope stays in sight. -/
theorem Keeps.sees (h : t.Keeps t') (hordered : t.Ordered) (hsees : t.Sees inner outer) :
    t'.Sees inner outer := by
  have hinner := lt_size_of_parentOf hsees.1
  have houter := Nat.lt_trans (hordered inner outer hsees.1) hinner
  exact ⟨h.parentOf hsees.1, by rw [h.hasKind hinner, h.hasKind houter]; exact hsees.2⟩

/-- A name that is bound from a scope stays bound. -/
theorem Grows.lookup_ne_unbound (h : t.Grows t') (hordered : t.Ordered) (hordered' : t'.Ordered)
    (hscope : scope < t.size) (hbound : (t.lookup scope name).2 ≠ .unbound) :
    (t'.lookup scope name).2 ≠ .unbound := by
  refine fun hunbound => hbound (lookup_eq_unbound.2 ?_)
  obtain ⟨hinherits, howns⟩ := lookup_eq_unbound.1 hunbound
  refine ⟨Bool.eq_false_iff.2 fun hold => ?_, fun a ha => Bool.eq_false_iff.2 fun hold => ?_⟩
  · rw [h.inherits name scope hold] at hinherits
    cases hinherits
  · have ha' : a ∈ scope :: t'.visible scope := by
      rcases List.mem_cons.1 ha with rfl | ha
      · exact List.mem_cons_self
      · have hpath := Relation.TransGen.mono (fun _ _ => h.keeps.sees hordered) _ _
          ((hordered.mem_visible_iff hscope).1 ha)
        have hscope' := Nat.lt_of_lt_of_le hscope h.keeps.size_le
        exact List.mem_cons_of_mem _ ((hordered'.mem_visible_iff hscope').2 hpath)
    have hnew := h.owns name a hold
    rw [howns a ha'] at hnew
    cases hnew

/-- What is done to the scopes of a unit. -/
inductive Operation where
  | openChild (parent : Nat) (kind : ScopeKind) (name : Option String)
  | declare (scope : Nat) (bucket : Bucket) (name : String)
  | lookup (scope : Nat) (name : String)

/-- The tree after an operation. -/
def perform (t : ScopeTree) : Operation → ScopeTree
  | .openChild parent kind name => t.openChild parent kind name
  | .declare scope bucket name => t.declare scope bucket name
  | .lookup scope name => (t.lookup scope name).1

/-- The tree after some operations on a new one. -/
def built (ops : List Operation) : ScopeTree := ops.foldl perform new

/-- An operation is about a scope that is there, and declares only what a scope binds itself. -/
def Operation.Fits (t : ScopeTree) : Operation → Prop
  | openChild parent _ _ => parent < t.size
  | declare scope bucket _ => scope < t.size ∧ bucket ≠ .inherited
  | lookup scope _ => scope < t.size

/-- Each of some operations fits the tree that it is done to. -/
def AllFit (t : ScopeTree) : List Operation → Prop
  | [] => True
  | op :: ops => op.Fits t ∧ AllFit (t.perform op) ops

/-- An earlier lookup captured a name into a scope. -/
def CapturedIn (ops : List Operation) (name : String) (scope : Nat) : Prop :=
  ∃ before after owner, ops = before ++ .lookup scope name :: after ∧
    ((built before).lookup scope name).2 = .captured owner

variable {ops later : List Operation} {op : Operation}

/-- The last operation is done to the tree that the others led to. -/
@[simp] theorem built_concat (ops : List Operation) (op : Operation) :
    built (ops ++ [op]) = (built ops).perform op := by
  simp [built, List.foldl_append]

/-- Operations fit if the later ones fit the tree that the earlier ones led to. -/
theorem allFit_append : AllFit t (ops ++ later) ↔
    AllFit t ops ∧ AllFit (ops.foldl perform t) later := by
  induction ops generalizing t with
  | nil => simp [AllFit]
  | cons op ops ih => simp [AllFit, ih, and_assoc]

/-- Operations fit if the last one fits the tree that the others led to. -/
theorem allFit_concat : AllFit new (ops ++ [op]) ↔ AllFit new ops ∧ op.Fits (built ops) := by
  simp [allFit_append, AllFit, built]

theorem capturedIn_concat : CapturedIn (ops ++ [op]) name scope ↔ CapturedIn ops name scope ∨
    op = .lookup scope name ∧ ∃ owner, ((built ops).lookup scope name).2 = .captured owner := by
  constructor
  · rintro ⟨before, after, owner, heq, hcaptured⟩
    rcases concat_eq_append_cons.1 heq with ⟨-, rfl, hop⟩ | ⟨rest, -, hops⟩
    · exact .inr ⟨hop, owner, hcaptured⟩
    · exact .inl ⟨before, rest, owner, hops, hcaptured⟩
  · rintro (⟨before, after, owner, rfl, hcaptured⟩ | ⟨rfl, owner, hcaptured⟩)
    · exact ⟨before, after ++ [op], owner, by simp, hcaptured⟩
    · exact ⟨ops, [], owner, rfl, hcaptured⟩

/-- A tree agrees with the operations that led to it. -/
structure Traces (ops : List Operation) (t : ScopeTree) : Prop where
  ordered : t.Ordered
  owns : ∀ (name : String) (a : Nat), t.owns name a = true ↔ ∃ bucket, .declare a bucket name ∈ ops
  inherits : ∀ (name : String) (a : Nat), t.inherits name a = true ↔ CapturedIn ops name a
  inherited : ∀ (name : String) (a owner : Nat), t.inheritedFrom name a = some owner →
    t.Within a owner ∧ t.owns name owner = true

/-- A new tree agrees with having done nothing. -/
theorem traces_new : Traces [] new where
  ordered := by
    intro inner outer h
    cases inner <;> simp [parentOf, new, Scope.new] at h
  owns name a := by
    cases a <;> simp [ScopeTree.owns, new, Scope.new, Scope.owns]
  inherits name a := by
    refine iff_of_false ?_ (by simp [CapturedIn])
    cases a <;> simp [ScopeTree.inherits, new, Scope.new]
  inherited name a owner h := by
    cases a <;> simp [inheritedFrom, new, Scope.new] at h

/-- Inherited names stay inherited ones if owners stay owners. -/
theorem Traces.inherited_of_grows (h : Traces ops t) (hgrows : t.Grows t')
    (hinherited : t.inheritedFrom name a = some owner) :
    t'.Within a owner ∧ t'.owns name owner = true :=
  (h.inherited name a owner hinherited).imp hgrows.keeps.within (hgrows.owns name owner)

variable {parent : Nat} {kind : ScopeKind} {label : Option String} {bucket : Bucket}

/-- A new scope binds nothing, and the others bind what they did. -/
theorem owns_openChild (hparent : parent < t.size) (name : String) (a : Nat) :
    (t.openChild parent kind label).owns name a = t.owns name a :=
  t.any_openChild parent a kind label hparent (by simp [Scope.new, Scope.owns]) fun _ _ => rfl

/-- A new scope remembers nothing, and the others remember what they did. -/
theorem inherits_openChild (hparent : parent < t.size) (name : String) (a : Nat) :
    (t.openChild parent kind label).inherits name a = t.inherits name a :=
  t.any_openChild parent a kind label hparent (by simp [Scope.new]) fun _ _ => rfl

theorem inheritedFrom_openChild (hparent : parent < t.size) (name : String) (a : Nat) :
    (t.openChild parent kind label).inheritedFrom name a = t.inheritedFrom name a := by
  rw [inheritedFrom, inheritedFrom, getElem?_openChild t parent a kind label hparent]
  split
  · next ha =>
    have hnone : t.scopes[a]? = none := Array.getElem?_eq_none (Nat.le_of_eq ha.symm)
    simp [hnone, Scope.new]
  · split
    · cases t.scopes[a]? <;> rfl
    · rfl

/-- A new scope has the parent below which it was opened. -/
theorem parentOf_openChild (a : Nat) : (t.openChild parent kind label).parentOf a =
    if a = t.size then some parent else t.parentOf a := by
  rw [parentOf, parentOf, openChild, Array.getElem?_modify, Array.getElem?_push, size]
  split
  · split
    · rfl
    · cases t.scopes[a]? <;> rfl
  · split <;> rfl

/-- A tree grows when a scope is opened. -/
theorem grows_openChild (hparent : parent < t.size) : t.Grows (t.openChild parent kind label) where
  keeps := t.keeps_openChild parent kind label hparent
  owns name a h := by rwa [owns_openChild hparent]
  inherits name a h := by rwa [inherits_openChild hparent]

/-- A tree with a new scope agrees with the operations, the last of which opened it. -/
theorem Traces.openChild (h : Traces ops t) (hparent : parent < t.size) :
    Traces (ops ++ [.openChild parent kind label]) (t.openChild parent kind label) where
  ordered inner outer hinner := by
    rw [parentOf_openChild] at hinner
    split at hinner
    · next hnew =>
      cases hinner
      exact hnew ▸ hparent
    · exact h.ordered inner outer hinner
  owns name a := by simp [owns_openChild hparent, h.owns]
  inherits name a := by simp [inherits_openChild hparent, h.inherits, capturedIn_concat]
  inherited name a owner hinherited := by
    rw [inheritedFrom_openChild hparent] at hinherited
    exact h.inherited_of_grows (grows_openChild hparent) hinherited

theorem parentOf_declare (a : Nat) : (t.declare scope bucket name).parentOf a = t.parentOf a := by
  rw [parentOf, parentOf, getElem?_declare]
  split
  · cases t.scopes[a]? with
    | none => rfl
    | some s => cases bucket <;> rfl
  · rfl

theorem inheritedFrom_declare (hbucket : bucket ≠ .inherited) (other : String) (a : Nat) :
    (t.declare scope bucket name).inheritedFrom other a = t.inheritedFrom other a := by
  rw [inheritedFrom, inheritedFrom, getElem?_declare]
  split
  · cases t.scopes[a]? with
    | none => rfl
    | some s =>
      cases bucket with
      | inherited => exact absurd rfl hbucket
      | ordinary | persistent | nestedFunction => rfl
  · rfl

/-- A tree grows when a name is declared. -/
theorem grows_declare (hscope : scope < t.size) (hbucket : bucket ≠ .inherited) :
    t.Grows (t.declare scope bucket name) where
  keeps := t.keeps_declare scope bucket name
  owns other a h := by rw [owns_declare t hbucket hscope, h, Bool.or_true]
  inherits other a h := by rwa [inherits_declare t hbucket hscope]

/-- A tree with a new name agrees with the operations, the last of which declared it. -/
theorem Traces.declare (h : Traces ops t) (hscope : scope < t.size) (hbucket : bucket ≠ .inherited) :
    Traces (ops ++ [.declare scope bucket name]) (t.declare scope bucket name) where
  ordered inner outer hinner := h.ordered inner outer (by rwa [parentOf_declare] at hinner)
  owns other a := by
    rw [owns_declare t hbucket hscope, Bool.or_eq_true, h.owns]
    simp only [Bool.and_eq_true, beq_iff_eq, List.mem_append, List.mem_singleton,
      Operation.declare.injEq, exists_or]
    constructor
    · rintro (⟨rfl, rfl⟩ | hold)
      · exact .inr ⟨bucket, rfl, rfl, rfl⟩
      · exact .inl hold
    · rintro (hold | ⟨_, rfl, -, rfl⟩)
      · exact .inr hold
      · exact .inl ⟨rfl, rfl⟩
  inherits other a := by simp [inherits_declare t hbucket hscope, h.inherits, capturedIn_concat]
  inherited other a owner hinherited := by
    rw [inheritedFrom_declare hbucket] at hinherited
    exact h.inherited_of_grows (grows_declare hscope hbucket) hinherited

theorem parentOf_record (a : Nat) : (t.record scope name owner).parentOf a = t.parentOf a := by
  rw [parentOf, parentOf, getElem?_record]
  split
  · cases t.scopes[a]? <;> rfl
  · rfl

theorem owns_record (other : String) (a : Nat) :
    (t.record scope name owner).owns other a = t.owns other a := by
  rw [ScopeTree.owns, ScopeTree.owns, getElem?_record]
  split
  · cases t.scopes[a]? <;> rfl
  · rfl

/-- The captured name is remembered with its owner, and other captures stay. -/
theorem inheritedFrom_record (hscope : scope < t.size) (other : String) (a : Nat) :
    (t.record scope name owner).inheritedFrom other a =
      if a = scope ∧ other = name then some owner else t.inheritedFrom other a := by
  rw [inheritedFrom, inheritedFrom, getElem?_record]
  by_cases ha : scope = a
  · subst ha
    have hs : t.scopes[scope]? = some t.scopes[scope] := Array.getElem?_eq_getElem hscope
    simp only [hs, if_true, Option.map_some, Option.bind_some, true_and,
      Std.ExtTreeMap.getElem?_insert, Std.LawfulEqCmp.compare_eq_iff_eq, eq_comm (a := name)]
  · rw [if_neg ha, if_neg fun h => ha h.1.symm]

theorem inherits_record_iff (hscope : scope < t.size) :
    (t.record scope name owner).inherits other a = true ↔
      t.inherits other a = true ∨ (a = scope ∧ other = name) := by
  rw [inherits_iff_inheritedFrom, inherits_iff_inheritedFrom, inheritedFrom_record hscope]
  by_cases hwritten : a = scope ∧ other = name <;> simp [hwritten]

/-- A tree grows when a name is looked up. -/
theorem grows_lookup (hscope : scope < t.size) (name : String) : t.Grows (t.lookup scope name).1 where
  keeps := t.keeps_lookup scope name
  owns other a h := by
    rcases t.lookup_fst scope name with heq | ⟨owner, -, -, heq⟩
    · rwa [heq]
    · rwa [heq, owns_record]
  inherits other a h := by
    rcases t.lookup_fst scope name with heq | ⟨owner, -, -, heq⟩
    · rwa [heq]
    · rw [heq, inherits_record_iff hscope]
      exact .inl h

/-- A tree grows by every operation that fits. -/
theorem grows_perform (h : op.Fits t) : t.Grows (t.perform op) := by
  cases op with
  | openChild parent kind label => exact grows_openChild h
  | declare scope bucket name => exact grows_declare h.1 h.2
  | lookup scope name => exact grows_lookup h name

/-- A name is captured from the nearest owner, unless it is bound here. -/
theorem lookup_eq_captured (hordered : t.Ordered) (hscope : scope < t.size) :
    (t.lookup scope name).2 = .captured owner ↔
      (t.lookup scope name).2 ≠ .here ∧ t.NearestOwner name scope owner := by
  rw [← hordered.find?_chain_eq_some hscope, ← visible]
  rcases t.lookup_cases scope name with ⟨-, h⟩ | ⟨-, ⟨found, hfind, h⟩ | ⟨hfind, h⟩⟩
  · simp [h]
  · simp [h, hfind]
  · simp [h, hfind]

/-- A tree in which a capture is remembered agrees with the operations, the last of which looked the
name up. -/
theorem Traces.lookup (h : Traces ops (built ops)) (hscope : scope < (built ops).size) :
    Traces (ops ++ [.lookup scope name]) ((built ops).lookup scope name).1 := by
  have howns (other : String) (a : Nat) : (built ops).owns other a = true ↔
      ∃ bucket, .declare a bucket other ∈ ops ++ [.lookup scope name] := by simp [h.owns]
  rcases (built ops).lookup_cases scope name with
    ⟨-, heq⟩ | ⟨-, ⟨owner, hfind, heq⟩ | ⟨-, heq⟩⟩
  · exact heq ▸ ⟨h.ordered, howns, by simp [h.inherits, capturedIn_concat, heq], h.inherited⟩
  · have hnearest := ((h.ordered.find?_chain_eq_some hscope).1 hfind).within
    have hgrows : (built ops).Grows ((built ops).record scope name owner) := by
      simpa only [heq] using grows_lookup hscope name
    rw [heq]
    refine ⟨fun inner outer hinner => ?_, fun other a => ?_, fun other a => ?_,
      fun other a from' hfrom => ?_⟩
    · exact h.ordered inner outer (by rwa [parentOf_record] at hinner)
    · rw [owns_record, howns]
    · rw [inherits_record_iff hscope, h.inherits, capturedIn_concat]
      refine or_congr_right ⟨?_, ?_⟩
      · rintro ⟨rfl, rfl⟩
        exact ⟨rfl, owner, congrArg Prod.snd heq⟩
      · rintro ⟨hop, -⟩
        cases hop
        exact ⟨rfl, rfl⟩
    · rw [inheritedFrom_record hscope] at hfrom
      split at hfrom
      · next hwritten =>
        obtain ⟨rfl, rfl⟩ := hwritten
        cases hfrom
        exact hnearest.imp hgrows.keeps.within (hgrows.owns other owner)
      · exact h.inherited_of_grows hgrows hfrom
  · exact heq ▸ ⟨h.ordered, howns, by simp [h.inherits, capturedIn_concat, heq], h.inherited⟩

/-- What operations that fit leave agrees with them. -/
theorem traces_built (h : AllFit new ops) : Traces ops (built ops) := by
  induction ops using List.reverseRecOn with
  | nil => exact traces_new
  | append_singleton ops op ih =>
    obtain ⟨hops, hop⟩ := allFit_concat.1 h
    rw [built_concat]
    cases op with
    | openChild parent kind label => exact (ih hops).openChild hop
    | declare scope bucket name => exact (ih hops).declare hop.1 hop.2
    | lookup scope name => exact (ih hops).lookup hop

/-- A tree grows by every number of operations that fit, by induction on them. -/
theorem grows_built (h : AllFit new (ops ++ later)) : (built ops).Grows (built (ops ++ later)) := by
  induction later using List.reverseRecOn with
  | nil => simpa using Grows.refl (built ops)
  | append_singleton later op ih =>
    rw [← List.append_assoc] at h ⊢
    obtain ⟨hops, hop⟩ := allFit_concat.1 h
    rw [built_concat]
    exact (ih hops).trans (grows_perform hop)

/-- Two trees are the same but for what one scope remembers of one name. -/
structure Remembers (t t' : ScopeTree) (scope : Nat) (name : String) (entry : Option Nat) : Prop where
  size : t'.size = t.size
  others : ∀ a, a ≠ scope → t'.scopes[a]? = t.scopes[a]?
  scope : ∃ s inherited, t.scopes[scope]? = some s ∧
    t'.scopes[scope]? = some { s with inherited := inherited } ∧
    inherited[name]? = entry ∧ ∀ other, other ≠ name → inherited[other]? = s.inherited[other]?

/-- What a lookup answers after some operations, and what it leaves. A name is bound here if it was
    declared here or captured by an earlier lookup, and it is captured from the nearest scope around
    whose names can be seen from here. A name that was bound once stays bound. -/
structure LooksUp (ops : List Operation) (scope : Nat) (name : String) : Prop where
  owns : ∀ (a : Nat) (other : String), (built ops).owns other a = true ↔
    ∃ bucket, .declare a bucket other ∈ ops
  here : ((built ops).lookup scope name).2 = .here ↔
    (built ops).owns name scope = true ∨ CapturedIn ops name scope
  captured : ∀ owner, ((built ops).lookup scope name).2 = .captured owner ↔
    ((built ops).lookup scope name).2 ≠ .here ∧ (built ops).NearestOwner name scope owner
  unbound : ((built ops).lookup scope name).2 = .unbound ↔
    ((built ops).lookup scope name).2 ≠ .here ∧
      ∀ owner, ¬ (built ops).NearestOwner name scope owner
  frame : Remembers (built ops) ((built ops).lookup scope name).1 scope name
    (((built ops).lookup scope name).2.owner?.or ((built ops).inheritedFrom name scope))
  inherited : ∀ (a owner : Nat) (other : String), (built ops).inheritedFrom other a = some owner →
    owner ≠ a ∧ (built ops).Within a owner ∧ (built ops).owns other owner = true
  /-- A name that is bound is never unbound again. -/
  lasting : ((built ops).lookup scope name).2 ≠ .unbound → ∀ later, AllFit new (ops ++ later) →
    ((built (ops ++ later)).lookup scope name).2 ≠ .unbound

/-- A lookup leaves the tree as it was, but for what one scope remembers of the name. -/
theorem remembers_lookup (hscope : scope < t.size) (name : String) :
    Remembers t (t.lookup scope name).1 scope name
      ((t.lookup scope name).2.owner?.or (t.inheritedFrom name scope)) := by
  have hs : t.scopes[scope]? = some t.scopes[scope] := Array.getElem?_eq_getElem hscope
  have hsame : Remembers t t scope name (t.inheritedFrom name scope) :=
    ⟨rfl, fun _ _ => rfl, t.scopes[scope], t.scopes[scope].inherited, hs, hs,
      by rw [inheritedFrom, hs, Option.bind_some], fun _ _ => rfl⟩
  rcases t.lookup_cases scope name with ⟨-, h⟩ | ⟨-, ⟨owner, -, h⟩ | ⟨-, h⟩⟩
  · rwa [h]
  · rw [h]
    refine ⟨t.size_record scope name owner, fun a ha => ?_, t.scopes[scope],
      t.scopes[scope].inherited.insert name owner, hs, ?_, ?_, fun other hother => ?_⟩
    · rw [getElem?_record, if_neg ha.symm]
    · rw [getElem?_record, if_pos rfl, hs, Option.map_some]
    · rw [Std.ExtTreeMap.getElem?_insert_self]
      rfl
    · have hne : compare name other ≠ .eq := fun h => hother (Std.LawfulEqCmp.compare_eq_iff_eq.1 h).symm
      rw [Std.ExtTreeMap.getElem?_insert, if_neg hne]
  · rwa [h]

/-- Lookups while a tree grows. Each answer follows from the operations before it, a lookup writes
nothing but the entry for its own scope and name, and what is bound stays bound. -/
theorem looksUp_of_allFit (h : AllFit new ops) (hscope : scope < (built ops).size) (name : String) :
    LooksUp ops scope name := by
  have htraces := traces_built h
  have hcaptured (owner : Nat) : ((built ops).lookup scope name).2 = .captured owner ↔
      ((built ops).lookup scope name).2 ≠ .here ∧ (built ops).NearestOwner name scope owner :=
    lookup_eq_captured htraces.ordered hscope
  exact
    { owns := fun a other => htraces.owns other a
      here := by
        rw [← htraces.inherits]
        rcases (built ops).lookup_cases scope name with ⟨hbound, heq⟩ | ⟨hnot, ⟨owner, -, heq⟩ | ⟨-, heq⟩⟩
        · simpa [heq] using hbound
        · simp [heq, hnot]
        · simp [heq, hnot]
      captured := hcaptured
      unbound := by
        constructor
        · intro hunbound
          refine ⟨by simp [hunbound], fun owner hnearest => ?_⟩
          have hfound := (hcaptured owner).2 ⟨by simp [hunbound], hnearest⟩
          rw [hunbound] at hfound
          cases hfound
        · rintro ⟨hnot, hnone⟩
          cases hanswer : ((built ops).lookup scope name).2 with
          | here => exact absurd hanswer hnot
          | captured owner => exact absurd ((hcaptured owner).1 hanswer).2 (hnone owner)
          | unbound => rfl
      frame := remembers_lookup hscope name
      inherited := fun a owner other hfrom => by
        obtain ⟨hwithin, howns⟩ := htraces.inherited other a owner hfrom
        exact ⟨Nat.ne_of_lt (htraces.ordered.lt_of_within hwithin), hwithin, howns⟩
      lasting := fun hbound later hlater =>
        (grows_built hlater).lookup_ne_unbound htraces.ordered (traces_built hlater).ordered hscope hbound }

/-- A closure in a nested function captures a name of the outer function, which the function between
them declares only later. -/
def lateDeclaration : List Operation :=
  [.declare 0 .ordinary "x", .openChild 0 .function (some "outer"),
    .openChild 1 .function (some "inner"), .declare 1 .ordinary "x", .openChild 2 .closure none,
    .lookup 3 "x", .declare 2 .persistent "x"]

/-- Lookups after a capture follow from the operations, too. -/
theorem looksUp_from_closure :
    AllFit new lateDeclaration ∧ 3 < (built lateDeclaration).size ∧ LooksUp lateDeclaration 3 "x" := by
  have hnew : new.size = 1 := rfl
  have hfit : AllFit new lateDeclaration := by
    simp [lateDeclaration, AllFit, Operation.Fits, perform, hnew, size_declare, size_openChild,
      size_lookup]
  have hsize : 3 < (built lateDeclaration).size := by
    simp [lateDeclaration, built, perform, hnew, size_declare, size_openChild, size_lookup]
  exact ⟨hfit, hsize, looksUp_of_allFit hfit hsize "x"⟩

end ScopeTree

end ScriptBuild
