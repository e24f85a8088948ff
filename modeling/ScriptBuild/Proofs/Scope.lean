import ScriptBuild.Scope

namespace ScriptBuild

/-- A list that ends with some element is split at that element, or before. -/
theorem concat_eq_append_cons {α : Type} {l before after : List α} {last a : α} :
    l ++ [last] = before ++ a :: after ↔
      (after = [] ∧ l = before ∧ last = a) ∨
        ∃ rest, after = rest ++ [last] ∧ l = before ++ a :: rest := by
  constructor
  · intro h
    rcases List.eq_nil_or_concat after with rfl | ⟨rest, last', rfl⟩
    · obtain ⟨hbefore, hlast⟩ := List.append_inj' h rfl
      exact .inl ⟨rfl, hbefore, (List.cons.inj hlast).1⟩
    · have h' : l ++ [last] = (before ++ a :: rest) ++ [last'] := by simpa using h
      obtain ⟨hl, hlast⟩ := List.append_inj' h' rfl
      refine .inr ⟨rest, ?_, hl⟩
      rw [(List.cons.inj hlast).1, List.concat_eq_append]
  · rintro (⟨rfl, rfl, rfl⟩ | ⟨rest, rfl, rfl⟩)
    · rfl
    · simp

namespace ScopeTree

variable {t t' : ScopeTree} {scope a : Nat} {name : String}

/-- Whether a scope declares a nested function. -/
def nests (t : ScopeTree) (name : String) (scope : Nat) : Bool :=
  t.scopes[scope]?.any (·.nested.contains name)

/-- Whether a scope remembers a name as captured. -/
def inherits (t : ScopeTree) (name : String) (scope : Nat) : Bool :=
  t.scopes[scope]?.any (·.inherited.contains name)

/-- The scopes of a tree stay where they are. No scope is ever moved. -/
def Keeps (t t' : ScopeTree) : Prop :=
  ∀ (scope : Nat) (s : Scope), t.scopes[scope]? = some s →
    ∃ s' : Scope, t'.scopes[scope]? = some s' ∧ s'.kind = s.kind ∧ s'.parent = s.parent

theorem getElem?_declare (t : ScopeTree) (scope a : Nat) (bucket : Bucket) (name : String) :
    (t.declare scope bucket name).scopes[a]? =
      if scope = a then t.scopes[a]?.map (·.declare bucket name) else t.scopes[a]? := by
  rw [declare, Array.getElem?_modify]

/-- A scope that is opened comes last, and is added to the children of its parent. -/
theorem getElem?_openChild (t : ScopeTree) (parent a : Nat) (kind : ScopeKind)
    (name : Option String) (hparent : parent < t.size) :
    (t.openChild parent kind name).scopes[a]? =
      if a = t.size then some (Scope.new kind name (some parent))
      else if a = parent then t.scopes[a]?.map fun p => { p with children := p.children ++ [t.size] }
      else t.scopes[a]? := by
  have hsize : parent ≠ t.scopes.size := Nat.ne_of_lt hparent
  rw [openChild, Array.getElem?_modify, Array.getElem?_push, size]
  by_cases hnew : a = t.scopes.size
  · rw [if_pos hnew, if_pos hnew, if_neg (hnew ▸ hsize)]
  · rw [if_neg hnew, if_neg hnew]
    by_cases ha : a = parent
    · rw [if_pos ha, if_pos ha.symm]
    · rw [if_neg ha, if_neg (Ne.symm ha)]

theorem size_declare (t : ScopeTree) (scope : Nat) (bucket : Bucket) (name : String) :
    (t.declare scope bucket name).size = t.size := Array.size_modify

theorem size_openChild (t : ScopeTree) (parent : Nat) (kind : ScopeKind) (name : Option String) :
    (t.openChild parent kind name).size = t.size + 1 := by
  simp [openChild, size]

/-- A declaration leaves the scopes where they are. -/
theorem keeps_declare (t : ScopeTree) (scope : Nat) (bucket : Bucket) (name : String) :
    t.Keeps (t.declare scope bucket name) := by
  intro a s hs
  rw [getElem?_declare, hs]
  split
  · exact ⟨_, rfl, by cases bucket <;> rfl, by cases bucket <;> rfl⟩
  · exact ⟨s, rfl, rfl, rfl⟩

/-- Opening a scope leaves the others where they are. -/
theorem keeps_openChild (t : ScopeTree) (parent : Nat) (kind : ScopeKind) (name : Option String)
    (hparent : parent < t.size) : t.Keeps (t.openChild parent kind name) := by
  intro a s hs
  have hlt : a ≠ t.size := by
    obtain ⟨hlt, -⟩ := Array.getElem?_eq_some_iff.1 hs
    exact Nat.ne_of_lt hlt
  rw [getElem?_openChild t parent a kind name hparent, if_neg hlt, hs]
  split
  · exact ⟨_, rfl, rfl, rfl⟩
  · exact ⟨s, rfl, rfl, rfl⟩

/-- A scope that was just opened binds nothing, and the others bind what they did. -/
theorem any_openChild (t : ScopeTree) (parent a : Nat) (kind : ScopeKind) (name : Option String)
    (hparent : parent < t.size) {p : Scope → Bool}
    (hnew : p (Scope.new kind name (some parent)) = false)
    (hold : ∀ s children, p { s with children := children } = p s) :
    (t.openChild parent kind name).scopes[a]?.any p = t.scopes[a]?.any p := by
  rw [getElem?_openChild t parent a kind name hparent]
  split
  · next ha =>
    have hnone : t.scopes[a]? = none := Array.getElem?_eq_none (Nat.le_of_eq ha.symm)
    rw [hnone, Option.any_some, hnew, Option.any_none]
  · split
    · cases t.scopes[a]? with
      | none => rfl
      | some s => exact hold s _
    · rfl

/-- A name that was just declared is bound by the scope, and the others bind what they did. -/
theorem any_declare (t : ScopeTree) (scope a : Nat) (bucket : Bucket) (name : String)
    (hscope : scope < t.size) {p : Scope → Bool} {new : Bool}
    (hadds : ∀ s : Scope, p (s.declare bucket name) = (new || p s)) :
    (t.declare scope bucket name).scopes[a]?.any p = ((scope == a && new) || t.scopes[a]?.any p) := by
  rw [getElem?_declare]
  split
  · next ha =>
    subst ha
    obtain ⟨s, hs⟩ : ∃ s, t.scopes[scope]? = some s := ⟨_, Array.getElem?_eq_getElem hscope⟩
    simp [hs, hadds]
  · next ha => simp [ha]

theorem compare_beq_eq (name other : String) :
    (compare name other == .eq) = (name == other) := by
  rw [Bool.eq_iff_iff, beq_iff_eq, beq_iff_eq, Std.LawfulEqCmp.compare_eq_iff_eq]

/-- What a scope binds after something was declared in it. -/
theorem owns_declare (t : ScopeTree) {bucket : Bucket} (hbucket : bucket ≠ .inherited)
    (hscope : scope < t.size) (name other : String) (a : Nat) :
    (t.declare scope bucket name).owns other a = ((scope == a && name == other) || t.owns other a) := by
  refine t.any_declare scope a bucket name hscope fun s => ?_
  cases bucket with
  | inherited => exact absurd rfl hbucket
  | ordinary | persistent | nestedFunction =>
    simp only [Scope.owns, Scope.declare, Std.ExtTreeSet.contains_insert, compare_beq_eq]
    cases name == other <;> simp

/-- A nested function is declared in one scope. -/
theorem nests_declare (t : ScopeTree) (bucket : Bucket) (hscope : scope < t.size)
    (name other : String) (a : Nat) : (t.declare scope bucket name).nests other a =
      ((scope == a && (bucket == .nestedFunction && name == other)) || t.nests other a) := by
  refine t.any_declare scope a bucket name hscope fun s => ?_
  cases bucket with
  | nestedFunction =>
    simp only [Scope.declare, Std.ExtTreeSet.contains_insert, compare_beq_eq, beq_self_eq_true,
      Bool.true_and]
  | ordinary | inherited | persistent => rfl

theorem inherits_declare (t : ScopeTree) {bucket : Bucket} (hbucket : bucket ≠ .inherited)
    (hscope : scope < t.size) (name other : String) (a : Nat) :
    (t.declare scope bucket name).inherits other a = t.inherits other a := by
  have hsame : (t.declare scope bucket name).scopes[a]?.any (·.inherited.contains other) =
      ((scope == a && false) || t.inherits other a) := by
    refine t.any_declare scope a bucket name hscope fun s => ?_
    cases bucket with
    | inherited => exact absurd rfl hbucket
    | ordinary | persistent | nestedFunction => rfl
  rwa [Bool.and_false, Bool.false_or] at hsame

/-- The tree in which a scope remembers where it captured a name from. -/
def record (t : ScopeTree) (scope : Nat) (name : String) (owner : Nat) : ScopeTree :=
  ⟨t.scopes.modify scope fun s => { s with inherited := s.inherited.insert name owner }⟩

theorem getElem?_record (t : ScopeTree) (scope a : Nat) (name : String) (owner : Nat) :
    (t.record scope name owner).scopes[a]? =
      if scope = a then
        t.scopes[a]?.map fun s => { s with inherited := s.inherited.insert name owner }
      else t.scopes[a]? := by
  rw [record, Array.getElem?_modify]

/-- All that a lookup can do. -/
theorem lookup_cases (t : ScopeTree) (scope : Nat) (name : String) :
    ((t.owns name scope = true ∨ t.inherits name scope = true) ∧
        t.lookup scope name = (t, .here)) ∨
      (t.owns name scope = false ∧ t.inherits name scope = false) ∧
        ((∃ owner, (t.visible scope).find? (t.owns name) = some owner ∧
            t.lookup scope name = (t.record scope name owner, .captured owner)) ∨
          (t.visible scope).find? (t.owns name) = none ∧ t.lookup scope name = (t, .unbound)) := by
  rw [lookup]
  split
  · next h => exact .inl ⟨by simpa [inherits] using h, rfl⟩
  · next h =>
    refine .inr ⟨by simpa [inherits] using h, ?_⟩
    split
    · next owner hfind => exact .inl ⟨owner, hfind, rfl⟩
    · next hfind => exact .inr ⟨hfind, rfl⟩

/-- A lookup keeps all but what is remembered of captured names. -/
theorem lookup_fst (t : ScopeTree) (scope : Nat) (name : String) :
    (t.lookup scope name).1 = t ∨ ∃ owner ∈ t.visible scope, t.owns name owner = true ∧
      (t.lookup scope name).1 = t.record scope name owner := by
  rcases t.lookup_cases scope name with ⟨-, h⟩ | ⟨-, ⟨owner, hfind, h⟩ | ⟨-, h⟩⟩
  · exact .inl (congrArg Prod.fst h)
  · exact .inr ⟨owner, List.mem_of_find?_eq_some hfind, List.find?_some hfind, congrArg Prod.fst h⟩
  · exact .inl (congrArg Prod.fst h)

/-- A lookup finds nothing if the scope neither binds nor remembers the name, and no visible scope
binds it. -/
theorem lookup_eq_unbound : (t.lookup scope name).2 = .unbound ↔
    t.inherits name scope = false ∧ ∀ a ∈ scope :: t.visible scope, t.owns name a = false := by
  rcases t.lookup_cases scope name with ⟨hbound, h⟩ | ⟨⟨howns, hinherits⟩, ⟨owner, hfind, h⟩ | ⟨hfind, h⟩⟩
  · refine iff_of_false (by simp [h]) ?_
    rintro ⟨hinherits, howns⟩
    simp [hinherits, howns scope List.mem_cons_self] at hbound
  · refine iff_of_false (by simp [h]) ?_
    rintro ⟨-, hnone⟩
    have hfound := List.find?_some hfind
    rw [hnone owner (List.mem_cons_of_mem _ (List.mem_of_find?_eq_some hfind))] at hfound
    cases hfound
  · refine iff_of_true (by rw [h]) ⟨hinherits, fun a ha => ?_⟩
    rcases List.mem_cons.1 ha with rfl | ha
    · exact howns
    · simpa using List.find?_eq_none.1 hfind a ha

theorem size_record (t : ScopeTree) (scope : Nat) (name : String) (owner : Nat) :
    (t.record scope name owner).size = t.size := Array.size_modify

theorem size_lookup (t : ScopeTree) (scope : Nat) (name : String) :
    (t.lookup scope name).1.size = t.size := by
  rcases t.lookup_fst scope name with h | ⟨owner, -, -, h⟩
  · rw [h]
  · rw [h, size_record]

/-- A lookup leaves the scopes where they are. -/
theorem keeps_lookup (t : ScopeTree) (scope : Nat) (name : String) :
    t.Keeps (t.lookup scope name).1 := by
  intro a s hs
  rcases t.lookup_fst scope name with h | ⟨owner, -, -, h⟩
  · rw [h]
    exact ⟨s, hs, rfl, rfl⟩
  · rw [h, getElem?_record, hs]
    split
    · exact ⟨_, rfl, rfl, rfl⟩
    · exact ⟨s, rfl, rfl, rfl⟩

/-- What a lookup does not write reads the same. -/
theorem any_lookup (t : ScopeTree) (scope : Nat) (name : String) (a : Nat) {p : Scope → Bool}
    (hp : ∀ s inherited, p { s with inherited := inherited } = p s) :
    (t.lookup scope name).1.scopes[a]?.any p = t.scopes[a]?.any p := by
  rcases t.lookup_fst scope name with h | ⟨owner, -, -, h⟩
  · rw [h]
  · rw [h, getElem?_record]
    split
    · cases t.scopes[a]? with
      | none => rfl
      | some s => exact hp s _
    · rfl

/-- Only the captured name is remembered, and only in its scope. -/
theorem inherits_record {owner : Nat} {other : String}
    (h : (t.record scope name owner).inherits other a = true) :
    t.inherits other a = true ∨ (a = scope ∧ other = name) := by
  rw [inherits, getElem?_record] at h
  split at h
  · next ha =>
    subst ha
    rw [Option.any_map] at h
    obtain ⟨s, hs, hcontains⟩ := (Option.any_eq_true _ _).1 h
    simp only [Std.ExtTreeMap.contains_insert, Bool.or_eq_true] at hcontains
    rcases hcontains with hname | hold
    · have hsame : name = other := Std.LawfulEqCmp.compare_eq_iff_eq.1 (beq_iff_eq.1 hname)
      exact .inr ⟨rfl, hsame.symm⟩
    · refine .inl ?_
      rw [inherits, hs, Option.any_some]
      exact hold
  · exact .inl h

/-- A lookup remembers nothing but the name it was asked for, if a visible scope binds that. -/
theorem inherits_lookup {other : String} (h : (t.lookup scope name).1.inherits other a) :
    t.inherits other a ∨ (a = scope ∧ other = name ∧ ∃ b ∈ t.visible scope, t.owns name b) := by
  rcases t.lookup_fst scope name with heq | ⟨owner, hmem, howns, heq⟩
  · rw [heq] at h
    exact .inl h
  · rw [heq] at h
    exact (inherits_record h).imp_right fun ⟨ha, hname⟩ => ⟨ha, hname, owner, hmem, howns⟩

end ScopeTree

end ScriptBuild
