import ScriptBuild.Proofs.Scope.Lookup
import Mathlib.Data.Fintype.EquivFin

namespace ScriptBuild

/-- A loop ends with an answer. Each turn gives the answer, or the state of the next turn. Walks
    outwards are described so, turn by turn and without a bound; one that ends has the answer that
    the bounded walk gives. -/
inductive EndsWith {σ α : Type} (turn : σ → σ ⊕ α) : σ → α → Prop
  | answer {s : σ} {a : α} (h : turn s = .inr a) : EndsWith turn s a
  | again {s s' : σ} {a : α} (h : turn s = .inl s') (hrest : EndsWith turn s' a) :
      EndsWith turn s a

section

variable {σ α : Type} {turn : σ → σ ⊕ α} {s s' : σ} {a : α}

/-- A loop has the answer that it has after one more turn. -/
theorem endsWith_iff_of_again (h : turn s = .inl s') : EndsWith turn s a ↔ EndsWith turn s' a := by
  refine ⟨fun hends => ?_, .again h⟩
  cases hends with
  | answer hanswer =>
    rw [h] at hanswer
    cases hanswer
  | again hagain hrest =>
    rw [h] at hagain
    cases hagain
    exact hrest

/-- A loop that stays where it is does not end. -/
theorem not_endsWith_of_stays (h : turn s = .inl s) : ¬ EndsWith turn s a := by
  intro hends
  induction hends with
  | answer hanswer =>
    rw [h] at hanswer
    cases hanswer
  | again hagain _ ih =>
    rw [h] at hagain
    cases hagain
    exact ih h

/-- A loop through numbers that never goes up ends exactly if it gets nowhere where it stays. -/
theorem exists_endsWith_iff {turn : Nat → Nat ⊕ α} (hle : ∀ n m, turn n = .inl m → m ≤ n) (n : Nat) :
    (∃ a, EndsWith turn n a) ↔
      ∀ m, Relation.ReflTransGen (fun n m => turn n = .inl m) n m → turn m ≠ .inl m := by
  constructor
  · rintro ⟨a, hends⟩ m hpath hstays
    induction hpath using Relation.ReflTransGen.head_induction_on with
    | refl => exact not_endsWith_of_stays hstays hends
    | head hturn _ ih => exact ih ((endsWith_iff_of_again hturn).1 hends)
  · induction n using Nat.strong_induction_on with
    | _ n ih =>
      intro hmoves
      cases hturn : turn n with
      | inr a => exact ⟨a, .answer hturn⟩
      | inl m =>
        have hne : m ≠ n := by
          rintro rfl
          exact hmoves m .refl hturn
        obtain ⟨a, hends⟩ := ih m (Nat.lt_of_le_of_ne (hle n m hturn) hne)
          fun k hpath => hmoves k (.head hturn hpath)
        exact ⟨a, .again hturn hends⟩

/-- Loops that make no steps but some that never go up, one of them all of these, end exactly if no step
that they can get to stays where it is. -/
theorem forall_endsWith_iff {ι : Type} {turn : ι → Nat → Nat ⊕ α} {step : Nat → Nat → Prop}
    (hle : ∀ n m, step n m → m ≤ n) (hstep : ∀ i n m, turn i n = .inl m → step n m)
    (hall : ∃ i, ∀ n m, step n m → turn i n = .inl m) (n : Nat) :
    (∀ i, ∃ a, EndsWith (turn i) n a) ↔ ∀ m, Relation.ReflTransGen step n m → ¬ step m m := by
  have hdown (i : ι) (n m : Nat) (hturn : turn i n = .inl m) : m ≤ n := hle n m (hstep i n m hturn)
  constructor
  · intro hends m hpath hstays
    obtain ⟨i, hturn⟩ := hall
    exact (exists_endsWith_iff (hdown i) n).1 (hends i) m
      (Relation.ReflTransGen.mono hturn _ _ hpath) (hturn m m hstays)
  · intro hmoves i
    refine (exists_endsWith_iff (hdown i) n).2 fun m hpath hstays => ?_
    exact hmoves m (Relation.ReflTransGen.mono (hstep i) _ _ hpath) (hstep i m m hstays)

end

namespace ScopeTree

variable {t : ScopeTree} {scope inner outer a : Nat} {name : String} {found : Option Nat}

/-- A turn of the walk of a lookup. It goes to the scope around, unless that one cannot be seen or binds
    the name. -/
def lookupTurn (t : ScopeTree) (name : String) (scope : Nat) : Nat ⊕ Option Nat :=
  match t.visibleParent scope with
  | none => .inr none
  | some parent => if t.owns name parent then .inr (some parent) else .inl parent

/-- A turn of the search for a nested function. It goes to the scope around, unless the present one
    declares the function. -/
def nestedTurn (t : ScopeTree) (name : String) (scope : Nat) : Nat ⊕ Option Nat :=
  if t.nests name scope then .inr (some scope)
  else match t.parentOf scope with
    | none => .inr none
    | some parent => .inl parent

/-- No scope is older than the one around it. -/
def Descends (t : ScopeTree) : Prop := ∀ inner outer, t.parentOf inner = some outer → outer ≤ inner

/-- A lookup goes on to the scope around as long as that one is seen and does not bind the name. -/
theorem lookupTurn_eq_inl :
    t.lookupTurn name inner = .inl outer ↔ t.Sees inner outer ∧ t.owns name outer = false := by
  rw [lookupTurn, ← visibleParent_eq_some]
  cases t.visibleParent inner with
  | none => simp
  | some parent =>
    cases howns : t.owns name parent with
    | true =>
      refine iff_of_false (by simp [howns]) ?_
      rintro ⟨heq, hnot⟩
      rw [← Option.some.inj heq, howns] at hnot
      cases hnot
    | false =>
      simp only [howns, Bool.false_eq_true, if_false, Sum.inl.injEq, Option.some.injEq]
      exact ⟨fun heq => ⟨heq, heq ▸ howns⟩, And.left⟩

/-- The search for a nested function goes on to the parent as long as the present scope does not
declare the function. -/
theorem nestedTurn_eq_inl : t.nestedTurn name inner = .inl outer ↔
    t.parentOf inner = some outer ∧ t.nests name inner = false := by
  rw [nestedTurn]
  cases t.nests name inner with
  | true => simp
  | false => cases t.parentOf inner <;> simp

/-- A scope that is its own parent sees itself, for it is not both a function and a unit. -/
theorem sees_self_iff : t.Sees a a ↔ t.parentOf a = some a := by
  refine and_iff_left ?_
  rintro ⟨hfunction, hunit⟩
  obtain ⟨s, hs, hkind⟩ := (Option.any_eq_true _ _).1 hfunction
  rw [hasKind, hs, Option.any_some, eq_of_beq hkind] at hunit
  cases hunit

/-- A function that a scope declares is bound by the scope. -/
theorem nests_of_not_owns (h : t.owns name a = false) : t.nests name a = false := by
  refine Bool.eq_false_iff.2 fun hnests => ?_
  obtain ⟨s, hs, hnested⟩ := (Option.any_eq_true _ _).1 hnests
  rw [owns, hs, Option.any_some, Scope.owns, hnested, Bool.or_true] at h
  cases h

/-- There is a name that no scope binds. -/
theorem exists_unowned (t : ScopeTree) : ∃ name, ∀ a, t.owns name a = false := by
  let names := t.scopes.toList.flatMap fun s =>
    s.ordinary.toList ++ s.persistent.toList ++ s.nested.toList
  obtain ⟨name, hname⟩ := Infinite.exists_notMem_finset names.toFinset
  refine ⟨name, fun a => ?_⟩
  rw [owns]
  cases hs : t.scopes[a]? with
  | none => rfl
  | some s =>
    rw [Option.any_some, Scope.owns, ← Bool.not_eq_true]
    have hmem : s ∈ t.scopes.toList := Array.mem_toList_iff.2 (Array.mem_of_getElem? hs)
    rw [List.mem_toFinset, List.mem_flatMap] at hname
    have hnot := fun h => hname ⟨s, hmem, h⟩
    simpa [Std.ExtTreeSet.mem_toList, and_assoc] using hnot

namespace Descends

/-- The walks of lookups from a scope end for all names unless a scope that can be seen from it is its own
parent. -/
theorem lookups_end_iff (h : t.Descends) (scope : Nat) :
    (∀ name, ∃ found, EndsWith (t.lookupTurn name) scope found) ↔
      ∀ a, Relation.ReflTransGen t.Sees scope a → t.parentOf a ≠ some a := by
  have hstep (name : String) (inner outer : Nat) (hturn : t.lookupTurn name inner = .inl outer) :
      t.Sees inner outer := (lookupTurn_eq_inl.1 hturn).1
  -- A name that is bound somewhere may end the walk early; only a free one makes all steps.
  have hall : ∃ name, ∀ inner outer, t.Sees inner outer → t.lookupTurn name inner = .inl outer := by
    obtain ⟨name, hname⟩ := t.exists_unowned
    exact ⟨name, fun inner outer hsees => lookupTurn_eq_inl.2 ⟨hsees, hname outer⟩⟩
  rw [forall_endsWith_iff (fun inner outer hsees => h inner outer hsees.1) hstep hall]
  exact forall₂_congr fun a _ => not_congr sees_self_iff

/-- Searches for a nested function from a scope end for all names unless the scope or one around it is its
own parent. -/
theorem searches_end_iff (h : t.Descends) (scope : Nat) :
    (∀ name, ∃ found, EndsWith (t.nestedTurn name) scope found) ↔
      ∀ a, Relation.ReflTransGen (fun inner outer => t.parentOf inner = some outer) scope a →
        t.parentOf a ≠ some a := by
  have hstep (name : String) (inner outer : Nat) (hturn : t.nestedTurn name inner = .inl outer) :
      t.parentOf inner = some outer := (nestedTurn_eq_inl.1 hturn).1
  have hall : ∃ name, ∀ inner outer, t.parentOf inner = some outer →
      t.nestedTurn name inner = .inl outer := by
    obtain ⟨name, hname⟩ := t.exists_unowned
    exact ⟨name, fun inner outer hparent => nestedTurn_eq_inl.2 ⟨hparent, nests_of_not_owns (hname inner)⟩⟩
  exact forall_endsWith_iff h hstep hall scope

/-- A walk that goes on and ends has gone to an older scope. -/
theorem lt_of_again (h : t.Descends) {turn : Nat → Nat ⊕ Option Nat}
    (hparent : t.parentOf inner = some outer) (hturn : turn inner = .inl outer)
    (hends : EndsWith turn outer found) : outer < inner := by
  refine Nat.lt_of_le_of_ne (h inner outer hparent) ?_
  rintro rfl
  exact not_endsWith_of_stays hturn hends

/-- The walk of a lookup that ends gets to its answer within the bound. -/
theorem find?_chain (h : t.Descends) (hends : EndsWith (t.lookupTurn name) scope found) {fuel : Nat}
    (hfuel : scope < fuel) : (chain t.visibleParent fuel scope).find? (t.owns name) = found := by
  induction hends generalizing fuel with
  | @answer scope found hanswer =>
    obtain ⟨fuel, rfl⟩ := Nat.exists_eq_add_one_of_ne_zero (Nat.ne_zero_of_lt hfuel)
    rw [chain]
    rw [lookupTurn] at hanswer
    cases hparent : t.visibleParent scope with
    | none =>
      rw [hparent] at hanswer
      cases hanswer
      rfl
    | some parent =>
      simp only [hparent] at hanswer ⊢
      split at hanswer
      · next howns =>
        cases hanswer
        rw [List.find?_cons_of_pos howns]
      · cases hanswer
  | @again scope next found hturn hrest ih =>
    obtain ⟨fuel, rfl⟩ := Nat.exists_eq_add_one_of_ne_zero (Nat.ne_zero_of_lt hfuel)
    obtain ⟨hsees, hnot⟩ := lookupTurn_eq_inl.1 hturn
    have hlt : next < scope := h.lt_of_again hsees.1 hturn hrest
    rw [chain]
    simp only [visibleParent_eq_some.2 hsees]
    rw [List.find?_cons_of_neg (by rw [hnot]; exact Bool.false_ne_true)]
    exact ih (by omega)

/-- A search for a nested function that ends gets to its answer within the bound. -/
theorem find?_cons_chain (h : t.Descends) (hends : EndsWith (t.nestedTurn name) scope found) {fuel : Nat}
    (hfuel : scope < fuel) :
    (scope :: chain t.parentOf fuel scope).find? (t.nests name) = found := by
  induction hends generalizing fuel with
  | @answer scope found hanswer =>
    obtain ⟨fuel, rfl⟩ := Nat.exists_eq_add_one_of_ne_zero (Nat.ne_zero_of_lt hfuel)
    rw [nestedTurn] at hanswer
    split at hanswer
    · next hnests =>
      cases hanswer
      rw [List.find?_cons_of_pos hnests]
    · next hnests =>
      cases hparent : t.parentOf scope with
      | none =>
        rw [hparent] at hanswer
        cases hanswer
        simp [chain, hparent, hnests]
      | some parent =>
        rw [hparent] at hanswer
        cases hanswer
  | @again scope next found hturn hrest ih =>
    obtain ⟨fuel, rfl⟩ := Nat.exists_eq_add_one_of_ne_zero (Nat.ne_zero_of_lt hfuel)
    obtain ⟨hparent, hnot⟩ := nestedTurn_eq_inl.1 hturn
    have hlt : next < scope := h.lt_of_again hparent hturn hrest
    rw [List.find?_cons_of_neg (by rw [hnot]; exact Bool.false_ne_true), chain]
    simp only [hparent]
    exact ih (by omega)

/-- A lookup of a name that the scope neither binds nor remembers has the answer of its walk. -/
theorem lookup_eq (h : t.Descends) (hscope : scope < t.size) (howns : t.owns name scope = false)
    (hinherits : t.inherits name scope = false) (hends : EndsWith (t.lookupTurn name) scope found) :
    (t.lookup scope name).2 = found.elim .unbound .captured := by
  have hfound := h.find?_chain hends hscope
  rcases t.lookup_cases scope name with ⟨hbound, -⟩ | ⟨-, ⟨owner, hfind, heq⟩ | ⟨hfind, heq⟩⟩
  · simp [howns, hinherits] at hbound
  · rw [visible, hfound] at hfind
    rw [heq, hfind]
    rfl
  · rw [visible, hfound] at hfind
    rw [heq, hfind]
    rfl

end Descends

/-- What a tree is asked for: a change, or a look that leaves it as it is. -/
inductive Request where
  | change (op : Operation)
  | findNested (scope : Nat) (name : String)
  | get (scope : Nat)

/-- A request comes to an end: the scopes that it is about are there, and its walk outwards ends. -/
def Returns (t : ScopeTree) : Request → Prop
  | .change (.openChild parent kind name) => (t.open? parent kind name).isSome
  | .change (.declare scope _ _) => scope < t.size
  | .change (.lookup scope name) => scope < t.size ∧
      (t.owns name scope = true ∨ t.inherits name scope = true ∨
        ∃ found, EndsWith (t.lookupTurn name) scope found)
  | .findNested scope name => scope < t.size ∧ ∃ found, EndsWith (t.nestedTurn name) scope found
  | .get _ => True

/-- The tree after a request. -/
def serve (t : ScopeTree) : Request → ScopeTree
  | .change op => t.perform op
  | .findNested _ _ | .get _ => t

/-- The tree after some requests to a new one. -/
def served (requests : List Request) : ScopeTree := requests.foldl serve new

/-- Each of some requests returns. -/
def AllReturn (t : ScopeTree) : List Request → Prop
  | [] => True
  | request :: requests => t.Returns request ∧ AllReturn (t.serve request) requests

/-- A scope was opened below itself, that is, with the number that it got for its parent's. A new
    scope counts as being there when its parent is checked, so that this can happen; it is the only
    way in which a walk goes on for ever. -/
def OpenedInItself (requests : List Request) (scope : Nat) : Prop :=
  ∃ before after kind name, requests = before ++ .change (.openChild scope kind name) :: after ∧
    (served before).size = scope

variable {requests : List Request} {request : Request}

/-- The last request is served by the tree that the others led to. -/
@[simp] theorem served_concat (requests : List Request) (request : Request) :
    served (requests ++ [request]) = (served requests).serve request := by
  simp [served, List.foldl_append]

theorem allReturn_concat : AllReturn t (requests ++ [request]) ↔
    AllReturn t requests ∧ (requests.foldl serve t).Returns request := by
  induction requests generalizing t with
  | nil => simp [AllReturn]
  | cons first requests ih => simp [AllReturn, ih, and_assoc]

/-- A scope was opened below itself by the last request or before it. -/
theorem openedInItself_concat : OpenedInItself (requests ++ [request]) scope ↔
    OpenedInItself requests scope ∨
      (∃ kind name, request = .change (.openChild scope kind name)) ∧
        (served requests).size = scope := by
  constructor
  · rintro ⟨before, after, kind, name, heq, hsize⟩
    rcases concat_eq_append_cons.1 heq with ⟨-, rfl, hrequest⟩ | ⟨rest, -, hrequests⟩
    · exact .inr ⟨⟨kind, name, hrequest⟩, hsize⟩
    · exact .inl ⟨before, rest, kind, name, hrequests, hsize⟩
  · rintro (⟨before, after, kind, name, rfl, hsize⟩ | ⟨⟨kind, name, rfl⟩, hsize⟩)
    · exact ⟨before, after ++ [request], kind, name, by simp, hsize⟩
    · exact ⟨requests, [], kind, name, rfl, hsize⟩

/-- Every scope but the root has a parent, which is an older scope, or the scope itself if it was opened
    so. -/
structure Attached (requests : List Request) : Prop where
  size_pos : 0 < (served requests).size
  root : (served requests).parentOf 0 = none
  parents : ∀ scope, 0 < scope → scope < (served requests).size → ∃ parent,
    (served requests).parentOf scope = some parent ∧ parent ≤ scope ∧
      (parent = scope ↔ OpenedInItself requests scope)
  opened : ∀ scope, OpenedInItself requests scope → 0 < scope ∧ scope < (served requests).size

theorem attached_nil : Attached [] where
  size_pos := Nat.one_pos
  root := rfl
  parents _ hpos hlt := absurd hlt (Nat.not_lt.2 hpos)
  opened := by
    rintro scope ⟨before, after, kind, name, heq, -⟩
    simp at heq

namespace Attached

/-- A request that opens no scope moves none. -/
theorem keep (h : Attached requests)
    (hnot : ∀ parent kind name, request ≠ .change (.openChild parent kind name))
    (hsize : ((served requests).serve request).size = (served requests).size)
    (hparentOf : ∀ a, ((served requests).serve request).parentOf a = (served requests).parentOf a) :
    Attached (requests ++ [request]) := by
  have hopened (scope : Nat) :
      OpenedInItself (requests ++ [request]) scope ↔ OpenedInItself requests scope := by
    rw [openedInItself_concat, or_iff_left]
    rintro ⟨⟨kind, name, heq⟩, -⟩
    exact hnot scope kind name heq
  rw [← served_concat] at hsize hparentOf
  refine ⟨hsize ▸ h.size_pos, ?_, fun scope hpos hlt => ?_, fun scope hself => ?_⟩
  · rw [hparentOf, h.root]
  · rw [hparentOf, hopened]
    exact h.parents scope hpos (hsize ▸ hlt)
  · rw [hsize]
    exact h.opened scope ((hopened scope).1 hself)

/-- A scope that is opened below an older one, or below itself, is attached. -/
theorem openChild {parent : Nat} {kind : ScopeKind} {label : Option String} (h : Attached requests)
    (hparent : parent ≤ (served requests).size) :
    Attached (requests ++ [.change (.openChild parent kind label)]) := by
  have hserved : served (requests ++ [.change (.openChild parent kind label)]) =
      (served requests).openChild parent kind label := served_concat _ _
  have hopened (scope : Nat) :
      OpenedInItself (requests ++ [.change (.openChild parent kind label)]) scope ↔
        OpenedInItself requests scope ∨ parent = scope ∧ (served requests).size = scope := by
    simp [openedInItself_concat, eq_comm]
  refine ⟨?_, ?_, fun scope hpos hlt => ?_, fun scope hself => ?_⟩
  · rw [hserved, size_openChild]
    exact Nat.succ_pos _
  · rw [hserved, parentOf_openChild, if_neg (Nat.ne_of_lt h.size_pos), h.root]
  · rw [hserved, size_openChild] at hlt
    rw [hserved, parentOf_openChild]
    simp only [hopened]
    split
    · next hnew =>
      have hold : ¬ OpenedInItself requests scope := fun hself =>
        Nat.ne_of_lt (h.opened scope hself).2 hnew
      exact ⟨parent, rfl, hnew ▸ hparent, by rw [or_iff_right hold, and_iff_left hnew.symm]⟩
    · next hne =>
      rw [or_iff_left fun hself => hne hself.2.symm]
      exact h.parents scope hpos (by omega)
  · rw [hserved, size_openChild]
    have hsize := h.size_pos
    rcases (hopened scope).1 hself with hold | ⟨-, heq⟩
    · exact (h.opened scope hold).imp_right Nat.lt_succ_of_lt
    · omega

/-- What one request does to the parents of scopes. -/
theorem serve (h : Attached requests) (hreturns : (served requests).Returns request) :
    Attached (requests ++ [request]) := by
  cases request with
  | change op =>
    cases op with
    | openChild parent kind label =>
      rw [Returns, open?, Option.isSome_ite] at hreturns
      exact h.openChild hreturns
    | declare scope bucket name =>
      exact h.keep (by simp) (size_declare _ scope bucket name) fun a => parentOf_declare a
    | lookup scope name =>
      refine h.keep (by simp) (size_lookup _ scope name) fun a => ?_
      rw [ScopeTree.serve, perform]
      rcases (served requests).lookup_fst scope name with heq | ⟨owner, -, -, heq⟩
      · rw [heq]
      · rw [heq, parentOf_record]
  | findNested scope name => exact h.keep (by simp) rfl fun _ => rfl
  | get scope => exact h.keep (by simp) rfl fun _ => rfl

/-- A scope is its own parent if it was opened below itself. -/
theorem parentOf_self_iff (h : Attached requests) :
    (served requests).parentOf a = some a ↔ OpenedInItself requests a := by
  constructor
  · intro hself
    rcases Nat.eq_zero_or_pos a with rfl | hpos
    · rw [h.root] at hself
      cases hself
    · obtain ⟨parent, hparent, -, hiff⟩ := h.parents a hpos (lt_size_of_parentOf hself)
      exact hiff.1 (Option.some.inj (hparent.symm.trans hself))
  · intro hopened
    obtain ⟨hpos, hlt⟩ := h.opened a hopened
    obtain ⟨parent, hparent, -, hiff⟩ := h.parents a hpos hlt
    rw [hparent, hiff.2 hopened]

/-- Attached scopes are not older than those around them. -/
theorem descends (h : Attached requests) : (served requests).Descends := by
  intro inner outer hinner
  rcases Nat.eq_zero_or_pos inner with rfl | hpos
  · rw [h.root] at hinner
    cases hinner
  · obtain ⟨parent, hparent, hle, -⟩ := h.parents inner hpos (lt_size_of_parentOf hinner)
    exact Option.some.inj (hparent.symm.trans hinner) ▸ hle

end Attached

/-- Requests that return leave scopes attached, by induction on the requests. -/
theorem attached_of_allReturn (h : AllReturn new requests) : Attached requests := by
  induction requests using List.reverseRecOn with
  | nil => exact attached_nil
  | append_singleton requests request ih =>
    obtain ⟨hrequests, hrequest⟩ := allReturn_concat.1 h
    exact (ih hrequests).serve hrequest

/-- Scopes are attached, and it is known which walks outwards end for all names and what they find. -/
structure Founded (requests : List Request) : Prop extends Attached requests where
  lookups : ∀ scope, (∀ name, ∃ found, EndsWith ((served requests).lookupTurn name) scope found) ↔
    ∀ a, Relation.ReflTransGen (served requests).Sees scope a → ¬ OpenedInItself requests a
  searches : ∀ scope, (∀ name, ∃ found, EndsWith ((served requests).nestedTurn name) scope found) ↔
    ∀ a, Relation.ReflTransGen (fun inner outer => (served requests).parentOf inner = some outer)
      scope a → ¬ OpenedInItself requests a
  lookup_eq : ∀ scope < (served requests).size, ∀ name,
    (served requests).owns name scope = false → (served requests).inherits name scope = false →
    ∀ found, EndsWith ((served requests).lookupTurn name) scope found →
      ((served requests).lookup scope name).2 = found.elim .unbound .captured
  findNested_eq : ∀ scope < (served requests).size, ∀ name found,
    EndsWith ((served requests).nestedTurn name) scope found →
      (served requests).findNested scope name = found

/-- Chains of scopes are well founded as far as no scope is opened below itself. After requests that all
returned, every scope but the root has a parent, an older scope or itself, and the walks from a scope end
for all names exactly if they do not lead to a scope that was opened below itself. -/
theorem founded_of_allReturn (h : AllReturn new requests) : Founded requests := by
  have hattached := attached_of_allReturn h
  have hdescends := hattached.descends
  exact
    { hattached with
      lookups := fun scope => by
        simp only [hdescends.lookups_end_iff, ne_eq, hattached.parentOf_self_iff]
      searches := fun scope => by
        simp only [hdescends.searches_end_iff, ne_eq, hattached.parentOf_self_iff]
      lookup_eq := fun _ hscope _ howns hinherits _ hends =>
        hdescends.lookup_eq hscope howns hinherits hends
      findNested_eq := fun _ hscope _ _ hends => hdescends.find?_cons_chain hends hscope }

/-- A function is opened below itself, and a closure in it. Walks from both end at names that the
    function binds. -/
def selfOpening : List Request :=
  [.change (.openChild 0 .closure none), .change (.openChild 2 .function (some "self")),
    .change (.declare 2 .ordinary "x"), .change (.lookup 2 "x"), .change (.openChild 2 .closure none),
    .change (.lookup 3 "x"), .findNested 1 "x", .get 2]

/-- The example's requests return, although a scope is its own parent. -/
theorem founded_selfOpening : AllReturn new selfOpening ∧ Founded selfOpening := by
  have hreturns : AllReturn new selfOpening := by
    simp only [selfOpening, AllReturn, Returns, serve, perform]
    refine ⟨rfl, rfl, by decide, ⟨by decide, .inl (by decide)⟩, rfl, ⟨by decide, ?_⟩,
      ⟨by decide, ?_⟩, trivial, trivial⟩
    · exact .inr (.inr ⟨some 2, .answer rfl⟩)
    · exact ⟨none, .again rfl (.answer rfl)⟩
  exact ⟨hreturns, founded_of_allReturn hreturns⟩

/-- The walk for a name that the function does not bind never ends. -/
example : ¬ ∃ found, EndsWith ((served selfOpening).lookupTurn "y") 3 found := by
  rintro ⟨found, hends⟩
  have houtwards : (served selfOpening).lookupTurn "y" 3 = .inl 2 := rfl
  have hstays : (served selfOpening).lookupTurn "y" 2 = .inl 2 := rfl
  exact not_endsWith_of_stays hstays ((endsWith_iff_of_again houtwards).1 hends)

end ScopeTree

end ScriptBuild
