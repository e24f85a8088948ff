import Mathlib.Tactic.Common
import ScriptBuild.Resolution.Lookup

namespace ScriptBuild

namespace FilePath

/-- Two spellings name the same file exactly if they have the same components. -/
theorem same_iff {p q : FilePath} : p.same q ↔ p.components = q.components := by
  rw [same, beq_iff_eq]

theorem sameOption_iff {p q : Option FilePath} :
    sameOption p q ↔ p.map components = q.map components := by
  cases p <;> cases q <;> simp [sameOption, same_iff]

/-- The name of a component among the names that lead to a directory. -/
def Component.key : Component → String
  | .root => "/"
  | .current => "."
  | .parent => ".."
  | .name segment => segment

theorem key_eq (p : FilePath) : p.key = p.components.map Component.key := by
  rw [key]
  refine List.map_congr_left fun c _ => ?_
  cases c <;> rfl

/-- A component that a path can have: a name is none of the texts that stand for other components. -/
def Component.Proper : Component → Prop
  | .name segment => segment ≠ "/" ∧ segment ≠ "." ∧ segment ≠ ".."
  | _ => True

/-- Components that a path can have are told apart by their names. -/
theorem Component.key_injective {a b : Component} (ha : a.Proper) (hb : b.Proper)
    (heq : a.key = b.key) : a = b := by
  cases a <;> cases b <;> simp_all [Component.key, Component.Proper]

theorem not_mem_of_mem_segmentsFrom {seen : Nat} {current cs : List Char}
    {segment : List Char × Nat} (hmem : segment ∈ segmentsFrom seen current cs)
    (hcurrent : '/' ∉ current) : '/' ∉ segment.1 := by
  induction cs generalizing seen current with
  | nil =>
    rw [segmentsFrom, List.mem_singleton] at hmem
    simpa [hmem] using hcurrent
  | cons c cs ih =>
    rw [segmentsFrom] at hmem
    split at hmem
    · rcases List.mem_cons.1 hmem with heq | hmem
      · simpa [heq] using hcurrent
      · exact ih hmem List.not_mem_nil
    · next hslash =>
      refine ih hmem ?_
      rw [List.mem_cons, not_or]
      exact ⟨fun heq => hslash (by simp [← heq]), hcurrent⟩

/-- What a segment stands for is a component that a path can have. -/
theorem proper_componentOf {inFront : Bool} {segment : List Char} {c : Component}
    (hcomponent : componentOf inFront segment = some c) (hslash : '/' ∉ segment) : c.Proper := by
  simp only [componentOf, Option.ite_none_left_eq_some] at hcomponent
  obtain ⟨_, hcomponent⟩ := hcomponent
  split at hcomponent
  · split at hcomponent
    · cases hcomponent; exact trivial
    · cases hcomponent
  · next hpoint =>
    split at hcomponent
    · cases hcomponent; exact trivial
    · next hpoints =>
      cases hcomponent
      simp only [Component.Proper, ne_eq, String.ext_iff, String.toList_ofList]
      refine ⟨?_, by simpa using hpoint, by simpa using hpoints⟩
      rintro rfl
      simp at hslash

/-- The components of a path are such as a path can have. -/
theorem proper_of_mem_components {p : FilePath} {c : Component} (hmem : c ∈ p.components) :
    c.Proper := by
  rw [components, List.mem_map] at hmem
  obtain ⟨⟨c', stop⟩, hmem, rfl⟩ := hmem
  have hplace {inFront : Bool} {segment : List Char × Nat} {cs : List Char} {seen : Nat}
      (hsegment : segment ∈ segmentsFrom seen [] cs)
      (hcomponent : (componentOf inFront segment.1).map (fun c => (c, segment.2)) = some (c', stop)) :
      c'.Proper := by
    obtain ⟨c, hc, heq⟩ := Option.map_eq_some_iff.1 hcomponent
    obtain ⟨rfl, _⟩ := Prod.mk.inj heq
    exact proper_componentOf hc (not_mem_of_mem_segmentsFrom hsegment List.not_mem_nil)
  rw [pieces] at hmem
  split at hmem
  · rcases List.mem_cons.1 hmem with heq | hmem
    · cases heq; exact trivial
    · obtain ⟨segment, hsegment, hcomponent⟩ := List.mem_filterMap.1 hmem
      exact hplace hsegment hcomponent
  · split at hmem
    · cases hmem
    · next first rest hsegments =>
      rcases List.mem_append.1 hmem with hmem | hmem
      · refine hplace (hsegments ▸ List.mem_cons_self) (Option.mem_toList.1 hmem)
      · obtain ⟨segment, hsegment, hcomponent⟩ := List.mem_filterMap.1 hmem
        exact hplace (hsegments ▸ List.mem_cons_of_mem _ hsegment) hcomponent

/-- The names that lead to a directory tell it from all others. -/
theorem key_eq_iff {p q : FilePath} : p.key = q.key ↔ p.components = q.components := by
  rw [key_eq, key_eq]
  refine ⟨fun heq => ?_, fun heq => by rw [heq]⟩
  have hp : ∀ c ∈ p.components, c.Proper := fun c => proper_of_mem_components
  have hq : ∀ c ∈ q.components, c.Proper := fun c => proper_of_mem_components
  generalize p.components = a at heq hp
  generalize q.components = b at heq hq
  induction a generalizing b with
  | nil => simpa using heq.symm
  | cons x a ih =>
    cases b with
    | nil => simp at heq
    | cons y b =>
      simp only [List.map_cons, List.cons.injEq] at heq
      rw [Component.key_injective (hp x List.mem_cons_self) (hq y List.mem_cons_self) heq.1,
        ih (fun c hc => hp c (List.mem_cons_of_mem _ hc)) b heq.2
          (fun c hc => hq c (List.mem_cons_of_mem _ hc))]

/-- The steps in a text that is cut at its slashes. -/
def stepsOf (segments : List (List Char)) : List String :=
  segments.filterMap fun segment => if segment.isEmpty then none else some (String.ofList segment)

/-- What the segments are does not depend on where counting starts. -/
theorem map_fst_segmentsFrom (seen : Nat) (current cs : List Char) :
    (segmentsFrom seen current cs).map (·.1) = (segmentsFrom 0 current cs).map (·.1) := by
  induction cs generalizing seen current with
  | nil => rfl
  | cons c cs ih =>
    simp only [segmentsFrom]
    split
    · rw [List.map_cons, List.map_cons, ih (seen + 1), ih (0 + 1)]
    · rw [ih (seen + 1), ih (0 + 1)]

/-- A text is cut at each of its slashes. -/
theorem map_fst_segmentsFrom_append (current cs ds : List Char) :
    (segmentsFrom 0 current (cs ++ '/' :: ds)).map (·.1) =
      (segmentsFrom 0 current cs).map (·.1) ++ (segmentsFrom 0 [] ds).map (·.1) := by
  induction cs generalizing current with
  | nil => simp [segmentsFrom, map_fst_segmentsFrom 1]
  | cons c cs ih =>
    simp only [List.cons_append, segmentsFrom]
    split
    · rw [List.map_cons, List.map_cons, map_fst_segmentsFrom (0 + 1), map_fst_segmentsFrom (0 + 1),
        ih, List.cons_append]
    · rw [map_fst_segmentsFrom (0 + 1), map_fst_segmentsFrom (0 + 1), ih]

theorem map_fst_segmentsFrom_of_not_mem (current cs : List Char) (hcs : '/' ∉ cs) :
    (segmentsFrom 0 current cs).map (·.1) = [current.reverse ++ cs] := by
  induction cs generalizing current with
  | nil => simp [segmentsFrom]
  | cons c cs ih =>
    obtain ⟨hc, hcs⟩ := not_or.1 fun h => hcs (List.mem_cons.2 h)
    have hc : (c == '/') = false := by simpa using fun h => hc h.symm
    simp only [segmentsFrom, hc, Bool.false_eq_true, if_false]
    rw [map_fst_segmentsFrom (0 + 1), ih _ hcs, List.reverse_cons, List.append_assoc]
    rfl

/-- The steps of a path are its segments that are not empty. -/
theorem steps_eq (p : FilePath) :
    p.steps = stepsOf ((segmentsFrom 0 [] p.text.toList).map (·.1)) := by
  rw [steps, stepsOf, List.filterMap_map]
  rfl

section

variable {directory : FilePath} {name : String}

/-- A name without slashes does not start at the top. -/
theorem isAbsolute_of_slash_not_mem (hslash : '/' ∉ name.toList) :
    (FilePath.mk name).isAbsolute = false := by
  rw [isAbsolute, beq_eq_false_iff_ne]
  intro hhead
  exact hslash (List.mem_of_mem_head? hhead)

/-- The text of the path of an entry is that of the directory and that of the name. -/
theorem text_entry (hrelative : (FilePath.mk name).isAbsolute = false) (directory : FilePath) :
    (directory.text = "" ∧ directory.entry name = ⟨name⟩) ∨
    (∃ front, directory.text.toList = front ++ ['/'] ∧
      (directory.entry name).text.toList = front ++ '/' :: name.toList) ∨
    (directory.text ≠ "" ∧
      (directory.entry name).text.toList = directory.text.toList ++ '/' :: name.toList) := by
  rw [entry, join, hrelative, Bool.false_or]
  split
  · next hempty => exact .inl ⟨String.isEmpty_iff.1 hempty, rfl⟩
  · next hne =>
    split
    · next hlast =>
      obtain ⟨front, hfront⟩ := List.getLast?_eq_some_iff.1 (beq_iff_eq.1 hlast)
      exact .inr (.inl ⟨front, hfront, by simp [hfront]⟩)
    · exact .inr (.inr ⟨fun h => hne (String.isEmpty_iff.2 h), by simp⟩)

variable (hslash : '/' ∉ name.toList)

include hslash

/-- The last step to an entry of a directory is its name. -/
theorem steps_entry (hname : name ≠ "") : (directory.entry name).steps = directory.steps ++ [name] := by
  have hne : name.toList ≠ [] := fun h => hname (String.toList_eq_nil_iff.1 h)
  have hlast : stepsOf ((segmentsFrom 0 [] name.toList).map (·.1)) = [name] := by
    rw [map_fst_segmentsFrom_of_not_mem [] _ hslash]
    simp [stepsOf, hne]
  have happend (front : List Char) :
      stepsOf ((segmentsFrom 0 [] (front ++ '/' :: name.toList)).map (·.1)) =
        stepsOf ((segmentsFrom 0 [] front).map (·.1)) ++ [name] := by
    rw [map_fst_segmentsFrom_append, stepsOf, List.filterMap_append]
    exact congrArg _ hlast
  rw [steps_eq, steps_eq]
  rcases text_entry (isAbsolute_of_slash_not_mem hslash) directory with
    ⟨hempty, heq⟩ | ⟨front, hfront, heq⟩ | ⟨_, heq⟩
  · rw [heq, hlast, hempty]
    simp [segmentsFrom, stepsOf]
  · rw [heq, happend, hfront, map_fst_segmentsFrom_append]
    simp [segmentsFrom, stepsOf]
  · rw [heq, happend]

/-- The path of an entry starts where that of its directory does. -/
theorem isAbsolute_entry : (directory.entry name).isAbsolute = directory.isAbsolute := by
  rcases text_entry (isAbsolute_of_slash_not_mem hslash) directory with
    ⟨hempty, heq⟩ | ⟨front, hfront, heq⟩ | ⟨hne, heq⟩
  · rw [heq, isAbsolute_of_slash_not_mem hslash, isAbsolute, hempty]
    rfl
  · rw [isAbsolute, isAbsolute, heq, hfront]
    cases front <;> rfl
  · obtain ⟨c, cs, hcs⟩ := List.exists_cons_of_ne_nil fun h => hne (String.toList_eq_nil_iff.1 h)
    rw [isAbsolute, isAbsolute, heq, hcs]
    rfl

end

theorem segmentsFrom_ne_nil (seen : Nat) (current cs : List Char) :
    segmentsFrom seen current cs ≠ [] := by
  cases cs with
  | nil => simp [segmentsFrom]
  | cons c cs =>
    rw [segmentsFrom]
    split
    · simp
    · exact segmentsFrom_ne_nil _ _ cs

theorem le_of_mem_segmentsFrom {seen : Nat} {current cs : List Char} {segment : List Char × Nat}
    (hmem : segment ∈ segmentsFrom seen current cs) : seen ≤ segment.2 := by
  induction cs generalizing seen current with
  | nil =>
    obtain rfl := List.mem_singleton.1 hmem
    exact Nat.le_refl seen
  | cons c cs ih =>
    rw [segmentsFrom] at hmem
    split at hmem
    · rcases List.mem_cons.1 hmem with rfl | hmem
      · exact Nat.le_refl seen
      · exact Nat.le_of_succ_le (ih hmem)
    · exact Nat.le_of_succ_le (ih hmem)

/-- A text that ends where a segment does has the segments up to there. -/
theorem segmentsFrom_take {seen : Nat} {current cs : List Char} {before after : List (List Char × Nat)}
    {segment : List Char × Nat} (h : segmentsFrom seen current cs = before ++ segment :: after) :
    segmentsFrom seen current (cs.take (segment.2 - seen)) = before ++ [segment] := by
  induction cs generalizing seen current before with
  | nil =>
    rw [segmentsFrom, eq_comm, List.append_eq_singleton_iff] at h
    rcases h with ⟨rfl, heq⟩ | ⟨_, heq⟩
    · cases heq
      rw [List.take_nil, segmentsFrom, List.nil_append]
    · cases heq
  | cons c cs ih =>
    have hlater {current : List Char} {before : List (List Char × Nat)}
        (h : segmentsFrom (seen + 1) current cs = before ++ segment :: after) :
        (c :: cs).take (segment.2 - seen) = c :: cs.take (segment.2 - (seen + 1)) := by
      have hle := le_of_mem_segmentsFrom (h ▸ List.mem_append_right before List.mem_cons_self)
      rw [show segment.2 - seen = segment.2 - (seen + 1) + 1 by omega, List.take_succ_cons]
    rw [segmentsFrom] at h
    split at h
    · next hslash =>
      cases before with
      | nil =>
        obtain ⟨rfl, rfl⟩ := List.cons.inj h
        simp [segmentsFrom]
      | cons first before =>
        obtain ⟨rfl, hrest⟩ := List.cons.inj h
        rw [hlater hrest, segmentsFrom, if_pos hslash, ih hrest]
        rfl
    · next hslash => rw [hlater h, segmentsFrom, if_neg hslash, ih h]

/-- The components of some segments, each with its end. -/
def placed (inFront : Bool) (segments : List (List Char × Nat)) : List (Component × Nat) :=
  segments.filterMap fun segment => (componentOf inFront segment.1).map fun c => (c, segment.2)

/-- Each component comes from a segment that ends where it does, and those before it from the
segments before. -/
theorem exists_of_placed {inFront : Bool} {segments : List (List Char × Nat)}
    {before after : List (Component × Nat)} {piece : Component × Nat}
    (h : placed inFront segments = before ++ piece :: after) :
    ∃ front segment back, segments = front ++ segment :: back ∧ segment.2 = piece.2 ∧
      placed inFront (front ++ [segment]) = before ++ [piece] := by
  obtain ⟨front, rest, rfl, hfront, hrest⟩ := List.filterMap_eq_append_iff.1 h
  obtain ⟨skipped, segment, back, rfl, hskipped, hsegment, _⟩ := List.filterMap_eq_cons_iff.1 hrest
  obtain ⟨c, _, rfl⟩ := Option.map_eq_some_iff.1 hsegment
  refine ⟨front ++ skipped, segment, back, by simp, rfl, ?_⟩
  have hnone : skipped.filterMap (fun segment : List Char × Nat =>
      (componentOf inFront segment.1).map fun c => (c, segment.2)) = [] :=
    List.filterMap_eq_nil_iff.2 hskipped
  rw [placed, List.filterMap_append, List.filterMap_append, hfront, hnone, List.append_nil,
    List.filterMap_cons, hsegment, List.filterMap_nil]

/-- The components of a path from the top are the top and those after the first slash. -/
theorem pieces_absolute {p : FilePath} {cs : List Char} (h : p.text.toList = '/' :: cs) :
    p.pieces = (.root, 1) :: placed false (segmentsFrom 1 [] cs) := by
  simp only [pieces, h]
  rfl

/-- In all other paths the first segment may be a point, which counts only there. -/
theorem pieces_relative {p : FilePath} {first : List Char × Nat} {rest : List (List Char × Nat)}
    (hrelative : p.isAbsolute = false) (h : segmentsFrom 0 [] p.text.toList = first :: rest) :
    p.pieces = placed true [first] ++ placed false rest := by
  have hhead : ∀ cs, p.text.toList ≠ '/' :: cs := by
    intro cs heq
    rw [isAbsolute, heq] at hrelative
    cases hrelative
  rw [pieces]
  split
  · next cs heq => exact absurd heq (hhead cs)
  · rw [h]
    dsimp only
    rw [placed, List.filterMap_cons, List.filterMap_nil]
    cases componentOf true first.1 <;> rfl

/-- A path from elsewhere than the top is still one when it is cut. -/
theorem isAbsolute_upTo {p : FilePath} (h : p.isAbsolute = false) (stop : Nat) :
    (p.upTo stop).isAbsolute = false := by
  have htext : (p.upTo stop).text.toList = p.text.toList.take stop := String.toList_ofList
  rw [isAbsolute, beq_eq_false_iff_ne] at h ⊢
  rw [htext]
  intro hhead
  cases hcs : p.text.toList with
  | nil => simp [hcs] at hhead
  | cons c cs =>
    rw [hcs] at h hhead
    cases stop with
    | zero => simp at hhead
    | succ stop => exact h (by simpa using hhead)

/-- Cut where a segment ends, a path from the top has the components of the segments up to there. -/
theorem pieces_upTo_absolute {p : FilePath} {cs : List Char} {front back : List (List Char × Nat)}
    {segment : List Char × Nat} (htext : p.text.toList = '/' :: cs)
    (h : segmentsFrom 1 [] cs = front ++ segment :: back) :
    (p.upTo segment.2).pieces = (.root, 1) :: placed false (front ++ [segment]) := by
  have hle := le_of_mem_segmentsFrom (h ▸ List.mem_append_right front List.mem_cons_self)
  have htake : p.text.toList.take segment.2 = '/' :: cs.take (segment.2 - 1) := by
    obtain ⟨stop, hstop⟩ := Nat.exists_eq_add_of_le' hle
    rw [htext, hstop, List.take_succ_cons, Nat.add_sub_cancel]
  have hcut : (p.upTo segment.2).text.toList = p.text.toList.take segment.2 := String.toList_ofList
  rw [pieces_absolute (hcut.trans htake), segmentsFrom_take h]

/-- Cut where a segment ends, any other path still has its first segment to begin with. -/
theorem pieces_upTo_relative {p : FilePath} {first : List Char × Nat}
    {front back : List (List Char × Nat)} {segment : List Char × Nat}
    (hrelative : p.isAbsolute = false)
    (h : segmentsFrom 0 [] p.text.toList = first :: (front ++ segment :: back)) :
    (p.upTo segment.2).pieces = placed true [first] ++ placed false (front ++ [segment]) := by
  have htext : (p.upTo segment.2).text.toList = p.text.toList.take segment.2 := String.toList_ofList
  have htake := segmentsFrom_take (show _ = (first :: front) ++ segment :: back from h)
  rw [Nat.sub_zero, ← htext, List.cons_append] at htake
  exact pieces_relative (isAbsolute_upTo hrelative _) htake

theorem pieces_upTo_first {p : FilePath} {first : List Char × Nat} {rest : List (List Char × Nat)}
    (hrelative : p.isAbsolute = false) (h : segmentsFrom 0 [] p.text.toList = first :: rest) :
    (p.upTo first.2).pieces = placed true [first] := by
  have htext : (p.upTo first.2).text.toList = p.text.toList.take first.2 := String.toList_ofList
  have htake := segmentsFrom_take (show _ = [] ++ first :: rest from h)
  rw [Nat.sub_zero, ← htext] at htake
  exact (pieces_relative (isAbsolute_upTo hrelative _) htake).trans (List.append_nil _)

/-- A segment has at most one component, which ends where the segment does. -/
theorem placed_singleton (inFront : Bool) (segment : List Char × Nat) :
    placed inFront [segment] = [] ∨ ∃ c, placed inFront [segment] = [(c, segment.2)] := by
  rw [placed, List.filterMap_cons, List.filterMap_nil]
  cases componentOf inFront segment.1 with
  | none => exact .inl rfl
  | some c => exact .inr ⟨c, rfl⟩

/-- A path that ends where a component does has the components up to there. -/
theorem pieces_upTo {p : FilePath} {before after : List (Component × Nat)} {piece : Component × Nat}
    (h : p.pieces = before ++ piece :: after) : (p.upTo piece.2).pieces = before ++ [piece] := by
  cases habsolute : p.isAbsolute with
  | true =>
    obtain ⟨cs, hcs⟩ : ∃ cs, p.text.toList = '/' :: cs := by
      rw [isAbsolute, beq_iff_eq] at habsolute
      exact List.head?_eq_some_iff.1 habsolute
    rw [pieces_absolute hcs] at h
    cases before with
    | nil =>
      obtain ⟨rfl, _⟩ := List.cons.inj h
      have htext : (p.upTo 1).text.toList = '/' :: [] := by
        rw [show (p.upTo 1).text.toList = p.text.toList.take 1 from String.toList_ofList, hcs]
        rfl
      rw [pieces_absolute htext]
      rfl
    | cons first before =>
      obtain ⟨rfl, hrest⟩ := List.cons.inj h
      obtain ⟨front, segment, back, hsegments, hstop, hplaced⟩ := exists_of_placed hrest
      rw [← hstop, pieces_upTo_absolute hcs hsegments, hplaced]
      rfl
  | false =>
    obtain ⟨first, rest, hsegments⟩ := List.exists_cons_of_ne_nil
      (segmentsFrom_ne_nil 0 [] p.text.toList)
    rw [pieces_relative habsolute hsegments] at h
    -- The component is that of the first segment or that of a later one.
    rcases List.append_eq_append_iff.1 h with ⟨middle, rfl, hrest⟩ | ⟨middle, hhead, hrest⟩
    · obtain ⟨front, segment, back, rfl, hstop, hplaced⟩ := exists_of_placed hrest
      rw [← hstop, pieces_upTo_relative habsolute hsegments, hplaced, List.append_assoc]
    · cases middle with
      | nil =>
        rw [List.append_nil] at hhead
        obtain ⟨front, segment, back, rfl, hstop, hplaced⟩ :=
          exists_of_placed (show _ = [] ++ piece :: after from hrest.symm)
        rw [← hstop, pieces_upTo_relative habsolute hsegments, hplaced, hhead]
        rfl
      | cons last middle =>
        obtain ⟨rfl, _⟩ := List.cons.inj hrest
        rcases placed_singleton true first with hnone | ⟨c, hone⟩
        · rw [hnone] at hhead
          simp at hhead
        · rw [hone, eq_comm, List.append_eq_singleton_iff] at hhead
          rcases hhead with ⟨rfl, heq⟩ | ⟨_, heq⟩
          · obtain ⟨rfl, rfl⟩ := List.cons.inj heq
            rw [pieces_upTo_first habsolute hsegments, hone]
            rfl
          · cases heq

/-- The components of the directory of a path, from those of the path, the last one first. -/
def outer : List Component → Option (List Component)
  | [] => none
  | .root :: _ => none
  | _ :: rest => some rest.reverse

/-- The directory of a path has all components of the path but for the last one. -/
theorem map_components_parent? (p : FilePath) :
    p.parent?.map components = outer p.components.reverse := by
  rw [parent?, components, ← List.map_reverse]
  cases hlist : p.pieces.reverse with
  | nil => rfl
  | cons last rest =>
    obtain ⟨c, stop⟩ := last
    cases c with
    | root => rfl
    | _ =>
      cases rest with
      | nil => rfl
      | cons piece rest =>
        have hpieces := congrArg List.reverse hlist
        rw [List.reverse_reverse, List.reverse_cons, List.reverse_cons, List.append_assoc] at hpieces
        simp only [Option.map_some, List.map_cons, List.reverse_cons, components,
          pieces_upTo hpieces, List.map_append, List.map_reverse, List.map_nil, outer]

/-- The directory of a path is told by the components of the path. -/
theorem components_parent? {p q : FilePath} (h : p.components = q.components) :
    p.parent?.map components = q.parent?.map components := by
  rw [map_components_parent?, map_components_parent?, h]

end FilePath

end ScriptBuild
