import ScriptBuild.Proofs.FilePath

namespace ScriptBuild

namespace FilePath

variable {p q a b directory : FilePath} {name : String} {c : Char} {cs front back first : List Char}
  {rest : List (List Char)}

/-- A text that can name something in a directory. -/
structure IsPlain (name : String) : Prop where
  slash : '/' ∉ name.toList
  nonempty : name ≠ ""
  point : name ≠ "."
  points : name ≠ ".."

/-- Such a text stands for a name wherever it is. -/
theorem IsPlain.componentOf (h : IsPlain name) (inFront : Bool) :
    componentOf inFront name.toList = some (.name name) := by
  have hne (text : String) (hne : name ≠ text) : name.toList ≠ text.toList := fun heq =>
    hne (String.toList_injective heq)
  have hempty := hne "" h.nonempty
  have hpoint := hne "." h.point
  have hpoints := hne ".." h.points
  simp only [FilePath.componentOf, beq_iff_eq, String.ofList_toList]
  rw [if_neg (by simpa using hempty), if_neg (by simpa using hpoint), if_neg (by simpa using hpoints)]

/-- Every text has a first segment. -/
theorem exists_segments (cs : List Char) :
    ∃ first rest, (segmentsFrom 0 [] cs).map (·.1) = first :: rest :=
  List.exists_cons_of_ne_nil (by simp [segmentsFrom_ne_nil])

theorem map_fst_placed (inFront : Bool) (segments : List (List Char × Nat)) :
    (placed inFront segments).map (·.1) =
      (segments.map (·.1)).filterMap (componentOf inFront) := by
  rw [placed, List.map_filterMap, List.filterMap_map]
  refine congrArg (List.filterMap · segments) (funext fun segment => ?_)
  rw [Option.map_map]
  exact Option.map_id'

/-- The components of a path from the top are the top and those of its segments. -/
theorem components_absolute (h : p.text.toList = '/' :: cs) : p.components =
    .root :: ((segmentsFrom 0 [] cs).map (·.1)).filterMap (componentOf false) := by
  rw [components, pieces_absolute h, List.map_cons, map_fst_placed, map_fst_segmentsFrom 1]

/-- In all other paths a point counts if it is the first segment. -/
theorem components_relative (hrelative : p.isAbsolute = false)
    (h : (segmentsFrom 0 [] p.text.toList).map (·.1) = first :: rest) : p.components =
      (componentOf true first).toList ++ rest.filterMap (componentOf false) := by
  obtain ⟨head, tail, hsegments⟩ := List.exists_cons_of_ne_nil
    (segmentsFrom_ne_nil 0 [] p.text.toList)
  rw [hsegments, List.map_cons] at h
  obtain ⟨rfl, rfl⟩ := List.cons.inj h
  rw [components, pieces_relative hrelative hsegments, List.map_append, map_fst_placed,
    map_fst_placed, List.map_cons, List.map_nil, List.filterMap_cons, List.filterMap_nil]
  cases componentOf true head.1 <;> rfl

theorem isAbsolute_iff_head : p.isAbsolute ↔ ∃ cs, p.text.toList = '/' :: cs := by
  rw [isAbsolute, beq_iff_eq, List.head?_eq_some_iff]

theorem componentOf_ne_root (inFront : Bool) (segment : List Char) :
    componentOf inFront segment ≠ some .root := by
  rw [componentOf]
  repeat' split
  all_goals simp

/-- A path is absolute exactly if its components start at the top. -/
theorem isAbsolute_iff_root : p.isAbsolute ↔ .root ∈ p.components := by
  constructor
  · intro habsolute
    obtain ⟨cs, hcs⟩ := isAbsolute_iff_head.1 habsolute
    rw [components_absolute hcs]
    exact List.mem_cons_self
  · intro hmem
    by_contra hrelative
    rw [Bool.not_eq_true] at hrelative
    obtain ⟨first, rest, hsegments⟩ := exists_segments p.text.toList
    rw [components_relative hrelative hsegments, List.mem_append, Option.mem_toList,
      List.mem_filterMap] at hmem
    rcases hmem with hmem | ⟨segment, _, hmem⟩
    · exact componentOf_ne_root _ _ hmem
    · exact componentOf_ne_root _ _ hmem

/-- Spellings of one path start at the top or do not, all alike. -/
theorem isAbsolute_congr (h : p.components = q.components) : p.isAbsolute = q.isAbsolute :=
  Bool.eq_iff_iff.2 (by rw [isAbsolute_iff_root, isAbsolute_iff_root, h])

/-- What is put after a slash adds its components. -/
theorem components_append (hne : front ≠ [])
    (hq : q.text.toList = front) (hp : p.text.toList = front ++ '/' :: back) :
    p.components = q.components ++
      ((segmentsFrom 0 [] back).map (·.1)).filterMap (componentOf false) := by
  obtain ⟨c, front, rfl⟩ := List.exists_cons_of_ne_nil hne
  by_cases hc : c = '/'
  · subst hc
    have hp : p.text.toList = '/' :: (front ++ '/' :: back) := hp
    rw [components_absolute hq, components_absolute hp, map_fst_segmentsFrom_append,
      List.filterMap_append, List.cons_append]
  · have hrelative {r : FilePath} {tail : List Char} (hr : r.text.toList = c :: tail) :
        r.isAbsolute = false := by
      rw [isAbsolute, hr, List.head?_cons]
      simpa using hc
    obtain ⟨first, others, hsegments⟩ := exists_segments (c :: front)
    have hall : (segmentsFrom 0 [] p.text.toList).map (·.1) =
        first :: (others ++ (segmentsFrom 0 [] back).map (·.1)) := by
      rw [hp, map_fst_segmentsFrom_append, hsegments, List.cons_append]
    rw [components_relative (hrelative hq) (by rw [hq, hsegments]),
      components_relative (hrelative hp) hall, List.filterMap_append, List.append_assoc]

/-- What has been read of a segment stands in front of it. -/
theorem exists_segments_of_current (current cs : List Char) : ∃ first others,
    (segmentsFrom 0 current cs).map (·.1) = first :: others ∧ current.reverse <+: first := by
  induction cs generalizing current with
  | nil => exact ⟨_, _, rfl, List.prefix_rfl⟩
  | cons c cs ih =>
    rw [segmentsFrom]
    split
    · exact ⟨_, _, rfl, List.prefix_rfl⟩
    · obtain ⟨first, others, hsegments, hprefix⟩ := ih (c :: current)
      refine ⟨first, others, by rw [map_fst_segmentsFrom, hsegments], ?_⟩
      rw [List.reverse_cons] at hprefix
      exact (List.prefix_append _ _).trans hprefix

/-- In front every segment stands for something, unless it is empty. -/
theorem componentOf_true_ne_none {segment : List Char} (hne : segment ≠ []) :
    componentOf true segment ≠ none := by
  simp only [componentOf, beq_iff_eq, if_neg hne, if_true]
  repeat' split
  all_goals simp

theorem text_eq_empty_iff : p.text = "" ↔ p.components = [] := by
  constructor
  · intro hempty
    have hnone : (segmentsFrom 0 [] p.text.toList).map (·.1) = [[]] := by
      rw [hempty]
      rfl
    rw [components_relative (by rw [isAbsolute, hempty]; rfl) hnone]
    rfl
  · intro hnone
    by_contra hne
    cases hp : p.text.toList with
    | nil => exact hne (String.toList_eq_nil_iff.1 hp)
    | cons c cs =>
      have hrelative : p.isAbsolute = false := by
        rw [← Bool.not_eq_true, isAbsolute_iff_root, hnone]
        exact List.not_mem_nil
      have hslash : (c == '/') = false := by
        rw [isAbsolute, hp] at hrelative
        simpa using hrelative
      obtain ⟨first, others, hsegments, hprefix⟩ := exists_segments_of_current [c] cs
      have hall : (segmentsFrom 0 [] p.text.toList).map (·.1) = first :: others := by
        rw [hp, segmentsFrom, hslash, if_neg (by simp), map_fst_segmentsFrom, hsegments]
      have hfirst : first ≠ [] := by
        rintro rfl
        simp at hprefix
      rw [components_relative hrelative hall, List.append_eq_nil_iff, Option.toList_eq_nil_iff]
        at hnone
      exact componentOf_true_ne_none hfirst hnone.1

/-- The components of what lies below a directory are those of the directory and the ones that
follow. Only from the empty path nothing is added to. -/
theorem components_join (hrelative : (FilePath.mk name).isAbsolute = false)
    (hne : directory.text ≠ "") : (directory.entry name).components = directory.components ++
      ((segmentsFrom 0 [] name.toList).map (·.1)).filterMap (componentOf false) := by
  rcases text_entry hrelative directory with
    ⟨hempty, _⟩ | ⟨front, hfront, heq⟩ | ⟨_, heq⟩
  · exact absurd hempty hne
  · by_cases hroot : front = []
    · subst hroot
      have hfront : directory.text.toList = ['/'] := hfront
      have heq : (directory.entry name).text.toList = '/' :: name.toList := heq
      rw [components_absolute hfront, components_absolute heq]
      rfl
    · have hplace : (FilePath.mk (String.ofList front)).text.toList = front := String.toList_ofList
      rw [components_append hroot hplace hfront, components_append hroot hplace heq]
      simp [segmentsFrom, componentOf]
  · have hfront : directory.text.toList ≠ [] := fun h => hne (String.toList_eq_nil_iff.1 h)
    exact components_append hfront rfl heq

/-- The components of an entry are those of its directory and its name. -/
theorem components_entry (hname : IsPlain name) :
    (directory.entry name).components = directory.components ++ [.name name] := by
  have hrelative := isAbsolute_of_slash_not_mem hname.slash
  have hsegments := map_fst_segmentsFrom_of_not_mem [] name.toList hname.slash
  by_cases hempty : directory.text = ""
  · have hentry : directory.entry name = ⟨name⟩ := by
      simp [entry, join, hempty]
    rw [hentry, text_eq_empty_iff.1 hempty, components_relative hrelative hsegments,
      List.reverse_nil, List.nil_append, hname.componentOf]
    rfl
  · rw [components_join hrelative hempty, hsegments, List.reverse_nil, List.nil_append,
      List.filterMap_cons, hname.componentOf]
    rfl

/-- Entries of one directory have one path, however the directory is spelled. -/
theorem same_entry (h : a.same b) (name : String) : (a.entry name).same (b.entry name) := by
  have hcomponents := same_iff.1 h
  rw [same_iff]
  cases habsolute : (FilePath.mk name).isAbsolute with
  | true => simp only [entry, join, habsolute, Bool.true_or, if_true]
  | false =>
    by_cases hempty : a.text = ""
    · have hempty' := text_eq_empty_iff.2 (hcomponents.symm.trans (text_eq_empty_iff.1 hempty))
      rw [show a = b from congrArg FilePath.mk (hempty.trans hempty'.symm)]
    · have hempty' : b.text ≠ "" := fun heq =>
        hempty (text_eq_empty_iff.2 (hcomponents.trans (text_eq_empty_iff.1 heq)))
      rw [components_join habsolute hempty, components_join habsolute hempty', hcomponents]

/-- The name of a file is its last component. -/
theorem fileName?_eq (p : FilePath) : p.fileName? = p.components.getLast?.bind fun
    | .name name => some name
    | _ => none := by
  rw [fileName?, lastName?, components, List.getLast?_map]
  cases p.pieces.getLast? with
  | none => rfl
  | some piece => obtain ⟨c, stop⟩ := piece; cases c <;> rfl

/-- Spellings of one path have the same stem. -/
theorem stem?_congr (h : p.components = q.components) : p.stem? = q.stem? := by
  rw [stem?, stem?, fileName?_eq, fileName?_eq, h]

/-- Spellings of one path have the same extension. -/
theorem extension?_congr (h : p.components = q.components) : p.extension? = q.extension? := by
  rw [extension?, extension?, fileName?_eq, fileName?_eq, h]

/-- The step for a component, if it leads anywhere. -/
def Component.step? : Component → Option String
  | .root | .current => none
  | .parent => some ".."
  | .name name => some name

/-- Wherever a segment is, it stands for a step that leads somewhere unless it is a point. -/
theorem stepsOf_filter (inFront : Bool) (segments : List (List Char)) :
    (stepsOf segments).filter (· != ".") =
      segments.filterMap fun segment => (componentOf inFront segment).bind Component.step? := by
  rw [stepsOf, List.filter_filterMap]
  refine congrArg (List.filterMap · segments) (funext fun segment => ?_)
  have hpoint : String.ofList segment = "." ↔ segment = ['.'] := by
    rw [String.ext_iff, String.toList_ofList]
    rfl
  simp only [componentOf, beq_iff_eq, List.isEmpty_iff]
  split
  · rfl
  · split
    · next heq => split <;> simp [heq, Component.step?]
    · next hne =>
      split
      · next heq => simp [heq, Component.step?]
      · simp [Option.filter, Component.step?, hpoint, hne]

/-- The steps that lead somewhere are told by the components. -/
theorem steps_filter (p : FilePath) :
    p.steps.filter (· != ".") = p.components.filterMap Component.step? := by
  rw [steps_eq]
  cases habsolute : p.isAbsolute with
  | true =>
    obtain ⟨cs, hcs⟩ := isAbsolute_iff_head.1 habsolute
    rw [components_absolute hcs, hcs, segmentsFrom, if_pos (beq_self_eq_true '/'), List.map_cons,
      map_fst_segmentsFrom (0 + 1), stepsOf_filter false, List.filterMap_cons,
      List.filterMap_cons, List.filterMap_filterMap]
    rfl
  | false =>
    obtain ⟨first, rest, hsegments⟩ := exists_segments p.text.toList
    have hfirst := stepsOf_filter true [first]
    have hrest := stepsOf_filter false rest
    rw [components_relative habsolute hsegments, hsegments, List.filterMap_append,
      List.filterMap_filterMap, ← hrest, ← List.singleton_append, stepsOf, List.filterMap_append,
      List.filter_append]
    refine congrArg (· ++ _) (hfirst.trans ?_)
    rw [List.filterMap_cons, List.filterMap_nil]
    cases componentOf true first <;> rfl

/-- A character of a text other than a slash is in one of the segments. -/
theorem mem_segments_iff (hc : c ≠ '/') (current cs : List Char) :
    (∃ segment ∈ (segmentsFrom 0 current cs).map (·.1), c ∈ segment) ↔ c ∈ current ∨ c ∈ cs := by
  induction cs generalizing current with
  | nil => simp [segmentsFrom]
  | cons e cs ih =>
    rw [segmentsFrom]
    split
    · next hslash =>
      have hne : c ≠ e := fun heq => hc (heq.trans (beq_iff_eq.1 hslash))
      rw [List.map_cons, map_fst_segmentsFrom]
      simp only [List.mem_cons, exists_eq_or_imp, ih, List.mem_reverse, List.not_mem_nil, hne,
        false_or]
    · rw [map_fst_segmentsFrom, ih, List.mem_cons, List.mem_cons, or_comm (a := c = e), or_assoc]

/-- A character of a path other than slashes and points is in one of the steps that lead somewhere. -/
theorem mem_text_iff (hslash : c ≠ '/') (hpoint : c ≠ '.') : c ∈ p.text.toList ↔
    ∃ step ∈ p.steps.filter (· != "."), c ∈ step.toList := by
  have hstep (segment : List Char) (hmem : c ∈ segment) :
      segment.isEmpty = false ∧ (String.ofList segment != ".") = true := by
    refine ⟨List.isEmpty_eq_false_iff.2 (List.ne_nil_of_mem hmem), bne_iff_ne.2 fun heq => ?_⟩
    rw [String.ext_iff, String.toList_ofList] at heq
    exact hpoint (by simpa [heq] using hmem)
  have hall := mem_segments_iff hslash [] p.text.toList
  simp only [List.not_mem_nil, false_or] at hall
  rw [← hall, steps_eq, stepsOf]
  constructor
  · rintro ⟨segment, hsegment, hmem⟩
    obtain ⟨hempty, hname⟩ := hstep segment hmem
    refine ⟨String.ofList segment, List.mem_filter.2 ⟨List.mem_filterMap.2
      ⟨segment, hsegment, by rw [hempty, if_neg (by simp)]⟩, hname⟩, by simpa using hmem⟩
  · rintro ⟨step, hmem, hc⟩
    obtain ⟨segment, hsegment, heq⟩ := List.mem_filterMap.1 (List.mem_filter.1 hmem).1
    obtain ⟨_, heq⟩ := Option.ite_none_left_eq_some.1 heq
    refine ⟨segment, hsegment, ?_⟩
    rwa [← Option.some.inj heq, String.toList_ofList] at hc

end FilePath

end ScriptBuild
