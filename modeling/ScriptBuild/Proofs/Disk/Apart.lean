import ScriptBuild.Archive.Storage
import ScriptBuild.Proofs.Disk.Text
import ScriptBuild.Proofs.Layout

namespace ScriptBuild

namespace FilePath

variable {p directory : FilePath} {name : String} {c : Char} {seen : Nat}
  {current cs segment : List Char}

/-- A text is cut at its last slash. -/
theorem exists_last_segment (cs : List Char) :
    '/' ∉ cs ∨ ∃ front segment, cs = front ++ '/' :: segment ∧ '/' ∉ segment := by
  by_cases hmem : '/' ∈ cs
  · obtain ⟨back, front, heq, hnot⟩ := List.eq_append_cons_of_mem (List.mem_reverse.2 hmem)
    refine .inr ⟨front.reverse, back.reverse, ?_, by simpa using hnot⟩
    have hcs := congrArg List.reverse heq
    simpa using hcs
  · exact .inl hmem

/-- The last step of a path ends like the path. -/
theorem exists_last_step (hlast : p.text.toList.getLast? = some c) (hslash : c ≠ '/') :
    ∃ before name, p.steps = before ++ [name] ∧ name.toList.getLast? = some c := by
  have hsegment {segment : List Char} (hend : segment.getLast? = some c) :
      stepsOf [segment] = [String.ofList segment] := by
    have hne : segment ≠ [] := by
      rintro rfl
      cases hend
    simp [stepsOf, hne]
  rw [steps_eq]
  rcases exists_last_segment p.text.toList with hnone | ⟨front, segment, heq, hnone⟩
  · refine ⟨[], String.ofList p.text.toList, ?_, by simpa using hlast⟩
    rw [map_fst_segmentsFrom_of_not_mem [] _ hnone]
    exact hsegment hlast
  · rw [heq, ← List.singleton_append, ← List.append_assoc, List.getLast?_append] at hlast
    have hend : segment.getLast? = some c := by
      cases hsome : segment.getLast? with
      | some c' =>
        rw [hsome, Option.some_or] at hlast
        exact hlast
      | none =>
        rw [hsome, Option.none_or] at hlast
        simp only [List.getLast?_append, List.getLast?_singleton, Option.some_or] at hlast
        exact absurd (Option.some.inj hlast).symm hslash
    refine ⟨stepsOf ((segmentsFrom 0 [] front).map (·.1)), String.ofList segment, ?_,
      by simpa using hend⟩
    rw [heq, map_fst_segmentsFrom_append, stepsOf, List.filterMap_append]
    refine congrArg _ ?_
    rw [map_fst_segmentsFrom_of_not_mem [] _ hnone]
    exact hsegment hend

/-- The text of the path of an entry ends with its name. -/
theorem suffix_text_entry : name.toList <:+ (directory.entry name).text.toList := by
  rw [entry, join]
  split
  · exact List.suffix_rfl
  · split
    · rw [String.toList_append]
      exact List.suffix_append _ _
    · rw [String.toList_append]
      exact List.suffix_append _ _

/-- The path of an entry of a directory ends like the entry. -/
theorem getLast?_text_entry (hlast : name.toList.getLast? = some c) :
    (directory.entry name).text.toList.getLast? = some c := by
  have hsuffix : name.toList <:+ (directory.entry name).text.toList := suffix_text_entry
  obtain ⟨front, hfront⟩ := hsuffix
  rw [← hfront, List.getLast?_append, hlast, Option.some_or]

/-- The path of an entry is not the empty one. -/
theorem text_entry_ne_empty (hname : name ≠ "") : (directory.entry name).text ≠ "" := by
  intro hempty
  have hsuffix : name.toList <:+ (directory.entry name).text.toList := suffix_text_entry
  rw [hempty] at hsuffix
  exact hname (String.toList_eq_nil_iff.1 (List.suffix_nil.1 hsuffix))

theorem segmentsFrom_of_not_mem (hnone : '/' ∉ cs) :
    segmentsFrom seen current cs = [(current.reverse ++ cs, seen + cs.length)] := by
  induction cs generalizing seen current with
  | nil => simp [segmentsFrom]
  | cons c cs ih =>
    obtain ⟨hc, hcs⟩ := not_or.1 fun h => hnone (List.mem_cons.2 h)
    have hc : (c == '/') = false := by simpa using fun h => hc h.symm
    simp only [segmentsFrom, hc, Bool.false_eq_true, if_false, ih hcs]
    simp [Nat.add_comm, Nat.add_left_comm]

/-- What follows a slash is a segment of its own. -/
theorem segmentsFrom_append (seen : Nat) (current cs : List Char) (hnone : '/' ∉ segment) :
    ∃ stop, segmentsFrom seen current (cs ++ '/' :: segment) =
      segmentsFrom seen current cs ++ [(segment, stop)] := by
  induction cs generalizing seen current with
  | nil =>
    exact ⟨seen + 1 + segment.length, by simp [segmentsFrom, segmentsFrom_of_not_mem hnone]⟩
  | cons c cs ih =>
    rw [List.cons_append, segmentsFrom, segmentsFrom]
    split
    · obtain ⟨stop, heq⟩ := ih (seen + 1) []
      exact ⟨stop, by rw [heq, List.cons_append]⟩
    · exact ih _ _

/-- A segment without slashes that is no point and no two points is the last component. -/
theorem lastName?_eq (hname : ∀ inFront, componentOf inFront segment = some (.name name))
    (hnone : '/' ∉ segment)
    (htext : p.text.toList = segment ∨ ∃ front, p.text.toList = front ++ '/' :: segment) :
    ∃ stop, p.lastName? = some (name, stop) := by
  have hlast (stop : Nat) (hpieces : p.pieces.getLast? = some (.name name, stop)) :
      p.lastName? = some (name, stop) := by rw [lastName?, hpieces]
  rcases htext with htext | ⟨front, htext⟩
  · refine ⟨0 + segment.length, hlast _ ?_⟩
    rw [pieces, htext]
    split
    · exact absurd List.mem_cons_self hnone
    · simp [segmentsFrom_of_not_mem hnone, hname]
  · cases front with
    | nil =>
      refine ⟨1 + segment.length, hlast _ ?_⟩
      rw [pieces, htext]
      simp [segmentsFrom_of_not_mem hnone, hname]
    | cons c front =>
      by_cases hc : c = '/'
      · subst hc
        obtain ⟨stop, heq⟩ := segmentsFrom_append 1 [] front hnone
        refine ⟨stop, hlast _ ?_⟩
        rw [pieces, htext, List.cons_append]
        simp [heq, hname, List.getLast?_cons]
      · obtain ⟨stop, heq⟩ := segmentsFrom_append 0 [] (c :: front) hnone
        refine ⟨stop, hlast _ ?_⟩
        obtain ⟨first, rest, hfirst⟩ := List.exists_cons_of_ne_nil
          (segmentsFrom_ne_nil 0 [] (c :: front))
        rw [pieces, htext]
        split
        · next heq' => exact absurd (List.cons.inj heq').1 hc
        · rw [heq, hfirst, List.cons_append]
          simp [hname]

/-- The last component of an entry is its name. -/
theorem lastName?_entry (directory : FilePath) (name : String)
    (hname : ∀ inFront, componentOf inFront name.toList = some (.name name))
    (hslash : '/' ∉ name.toList) :
    ∃ stop, (directory.entry name).lastName? = some (name, stop) := by
  refine lastName?_eq hname hslash ?_
  rcases text_entry (isAbsolute_of_slash_not_mem hslash) directory with ⟨_, heq⟩ | ⟨front, _, heq⟩ | ⟨_, heq⟩
  · exact .inl (by rw [heq])
  · exact .inr ⟨front, heq⟩
  · exact .inr ⟨_, heq⟩

/-- A path with a new extension ends like the extension. -/
theorem getLast?_withExtension {extension : String} {stop : Nat}
    (hlast : p.lastName? = some (name, stop)) (hstem : (splitName name.toList).1 ≠ ['.'])
    (hextension : extension.toList.getLast? = some c) :
    (p.withExtension extension).text.toList.getLast? = some c := by
  rw [withExtension, hlast]
  dsimp only
  rw [if_neg fun h => hstem (by simpa using (Bool.and_eq_true_iff.1 h).1), String.toList_append,
    List.getLast?_append, hextension, Option.some_or]

end FilePath

namespace Disk

variable {d : Disk} {p q : FilePath} {spot : Spot} {c e : Char}

/-- A path that does not end in a slash or a point leads to a name that ends like the path. -/
theorem Leads.exists_last (h : d.Leads p spot) (hlast : p.text.toList.getLast? = some c)
    (hslash : c ≠ '/') (hdot : c ≠ '.') :
    ∃ place name, spot = .inside (place ++ [name]) ∧ name.toList.getLast? = some c := by
  obtain ⟨before, name, hsteps, hname⟩ := FilePath.exists_last_step hlast hslash
  obtain ⟨steps, hroute, hwalk⟩ := h
  rw [route_eq_ok hroute, hsteps, walk_append] at hwalk
  obtain ⟨directory, _, henter⟩ := bind_eq_ok.1 hwalk
  have hisName : isName name := by
    rw [isName, Bool.and_eq_true, bne_iff_ne, bne_iff_ne]
    constructor <;> rintro rfl <;> exact hdot (Option.some.inj hname).symm
  obtain ⟨place, _, rfl⟩ := enter_eq_inside henter hisName
  exact ⟨place, name, rfl, hname⟩

/-- Paths that end in different characters do not lead to one spot. -/
theorem apart_of_getLast? (hp : p.text.toList.getLast? = some c)
    (hq : q.text.toList.getLast? = some e) (hc : c ≠ '/' ∧ c ≠ '.') (he : e ≠ '/' ∧ e ≠ '.')
    (hne : c ≠ e) : d.Apart p q := by
  intro spot hspot hspot'
  obtain ⟨place, name, rfl, hname⟩ := hspot.exists_last hp hc.1 hc.2
  obtain ⟨place', name', heq, hname'⟩ := hspot'.exists_last hq he.1 he.2
  obtain ⟨rfl, hnames⟩ := List.append_inj' (Spot.inside.inj heq) rfl
  obtain rfl := List.singleton_inj.1 hnames
  exact hne (Option.some.inj (hname.symm.trans hname'))

end Disk

/-- Two paths lead to one spot on no disk. -/
def FilePath.Apart (p q : FilePath) : Prop := ∀ d : Disk, d.Apart p q

namespace Layout

variable {l : Layout} {role other : FileRole} {u v : BuildUnit} {p : FilePath} {c : Char}
  {cacheDirectory : FilePath}

/-- The last character of the names of the files of a role. A path leads to a name that ends like
    the path, so paths that end in different characters lead to different spots. -/
def lastChar : FileRole → Char
  | .header => 'h'
  | .source | .forwardSource => 'c'
  | .object | .forwardObject | .standIn | .artifact => 'o'

/-- The files of a role end in the character of the role. -/
theorem getLast?_path : (l.path role u).text.toList.getLast? = some (lastChar role) := by
  refine FilePath.getLast?_text_entry ?_
  have hending : role.ending.toList.getLast? = some (lastChar role) := by
    cases role <;> decide
  rw [String.toList_append, List.getLast?_append, hending, Option.some_or]

theorem getLast?_cacheFile : (within cacheDirectory).cacheFile.text.toList.getLast? = some 'n' :=
  FilePath.getLast?_text_entry (by decide)

/-- The files of different roles or units have different names. -/
theorem fileName_ne (hne : role ≠ other ∨ u.name ≠ v.name ∨ u.overload ≠ v.overload) :
    fileName role u ≠ fileName other v := by
  intro heq
  obtain ⟨hstem, hrole⟩ := fileName_injective heq
  obtain ⟨hname, hoverload⟩ := BuildUnit.stem_injective hstem
  rcases hne with hne | hne | hne
  · exact hne hrole
  · exact hne hname
  · exact hne hoverload

/-- The files of different units, and different files of one unit, lie at different spots. -/
theorem apart_path {d : Disk} (hne : role ≠ other ∨ u.name ≠ v.name ∨ u.overload ≠ v.overload) :
    d.Apart (l.path role u) (l.path other v) :=
  fun _ hspot hspot' => fileName_ne hne (fileName_eq_of_leads hspot hspot')

/-- The files of different units, and different files of one unit, have different paths. -/
theorem path_ne (hne : role ≠ other ∨ u.name ≠ v.name ∨ u.overload ≠ v.overload) :
    l.path role u ≠ l.path other v := by
  intro heq
  have hsteps (role : FileRole) (u : BuildUnit) : (l.path role u).steps =
      l.objectsDirectory.steps ++ [fileName role u] :=
    FilePath.steps_entry slash_not_mem_fileName fileName_ne_empty
  have hnames : [fileName role u] = [fileName other v] := by
    have happend : l.objectsDirectory.steps ++ [fileName role u] =
        l.objectsDirectory.steps ++ [fileName other v] := by
      rw [← hsteps, ← hsteps, heq]
    exact List.append_cancel_left happend
  exact fileName_ne hne (List.singleton_inj.1 hnames)

theorem getLast?_draftPath :
    (Archive.draftPath (within cacheDirectory).cacheFile).text.toList.getLast? = some 'p' := by
  obtain ⟨stop, hlast⟩ := FilePath.lastName?_entry cacheDirectory "build-cache.json"
    (by decide) (by decide)
  exact FilePath.getLast?_withExtension hlast (by decide) (by decide)

theorem getLast?_outputPath {b : BuildConfig} {entry : String} :
    (b.outputPath entry).text.toList.getLast? = some 'o' := by
  refine FilePath.getLast?_text_entry ?_
  rw [String.toList_append, List.getLast?_append,
    show moduleExtension.toList.getLast? = some 'o' by decide, Option.some_or]

/-- A path leads neither to an archive nor to its draft. -/
structure BesideArchive (l : Layout) (p : FilePath) : Prop where
  draft : p.Apart (Archive.draftPath l.cacheFile)
  file : p.Apart l.cacheFile

/-- A path that ends neither like an archive nor like a draft leads to neither. -/
theorem besideArchive_of_getLast? (hp : p.text.toList.getLast? = some c)
    (hc : c ∉ ['/', '.', 'n', 'p']) : (within cacheDirectory).BesideArchive p := by
  simp only [List.mem_cons, List.not_mem_nil, or_false, not_or] at hc
  exact ⟨fun _ => Disk.apart_of_getLast? hp getLast?_draftPath ⟨hc.1, hc.2.1⟩ (by decide) hc.2.2.2,
    fun _ => Disk.apart_of_getLast? hp getLast?_cacheFile ⟨hc.1, hc.2.1⟩ (by decide) hc.2.2.1⟩

/-- The files of units lie beside the archive. -/
theorem besideArchive_path : (within cacheDirectory).BesideArchive (l.path role u) :=
  besideArchive_of_getLast? getLast?_path (by cases role <;> decide)

theorem besideArchive_outputPath {b : BuildConfig} {entry : String} :
    (within cacheDirectory).BesideArchive (b.outputPath entry) :=
  besideArchive_of_getLast? getLast?_outputPath (by decide)

/-- The module of an entry point is no object, which has another extension. -/
theorem outputPath_ne_object {b : BuildConfig} {entry : String} :
    b.outputPath entry ≠ l.path .object u := by
  intro heq
  have hmodule : "so".toList <:+ (b.outputPath entry).text.toList := by
    refine List.IsSuffix.trans ?_ FilePath.suffix_text_entry
    rw [String.toList_append]
    exact List.suffix_append _ _
  have hobject : ".o".toList <:+ (l.path .object u).text.toList := by
    refine List.IsSuffix.trans ?_ FilePath.suffix_text_entry
    rw [String.toList_append]
    exact List.suffix_append _ _
  rw [heq] at hmodule
  exact absurd (List.suffix_of_suffix_length_le hmodule hobject (by decide)) (by decide)

end Layout

namespace Archive

variable {a : Archive} {d d' : Disk} {p : FilePath} {now : Int} {done : Unit} {fault : Fault}

theorem text?_store (h : a.store d p now = (d', .ok done)) : d'.text? p = some a.document := by
  unfold store at h
  dsimp only at h
  split at h
  · cases (Prod.mk.inj h).2
  · next drafted hwrite =>
    split at h
    · cases (Prod.mk.inj h).2
    · next stored hrename =>
      obtain rfl := (Prod.mk.inj h).1
      exact Disk.text?_rename hrename (Disk.text?_write hwrite)

/-- Storing an archive changes nothing at other paths, also if it fails. -/
theorem sameAt_store_of_apart {q : FilePath} (hdraft : q.Apart (draftPath p)) (hpath : q.Apart p) :
    Disk.SameAt q d (a.store d p now).1 := by
  unfold store
  dsimp only
  split
  · exact .refl q d
  · next drafted hwrite =>
    have hdrafted := Disk.sameAt_write_of_apart hwrite (hdraft d)
    split
    · exact hdrafted
    · next stored hrename =>
      exact hdrafted.trans (Disk.sameAt_rename_of_apart hrename (hdraft drafted) (hpath drafted))

/-- Keeping an archive changes no file but it and its draft, also if it fails. -/
theorem file?_store_of_apart {q : FilePath} (hdraft : q.Apart (draftPath p)) (hpath : q.Apart p) :
    (a.store d p now).1.file? q = d.file? q := by
  unfold store
  dsimp only
  split
  · rfl
  · next drafted hwrite =>
    have hdrafted := Disk.file?_write_of_apart hwrite (hdraft d)
    split
    · exact hdrafted
    · next stored hrename =>
      exact (Disk.file?_rename_of_apart hrename (hdraft drafted) (hpath drafted)).trans hdrafted

/-- If an archive cannot be stored, the former one is still there. -/
theorem text?_store_error (hapart : d.Apart p (draftPath p))
    (h : a.store d p now = (d', .error fault)) : d'.text? p = d.text? p := by
  unfold store at h
  dsimp only at h
  split at h
  · rw [(Prod.mk.inj h).1]
  · next drafted hwrite =>
    split at h
    · rw [← (Prod.mk.inj h).1]
      exact Disk.text?_write_of_apart hwrite hapart
    · cases (Prod.mk.inj h).2

end Archive

end ScriptBuild
