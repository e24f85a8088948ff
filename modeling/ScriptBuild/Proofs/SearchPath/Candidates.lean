import ScriptBuild.Proofs.Disk.Apart
import ScriptBuild.Proofs.Disk.Entries
import ScriptBuild.SearchPath

namespace ScriptBuild

namespace SearchPath

open FilePath (IsPlain)

variable {s : SearchPath} {d : Disk} {name other extension : String} {directory path : FilePath}
  {context : Option FilePath} {kind : UnitKind} {a : Definition}

/-- The files of a name in a directory, the preferred one first. -/
def filesIn (directory : FilePath) (name : String) : List UnitKind :=
  moduleExtensions.map (fun extension =>
    .precompiled (directory.entry (withExtension name extension))) ++
      [.script (directory.entry (withExtension name scriptExtension))]

/-- The file of a name in the private directory. -/
def privateFile (directory : FilePath) (name : String) : FilePath :=
  (directory.entry "private").entry (withExtension name scriptExtension)

/-- The file of a name in its class directory. -/
def classFile (directory : FilePath) (name : String) : FilePath :=
  (directory.entry ("@" ++ name)).entry (withExtension name scriptExtension)

/-- The files of a name near the directory that refers to it. A lookup takes the first of these that
    is there, then the first of `farFiles` for each search directory, and only then the built-in
    names. -/
def nearFiles (directory : FilePath) (name : String) : List UnitKind :=
  filesIn directory name ++ [.script (privateFile directory name)]

/-- The files of a name in a search directory. -/
def farFiles (directory : FilePath) (name : String) : List UnitKind :=
  .classFile (classFile directory name) :: filesIn directory name

/-- The definition in a file of a given kind. -/
def provided? (d : Disk) (kind : UnitKind) : Option Definition :=
  kind.path?.bind (inFile? d fun _ => kind)

/-- A file provides a definition if it is there, with the time at which it was changed. -/
theorem provided?_eq_some : provided? d kind = some a ↔ ∃ path, kind.path? = some path ∧
    d.isFile path ∧ a = ⟨kind, timestamp d path, .file path⟩ := by
  simp only [provided?, Option.bind_eq_some_iff, inFile?, Option.ite_none_right_eq_some,
    Option.some.injEq, eq_comm (b := a)]

/-- What a file provides is of the kind for which it was looked. -/
theorem kind_of_provided? (h : provided? d kind = some a) : a.kind = kind := by
  obtain ⟨_, _, _, rfl⟩ := provided?_eq_some.1 h
  rfl

/-- A file that provides a definition is there. -/
theorem isFile_of_provided? (h : provided? d kind = some a) (hpath : kind.path? = some path) :
    d.isFile path := by
  obtain ⟨_, hpath', hfile, _⟩ := provided?_eq_some.1 h
  rwa [Option.some.inj (hpath.symm.trans hpath')]

/-- A directory defines what the first of its files of a name provides. -/
theorem inDirectory?_eq :
    inDirectory? d directory name = (filesIn directory name).findSome? (provided? d) := by
  rw [filesIn, List.findSome?_append, List.findSome?_map, inDirectory?]
  refine congrArg (Option.or _) ?_
  rw [List.findSome?_singleton]
  rfl

/-- Near a directory a name denotes what the first of the near files provides. -/
theorem near_eq : (inDirectory? d directory name).or (inPrivate? d directory name) =
    (nearFiles directory name).findSome? (provided? d) := by
  rw [nearFiles, List.findSome?_append, inDirectory?_eq, List.findSome?_singleton]
  rfl

/-- In a search directory a name denotes what the first of its files provides. -/
theorem far_eq : (classIn? d directory name).or (inDirectory? d directory name) =
    (farFiles directory name).findSome? (provided? d) := by
  rw [farFiles, List.findSome?_cons, inDirectory?_eq]
  cases h : classIn? d directory name with
  | none => rw [show provided? d (.classFile (classFile directory name)) = none from h]; rfl
  | some a => rw [show provided? d (.classFile (classFile directory name)) = some a from h]; rfl

/-- A name denotes a file near the directory that refers to it. If there is none it denotes a file of
    a search directory, or it is built in. -/
theorem find_cases (h : s.find d name context = some a) :
    (∃ directory ∈ context, ∃ kind ∈ nearFiles directory name, provided? d kind = some a) ∨
      (∀ directory ∈ context, ∀ kind ∈ nearFiles directory name, provided? d kind = none) ∧
        ((∃ directory ∈ s.directories, ∃ kind ∈ farFiles directory name,
            provided? d kind = some a) ∨
          name ∈ s.builtins ∧ a = ⟨.builtins, 0, .table⟩) := by
  simp only [find, near_eq, far_eq] at h
  rcases Option.or_eq_some_iff.1 h with hnear | ⟨hnone, hfar⟩
  · obtain ⟨directory, hdirectory, hfound⟩ := Option.bind_eq_some_iff.1 hnear
    exact .inl ⟨directory, hdirectory, List.exists_of_findSome?_eq_some hfound⟩
  · refine .inr ⟨fun directory hdirectory kind hkind => ?_, ?_⟩
    · exact List.findSome?_eq_none_iff.1 (Option.bind_eq_none_iff.1 hnone directory hdirectory)
        kind hkind
    · rcases Option.or_eq_some_iff.1 hfar with hfound | ⟨_, hbuiltin⟩
      · obtain ⟨directory, hmem, hfound⟩ := List.exists_of_findSome?_eq_some hfound
        exact .inl ⟨directory, hmem, List.exists_of_findSome?_eq_some hfound⟩
      · obtain ⟨hmem, heq⟩ := Option.ite_none_right_eq_some.1 hbuiltin
        exact .inr ⟨Std.ExtTreeSet.contains_iff_mem.1 hmem, (Option.some.inj heq).symm⟩

/-- The extensions of the files that are looked for. -/
def extensions : List String := moduleExtensions ++ [scriptExtension]

theorem scriptExtension_mem : scriptExtension ∈ extensions :=
  List.mem_append_right _ (List.mem_singleton_self _)

/-- The files of a name in a directory are precompiled modules, with one extension each, and the
script. -/
theorem mem_filesIn : kind ∈ filesIn directory name ↔
    (∃ extension ∈ moduleExtensions,
      kind = .precompiled (directory.entry (withExtension name extension))) ∨
        kind = .script (directory.entry (withExtension name scriptExtension)) := by
  simp only [filesIn, List.mem_append, List.mem_map, List.mem_singleton, eq_comm (a := kind)]

/-- The file of a name is an entry with the name and one of the extensions. -/
theorem path?_of_mem_filesIn (h : kind ∈ filesIn directory name) : ∃ extension ∈ extensions,
    kind.path? = some (directory.entry (withExtension name extension)) := by
  rcases mem_filesIn.1 h with ⟨extension, hextension, rfl⟩ | rfl
  · exact ⟨extension, List.mem_append_left _ hextension, rfl⟩
  · exact ⟨scriptExtension, scriptExtension_mem, rfl⟩

/-- The characters of a file name are those of the name, a dot and the extension. -/
theorem toList_withExtension :
    (withExtension name extension).toList = name.toList ++ '.' :: extension.toList := by
  simp [withExtension]

/-- The last character of a file name is that of the extension. -/
theorem getLast?_withExtension {c : Char} (hlast : extension.toList.getLast? = some c) :
    (withExtension name extension).toList.getLast? = some c := by
  rw [toList_withExtension, List.getLast?_append, List.getLast?_cons, hlast]
  rfl

/-- A name without a slash, with an extension, names an entry. -/
theorem isPlain_withExtension (hname : '/' ∉ name.toList) (hextension : extension ∈ extensions) :
    IsPlain (withExtension name extension) := by
  have hall : ∀ extension ∈ extensions, '/' ∉ extension.toList ∧
      extension.toList.getLast?.any (· != '.') := by decide
  obtain ⟨hslash, hends⟩ := hall extension hextension
  obtain ⟨c, hlast, hc⟩ := (Option.any_eq_true _ _).1 hends
  have hne (text : String) (htext : text.toList.getLast?.any (· != '.') = false) :
      withExtension name extension ≠ text := by
    rintro rfl
    rw [getLast?_withExtension hlast, Option.any_some, hc] at htext
    cases htext
  refine ⟨?_, hne "" (by decide), hne "." (by decide), hne ".." (by decide)⟩
  rw [toList_withExtension, List.mem_append, List.mem_cons]
  rintro (h | h | h)
  · exact hname h
  · cases h
  · exact hslash h

/-- What follows the last point of a file name is the extension. -/
theorem takeWhile_withExtension (hextension : extension ∈ extensions) :
    (withExtension name extension).toList.reverse.takeWhile (· != '.') =
      extension.toList.reverse := by
  have hall : ∀ extension ∈ extensions, extension.toList.reverse.all (· != '.') := by
    decide
  rw [toList_withExtension, List.reverse_append, List.reverse_cons, List.append_assoc,
    List.takeWhile_append_of_pos (List.all_eq_true.1 (hall extension hextension)),
    List.singleton_append, List.takeWhile_cons_of_neg (by simp), List.append_nil]

/-- A file name splits into the name and the extension. -/
theorem splitName_withExtension (hname : name ≠ "") (hextension : extension ∈ extensions) :
    FilePath.splitName (withExtension name extension).toList =
      (name.toList, some extension.toList) := by
  have hstem : (withExtension name extension).toList.take
      ((withExtension name extension).toList.length - extension.toList.length - 1) =
        name.toList := by
    rw [toList_withExtension, List.length_append, List.length_cons]
    exact List.take_left' (by omega)
  have hlonger : extension.toList.length ≠ (withExtension name extension).toList.length := by
    rw [toList_withExtension, List.length_append, List.length_cons]
    omega
  have hempty : name.toList.isEmpty = false := by
    rw [List.isEmpty_eq_false_iff]
    exact fun h => hname (String.toList_eq_nil_iff.1 h)
  simp only [FilePath.splitName, takeWhile_withExtension hextension, List.reverse_reverse, hstem,
    hempty, Bool.false_or, beq_iff_eq, if_neg hlonger]

/-- File names tell names and extensions apart, as no extension holds a dot. -/
theorem withExtension_injective {extension' : String} (hextension : extension ∈ extensions)
    (hextension' : extension' ∈ extensions)
    (heq : withExtension name extension = withExtension other extension') :
    name = other ∧ extension = extension' := by
  have hends : extension.toList.reverse = extension'.toList.reverse := by
    rw [← takeWhile_withExtension hextension, heq, takeWhile_withExtension hextension']
  obtain rfl := String.toList_injective (List.reverse_inj.1 hends)
  have hnames := congrArg String.toList heq
  rw [toList_withExtension, toList_withExtension, List.append_cancel_right_eq] at hnames
  exact ⟨String.toList_injective hnames, rfl⟩

/-- The class directory of a name without a slash is an entry. -/
theorem isPlain_classDirectory (hname : '/' ∉ name.toList) : IsPlain ("@" ++ name) := by
  have hhead : ("@" ++ name).toList = '@' :: name.toList := by simp
  have hne (text : String) (htext : text.toList.head? ≠ some '@') : "@" ++ name ≠ text := by
    rintro rfl
    exact htext (by rw [hhead]; rfl)
  refine ⟨?_, hne "" (by decide), hne "." (by decide), hne ".." (by decide)⟩
  rw [hhead, List.mem_cons, not_or]
  exact ⟨by decide, hname⟩

theorem isPlain_private : IsPlain "private" :=
  ⟨by decide, by decide, by decide, by decide⟩

/-- A class and a function, each in a directory of its own. -/
def nestedDisk : Disk where
  nodes := .ofList [(["src"], Node.directory 0), (["src", "@P"], .directory 0),
    (["src", "@P", "P.m"], .file (.text "P();\n") 5), (["src", "lib"], .directory 0),
    (["src", "lib", "a.m"], .file (.text "function a()\nend\n") 7)]
  changed := 0
  changedAround := 0

end SearchPath

end ScriptBuild
