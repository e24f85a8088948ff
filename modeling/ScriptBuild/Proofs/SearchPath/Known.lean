import ScriptBuild.Proofs.Resolution.Lookup
import ScriptBuild.Proofs.SearchPath.Candidates

namespace ScriptBuild

namespace Resolution

variable {w : World} {r : Resolution} {directory : Option FilePath} {name : String}

/-- A run whose memory is right takes no known name for an unknown one. -/
theorem isKnown_of_knows (hnames : ∀ names, r.run.names = some names → names = w.lookup.names)
    (hnamesIn : ∀ near ∈ directory, ∀ names, r.run.namesIn[near.key]? = some names →
      names = w.lookup.namesIn near) (h : w.lookup.Knows directory name) :
    (r.isKnown w directory name).2 := by
  have hall : r.run.names.getD w.lookup.names = w.lookup.names := by
    cases heq : r.run.names with
    | none => rfl
    | some names => exact hnames names heq
  simp only [isKnown, hall]
  split
  · rfl
  · next hfar =>
    rcases h with hknown | ⟨near, rfl, hknown⟩
    · exact absurd (Std.ExtTreeSet.contains_iff_mem.2 hknown) hfar
    · have hnear : (r.run.namesIn[near.key]?).getD (w.lookup.namesIn near) =
          w.lookup.namesIn near := by
        cases heq : r.run.namesIn[near.key]? with
        | none => rfl
        | some names => exact hnamesIn near rfl names heq
      simp only [hnear]
      exact Std.ExtTreeSet.contains_iff_mem.2 hknown

end Resolution

namespace SearchPath

open FilePath (IsPlain)

variable {s : SearchPath} {d : Disk} {name extension : String} {directory : FilePath}
  {context : Option FilePath} {kind : UnitKind} {a : Definition}

theorem definedIn_of_definedBy {entry : String} {node : Node} (hplain : IsPlain entry)
    (hempty : directory.text ≠ "") (hlookup : d.lookup (directory.entry entry) = some node)
    (hdefined : definedBy? d directory entry = some name) : name ∈ definedIn d directory :=
  List.mem_filterMap.2 ⟨entry, (Disk.mem_namesIn hplain hempty hlookup).2, hdefined⟩

/-- A file defines the name that it is looked for under. -/
theorem definedBy?_file (hname : name ≠ "") (hslash : '/' ∉ name.toList)
    (hextension : extension ∈ extensions)
    (hfile : d.isFile (directory.entry (withExtension name extension))) :
    definedBy? d directory (withExtension name extension) = some name := by
  have hplain := isPlain_withExtension hslash hextension
  obtain ⟨stop, hlast⟩ := FilePath.lastName?_entry directory (withExtension name extension)
    (fun inFront => hplain.componentOf inFront) hplain.slash
  have hfileName : (directory.entry (withExtension name extension)).fileName? =
      some (withExtension name extension) := by rw [FilePath.fileName?, hlast, Option.map_some]
  have hknown : (extension == scriptExtension || moduleExtensions.contains extension) = true := by
    rcases List.mem_append.1 hextension with h | h
    · rw [List.contains_iff_mem.2 h, Bool.or_true]
    · rw [List.mem_singleton.1 h, beq_self_eq_true, Bool.true_or]
  simp only [definedBy?, Disk.isDirectory_eq_false_of_isFile hfile, Bool.false_eq_true, if_false,
    FilePath.stem?, FilePath.extension?, hfileName, Option.map_some, Option.bind_some,
    splitName_withExtension hname hextension, String.ofList_toList, hknown, if_true]

/-- A directory that is not spelled as the empty path defines the names of its files; in the empty
path files can be found but not listed. -/
theorem mem_definedIn_of_isFile (hname : name ≠ "") (hslash : '/' ∉ name.toList)
    (hempty : directory.text ≠ "") (hextension : extension ∈ extensions)
    (hfile : d.isFile (directory.entry (withExtension name extension))) :
    name ∈ definedIn d directory := by
  obtain ⟨node, hlookup, _⟩ := Disk.isFile_iff.1 hfile
  exact definedIn_of_definedBy (isPlain_withExtension hslash hextension) hempty hlookup
    (definedBy?_file hname hslash hextension hfile)

/-- A directory that is not spelled as the empty path defines every name of which it provides a
file. -/
theorem mem_definedIn_of_mem_filesIn (hname : name ≠ "") (hslash : '/' ∉ name.toList)
    (hempty : directory.text ≠ "") (hkind : kind ∈ filesIn directory name)
    (hprovided : provided? d kind = some a) : name ∈ definedIn d directory := by
  obtain ⟨extension, hextension, hpath⟩ := path?_of_mem_filesIn hkind
  exact mem_definedIn_of_isFile hname hslash hempty hextension (isFile_of_provided? hprovided hpath)

/-- A class is known by its directory, whatever else is in it. -/
theorem mem_definedIn_of_class (hslash : '/' ∉ name.toList) (hempty : directory.text ≠ "")
    (hfile : d.isFile (classFile directory name)) : name ∈ definedIn d directory := by
  have hplain := isPlain_classDirectory hslash
  obtain ⟨node, hlookup, _⟩ := Disk.isFile_iff.1 hfile
  obtain ⟨hfolder, _⟩ := Disk.mem_namesIn (isPlain_withExtension hslash scriptExtension_mem)
    (FilePath.text_entry_ne_empty hplain.nonempty) hlookup
  obtain ⟨folder, hthere, _⟩ := (Option.any_eq_true _ _).1 hfolder
  refine definedIn_of_definedBy hplain hempty hthere ?_
  simp [definedBy?, hfolder]

/-- The names near a directory are those that it and its private directory define. -/
theorem mem_namesIn_iff : name ∈ namesIn d directory ↔
    name ∈ definedIn d directory ∨ name ∈ definedIn d (directory.entry "private") := by
  rw [namesIn, Std.ExtTreeSet.mem_ofList, List.contains_iff_mem, List.mem_append]

/-- The names known everywhere are the built-in ones and those that search directories define. -/
theorem mem_names_iff : name ∈ s.names d ↔
    name ∈ s.builtins ∨ ∃ directory ∈ s.directories, name ∈ definedIn d directory := by
  rw [names, Std.ExtTreeSet.mem_union_iff, Std.ExtTreeSet.mem_ofList, List.contains_iff_mem,
    List.mem_flatMap]

/-- What is not a file of the empty path is known by its name. -/
theorem knows_of_find (hname : name ≠ "") (hslash : '/' ∉ name.toList)
    (hempty : ∀ kind ∈ farFiles ⟨""⟩ name, provided? d kind = some a →
      context ≠ some ⟨""⟩ ∧ ⟨""⟩ ∉ s.directories)
    (h : s.find d name context = some a) : (s.lookup d).Knows context name := by
  have hspelled {directory : FilePath} (htext : directory ≠ ⟨""⟩) : directory.text ≠ "" :=
    fun heq => htext (congrArg FilePath.mk heq)
  rcases find_cases h with ⟨directory, hdirectory, kind, hkind, hprovided⟩ |
    ⟨_, ⟨directory, hdirectory, kind, hkind, hprovided⟩ | ⟨hbuiltin, _⟩⟩
  · refine .inr ⟨directory, hdirectory, mem_namesIn_iff.2 ?_⟩
    rcases List.mem_append.1 hkind with hhere | hprivate
    · refine .inl (mem_definedIn_of_mem_filesIn hname hslash (hspelled ?_) hhere hprovided)
      rintro rfl
      exact (hempty kind (List.mem_cons_of_mem _ hhere) hprovided).1 hdirectory
    · obtain rfl := List.mem_singleton.1 hprivate
      exact .inr (mem_definedIn_of_isFile hname hslash
        (FilePath.text_entry_ne_empty isPlain_private.nonempty) scriptExtension_mem
        (isFile_of_provided? hprovided rfl))
  · refine .inl (mem_names_iff.2 (.inr ⟨directory, hdirectory, ?_⟩))
    have htext : directory.text ≠ "" := hspelled fun heq =>
      (hempty kind (heq ▸ hkind) hprovided).2 (heq ▸ hdirectory)
    rcases List.mem_cons.1 hkind with rfl | hhere
    · exact mem_definedIn_of_class hslash htext (isFile_of_provided? hprovided rfl)
    · exact mem_definedIn_of_mem_filesIn hname hslash htext hhere hprovided
  · exact .inl (mem_names_iff.2 (.inl hbuiltin))

/-- A name that a search path finds is known, and a run that remembers the known names of the search
path does look it up. Only a file of the directory that is spelled as the empty path may be missed,
as that directory cannot be listed. -/
theorem isKnown_of_find (hname : name ≠ "") (hslash : '/' ∉ name.toList)
    (hempty : ∀ kind ∈ farFiles ⟨""⟩ name, provided? d kind = some a →
      context ≠ some ⟨""⟩ ∧ ⟨""⟩ ∉ s.directories)
    (h : s.find d name context = some a) : (s.lookup d).Knows context name ∧
      ∀ r : Resolution, (∀ names, r.run.names = some names → names = s.names d) →
        (∀ directory ∈ context, ∀ names, r.run.namesIn[directory.key]? = some names →
          names = namesIn d directory) → (r.isKnown (.ofDisk s d) context name).2 :=
  have hknows := knows_of_find hname hslash hempty h
  ⟨hknows, fun _ hnames hnamesIn => Resolution.isKnown_of_knows hnames hnamesIn hknows⟩

/-- A class is found from anywhere, and is known. -/
theorem isKnown_of_find_class :
    (new [⟨"src"⟩] []).find nestedDisk "P" (some ⟨"src/lib"⟩) =
      some ⟨.classFile ⟨"src/@P/P.m"⟩, 5, .file ⟨"src/@P/P.m"⟩⟩ ∧
    ((new [⟨"src"⟩] []).lookup nestedDisk).Knows (some ⟨"src/lib"⟩) "P" ∧
    ((Resolution.start .empty).isKnown (.ofDisk (new [⟨"src"⟩] []) nestedDisk)
      (some ⟨"src/lib"⟩) "P").2 := by
  have hfind : (new [⟨"src"⟩] []).find nestedDisk "P" (some ⟨"src/lib"⟩) =
      some ⟨.classFile ⟨"src/@P/P.m"⟩, 5, .file ⟨"src/@P/P.m"⟩⟩ := by decide +kernel
  obtain ⟨hknows, hknown⟩ := isKnown_of_find (by decide) (by decide)
    (fun _ _ _ => ⟨by decide, by decide⟩) hfind
  refine ⟨hfind, hknows, hknown (.start .empty) (fun _ heq => nomatch heq) fun _ _ _ heq => ?_⟩
  simp [Resolution.start, Run.start] at heq

end SearchPath

end ScriptBuild
