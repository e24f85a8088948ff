import ScriptBuild.Proofs.SearchPath.Candidates

namespace ScriptBuild

namespace FilePath

variable {p q : FilePath} {c e : Char}

/-- Spellings of one path that end in characters of a name end in the same one. -/
theorem getLast?_eq_of_same (hsame : p.same q) (hp : p.text.toList.getLast? = some c)
    (hq : q.text.toList.getLast? = some e) (hc : c ≠ '/' ∧ c ≠ '.') (he : e ≠ '/' ∧ e ≠ '.') :
    c = e := by
  have hlast {p : FilePath} {c : Char} (hp : p.text.toList.getLast? = some c)
      (hc : c ≠ '/' ∧ c ≠ '.') : ∃ name, (p.steps.filter (· != ".")).getLast? = some name ∧
        name.toList.getLast? = some c := by
    obtain ⟨before, name, hsteps, hname⟩ := exists_last_step hp hc.1
    refine ⟨name, ?_, hname⟩
    have hpoint : name ≠ "." := by
      rintro rfl
      exact hc.2 (Option.some.inj hname).symm
    rw [hsteps, List.filter_append, List.filter_cons_of_pos (by simpa using hpoint), List.filter_nil,
      List.getLast?_concat]
  obtain ⟨name, hname, hend⟩ := hlast hp hc
  obtain ⟨other, hother, hend'⟩ := hlast hq he
  rw [steps_filter, same_iff.1 hsame, ← steps_filter, hother] at hname
  obtain rfl := Option.some.inj hname
  exact Option.some.inj (hend.symm.trans hend')

end FilePath

namespace SearchPath

variable {s : SearchPath} {d : Disk} {name name' : String} {p q : FilePath}
  {context : Option FilePath} {kind kind' : UnitKind} {a a' : Definition}

/-- What a name may denote: a file where the name is looked for, or something that is no file. -/
inductive Sited (name : String) (kind : UnitKind) : Prop where
  | near (directory : FilePath) (hkind : kind ∈ nearFiles directory name)
  | far (directory : FilePath) (hkind : kind ∈ farFiles directory name)
  | pathless (hpath : kind.path? = none)

/-- What a search finds for a name is where the name is looked for. -/
theorem sited_of_find (h : s.find d name context = some a) : Sited name a.kind := by
  rcases find_cases h with ⟨directory, _, kind, hmem, hprovided⟩ |
    ⟨_, ⟨directory, _, kind, hmem, hprovided⟩ | ⟨_, rfl⟩⟩
  · exact .near directory (kind_of_provided? hprovided ▸ hmem)
  · exact .far directory (kind_of_provided? hprovided ▸ hmem)
  · exact .pathless rfl

/-- The last character of the files of a kind. -/
def lastChar : KindTag → Char
  | .precompiled => '4'
  | _ => 'm'

/-- A path is that of an entry that is named for a name, with an extension that fits a kind. -/
def IsNamedFor (name : String) (tag : KindTag) (p : FilePath) : Prop :=
  ∃ directory : FilePath, ∃ extension ∈ extensions,
    p = directory.entry (withExtension name extension) ∧
      extension.toList.getLast? = some (lastChar tag)

/-- The file of a name is named for it. -/
theorem Sited.isNamedFor (h : Sited name kind) (hp : kind.path? = some p) :
    IsNamedFor name kind.tag p := by
  have hscript : scriptExtension.toList.getLast? = some 'm' := by decide
  have hhere {directory : FilePath} (hkind : kind ∈ filesIn directory name) :
      IsNamedFor name kind.tag p := by
    rcases mem_filesIn.1 hkind with ⟨extension, hextension, rfl⟩ | rfl
    · have hall : ∀ extension ∈ moduleExtensions, extension.toList.getLast? = some '4' := by
        decide
      exact ⟨directory, extension, List.mem_append_left _ hextension, (Option.some.inj hp).symm,
        hall extension hextension⟩
    · exact ⟨directory, _, scriptExtension_mem, (Option.some.inj hp).symm, hscript⟩
  cases h with
  | near directory hkind =>
    rcases List.mem_append.1 hkind with hkind | hkind
    · exact hhere hkind
    · obtain rfl := List.mem_singleton.1 hkind
      exact ⟨_, _, scriptExtension_mem, (Option.some.inj hp).symm, hscript⟩
  | far directory hkind =>
    rcases List.mem_cons.1 hkind with rfl | hkind
    · exact ⟨_, _, scriptExtension_mem, (Option.some.inj hp).symm, hscript⟩
    · exact hhere hkind
  | pathless hnone => cases hnone.symm.trans hp

/-- The last character of a file tells precompiled modules from scripts. -/
theorem Sited.getLast? (h : Sited name kind) (hp : kind.path? = some p) :
    p.text.toList.getLast? = some (lastChar kind.tag) := by
  obtain ⟨directory, extension, _, rfl, hlast⟩ := h.isNamedFor hp
  exact FilePath.getLast?_text_entry (getLast?_withExtension hlast)

/-- The file of a class, once as a class and once as a script. It is a class for those who come
    through its class directory, and a script for those who look in that directory. All that look
    for any other file take it for the same kind, as the extension tells precompiled modules from
    scripts. -/
inductive ClassAndScript : UnitKind → UnitKind → Prop where
  | classFirst (directory : FilePath) (name : String) {path : FilePath}
      (hsame : path.same (classFile directory name)) :
      ClassAndScript (.classFile (classFile directory name)) (.script path)
  | scriptFirst (directory : FilePath) (name : String) {path : FilePath}
      (hsame : path.same (classFile directory name)) :
      ClassAndScript (.script path) (.classFile (classFile directory name))

/-- A class is in the class directory of its name. -/
theorem Sited.classFile {path : FilePath} (h : Sited name (.classFile path)) :
    ∃ directory, path = SearchPath.classFile directory name := by
  have hnot {directory : FilePath} : UnitKind.classFile path ∉ filesIn directory name := by
    rw [mem_filesIn]
    simp
  cases h with
  | near directory hkind =>
    rcases List.mem_append.1 hkind with hkind | hkind
    · exact absurd hkind hnot
    · cases List.mem_singleton.1 hkind
  | far directory hkind =>
    rcases List.mem_cons.1 hkind with heq | hkind
    · exact ⟨directory, UnitKind.classFile.inj heq⟩
    · exact absurd hkind hnot
  | pathless hnone => cases hnone

/-- Files with a path are modules, scripts and classes, and the path tells modules from the others. -/
theorem Sited.tag_eq (h : Sited name kind) (h' : Sited name' kind') (hp : kind.path? = some p)
    (hq : kind'.path? = some q) (hsame : p.same q) :
    kind.tag = kind'.tag ∨ ClassAndScript kind kind' := by
  have hends : lastChar kind.tag = lastChar kind'.tag :=
    FilePath.getLast?_eq_of_same hsame (h.getLast? hp) (h'.getLast? hq)
      (by cases kind.tag <;> decide) (by cases kind'.tag <;> decide)
  have hsame' : q.same p := FilePath.same_iff.2 (FilePath.same_iff.1 hsame).symm
  cases kind <;> cases hp <;> cases kind' <;> cases hq
  case script.refl.classFile.refl =>
    obtain ⟨directory, rfl⟩ := h'.classFile
    exact .inr (.scriptFirst directory name' hsame)
  case classFile.refl.script.refl =>
    obtain ⟨directory, rfl⟩ := h.classFile
    exact .inr (.classFirst directory name hsame')
  all_goals first | exact .inl rfl | exact absurd hends (by simp [lastChar, UnitKind.tag])

/-- What is found with a path is the definition in that file. -/
theorem provided?_of_find (h : s.find d name context = some a) (hp : a.kind.path? = some p) :
    provided? d a.kind = some a := by
  rcases find_cases h with ⟨_, _, _, _, hprovided⟩ | ⟨_, ⟨_, _, _, _, hprovided⟩ | ⟨_, rfl⟩⟩
  · rwa [kind_of_provided? hprovided]
  · rwa [kind_of_provided? hprovided]
  · cases hp

/-- All who find a file say the same of it, unless it is the file of a class. -/
theorem alike_of_find {s' : SearchPath} {context' : Option FilePath}
    (h : s.find d name context = some a) (h' : s'.find d name' context' = some a')
    (hp : a.kind.path? = some p) (hq : a'.kind.path? = some q) (hsame : p.same q) :
    a.timestamp = a'.timestamp ∧ (a.kind.tag = a'.kind.tag ∨ ClassAndScript a.kind a'.kind) := by
  refine ⟨?_, (sited_of_find h).tag_eq (sited_of_find h') hp hq hsame⟩
  obtain ⟨_, hpath, hfile, heq⟩ := provided?_eq_some.1 (provided?_of_find h hp)
  obtain ⟨_, hpath', hfile', heq'⟩ := provided?_eq_some.1 (provided?_of_find h' hq)
  obtain rfl := Option.some.inj (hp.symm.trans hpath)
  obtain rfl := Option.some.inj (hq.symm.trans hpath')
  obtain ⟨node, hlookup, _⟩ := Disk.isFile_iff.1 hfile
  obtain ⟨node', hlookup', _⟩ := Disk.isFile_iff.1 hfile'
  obtain rfl := Disk.lookup_eq_of_same hlookup hlookup' hsame
  rw [heq, heq', timestamp, timestamp, Disk.changed?, Disk.changed?, hlookup, hlookup']

/-- Names without slashes that have one file are the same. -/
theorem Sited.name_eq (h : Sited name kind) (h' : Sited name' kind') (hslash : '/' ∉ name.toList)
    (hslash' : '/' ∉ name'.toList) (hp : kind.path? = some p) (hq : kind'.path? = some q)
    (hsame : p.same q) : name = name' := by
  obtain ⟨_, extension, hextension, rfl, _⟩ := h.isNamedFor hp
  obtain ⟨_, extension', hextension', rfl, _⟩ := h'.isNamedFor hq
  rw [FilePath.same_iff, FilePath.components_entry (isPlain_withExtension hslash hextension),
    FilePath.components_entry (isPlain_withExtension hslash' hextension')] at hsame
  obtain ⟨_, hlast⟩ := List.append_inj' hsame rfl
  exact (withExtension_injective hextension hextension'
    (FilePath.Component.name.inj (List.singleton_inj.1 hlast))).1

end SearchPath

end ScriptBuild
