import ScriptBuild.Entry
import ScriptBuild.Proofs.SearchPath.Candidates

namespace ScriptBuild

open SearchPath

variable {s : SearchPath} {d : Disk} {now : Nat} {name : String} {directory other path : FilePath}
  {kind : UnitKind} {a : Definition}

/-- A path begins with a directory if its components do. -/
theorem FilePath.startsWith_iff : path.startsWith directory ↔
    directory.components <+: path.components := by
  rw [FilePath.startsWith, List.isPrefixOf_iff_prefix]

/-- A file of a search directory lies in a directory if the search directory does, or if that is the
class directory, or the path of the file itself. -/
theorem SearchPath.startsWith_of_mem_farFiles (hslash : '/' ∉ name.toList)
    (hkind : kind ∈ farFiles other name) (hpath : kind.path? = some path)
    (hwithin : path.startsWith directory) : other.startsWith directory ∨
      (other.entry ("@" ++ name)).same directory ∨ path.same directory := by
  -- What lies in a directory, but for the directory itself, lies there with all around it.
  have hshorter {p : FilePath} {entry : String} (hplain : FilePath.IsPlain entry)
      (h : (p.entry entry).startsWith directory) :
      p.startsWith directory ∨ (p.entry entry).same directory := by
    rw [FilePath.startsWith_iff, FilePath.components_entry hplain, List.prefix_concat_iff] at h
    rw [FilePath.startsWith_iff, FilePath.same_iff, FilePath.components_entry hplain]
    exact h.symm.imp_right Eq.symm
  rcases List.mem_cons.1 hkind with rfl | hhere
  · obtain rfl := Option.some.inj hpath
    rcases hshorter (isPlain_withExtension hslash scriptExtension_mem) hwithin with h | h
    · exact (hshorter (isPlain_classDirectory hslash) h).imp_right .inl
    · exact .inr (.inr h)
  · obtain ⟨extension, hextension, heq⟩ := path?_of_mem_filesIn hhere
    obtain rfl := Option.some.inj (hpath.symm.trans heq)
    exact (hshorter (isPlain_withExtension hslash hextension) hwithin).imp_right .inr

namespace Entry

/-- What an entry point in a directory means is found from there, and lies in the directory or below
it. -/
theorem meaning_eq_defined (h : meaning s d now (.located name directory) = .defined a) :
    s.find d name (some directory) = some a ∧ isWithin directory a := by
  rw [← Option.filter_eq_some_iff]
  unfold meaning at h
  dsimp only at h
  generalize (s.find d name (some directory)).filter (isWithin directory) = found at h ⊢
  cases found with
  | none => cases h
  | some definition => rw [Meaning.defined.inj h]

/-- What an entry point stands for in a directory is a file there or below. It is a file of the
directory or of its private directory, unless they have none; then it is one of a search directory
around the file, which lies in the directory. -/
theorem located_of_meaning (h : meaning s d now (.located name directory) = .defined a) :
    ∃ path, a.kind.path? = some path ∧ a.body = .file path ∧ d.isFile path ∧
      path.startsWith directory ∧ (a.kind ∈ nearFiles directory name ∨
        (∀ kind ∈ nearFiles directory name, provided? d kind = none) ∧
          ∃ other ∈ s.directories, a.kind ∈ farFiles other name ∧ ('/' ∉ name.toList →
            other.startsWith directory ∨ (other.entry ("@" ++ name)).same directory ∨
              path.same directory)) := by
  obtain ⟨hfind, hwithin⟩ := meaning_eq_defined h
  obtain ⟨path, hpath, hprefix⟩ := (Option.any_eq_true _ _).1 hwithin
  have hfile {kind : UnitKind} (hprovided : provided? d kind = some a) :
      a.kind = kind ∧ a.body = .file path ∧ d.isFile path := by
    obtain ⟨path', hpath', hfile, rfl⟩ := provided?_eq_some.1 hprovided
    obtain rfl := Option.some.inj (hpath.symm.trans hpath')
    exact ⟨rfl, rfl, hfile⟩
  rcases find_cases hfind with ⟨_, hdirectory, kind, hkind, hprovided⟩ |
    ⟨hnone, ⟨other, hother, kind, hkind, hprovided⟩ | ⟨_, rfl⟩⟩
  · obtain rfl := Option.mem_some_iff.1 hdirectory
    obtain ⟨rfl, hbody, hthere⟩ := hfile hprovided
    exact ⟨path, hpath, hbody, hthere, hprefix, .inl hkind⟩
  · obtain ⟨rfl, hbody, hthere⟩ := hfile hprovided
    exact ⟨path, hpath, hbody, hthere, hprefix, .inr ⟨hnone directory rfl, other, hother, hkind,
      fun hslash => startsWith_of_mem_farFiles hslash hkind hpath hprefix⟩⟩
  · cases hpath

/-- A function that is asked for in one directory is found in a search directory below it. -/
theorem located_of_meaning_below :
    meaning (.new [⟨"src/lib"⟩] []) nestedDisk 0 (.located "a" ⟨"src"⟩) =
      .defined ⟨.script ⟨"src/lib/a.m"⟩, 7, .file ⟨"src/lib/a.m"⟩⟩ ∧
    (∀ kind ∈ nearFiles ⟨"src"⟩ "a", provided? nestedDisk kind = none) ∧
    UnitKind.script ⟨"src/lib/a.m"⟩ ∈ farFiles ⟨"src/lib"⟩ "a" := by
  have hmeaning : meaning (.new [⟨"src/lib"⟩] []) nestedDisk 0 (.located "a" ⟨"src"⟩) =
      .defined ⟨.script ⟨"src/lib/a.m"⟩, 7, .file ⟨"src/lib/a.m"⟩⟩ := by decide +kernel
  obtain ⟨_, _, _, _, _, hnear | ⟨hnone, other, hother, hfar, _⟩⟩ := located_of_meaning hmeaning
  · exact absurd hnear (by decide +kernel)
  · obtain rfl := List.mem_singleton.1 hother
    exact ⟨hmeaning, hnone, hfar⟩

end Entry

end ScriptBuild
