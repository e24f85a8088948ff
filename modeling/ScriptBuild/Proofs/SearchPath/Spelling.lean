import ScriptBuild.Proofs.Disk.Spelling
import ScriptBuild.Proofs.Resolution.Directories
import ScriptBuild.Proofs.SearchPath.Candidates

namespace ScriptBuild

namespace SearchPath

open Disk (HasRoom HasShortNames)

variable {s : SearchPath} {d : Disk} {a b : FilePath} {name : String} {p q : FilePath}

/-- The spelling of a directory is so short that the system takes the paths of all files that a name
may stand for there. -/
def IsShort (a : FilePath) : Prop := HasRoom a ∧ HasRoom (a.entry "private")

/-- What a file defines is told by what is on the disk and by the components of its path. -/
theorem identity_inFile?_congr (kind : FilePath → UnitKind) (hlookup : d.lookup p = d.lookup q)
    (hkind : (kind p).same (kind q)) :
    (inFile? d kind p).map Definition.identity = (inFile? d kind q).map Definition.identity := by
  have hfile : d.isFile p = d.isFile q := by rw [Disk.isFile, Disk.isFile, hlookup]
  have htime : timestamp d p = timestamp d q := by
    rw [timestamp, timestamp, Disk.changed?, Disk.changed?, hlookup]
  have hidentity (time : Nat) : (kind p).identity time = (kind q).identity time := by
    obtain ⟨htag, hpath⟩ := UnitKind.same_iff.1 hkind
    rw [UnitKind.identity, UnitKind.identity, htag, hpath, UnitKind.isEphemeral_eq_of_tag htag]
  rw [inFile?, inFile?, hfile, htime]
  split
  · exact congrArg some (hidentity _)
  · rfl

/-- The files of a name are the same ones for two spellings of their directory. -/
theorem lookup_entry_withExtension_congr {extension : String} (hsame : a.same b) (ha : HasRoom a)
    (hb : HasRoom b) (hslash : '/' ∉ name.toList) (hextension : extension ∈ extensions) :
    d.lookup (a.entry (withExtension name extension)) =
      d.lookup (b.entry (withExtension name extension)) := by
  have hall : ∀ extension ∈ extensions, extension.toList.getLast?.any
      (fun c => c != '/' && c != '.') := by decide
  obtain ⟨c, hlast, hc⟩ := (Option.any_eq_true _ _).1 (hall extension hextension)
  rw [Bool.and_eq_true, bne_iff_ne, bne_iff_ne] at hc
  exact Disk.lookup_entry_congr hsame ha hb (isPlain_withExtension hslash hextension).slash
    (getLast?_withExtension hlast) hc

/-- A name denotes the same in a directory, however that is spelled. -/
theorem identity_inDirectory?_congr (hsame : a.same b) (ha : HasRoom a) (hb : HasRoom b)
    (hslash : '/' ∉ name.toList) :
    (inDirectory? d a name).map Definition.identity =
      (inDirectory? d b name).map Definition.identity := by
  have hlookup {extension : String} (hextension : extension ∈ extensions) :=
    lookup_entry_withExtension_congr (d := d) hsame ha hb hslash hextension
  have hentry (extension : String) := FilePath.same_entry hsame (withExtension name extension)
  have hmap (f : String → Option Identity) : moduleExtensions.findSome? f =
      (moduleExtensions.map f).findSome? id := by rw [List.findSome?_map, Function.id_comp]
  have hmodules := List.map_congr_left fun extension (hmem : extension ∈ moduleExtensions) =>
    identity_inFile?_congr .precompiled (hlookup (List.mem_append_left _ hmem))
      (Bool.and_eq_true_iff.2 ⟨rfl, hentry extension⟩)
  have hscript := identity_inFile?_congr .script (hlookup scriptExtension_mem)
    (Bool.and_eq_true_iff.2 ⟨rfl, hentry scriptExtension⟩)
  rw [inDirectory?, inDirectory?, Option.map_or, Option.map_or, List.map_findSome?,
    List.map_findSome?, hmap, hmap]
  exact congr (congrArg _ (congrArg _ hmodules)) hscript

/-- A name denotes the same in the private directory, however the directory around it is spelled. -/
theorem identity_inPrivate?_congr (hsame : a.same b) (ha : IsShort a) (hb : IsShort b)
    (hslash : '/' ∉ name.toList) :
    (inPrivate? d a name).map Definition.identity =
      (inPrivate? d b name).map Definition.identity := by
  have hprivate := FilePath.same_entry hsame "private"
  exact identity_inFile?_congr _
    (lookup_entry_withExtension_congr hprivate ha.2 hb.2 hslash scriptExtension_mem)
    (Bool.and_eq_true_iff.2 ⟨rfl, FilePath.same_entry hprivate _⟩)

/-- A name means the same from a directory, however the directory is spelled. -/
theorem identity_find_of_same (s : SearchPath) (d : Disk) (hslash : '/' ∉ name.toList)
    (hsame : a.same b) (ha : IsShort a) (hb : IsShort b) :
    (s.find d name (some a)).map Definition.identity =
      (s.find d name (some b)).map Definition.identity := by
  simp only [find, Option.bind_some, Option.map_or]
  rw [identity_inDirectory?_congr hsame ha.1 hb.1 hslash,
    identity_inPrivate?_congr hsame ha hb hslash]

/-- A directory defines the same names however it is spelled. -/
theorem definedIn_congr (hd : d.HasShortNames) (hsame : a.same b) (ha : HasRoom a)
    (hb : HasRoom b) : definedIn d a = definedIn d b := by
  rw [definedIn, definedIn, Disk.namesIn_congr hsame ha.fits hb.fits]
  apply List.filterMap_congr
  intro name hmem
  have hname := hd.of_mem_namesIn hmem
  have hentry := FilePath.same_entry hsame name
  have hcomponents := FilePath.same_iff.1 hentry
  simp only [definedBy?, Disk.isDirectory_congr hentry (ha.fits_entry hname) (hb.fits_entry hname),
    FilePath.stem?_congr hcomponents, FilePath.extension?_congr hcomponents]

/-- A directory defines the same names, however it is spelled. -/
theorem namesIn_of_same (hd : d.HasShortNames) (hsame : a.same b) (ha : IsShort a)
    (hb : IsShort b) : namesIn d a = namesIn d b := by
  rw [namesIn, namesIn, definedIn_congr hd hsame ha.1 hb.1,
    definedIn_congr hd (FilePath.same_entry hsame "private") ha.2 hb.2]

/-- A search path ignores how directories are spelled, as far as the system takes the spellings. For
each directory one of its short spellings can be chosen, so that the lookup which uses the chosen ones
does ignore spelling and answers every question from a directory with a short spelling like the search
path itself. Only a spelling that is too long for the files of the directory tells the two apart. -/
theorem exists_ignoresSpelling (s : SearchPath) (hd : d.HasShortNames) :
    ∃ spelling : DirectoryKey → FilePath,
      ((World.ofDisk s d).respelled spelling).lookup.IgnoresSpelling ∧
        ∀ a, IsShort a →
          ((s.lookup d).respelled spelling).namesIn a = (s.lookup d).namesIn a ∧
            ∀ name : String, '/' ∉ name.toList →
              (((s.lookup d).respelled spelling).find name (some a)).map Definition.identity =
                ((s.lookup d).find name (some a)).map Definition.identity := by
  classical
  let short (key : DirectoryKey) : Prop := ∃ b : FilePath, b.key = key ∧ IsShort b
  let spelling (key : DirectoryKey) : FilePath := if h : short key then h.choose else ⟨""⟩
  refine ⟨spelling, (World.ofDisk s d).ignoresSpelling_respelled spelling, fun a ha => ?_⟩
  have hshort : short a.key := ⟨a, rfl, ha⟩
  obtain ⟨hkey, hchosen⟩ := hshort.choose_spec
  have hspelling : spelling a.key = hshort.choose := dif_pos hshort
  have hsame : (spelling a.key).same a := by
    rw [hspelling]
    exact FilePath.same_iff.2 (FilePath.key_eq_iff.1 hkey)
  have hchosen : IsShort (spelling a.key) := by rwa [hspelling]
  constructor
  · exact namesIn_of_same hd hsame hchosen ha
  · intro name hslash
    exact identity_find_of_same s d hslash hsame hchosen ha

end SearchPath

end ScriptBuild
