import ScriptBuild.Proofs.Build.Course
import ScriptBuild.Proofs.Build.Sources
import ScriptBuild.Proofs.Disk.Entries
import ScriptBuild.Proofs.SearchPath.Known

namespace ScriptBuild

variable {σ : Type}

namespace FilePath

variable {p : FilePath} {name : String} {cs extension : List Char} {c : Char}

/-- A text that ends like no file that defines something, and like no directory. -/
def Idle (text : String) : Prop := ∃ c, text.toList.getLast? = some c ∧ c ∉ ['/', '.', 'm', '4']

/-- The steps of a path are names, but for points. -/
theorem isPlain_of_mem_steps (hmem : name ∈ p.steps) (hname : Disk.isName name) : IsPlain name := by
  obtain ⟨⟨segment, stop⟩, hsegment, heq⟩ := List.mem_filterMap.1 hmem
  obtain ⟨hpoint, hpoints⟩ := Bool.and_eq_true_iff.1 hname
  dsimp only at heq
  split at heq
  · cases heq
  · next hne =>
    cases heq
    refine ⟨?_, fun hempty => hne ?_, by simpa using hpoint, by simpa using hpoints⟩
    · rw [String.toList_ofList]
      exact not_mem_of_mem_segmentsFrom hsegment List.not_mem_nil
    · rw [List.isEmpty_iff, ← String.toList_ofList (l := segment), hempty]
      rfl

/-- The extension of a name ends like the name. -/
theorem getLast?_extension (hlast : cs.getLast? = some c) (hdot : c ≠ '.')
    (h : (splitName cs).2 = some extension) : extension.getLast? = some c := by
  unfold splitName at h
  dsimp only at h
  split at h
  · cases h
  · obtain rfl := Option.some.inj h
    obtain ⟨front, rfl⟩ := List.getLast?_eq_some_iff.1 hlast
    rw [List.reverse_append, List.reverse_singleton, List.singleton_append, List.takeWhile_cons,
      if_pos (by simpa using hdot), List.reverse_cons, List.getLast?_concat]

end FilePath

namespace Disk

open FilePath (IsPlain Idle)

variable {d d' d'' : Disk} {p : FilePath} {spot : Spot} {place : Place} {name : String}
  {made : FilePath → Prop} {content : Content} {now : Int} {goal : FilePath}

/-- A path that ends like a name leads to one, which ends like the path. -/
theorem Leads.exists_idle (h : d.Leads p spot) (hidle : Idle p.text) :
    ∃ place name, spot = .inside (place ++ [name]) ∧ IsPlain name ∧ Idle name := by
  obtain ⟨c, hlast, hc⟩ := hidle
  simp only [List.mem_cons, List.not_mem_nil, or_false, not_or] at hc
  obtain ⟨before, name, hsteps, hname⟩ := FilePath.exists_last_step hlast hc.1
  obtain ⟨steps, hroute, hwalk⟩ := h
  rw [route_eq_ok hroute, hsteps, walk_append] at hwalk
  obtain ⟨directory, _, henter⟩ := bind_eq_ok.1 hwalk
  have hisName : isName name := by
    rw [isName, Bool.and_eq_true, bne_iff_ne, bne_iff_ne]
    constructor <;> rintro rfl <;> exact hc.2.1 (Option.some.inj hname).symm
  obtain ⟨place, _, rfl⟩ := enter_eq_inside henter hisName
  have hmem : name ∈ p.steps := by
    rw [hsteps]
    exact List.mem_append_right _ (List.mem_singleton_self name)
  exact ⟨place, name, rfl, FilePath.isPlain_of_mem_steps hmem hisName, c, hname,
    by simpa using hc⟩

/-- Two disks have the same directories, and their entries differ in nothing but idle files. -/
structure SameEntries (d d' : Disk) : Prop where
  directories : d.SameDirectories d'
  entries : ∀ place name, d.Open (.inside place) → d.IsDirectoryAt (.inside place) →
    ((d'.at? (place ++ [name])).isSome ↔ (d.at? (place ++ [name])).isSome) ∨
      IsPlain name ∧ Idle name ∧ ¬ d.IsDirectoryAt (.inside (place ++ [name]))

/-- The entries of a directory can be reached. -/
theorem Open.entry (h : d.Open (.inside place)) (hdirectory : d.IsDirectoryAt (.inside place))
    (name : String) : d.Open (.inside (place ++ [name])) := by
  rintro _ front ⟨⟩ hinitial hne
  have hinside := (List.prefix_concat_iff.1 hinitial).resolve_left hne
  by_cases heq : front = place
  · exact heq ▸ hdirectory
  · exact h place front rfl hinside heq

namespace SameEntries

theorem refl (d : Disk) : d.SameEntries d := ⟨.refl d, fun _ _ _ _ => .inl Iff.rfl⟩

theorem trans (h : d.SameEntries d') (h' : d'.SameEntries d'') : d.SameEntries d'' where
  directories := h.directories.trans h'.directories
  entries place name hopen hdirectory := by
    have hlater := h'.entries place name (h.directories.open hopen)
      ((h.directories _ hopen).2 hdirectory)
    rw [h.directories _ (hopen.entry hdirectory name)] at hlater
    rcases h.entries place name hopen hdirectory, hlater with ⟨hfirst | hfirst, hlater | hlater⟩
    · exact .inl (hlater.trans hfirst)
    · exact .inr hlater
    · exact .inr hfirst
    · exact .inr hfirst

theorem symm (h : d.SameEntries d') : d'.SameEntries d where
  directories := h.directories.symm
  entries place name hopen hdirectory := by
    have hformer := h.directories.symm.open hopen
    have hthere := (h.directories _ hformer).1 hdirectory
    rw [h.directories _ (hformer.entry hthere name)]
    exact (h.entries place name hformer hthere).imp_left Iff.symm

/-- Files that are gained at idle paths are idle entries. -/
theorem of_adds (h : d.Adds made d') (hmade : ∀ p, made p → Idle p.text) : d.SameEntries d' where
  directories _ _ := h.isDirectoryAt_iff
  entries place name _ _ := by
    cases hold : d.at? (place ++ [name]) with
    | some node =>
      obtain ⟨node', hnew, _⟩ := h.keeps (.inside (place ++ [name])) node hold
      exact .inl (by simp [show d'.at? (place ++ [name]) = some node' from hnew])
    | none =>
      cases hnew : d'.at? (place ++ [name]) with
      | none => exact .inl Iff.rfl
      | some node =>
        obtain ⟨_, p, hp, hleads⟩ := h.only (.inside (place ++ [name])) node hold hnew
        obtain ⟨other, last, heq, hplain, hidle⟩ := hleads.exists_idle (hmade p hp)
        obtain rfl := List.singleton_inj.1 (List.append_inj' (Spot.inside.inj heq) rfl).2
        refine .inr ⟨hplain, hidle, ?_⟩
        rintro ⟨changed, hthere⟩
        rw [atSpot?, hold] at hthere
        cases hthere

/-- Moving a file between idle paths changes idle entries only. -/
theorem of_rename {source : FilePath} (h : d.rename source goal now = .ok d')
    (hsource : Idle source.text) (hgoal : Idle goal.text) : d.SameEntries d' := by
  obtain ⟨from_, name, into, goalName, content, time, hmovable, rfl⟩ := rename_eq_ok h
  split
  · exact .refl d
  · refine ⟨hmovable.sameDirectories, fun place entry hopen hdirectory => ?_⟩
    have hidle {p : FilePath} (hp : Idle p.text) (hleads : d.Leads p (.inside (place ++ [entry]))) :
        IsPlain entry ∧ Idle entry := by
      obtain ⟨other, last, heq, hplain, hends⟩ := hleads.exists_idle hp
      obtain rfl := List.singleton_inj.1 (List.append_inj' (Spot.inside.inj heq) rfl).2
      exact ⟨hplain, hends⟩
    obtain ⟨changed, haround⟩ := hmovable.around
    obtain ⟨goalChanged, hgoalAround⟩ := hmovable.goalAround
    simp only [atSpot?] at haround hgoalAround
    rw [at?_moved]
    split
    · next heq => exact .inl (by simp [heq, hgoalAround])
    · split
      · next heq =>
        obtain ⟨hplain, hends⟩ := hidle hgoal (heq ▸ hmovable.goalLeads)
        exact .inr ⟨hplain, hends, heq ▸ hmovable.free⟩
      · split
        · next heq => exact .inl (by simp [heq, haround])
        · split
          · next hinitial =>
            rcases List.prefix_concat_iff.1 hinitial with heq | hinside
            · obtain ⟨hplain, hends⟩ := hidle hsource (heq ▸ hmovable.leads)
              refine .inr ⟨hplain, hends, ?_⟩
              rintro ⟨time', hthere⟩
              rw [atSpot?, ← heq, hmovable.file] at hthere
              cases hthere
            · -- The directory would lie below the file that is moved.
              have hbelow : d.IsDirectoryAt (.inside (from_ ++ [name])) := by
                by_cases heq : from_ ++ [name] = place
                · exact heq ▸ hdirectory
                · exact hopen place _ rfl hinside heq
              obtain ⟨time', hthere⟩ := hbelow
              rw [atSpot?, hmovable.file] at hthere
              cases hthere
          · exact .inl Iff.rfl

end SameEntries

/-- A path names a directory if it leads to one. -/
theorem isDirectory_iff : d.isDirectory p ↔ ∃ spot, d.Leads p spot ∧ d.IsDirectoryAt spot := by
  rw [isDirectory, Option.any_eq_true]
  constructor
  · rintro ⟨node, hlookup, hkind⟩
    obtain ⟨spot, hfind⟩ := lookup_eq_some.1 hlookup
    obtain ⟨hleads, hthere, _⟩ := find_eq_ok.1 hfind
    exact ⟨spot, hleads, isDirectoryAt_iff.2 ⟨node, hthere, hkind⟩⟩
  · rintro ⟨spot, hleads, changed, hthere⟩
    exact ⟨_, lookup_eq_some.2 ⟨spot, find_eq_ok.2 ⟨hleads, hthere, fun _ => rfl⟩⟩, rfl⟩

/-- Disks with the same directories show them under the same paths. -/
theorem SameDirectories.isDirectory_eq (h : d.SameDirectories d') (p : FilePath) :
    d'.isDirectory p = d.isDirectory p := by
  rw [Bool.eq_iff_iff, isDirectory_iff, isDirectory_iff]
  refine exists_congr fun spot => ?_
  rw [h.leads_iff]
  exact and_congr_right fun hleads => h spot hleads.open

/-- A directory lists the names of what is in it. -/
theorem mem_namesIn_iff : name ∈ d.namesIn p ↔ ∃ place, d.Leads p (.inside place) ∧
    d.IsDirectoryAt (.inside place) ∧ (d.at? (place ++ [name])).isSome := by
  have hkey {place : Place} : name ∈ d.nodes.keys.filterMap (fun other =>
      if other.dropLast == place then other.getLast? else none) ↔
        (d.at? (place ++ [name])).isSome := by
    have hat : d.at? (place ++ [name]) = d.nodes[place ++ [name]]? := by simp [at?]
    rw [hat, ← Std.ExtTreeMap.mem_iff_isSome_getElem?, ← Std.ExtTreeMap.mem_keys,
      List.mem_filterMap]
    constructor
    · rintro ⟨other, hmem, heq⟩
      split at heq
      · next hplace =>
        obtain ⟨front, rfl⟩ := List.getLast?_eq_some_iff.1 heq
        rw [List.dropLast_concat, beq_iff_eq] at hplace
        rwa [← hplace]
      · cases heq
    · exact fun hmem => ⟨_, hmem, by simp⟩
  unfold namesIn
  split
  · next place changed hfind =>
    obtain ⟨hleads, hthere, _⟩ := find_eq_ok.1 hfind
    rw [hkey]
    constructor
    · exact fun hsome => ⟨place, hleads, ⟨changed, hthere⟩, hsome⟩
    · rintro ⟨other, hother, -, hsome⟩
      obtain rfl := Spot.inside.inj (hleads.unique hother)
      exact hsome
  · next hnot =>
    simp only [List.not_mem_nil, false_iff, not_exists, not_and]
    rintro place hleads ⟨changed, hthere⟩
    exact absurd (find_eq_ok.2 ⟨hleads, hthere, fun _ => rfl⟩) (hnot place changed)

end Disk

namespace SearchPath

open FilePath (IsPlain Idle)

variable {s : SearchPath} {d d' : Disk} {directory : FilePath} {name n : String}

theorem definedBy?_of_idle (hplain : IsPlain name) (hidle : Idle name)
    (hfile : d.isDirectory (directory.entry name) = false) : definedBy? d directory name = none := by
  obtain ⟨c, hlast, hc⟩ := hidle
  simp only [List.mem_cons, List.not_mem_nil, or_false, not_or] at hc
  obtain ⟨stop, hlastName⟩ := FilePath.lastName?_entry directory name
    (fun inFront => hplain.componentOf inFront) hplain.slash
  have hfileName : (directory.entry name).fileName? = some name := by
    rw [FilePath.fileName?, hlastName, Option.map_some]
  simp only [definedBy?, hfile, Bool.false_eq_true, if_false, FilePath.stem?, FilePath.extension?,
    hfileName, Option.map_some, Option.bind_some]
  cases hextension : (FilePath.splitName name.toList).2 with
  | none => rfl
  | some extension =>
    have hends := FilePath.getLast?_extension hlast hc.2.1 hextension
    rw [Option.map_some]
    dsimp only
    refine if_neg fun hknown => ?_
    have hmem : String.ofList extension ∈ scriptExtension :: moduleExtensions := by
      simpa using hknown
    have hlasts : ∀ e ∈ scriptExtension :: moduleExtensions,
        e.toList.getLast? = some 'm' ∨ e.toList.getLast? = some '4' := by decide
    rcases hlasts _ hmem with h | h <;> rw [String.toList_ofList, hends, Option.some.injEq] at h
    · exact hc.2.2.1 h
    · exact hc.2.2.2 h

/-- The names that the entries of a directory define do not depend on idle files. -/
theorem mem_definedIn_of_sameEntries (h : d.SameEntries d') (hmem : n ∈ definedIn d directory) :
    n ∈ definedIn d' directory := by
  obtain ⟨name, hlisted, hdefined⟩ := List.mem_filterMap.1 hmem
  obtain ⟨place, hleads, hdirectory, hthere⟩ := Disk.mem_namesIn_iff.1 hlisted
  have hopen := hleads.open
  refine List.mem_filterMap.2 ⟨name, Disk.mem_namesIn_iff.2 ⟨place,
    h.directories.leads_iff.2 hleads, (h.directories _ hopen).2 hdirectory, ?_⟩, ?_⟩
  · rcases h.entries place name hopen hdirectory with hsame | ⟨hplain, hidle, hfile⟩
    · exact hsame.2 hthere
    · have hempty : directory.text ≠ "" := fun hempty => by
        obtain ⟨steps, hroute, _⟩ := hleads
        unfold Disk.route at hroute
        simp [hempty] at hroute
      have hnone : d.isDirectory (directory.entry name) = false := by
        rw [Bool.eq_false_iff, ne_eq, Disk.isDirectory_iff]
        rintro ⟨spot, hentry, hthere'⟩
        obtain ⟨other, hother, _, rfl⟩ := Disk.leads_entry hplain hempty hentry
        obtain rfl := Spot.inside.inj (hleads.unique hother)
        exact hfile hthere'
      rw [definedBy?_of_idle hplain hidle hnone] at hdefined
      cases hdefined
  · rw [← hdefined]
    simp only [definedBy?, h.directories.isDirectory_eq]

theorem lookup_congr (h : d.SameEntries d') (hsources : d.SameSources d') :
    s.lookup d' = s.lookup d := by
  have hdefined (directory : FilePath) (name : String) :
      name ∈ definedIn d' directory ↔ name ∈ definedIn d directory :=
    ⟨mem_definedIn_of_sameEntries h.symm, mem_definedIn_of_sameEntries h⟩
  rw [lookup, lookup, find_congr hsources]
  congr 1
  · refine Std.ExtTreeSet.ext_mem fun name => ?_
    simp only [mem_names_iff, hdefined]
  · funext directory
    refine Std.ExtTreeSet.ext_mem fun name => ?_
    simp only [mem_namesIn_iff, hdefined]

end SearchPath

/-- Two disks show the same to whoever looks names up. -/
structure Disk.SameNames (d d' : Disk) : Prop where
  entries : d.SameEntries d'
  sources : d.SameSources d'

namespace Disk.SameNames

variable {d d' d'' : Disk}

theorem refl (d : Disk) : d.SameNames d := ⟨.refl d, fun _ _ => rfl⟩

theorem trans (h : d.SameNames d') (h' : d'.SameNames d'') : d.SameNames d'' :=
  ⟨h.entries.trans h'.entries, h.sources.trans h'.sources⟩

/-- The lookup of a search path is the same on such disks. -/
theorem lookup (h : d.SameNames d') (s : SearchPath) : s.lookup d' = s.lookup d :=
  SearchPath.lookup_congr h.entries h.sources

end Disk.SameNames

namespace Builder

open BuildM
open FilePath (Idle)

variable {b : Builder σ} {s s' : BuildState σ} {entry : Entry} {entries : List Entry}
  {result : EntryResult} {results : List EntryResult} {name : String} {root : Nat}

/-- An idle file is not where a source is. -/
theorem apart_of_idle {p q : FilePath} (hp : p.IsSource) (hq : Idle q.text) : p.Apart q := by
  obtain ⟨c, hlast, hc⟩ := hq
  exact hp.apart hlast hc

/-- All that makes nothing but idle files shows the same to whoever looks names up. -/
theorem respects_sameNames (htidy : b.toolchain.Tidy) (hconfined : b.toolchain.Confined) :
    b.Respects (fun s s' => s.disk.SameNames s'.disk) fun q => Idle q.text where
  refl s := .refl s.disk
  trans _ _ _ := .trans
  run i hidle s := by
    have hsources (p : FilePath) (hp : p.IsSource) :=
      (respects_keepsFile hconfined p).run i (apart_of_idle hp hidle) s
    have hadds := htidy i s.tools s.disk
    refine ⟨?_, hsources⟩
    unfold final run
    generalize b.toolchain.run i (s.tools, s.disk) = k at hadds ⊢
    obtain ⟨⟨tools, disk⟩, result⟩ := k
    have hentries : s.disk.SameEntries disk := .of_adds hadds fun p hp => hp ▸ hidle
    cases result <;> exact hentries
  write q text hidle s := by
    refine ⟨?_, fun p hp => (respects_keepsFile hconfined p).write q text (apart_of_idle hp hidle) s⟩
    simp only [final, writeFile]
    cases hwrite : s.disk.write q (.text text) b.now with
    | ok disk => exact .of_adds (Disk.adds_write hwrite).1 fun p hp => hp ▸ hidle
    | error _ => exact .refl s.disk
  copy source q hidle s := by
    refine ⟨?_, fun p hp => (respects_keepsFile hconfined p).copy source q (apart_of_idle hp hidle) s⟩
    simp only [final, copyFile]
    cases hcopy : s.disk.copy source q b.now with
    | ok disk => exact .of_adds (Disk.adds_copy hcopy) fun p hp => hp ▸ hidle
    | error _ => exact .refl s.disk
  register s _ _ _ := .refl s.disk

theorem makes_idle (b : Builder σ) (name : String) (action : Action) (u : BuildUnit) :
    b.Makes name action u fun q => Idle q.text where
  parts role _ := ⟨_, Layout.getLast?_path, by cases role <;> decide⟩
  output _ := ⟨_, Layout.getLast?_outputPath, by decide⟩

/-- What an entry point was resolved to is built without a change to what names denote. -/
theorem sameNames_buildUnit (htidy : b.toolchain.Tidy) (hconfined : b.toolchain.Confined)
    (name : String) (root : Nat) : Frames (fun s s' => s.disk.SameNames s'.disk)
      (b.buildUnit name root) := fun s =>
  (passes_unit (respects_sameNames htidy hconfined) (fun s _ => .refl s.disk) b.makes_idle root
    s []).choose_spec.2.2

/-- Keeping the archive makes it and its draft, which are idle. -/
theorem sameNames_store {a : Archive} {d d' : Disk} {cacheDirectory : FilePath} {now : Int}
    {done : Unit} (h : a.store d (Layout.within cacheDirectory).cacheFile now = (d', .ok done)) :
    d.SameNames d' := by
  have hdraft : Idle (Archive.draftPath (Layout.within cacheDirectory).cacheFile).text :=
    ⟨_, Layout.getLast?_draftPath, by decide⟩
  have hfile : Idle (Layout.within cacheDirectory).cacheFile.text :=
    ⟨_, Layout.getLast?_cacheFile, by decide⟩
  unfold Archive.store at h
  dsimp only at h
  split at h
  · cases (Prod.mk.inj h).2
  · next drafted hwrite =>
    split at h
    · cases (Prod.mk.inj h).2
    · next stored hrename =>
      obtain rfl := (Prod.mk.inj h).1
      refine ⟨.trans (.of_adds (Disk.adds_write hwrite).1 fun p hp => hp ▸ hdraft)
        (.of_rename hrename hdraft hfile), fun p hp => ?_⟩
      rw [Disk.file?_rename_of_apart hrename (apart_of_idle hp hdraft drafted)
        (apart_of_idle hp hfile drafted), Disk.file?_write_of_apart hwrite (apart_of_idle hp hdraft d)]

/-- The archive is kept without a change to what names denote. -/
theorem sameNames_persist {ids : NodeSet} (h : b.persist ids s = .ok () s') :
    s.disk.SameNames s'.disk := by
  unfold persist at h
  dsimp only at h
  generalize hstore : Archive.store _ s.disk b.layout.cacheFile b.now = k at h
  obtain ⟨disk, stored⟩ := k
  cases stored with
  | ok done =>
    cases h
    exact sameNames_store hstore
  | error fault => cases h

/-- An entry point that is no snippet stands for the same wherever its name denotes the same. -/
theorem meaning_congr {c : SearchPath} {d d' : Disk} {now now' : Nat} (h : c.find d' = c.find d)
    (hfile : ∀ name text, entry ≠ .snippet name text) :
    entry.meaning c d' now' = entry.meaning c d now := by
  cases entry with
  | named name => rfl
  | located name directory =>
    unfold Entry.meaning
    rw [h]
  | snippet name text => exact absurd rfl (hfile name text)

end Builder

end ScriptBuild
