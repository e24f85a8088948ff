import ScriptBuild.Proofs.Disk.Apart
import ScriptBuild.Proofs.Disk.Entries

namespace ScriptBuild

namespace Disk

open FilePath (IsPlain)

variable {d : Disk} {p q a b : FilePath} {spot other : Spot} {name : String} {c : Char}
  {steps : List String} {node : Node}

/-- A path is no longer than those that the system takes. -/
def Fits (p : FilePath) : Prop := p.text.utf8ByteSize ≤ longestPath

/-- Whoever comes to a directory comes from one. -/
theorem isDirectoryAt_of_walk (h : d.walk spot steps = .ok other) (hother : d.IsDirectoryAt other) :
    d.IsDirectoryAt spot := by
  cases steps with
  | nil => rwa [show spot = other from Except.ok.inj h]
  | cons step steps =>
    rw [walk_cons] at h
    obtain ⟨next, henter, _⟩ := bind_eq_ok.1 h
    exact isDirectoryAt_of_enter henter

/-- Points may be put among the steps that lead to a directory: wherever one of them is put, there is
a directory. -/
theorem walk_of_filter (h : d.walk spot (steps.filter (· != ".")) = .ok other)
    (hother : d.IsDirectoryAt other) : d.walk spot steps = .ok other := by
  induction steps generalizing spot with
  | nil => exact h
  | cons step steps ih =>
    rw [walk_cons]
    by_cases hpoint : step = "."
    · subst hpoint
      rw [List.filter_cons_of_neg (by simp)] at h
      obtain ⟨changed, hhere⟩ := isDirectoryAt_of_walk h hother
      have henter : d.enter spot "." = .ok spot := by
        simp only [enter, hhere, beq_self_eq_true, if_true]
      rw [henter]
      exact ih h
    · rw [List.filter_cons_of_pos (by simpa using hpoint), walk_cons] at h
      obtain ⟨next, henter, hrest⟩ := bind_eq_ok.1 h
      rw [henter]
      exact ih hrest

/-- The system takes a path if it holds no zero character, is not empty, and fits. -/
theorem route_eq_ok_iff : route p = .ok p.steps ↔
    Char.ofNat 0 ∉ p.text.toList ∧ p.text ≠ "" ∧ Fits p := by
  rw [route, Fits]
  split
  · next hzero => simp only [reduceCtorEq, false_iff, not_and]; simp_all
  · next hzero =>
    split
    · next hempty => simp_all
    · next hempty =>
      split
      · next hlong => simp only [reduceCtorEq, false_iff]; omega
      · next hshort => simp_all

/-- Whether a path has a character that no name has is told by its components. -/
theorem route_congr (hcomponents : p.components = q.components) (hq : Fits q)
    (h : route p = .ok p.steps) : route q = .ok q.steps := by
  obtain ⟨hzero, hne, _⟩ := route_eq_ok_iff.1 h
  have hmem := FilePath.mem_text_iff (p := p) (c := Char.ofNat 0) (by decide) (by decide)
  have hmem' := FilePath.mem_text_iff (p := q) (c := Char.ofNat 0) (by decide) (by decide)
  rw [FilePath.steps_filter, hcomponents, ← FilePath.steps_filter, ← hmem'] at hmem
  rw [ne_eq, FilePath.text_eq_empty_iff, hcomponents, ← FilePath.text_eq_empty_iff] at hne
  exact route_eq_ok_iff.2 ⟨fun h => hzero (hmem.2 h), hne, hq⟩

/-- A path leads where its steps do, if the system takes it. -/
theorem leads_iff_walk : d.Leads p spot ↔ route p = .ok p.steps ∧
    d.walk (start p) p.steps = .ok spot := by
  constructor
  · intro ⟨steps, hroute, hwalk⟩
    obtain rfl := route_eq_ok hroute
    exact ⟨hroute, hwalk⟩
  · intro ⟨hroute, hwalk⟩
    exact ⟨_, hroute, hwalk⟩

/-- What leads to a directory does so in every spelling. -/
theorem Leads.directory_of_same (h : d.Leads p spot) (hsame : p.same q) (hq : Fits q)
    (hspot : d.IsDirectoryAt spot) : d.Leads q spot :=
  leads_iff_walk.2 ⟨route_congr (FilePath.same_iff.1 hsame) hq (leads_iff_walk.1 h).1,
    walk_of_filter (h.walk_of_same hsame) hspot⟩

/-- What a path leads to is where each of its spellings leads that ends in a name. -/
theorem Leads.of_same (h : d.Leads p spot) (hsame : p.same q) (hq : Fits q)
    (hlast : q.text.toList.getLast? = some c) (hc : c ≠ '/' ∧ c ≠ '.') : d.Leads q spot := by
  have hwalk := h.walk_of_same hsame
  obtain ⟨before, last, hsteps, hend⟩ := FilePath.exists_last_step hlast hc.1
  have hpoint : last ≠ "." := by
    intro heq
    rw [heq] at hend
    exact hc.2 (Option.some.inj hend).symm
  -- The last step is no point, so those before it lead to a directory.
  rw [hsteps, List.filter_append, List.filter_cons_of_pos (by simpa using hpoint), List.filter_nil,
    walk_append] at hwalk
  obtain ⟨around, hbefore, henter⟩ := bind_eq_ok.1 hwalk
  refine leads_iff_walk.2 ⟨route_congr (FilePath.same_iff.1 hsame) hq (leads_iff_walk.1 h).1, ?_⟩
  rw [hsteps, walk_append, walk_of_filter hbefore (isDirectoryAt_of_enter henter)]
  exact henter

/-- Spellings of one path that end in names have the same on the disk. -/
theorem lookup_congr {e : Char} (hsame : p.same q) (hp : Fits p) (hq : Fits q)
    (hlast : p.text.toList.getLast? = some c) (hc : c ≠ '/' ∧ c ≠ '.')
    (hlast' : q.text.toList.getLast? = some e) (he : e ≠ '/' ∧ e ≠ '.') :
    d.lookup p = d.lookup q := by
  have hends {r : FilePath} {c : Char} (hlast : r.text.toList.getLast? = some c) (hc : c ≠ '/') :
      r.endsInSlash = false := by
    rw [FilePath.endsInSlash, hlast]
    simpa using hc
  have hback := FilePath.same_iff.2 (FilePath.same_iff.1 hsame).symm
  refine Option.ext fun node => ?_
  simp only [lookup_eq_some, find_eq_ok, hends hlast hc.1, hends hlast' he.1]
  constructor
  · intro ⟨spot, hleads, hrest⟩
    exact ⟨spot, hleads.of_same hsame hq hlast' he, hrest⟩
  · intro ⟨spot, hleads, hrest⟩
    exact ⟨spot, hleads.of_same hback hp hlast hc, hrest⟩

/-- Spellings of one path find the same directory, if any. -/
theorem find_directory_iff (hsame : p.same q) (hp : Fits p) (hq : Fits q) (time : Int) :
    d.find p = .ok (spot, .directory time) ↔ d.find q = .ok (spot, .directory time) := by
  have hback := FilePath.same_iff.2 (FilePath.same_iff.1 hsame).symm
  rw [find_eq_ok, find_eq_ok]
  constructor
  · intro ⟨hleads, hthere, hends⟩
    exact ⟨hleads.directory_of_same hsame hq ⟨time, hthere⟩, hthere, fun _ => rfl⟩
  · intro ⟨hleads, hthere, hends⟩
    exact ⟨hleads.directory_of_same hback hp ⟨time, hthere⟩, hthere, fun _ => rfl⟩

/-- A path names a directory if it finds one. -/
theorem isDirectory_iff_find :
    d.isDirectory p ↔ ∃ spot time, d.find p = .ok (spot, .directory time) := by
  rw [isDirectory, Option.any_eq_true]
  constructor
  · rintro ⟨node, hlookup, hdirectory⟩
    obtain ⟨spot, hfind⟩ := lookup_eq_some.1 hlookup
    cases node with
    | directory time => exact ⟨spot, time, hfind⟩
    | file content time => cases hdirectory
  · rintro ⟨spot, time, hfind⟩
    exact ⟨_, lookup_eq_some.2 ⟨spot, hfind⟩, rfl⟩

/-- Spellings of one path that fit name a directory or do not, all alike. It does not matter how
they end. -/
theorem isDirectory_congr (hsame : p.same q) (hp : Fits p) (hq : Fits q) :
    d.isDirectory p = d.isDirectory q := by
  rw [Bool.eq_iff_iff]
  simp only [isDirectory_iff_find, find_directory_iff hsame hp hq]

/-- What is in a directory does not depend on how the directory is spelled. -/
theorem namesIn_congr (hsame : p.same q) (hp : Fits p) (hq : Fits q) :
    d.namesIn p = d.namesIn q := by
  have hnone {r : FilePath} (hr : d.isDirectory r = false) : d.namesIn r = [] := by
    rw [namesIn]
    split
    · next place time hfind =>
      rw [isDirectory_iff_find.2 ⟨_, time, hfind⟩] at hr
      cases hr
    · rfl
  cases hdirectory : d.isDirectory p with
  | false => rw [hnone hdirectory, hnone ((isDirectory_congr hsame hp hq).symm.trans hdirectory)]
  | true =>
    obtain ⟨spot, time, hfind⟩ := isDirectory_iff_find.1 hdirectory
    rw [namesIn, namesIn, hfind, (find_directory_iff hsame hp hq time).1 hfind]

/-- The path of an entry is longer than that of its directory by a slash and the name at most. -/
theorem utf8ByteSize_entry_le (a : FilePath) (name : String) :
    (a.entry name).text.utf8ByteSize ≤ a.text.utf8ByteSize + 1 + name.utf8ByteSize := by
  rw [FilePath.entry, FilePath.join]
  split
  · exact Nat.le_add_left _ _
  · split
    · rw [String.utf8ByteSize_append]
      exact Nat.add_le_add_right (Nat.le_add_right _ 1) _
    · rw [String.utf8ByteSize_append, String.utf8ByteSize_append]
      exact Nat.le_refl _

/-- Nothing has a name that is too long. -/
theorem lookup_entry_of_long (hslash : '/' ∉ name.toList) (hlong : longestName < name.utf8ByteSize) :
    d.lookup (a.entry name) = none := by
  rw [Option.eq_none_iff_forall_ne_some]
  intro node hlookup
  obtain ⟨spot, hfind⟩ := lookup_eq_some.1 hlookup
  obtain ⟨_, hwalk⟩ := leads_iff_walk.1 (find_eq_ok.1 hfind).1
  have hne (text : String) (hshort : text.utf8ByteSize ≤ longestName) : name ≠ text := by
    intro heq
    rw [heq] at hlong
    omega
  rw [FilePath.steps_entry hslash (hne "" (by decide)), walk_append] at hwalk
  obtain ⟨around, _, henter⟩ := bind_eq_ok.1 hwalk
  obtain ⟨changed, hthere⟩ := isDirectoryAt_of_enter henter
  simp only [enter, hthere, beq_iff_eq, hne "." (by decide), hne ".." (by decide), if_false, hlong,
    if_true, reduceCtorEq] at henter

/-- No name on a disk is longer than the system allows. -/
def HasShortNames (d : Disk) : Prop :=
  ∀ place ∈ d.nodes, ∀ name ∈ place, name.utf8ByteSize ≤ longestName

theorem hasShortNames_new (time : Int) : (new time).HasShortNames := by
  intro place hmem
  exact absurd hmem Std.ExtTreeMap.not_mem_empty

/-- What is given a short name is put below a directory, whose names are short. -/
theorem HasShortNames.give {place : Place} {now : Int} (h : d.HasShortNames)
    (hplace : d.IsDirectoryAt (.inside place)) (hname : name.utf8ByteSize ≤ longestName) :
    (d.give place name node now).HasShortNames := by
  have haround : ∀ step ∈ place, step.utf8ByteSize ≤ longestName := by
    obtain ⟨changed, hthere⟩ := hplace
    rw [atSpot?, at?] at hthere
    split at hthere
    · next hempty =>
      rw [List.isEmpty_iff.1 hempty]
      exact fun _ hmem => absurd hmem List.not_mem_nil
    · exact h place (Std.ExtTreeMap.mem_iff_isSome_getElem?.2 (by rw [hthere]; rfl))
  have hput (e : Disk) (other : Place) (node : Node) (he : e.HasShortNames)
      (hother : ∀ step ∈ other, step.utf8ByteSize ≤ longestName) :
      (e.put other node).HasShortNames := by
    rw [put]
    split
    · exact he
    · intro found hfound
      rcases Std.ExtTreeMap.mem_insert.1 hfound with heq | hfound
      · rwa [← Std.LawfulEqCmp.eq_of_compare heq]
      · exact he found hfound
  have hnew := hput d (place ++ [name]) node h fun step hstep =>
    (List.mem_append.1 hstep).elim (haround step) fun hlast => by rwa [List.mem_singleton.1 hlast]
  rw [Disk.give]
  split
  · exact hnew
  · exact hput _ _ _ hnew haround

/-- A file can only be written under a name that is short enough. -/
theorem HasShortNames.write {content : Content} {now : Int} {e : Disk} (h : d.HasShortNames)
    (hwrite : d.write p content now = .ok e) : e.HasShortNames := by
  obtain ⟨place, name, _, hplace, _, _, hname, rfl⟩ := write_eq_ok hwrite
  exact h.give hplace hname

/-- The names in a directory of such a disk are short. -/
theorem HasShortNames.of_mem_namesIn (h : d.HasShortNames) (hname : name ∈ d.namesIn p) :
    name.utf8ByteSize ≤ longestName := by
  rw [namesIn] at hname
  split at hname
  · obtain ⟨other, hkey, hlast⟩ := List.mem_filterMap.1 hname
    obtain ⟨_, hlast⟩ := Option.ite_none_right_eq_some.1 hlast
    exact h other (Std.ExtTreeMap.mem_keys.1 hkey) name (List.mem_of_getLast? hlast)
  · cases hname

/-- There is room for the name of an entry after the path of a directory. -/
def HasRoom (a : FilePath) : Prop := a.text.utf8ByteSize + 1 + longestName ≤ longestPath

theorem HasRoom.fits (h : HasRoom a) : Fits a := by
  rw [HasRoom] at h
  rw [Fits]
  omega

/-- Then the path of every entry with a name that is not too long fits. -/
theorem HasRoom.fits_entry (h : HasRoom a) (hname : name.utf8ByteSize ≤ longestName) :
    Fits (a.entry name) := by
  have hsize := utf8ByteSize_entry_le a name
  rw [HasRoom] at h
  rw [Fits]
  omega

/-- A file of a directory is found however the directory is spelled. -/
theorem lookup_entry_congr (hsame : a.same b) (ha : HasRoom a) (hb : HasRoom b)
    (hslash : '/' ∉ name.toList) (hlast : name.toList.getLast? = some c) (hc : c ≠ '/' ∧ c ≠ '.') :
    d.lookup (a.entry name) = d.lookup (b.entry name) := by
  by_cases hname : name.utf8ByteSize ≤ longestName
  · have hends (r : FilePath) : (r.entry name).text.toList.getLast? = some c :=
      FilePath.getLast?_text_entry hlast
    exact lookup_congr (FilePath.same_entry hsame name) (ha.fits_entry hname) (hb.fits_entry hname)
      (hends a) hc (hends b) hc
  · rw [lookup_entry_of_long hslash (by omega), lookup_entry_of_long hslash (by omega)]

end Disk

end ScriptBuild
