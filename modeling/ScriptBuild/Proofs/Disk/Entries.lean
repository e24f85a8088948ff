import ScriptBuild.Proofs.Disk.Text
import ScriptBuild.Proofs.FilePath.Entries

namespace ScriptBuild

namespace Disk

open FilePath (IsPlain)

variable {d : Disk} {p q directory : FilePath} {spot other : Spot} {place : Place}
  {name : String} {node node' : Node} {steps : List String} {changed : Int}

theorem enter_point (h : d.enter spot "." = .ok other) : other = spot := by
  obtain ⟨changed, hthere⟩ := isDirectoryAt_of_enter h
  simp only [enter, hthere, beq_self_eq_true, if_true] at h
  exact (Except.ok.inj h).symm

theorem walk_cons (step : String) :
    d.walk spot (step :: steps) = d.enter spot step >>= (d.walk · steps) := rfl

/-- Points may be left out of the steps that are taken. -/
theorem walk_filter (h : d.walk spot steps = .ok other) :
    d.walk spot (steps.filter (· != ".")) = .ok other := by
  induction steps generalizing spot with
  | nil => exact h
  | cons step steps ih =>
    obtain ⟨next, henter, hrest⟩ := bind_eq_ok.1 (walk_cons step ▸ h)
    by_cases hpoint : step = "."
    · subst hpoint
      rw [List.filter_cons_of_neg (by simp)]
      exact ih (enter_point henter ▸ hrest)
    · rw [List.filter_cons_of_pos (by simpa using hpoint), walk_cons, henter]
      exact ih hrest

/-- What a path leads to is where the steps of each of its spellings lead, but for points. -/
theorem Leads.walk_of_same (h : d.Leads p spot) (hsame : p.same q) :
    d.walk (start q) (q.steps.filter (· != ".")) = .ok spot := by
  have hcomponents := FilePath.same_iff.1 hsame
  obtain ⟨steps, hroute, hwalk⟩ := h
  have hwalk := walk_filter hwalk
  have hstart : start p = start q := by rw [start, start, FilePath.isAbsolute_congr hcomponents]
  rwa [route_eq_ok hroute, FilePath.steps_filter, hcomponents, hstart, ← FilePath.steps_filter]
    at hwalk

/-- All spellings of a path that lead anywhere lead to the same spot. -/
theorem Leads.eq_of_same (h : d.Leads p spot) (h' : d.Leads q other) (hsame : p.same q) :
    spot = other := by
  have hwalk := h.walk_of_same hsame
  rw [h'.walk_of_same (FilePath.same_iff.2 rfl)] at hwalk
  exact (Except.ok.inj hwalk).symm

/-- What a path names is what is found there. -/
theorem lookup_eq_some : d.lookup p = some node ↔ ∃ spot, d.find p = .ok (spot, node) := by
  unfold lookup
  cases d.find p with
  | error reason => simp [Except.toOption]
  | ok found =>
    constructor
    · intro heq
      exact ⟨found.1, by rw [← Option.some.inj heq]⟩
    · rintro ⟨_, heq⟩
      rw [Except.ok.inj heq]
      rfl

/-- All spellings of a path under which there is something name the same thing. -/
theorem lookup_eq_of_same (h : d.lookup p = some node) (h' : d.lookup q = some node')
    (hsame : p.same q) : node = node' := by
  obtain ⟨spot, hfind⟩ := lookup_eq_some.1 h
  obtain ⟨spot', hfind'⟩ := lookup_eq_some.1 h'
  obtain ⟨hleads, hthere, _⟩ := find_eq_ok.1 hfind
  obtain ⟨hleads', hthere', _⟩ := find_eq_ok.1 hfind'
  rw [hleads.eq_of_same hleads' hsame, hthere'] at hthere
  exact (Option.some.inj hthere).symm

/-- A path names a file if what it names is no directory. -/
theorem isFile_iff : d.isFile p ↔ ∃ node, d.lookup p = some node ∧ node.isDirectory = false := by
  rw [isFile, Option.any_eq_true]
  simp only [Bool.not_eq_true']

theorem isDirectory_eq_false_of_isFile (h : d.isFile p) : d.isDirectory p = false := by
  obtain ⟨node, hlookup, hfile⟩ := isFile_iff.1 h
  rw [isDirectory, hlookup, Option.any_some, hfile]

/-- The text of a path is a part of the texts of the entries, in front. -/
theorem exists_text_entry (hslash : '/' ∉ name.toList) (hempty : directory.text ≠ "") :
    ∃ rest, (directory.entry name).text = directory.text ++ rest := by
  rcases FilePath.text_entry (FilePath.isAbsolute_of_slash_not_mem hslash) directory with
    ⟨hnone, _⟩ | ⟨front, hfront, heq⟩ | ⟨_, heq⟩
  · exact absurd hnone hempty
  · refine ⟨name, String.toList_injective ?_⟩
    rw [heq, String.toList_append, hfront, List.append_assoc, List.singleton_append]
  · exact ⟨"/" ++ name, String.toList_injective (by rw [heq]; simp)⟩

/-- The system takes the path of a directory if it takes that of an entry. -/
theorem route_directory (hslash : '/' ∉ name.toList) (hempty : directory.text ≠ "")
    (h : route (directory.entry name) = .ok steps) : route directory = .ok directory.steps := by
  obtain ⟨rest, htext⟩ := exists_text_entry hslash hempty
  unfold route at h ⊢
  rw [htext] at h
  split at h
  · cases h
  · next hchars =>
    split at h
    · cases h
    · split at h
      · cases h
      · next hshort =>
        rw [String.utf8ByteSize_append] at hshort
        rw [if_neg (by simpa using fun hmem => hchars (by simp [hmem])),
          if_neg (by simpa using hempty), if_neg (by omega)]

/-- Whoever comes to an entry comes from its directory. -/
theorem leads_entry (hname : IsPlain name) (hempty : directory.text ≠ "")
    (h : d.Leads (directory.entry name) spot) : ∃ place,
      d.Leads directory (.inside place) ∧ d.IsDirectoryAt (.inside place) ∧
        spot = .inside (place ++ [name]) := by
  obtain ⟨steps, hroute, hwalk⟩ := h
  have hdirectory := route_directory hname.slash hempty hroute
  have hstart : start (directory.entry name) = start directory := by
    rw [start, start, FilePath.isAbsolute_entry hname.slash]
  rw [route_eq_ok hroute, FilePath.steps_entry hname.slash hname.nonempty, hstart, walk_append]
    at hwalk
  obtain ⟨around, haround, henter⟩ := bind_eq_ok.1 hwalk
  have hnamed : isName name := by simp [isName, hname.point, hname.points]
  obtain ⟨place, rfl, rfl⟩ := enter_eq_inside henter hnamed
  exact ⟨place, ⟨_, hdirectory, haround⟩, isDirectoryAt_of_enter henter, rfl⟩

/-- A directory with an entry can be found, and lists the entry. -/
theorem mem_namesIn (hname : IsPlain name) (hempty : directory.text ≠ "")
    (h : d.lookup (directory.entry name) = some node) :
    d.isDirectory directory ∧ name ∈ d.namesIn directory := by
  obtain ⟨spot, hfind⟩ := lookup_eq_some.1 h
  obtain ⟨hleads, hthere, _⟩ := find_eq_ok.1 hfind
  obtain ⟨place, hdirectory, ⟨changed, hplace⟩, rfl⟩ := leads_entry hname hempty hleads
  have hfound : d.find directory = .ok (.inside place, .directory changed) :=
    find_eq_ok.2 ⟨hdirectory, hplace, fun _ => rfl⟩
  refine ⟨?_, ?_⟩
  · rw [isDirectory, lookup_eq_some.2 ⟨_, hfound⟩]
    rfl
  · have hkey : place ++ [name] ∈ d.nodes.keys := by
      rw [Std.ExtTreeMap.mem_keys, Std.ExtTreeMap.mem_iff_isSome_getElem?]
      simp only [atSpot?, at?] at hthere
      rw [if_neg (by simp)] at hthere
      rw [hthere]
      rfl
    simp only [namesIn, hfound, List.mem_filterMap]
    exact ⟨place ++ [name], hkey, by simp⟩

end Disk

end ScriptBuild
