import ScriptBuild.Proofs.Disk

namespace ScriptBuild.Disk

variable {d d' d'' : Disk} {p q source goal : FilePath} {spot : Spot} {place other : Place}
  {name goalName text : String} {node : Node} {content : Content} {now time : Int}

/-- Two paths do not lead to one spot. -/
def Apart (d : Disk) (p q : FilePath) : Prop := ∀ spot, d.Leads p spot → ¬ d.Leads q spot

/-- A path leads to one spot only. -/
theorem Leads.unique {other : Spot} (h : d.Leads p spot) (h' : d.Leads p other) : spot = other := by
  obtain ⟨steps, hroute, hwalk⟩ := h
  obtain ⟨steps', hroute', hwalk'⟩ := h'
  rw [route_eq_ok hroute] at hwalk
  rw [route_eq_ok hroute'] at hwalk'
  exact Except.ok.inj (hwalk.symm.trans hwalk')

/-- The file that a path names, if it names one. -/
def file? (d : Disk) (p : FilePath) : Option Node := (d.lookup p).filter (!·.isDirectory)

/-- A path names a file if it leads to one, and does not end in a slash. -/
theorem file?_eq_some : d.file? p = some node ↔ ∃ spot, d.Leads p spot ∧
    d.atSpot? spot = some node ∧ node.isDirectory = false ∧ p.endsInSlash = false := by
  have hlookup : d.lookup p = some node ↔ ∃ spot, d.find p = .ok (spot, node) := by
    rw [lookup]
    cases d.find p with
    | error reason => simp [Except.toOption]
    | ok found => simp [Except.toOption, Prod.ext_iff]
  simp only [file?, Option.filter_eq_some_iff, hlookup, find_eq_ok, Bool.not_eq_true']
  constructor
  · rintro ⟨⟨spot, hleads, hthere, hslash⟩, hkind⟩
    exact ⟨spot, hleads, hthere, hkind, by simpa [hkind] using hslash⟩
  · rintro ⟨spot, hleads, hthere, hkind, hslash⟩
    exact ⟨⟨spot, hleads, hthere, by simp [hslash]⟩, hkind⟩

/-- A path names a text if it leads to a file with that text. -/
theorem text?_eq_some : d.text? p = some text ↔ ∃ spot changed, d.Leads p spot ∧
    d.atSpot? spot = some (.file (.text text) changed) ∧ p.endsInSlash = false := by
  have hread : d.text? p = some text ↔ ∃ spot changed,
      d.find p = .ok (spot, .file (.text text) changed) := by
    rw [text?, read]
    cases d.find p with
    | error reason => simp [bind, Except.bind, Except.toOption]
    | ok found =>
      obtain ⟨spot, node⟩ := found
      cases node with
      | directory changed => simp [bind, Except.bind, Except.toOption]
      | file content changed =>
        cases content <;> simp [bind, Except.bind, Except.toOption]
  simp only [hread, find_eq_ok, Node.isDirectory, Bool.false_eq_true, imp_false, Bool.not_eq_true]

/-- The text at a path is that of the file. -/
theorem text?_eq (d : Disk) (p : FilePath) : d.text? p = (d.file? p).bind fun
    | .file (.text text) _ => some text
    | _ => none := by
  refine Option.ext fun text => ?_
  simp only [text?_eq_some, Option.bind_eq_some_iff, file?_eq_some]
  constructor
  · rintro ⟨spot, changed, hleads, hthere, hslash⟩
    exact ⟨_, ⟨spot, hleads, hthere, rfl, hslash⟩, rfl⟩
  · rintro ⟨node, ⟨spot, hleads, hthere, -, hslash⟩, htext⟩
    split at htext
    · cases htext
      exact ⟨spot, _, hleads, hthere, hslash⟩
    · cases htext

/-- Where the file stays, so does its text. -/
theorem text?_congr (h : d'.file? p = d.file? p) : d'.text? p = d.text? p := by
  rw [text?_eq, text?_eq, h]

/-- A path leads to a spot to which steps can lead. -/
theorem Leads.open (h : d.Leads p spot) : d.Open spot := by
  obtain ⟨steps, _, hwalk⟩ := h
  exact (open_start d p).walk hwalk

/-- The file at a path depends on the directories and on what is at the spot that it leads to. -/
theorem file?_congr (hdirectories : d.SameDirectories d')
    (hspot : ∀ spot, d.Leads p spot → ∀ node, node.isDirectory = false →
      (d'.atSpot? spot = some node ↔ d.atSpot? spot = some node)) :
    d'.file? p = d.file? p := by
  refine Option.ext fun node => ?_
  rw [file?_eq_some, file?_eq_some]
  refine exists_congr fun spot => ?_
  rw [hdirectories.leads_iff]
  constructor
  · rintro ⟨hleads, hthere, hkind, hslash⟩
    exact ⟨hleads, (hspot spot hleads node hkind).1 hthere, hkind, hslash⟩
  · rintro ⟨hleads, hthere, hkind, hslash⟩
    exact ⟨hleads, (hspot spot hleads node hkind).2 hthere, hkind, hslash⟩

/-- What a path names on two disks has the same text, if any, and it names something on both or on
neither. -/
structure SameAt (p : FilePath) (d d' : Disk) : Prop where
  text : d'.text? p = d.text? p
  there : d'.hasPath p = d.hasPath p

theorem SameAt.refl (p : FilePath) (d : Disk) : SameAt p d d := ⟨rfl, rfl⟩

theorem SameAt.symm (h : SameAt p d d') : SameAt p d' d := ⟨h.text.symm, h.there.symm⟩

theorem SameAt.trans (h : SameAt p d d') (h' : SameAt p d' d'') : SameAt p d d'' :=
  ⟨h'.text.trans h.text, h'.there.trans h.there⟩

/-- A path names a file or a directory. -/
theorem hasPath_iff_file : d.hasPath p ↔
    (∃ node, d.file? p = some node) ∨ ∃ spot, d.Leads p spot ∧ d.IsDirectoryAt spot := by
  rw [hasPath_iff]
  simp only [file?_eq_some]
  constructor
  · rintro ⟨spot, node, hleads, hthere, hslash⟩
    cases hkind : node.isDirectory with
    | true => exact .inr ⟨spot, hleads, isDirectoryAt_iff.2 ⟨node, hthere, hkind⟩⟩
    | false => exact .inl ⟨node, spot, hleads, hthere, hkind, by simpa [hkind] using hslash⟩
  · rintro (⟨node, spot, hleads, hthere, hkind, hslash⟩ | ⟨spot, hleads, hdirectory⟩)
    · exact ⟨spot, node, hleads, hthere, by simp [hslash]⟩
    · obtain ⟨node, hthere, hkind⟩ := isDirectoryAt_iff.1 hdirectory
      exact ⟨spot, node, hleads, hthere, fun _ => hkind⟩

/-- What a path names stays the same where directories and the file stay. -/
theorem sameAt_congr (hdirectories : d.SameDirectories d') (hfile : d'.file? p = d.file? p) :
    SameAt p d d' where
  text := text?_congr hfile
  there := by
    rw [Bool.eq_iff_iff, hasPath_iff_file, hasPath_iff_file, hfile]
    refine or_congr_right (exists_congr fun spot => ?_)
    rw [hdirectories.leads_iff]
    exact and_congr_right fun hleads => hdirectories spot hleads.open

theorem sameDirectories_write (h : d.write q content now = .ok d') : d.SameDirectories d' :=
  fun _ _ => (adds_write h).1.isDirectoryAt_iff

theorem file?_write (h : d.write p content now = .ok d') : d'.file? p = some (.file content now) := by
  have hdirectories := sameDirectories_write h
  obtain ⟨place, name, hleads, hdirectory, hfree, hslash, _, rfl⟩ := write_eq_ok h
  have hnew := (adds_give content now now hdirectory hfree hleads).2
  exact file?_eq_some.2 ⟨_, hdirectories.leads_iff.2 hleads, hnew, rfl, hslash⟩

/-- A file that is written has the text that was written. -/
theorem text?_write (h : d.write p (.text text) now = .ok d') : d'.text? p = some text := by
  rw [text?_eq, file?_write h]
  rfl

/-- Writing a file keeps the file at any path that leads elsewhere. -/
theorem file?_write_of_apart (h : d.write q content now = .ok d') (hapart : d.Apart p q) :
    d'.file? p = d.file? p := by
  refine file?_congr (sameDirectories_write h) fun spot hspot node hkind => ?_
  obtain ⟨place, name, hleads, ⟨time, hdirectory⟩, _, _, _, rfl⟩ := write_eq_ok h
  obtain ⟨stamped, hnew⟩ := at?_give d place name (.file content now) now
  cases spot with
  | outside => simp [atSpot?, changedAround_give]
  | inside other =>
    have hother : other ≠ place ++ [name] := fun heq => hapart _ hspot (heq ▸ hleads)
    simp only [atSpot?] at hdirectory ⊢
    rw [hnew, if_neg hother]
    split
    · next heq =>
      rw [heq.1, hdirectory]
      constructor <;> (rintro ⟨⟩; cases hkind)
    · rfl

/-- Writing a file leaves the texts of all others alone. -/
theorem text?_write_of_apart (h : d.write q content now = .ok d') (hapart : d.Apart p q) :
    d'.text? p = d.text? p := text?_congr (file?_write_of_apart h hapart)

/-- Writing a file leaves alone what paths name that do not lead to it. -/
theorem sameAt_write_of_apart (h : d.write q content now = .ok d') (hapart : d.Apart p q) :
    SameAt p d d' := sameAt_congr (sameDirectories_write h) (file?_write_of_apart h hapart)

/-- Copying a file leaves alone all files but the target. -/
theorem file?_copy_of_apart (h : d.copy source goal now = .ok d') (hapart : d.Apart p goal) :
    d'.file? p = d.file? p := by
  unfold copy at h
  obtain ⟨⟨spot, node⟩, _, h⟩ := bind_eq_ok.1 h
  cases node with
  | directory changed => cases h
  | file content changed => exact file?_write_of_apart h hapart

/-- Copying a file leaves the texts of all files but the target alone. -/
theorem text?_copy_of_apart (h : d.copy source goal now = .ok d') (hapart : d.Apart p goal) :
    d'.text? p = d.text? p := text?_congr (file?_copy_of_apart h hapart)

/-- Copying a file leaves alone what paths name that do not lead to the target. -/
theorem sameAt_copy_of_apart (h : d.copy source goal now = .ok d') (hapart : d.Apart p goal) :
    SameAt p d d' := by
  unfold copy at h
  obtain ⟨⟨spot, node⟩, _, h⟩ := bind_eq_ok.1 h
  cases node with
  | directory changed => cases h
  | file content changed => exact sameAt_write_of_apart h hapart

/-- A path leads to the name that can be made there. -/
theorem leads_of_target (h : d.target p = .ok (.inside place, some name))
    (hnamed : name.utf8ByteSize ≤ longestName) : d.Leads p (.inside (place ++ [name])) := by
  obtain ⟨steps, hroute, hwalk, hdirectory, hname⟩ := target_eq_ok h
  refine ⟨_, hroute, ?_⟩
  rw [walk_append, hwalk]
  exact enter_name hdirectory hname hnamed

/-- What has a name in a directory is what is below it, if the name is not too long. -/
theorem named_eq_ok {found : Option Node} (h : d.named (.inside place) name = .ok found) :
    name.utf8ByteSize ≤ longestName ∧ found = d.nodes[place ++ [name]]? := by
  unfold named at h
  split at h
  · cases h
  · next hshort => exact ⟨Nat.le_of_not_lt hshort, (Except.ok.inj h).symm⟩

/-- The disk on which a file has been moved. -/
def moved (d : Disk) (place : Place) (name : String) (other : Place) (goalName : String)
    (content : Content) (time now : Int) : Disk :=
  ((d.take place name now).put (other ++ [goalName]) (.file content time)).stamp other now

/-- A file can be moved from one name to another, which stands for no directory. -/
structure Movable (d : Disk) (source goal : FilePath) (place : Place) (name : String)
    (other : Place) (goalName : String) (content : Content) (time : Int) : Prop where
  leads : d.Leads source (.inside (place ++ [name]))
  goalLeads : d.Leads goal (.inside (other ++ [goalName]))
  around : d.IsDirectoryAt (.inside place)
  goalAround : d.IsDirectoryAt (.inside other)
  file : d.at? (place ++ [name]) = some (.file content time)
  free : ¬ d.IsDirectoryAt (.inside (other ++ [goalName]))
  slash : goal.endsInSlash = false

/-- A file can be moved if it is one, and no directory is in its new place. A file that is moved to
itself stays. -/
theorem rename_eq_ok (h : d.rename source goal now = .ok d') :
    ∃ place name other goalName content time,
      d.Movable source goal place name other goalName content time ∧
        d' = if place ++ [name] = other ++ [goalName] then d
          else d.moved place name other goalName content time now := by
  have hat (place : Place) (name : String) :
      d.at? (place ++ [name]) = d.nodes[place ++ [name]]? := by simp [at?]
  unfold rename at h
  obtain ⟨⟨directory, last⟩, hsource, h⟩ := bind_eq_ok.1 h
  obtain ⟨⟨around, goalLast⟩, hgoal, h⟩ := bind_eq_ok.1 h
  cases last with
  | none => cases h
  | some name =>
    cases goalLast with
    | none => cases h
    | some goalName =>
      dsimp only at h
      obtain ⟨found, hfound, h⟩ := bind_eq_ok.1 h
      obtain ⟨replaced, hreplaced, h⟩ := bind_eq_ok.1 h
      cases found with
      | none => cases h
      | some node =>
        cases directory with
        | outside => cases h
        | inside place =>
          cases around with
          | outside => cases h
          | inside other =>
            obtain ⟨hshort, hnode⟩ := named_eq_ok hfound
            obtain ⟨hgoalShort, rfl⟩ := named_eq_ok hreplaced
            obtain ⟨_, _, _, hdirectory, _⟩ := target_eq_ok hsource
            obtain ⟨_, _, _, hgoalDirectory, _⟩ := target_eq_ok hgoal
            cases node with
            | directory changed => cases h
            | file content time =>
              dsimp only at h
              rw [if_neg (by simp [Node.isDirectory])] at h
              split at h
              · cases h
              · next hslash =>
                split at h
                · cases h
                · next hfree =>
                  refine ⟨place, name, other, goalName, content, time,
                    ⟨leads_of_target hsource hshort, leads_of_target hgoal hgoalShort, hdirectory,
                      hgoalDirectory, by rw [hat, hnode], ?_, by simp_all⟩, ?_⟩
                  · rw [isDirectoryAt_iff]
                    rintro ⟨node, hthere, hkind⟩
                    rw [atSpot?, hat] at hthere
                    simp [hthere, hkind] at hfree
                  · simp only [beq_iff_eq] at h
                    split at h
                    · next heq => rw [if_pos heq, Except.ok.inj h]
                    · next hne => rw [if_neg hne, moved, Except.ok.inj h]

/-- Taking a name from a directory takes all that is below it, and changes the directory. -/
theorem at?_take (x : Place) : (d.take place name now).at? x =
    if x = place then some (.directory now)
    else if place ++ [name] <+: x then none else d.at? x := by
  rw [take, at?_stamp]
  split
  · rfl
  · cases x with
    | nil => simp [at?]
    | cons first rest =>
      simp only [at?, List.isEmpty_cons, Bool.false_eq_true, if_false,
        Std.ExtTreeMap.getElem?_filter', ← List.isPrefixOf_iff_prefix]
      cases hinitial : (place ++ [name]).isPrefixOf (first :: rest) <;>
        cases d.nodes[first :: rest]? <;> simp [Option.filter]

/-- After a move the new name stands for the file and the old one for nothing, and both directories
have changed. -/
theorem at?_moved (x : Place) : (d.moved place name other goalName content time now).at? x =
    if x = other then some (.directory now)
    else if x = other ++ [goalName] then some (.file content time)
    else if x = place then some (.directory now)
    else if place ++ [name] <+: x then none else d.at? x := by
  rw [moved, at?_stamp, at?_put (by simp), at?_take]

theorem atSpot?_moved_outside : (d.moved place name other goalName content time now).atSpot?
    .outside = d.atSpot? .outside := by
  simp only [atSpot?, moved, take, stamp, changedAround_put]

/-- Moving a file changes no directory to which steps can lead. -/
theorem Movable.sameDirectories (h : d.Movable source goal place name other goalName content time) :
    d.SameDirectories (d.moved place name other goalName content time now) := by
  intro spot hopen
  obtain ⟨changed, hplace⟩ := h.around
  obtain ⟨goalChanged, hother⟩ := h.goalAround
  cases spot with
  | outside => rw [IsDirectoryAt, atSpot?_moved_outside, IsDirectoryAt]
  | inside x =>
    rw [IsDirectoryAt, atSpot?, at?_moved]
    split
    · next heq => exact ⟨fun _ => heq ▸ ⟨_, hother⟩, fun _ => ⟨now, rfl⟩⟩
    · split
      · next heq => simp [heq, h.free]
      · split
        · next heq => exact ⟨fun _ => heq ▸ ⟨_, hplace⟩, fun _ => ⟨now, rfl⟩⟩
        · split
          · next hinitial =>
            simp only [reduceCtorEq, exists_false, false_iff]
            -- Nothing can be reached below a file, even if the disk has something there.
            by_cases heq : place ++ [name] = x
            · rw [← heq, IsDirectoryAt, atSpot?, h.file]
              simp
            · have hdirectory := hopen x _ rfl hinitial heq
              rw [IsDirectoryAt, atSpot?, h.file] at hdirectory
              simp at hdirectory
          · rfl

/-- Moving a file makes and removes no directory. -/
theorem sameDirectories_rename (h : d.rename source goal now = .ok d') : d.SameDirectories d' := by
  obtain ⟨place, name, other, goalName, content, time, hmovable, rfl⟩ := rename_eq_ok h
  split
  · exact .refl d
  · exact hmovable.sameDirectories

theorem text?_rename (h : d.rename source goal now = .ok d') (htext : d.text? source = some text) :
    d'.text? goal = some text := by
  obtain ⟨place, name, other, goalName, content, time, hmovable, rfl⟩ := rename_eq_ok h
  obtain ⟨spot, changed, hleads, hthere, _⟩ := text?_eq_some.1 htext
  obtain rfl := hleads.unique hmovable.leads
  obtain ⟨rfl, rfl⟩ := Node.file.inj (Option.some.inj (hmovable.file.symm.trans hthere))
  refine text?_eq_some.2 ⟨.inside (other ++ [goalName]), time, ?_⟩
  split
  · next heq => exact ⟨hmovable.goalLeads, heq ▸ hthere, hmovable.slash⟩
  · refine ⟨hmovable.sameDirectories.leads_iff.2 hmovable.goalLeads, ?_, hmovable.slash⟩
    rw [atSpot?, at?_moved, if_neg (by simp), if_pos rfl]

/-- Moving a file keeps the file at any path that leads elsewhere. -/
theorem file?_rename_of_apart (h : d.rename source goal now = .ok d') (hsource : d.Apart p source)
    (hgoal : d.Apart p goal) : d'.file? p = d.file? p := by
  obtain ⟨place, name, other, goalName, content, time, hmovable, rfl⟩ := rename_eq_ok h
  split
  · rfl
  · refine file?_congr hmovable.sameDirectories fun spot hspot node hkind => ?_
    have hdirectory {changed changed' : Int} :
        some (.directory changed) = some node ↔ some (.directory changed') = some node := by
      constructor <;> (rintro ⟨⟩; cases hkind)
    obtain ⟨changed, hplace⟩ := hmovable.around
    obtain ⟨goalChanged, hother⟩ := hmovable.goalAround
    cases spot with
    | outside => rw [atSpot?_moved_outside]
    | inside x =>
      have hopen := hspot.open
      simp only [atSpot?] at hplace hother ⊢
      rw [at?_moved]
      split
      · next heq => rw [heq, hother, hdirectory]
      · rw [if_neg fun heq : x = other ++ [goalName] => hgoal _ hspot (heq ▸ hmovable.goalLeads)]
        split
        · next heq => rw [heq, hplace, hdirectory]
        · split
          · next hinitial =>
            by_cases heq : place ++ [name] = x
            · exact absurd (heq ▸ hmovable.leads) (hsource _ hspot)
            · have hthere := hopen x _ rfl hinitial heq
              rw [IsDirectoryAt, atSpot?, hmovable.file] at hthere
              simp at hthere
          · rfl

/-- Moving a file leaves alone what paths name that lead to neither of its places. -/
theorem sameAt_rename_of_apart (h : d.rename source goal now = .ok d') (hsource : d.Apart p source)
    (hgoal : d.Apart p goal) : SameAt p d d' :=
  sameAt_congr (sameDirectories_rename h) (file?_rename_of_apart h hsource hgoal)

end ScriptBuild.Disk
