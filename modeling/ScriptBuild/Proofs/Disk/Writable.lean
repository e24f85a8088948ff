import ScriptBuild.Proofs.Disk.Apart

namespace ScriptBuild

namespace Disk

variable {d d' e : Disk} {p source goal : FilePath} {spot : Spot} {place : Place}
  {name text : String} {content : Content} {now now' : Int}

/-- What has a name is looked for below the working directory. -/
theorem at?_append (d : Disk) (place : Place) (name : String) :
    d.at? (place ++ [name]) = d.nodes[place ++ [name]]? := by simp [at?]

/-- Whatever is written to a path, the disk takes it. -/
def Writable (d : Disk) (p : FilePath) : Prop :=
  ∀ content now, ∃ d', d.write p content now = .ok d'

namespace SameDirectories

/-- Where something can be made depends on the directories only. -/
theorem target_eq (hsame : d.SameDirectories e) (h : d.target p = .ok (spot, some name)) :
    e.target p = .ok (spot, some name) := by
  obtain ⟨steps, hroute, hwalk, hdirectory, hname⟩ := target_eq_ok h
  obtain ⟨changed, hthere⟩ := (hsame spot ((open_start d p).walk hwalk)).2 hdirectory
  have hwalk := (hsame.walk_eq_ok (open_start d p) steps).2 hwalk
  simp [target, hroute, hwalk, hthere, hname, bind, Except.bind]

/-- A name that stands for no directory does so nowhere else. -/
theorem free (hsame : d.SameDirectories e) (h : d.target p = .ok (.inside place, some name))
    (hshort : name.utf8ByteSize ≤ longestName)
    (hfree : ¬ d.IsDirectoryAt (.inside (place ++ [name]))) :
    ¬ e.IsDirectoryAt (.inside (place ++ [name])) := by
  rwa [hsame _ (leads_of_target h hshort).open]

/-- What could be written once can be written again. -/
theorem writable (hsame : d.SameDirectories e) (h : d.write p content now = .ok d') :
    e.Writable p := by
  unfold write at h
  obtain ⟨⟨spot, last⟩, htarget, h⟩ := bind_eq_ok.1 h
  cases last with
  | none => cases h
  | some name =>
    dsimp only at h
    split at h
    · cases h
    · next hslash =>
      obtain ⟨found, hnamed, h⟩ := bind_eq_ok.1 h
      cases spot with
      | outside =>
        unfold named at hnamed
        split at hnamed
        · cases hnamed
        · cases hnamed
          cases h
      | inside place =>
        obtain ⟨hshort, rfl⟩ := named_eq_ok hnamed
        have hfree : ¬ d.IsDirectoryAt (.inside (place ++ [name])) := by
          rintro ⟨changed, hthere⟩
          rw [atSpot?, at?_append] at hthere
          rw [hthere] at h
          cases h
        have hfree := hsame.free htarget hshort hfree
        have hnamed : e.named (.inside place) name = .ok e.nodes[place ++ [name]]? := by
          rw [named, if_neg (Nat.not_lt.2 hshort)]
        intro content' now'
        unfold write
        simp only [hsame.target_eq htarget, hnamed, hslash, bind, Except.bind]
        cases heq : e.nodes[place ++ [name]]? with
        | none => exact ⟨_, rfl⟩
        | some node =>
          cases node with
          | directory changed => exact absurd ⟨changed, by rw [atSpot?, at?_append, heq]⟩ hfree
          | file former changed => exact ⟨_, rfl⟩

/-- A file can be moved again if there is one again. -/
theorem exists_rename (hsame : d.SameDirectories e) (h : d.rename source goal now = .ok d')
    (hfile : (e.file? source).isSome) (now' : Int) : ∃ e', e.rename source goal now' = .ok e' := by
  obtain ⟨_, _, other, goalName, _, _, hmovable, -⟩ := rename_eq_ok h
  obtain ⟨node, hnode⟩ := Option.isSome_iff_exists.1 hfile
  obtain ⟨spot, hleads, hthere, hkind, hslash⟩ := file?_eq_some.1 hnode
  have hgoalSlash := hmovable.slash
  unfold rename at h
  obtain ⟨⟨directory, last⟩, hsource, h⟩ := bind_eq_ok.1 h
  obtain ⟨⟨around, goalLast⟩, hgoal, h⟩ := bind_eq_ok.1 h
  cases last with
  | none => cases h
  | some name =>
    cases goalLast with
    | none => cases h
    | some last =>
      dsimp only at h
      obtain ⟨found, hfound, h⟩ := bind_eq_ok.1 h
      obtain ⟨replaced, hreplaced, h⟩ := bind_eq_ok.1 h
      cases found with
      | none => cases h
      | some former =>
        cases directory with
        | outside => cases h
        | inside place =>
          cases around with
          | outside => cases h
          | inside goalPlace =>
            obtain ⟨hshort, -⟩ := named_eq_ok hfound
            obtain ⟨hgoalShort, -⟩ := named_eq_ok hreplaced
            have hmoved : e.named (.inside place) name = .ok (some node) := by
              obtain rfl := hleads.unique (hsame.leads_iff.2 (leads_of_target hsource hshort))
              rw [named, if_neg (Nat.not_lt.2 hshort), ← at?_append, ← hthere, atSpot?]
            have hreplaced : e.named (.inside goalPlace) last = .ok e.nodes[goalPlace ++ [last]]? := by
              rw [named, if_neg (Nat.not_lt.2 hgoalShort)]
            have hfree : (e.nodes[goalPlace ++ [last]]?).any (·.isDirectory) = false := by
              have hspot := hmovable.goalLeads.unique (leads_of_target hgoal hgoalShort)
              have hfree := hmovable.free
              rw [hspot, ← hsame _ (leads_of_target hgoal hgoalShort).open, isDirectoryAt_iff,
                atSpot?, at?_append] at hfree
              rw [Option.any_eq_false]
              exact fun node hnode => by simpa [hnode] using hfree
            unfold rename
            simp only [hsame.target_eq hsource, hsame.target_eq hgoal, hmoved, hreplaced, hkind,
              hslash, hgoalSlash, hfree, bind, Except.bind, Bool.or_false, Bool.false_eq_true,
              if_false]
            split <;> exact ⟨_, rfl⟩

end SameDirectories

/-- What can be written to a path can be written as long as no directory comes or goes. -/
theorem Writable.of_sameDirectories (h : d.Writable p) (hsame : d.SameDirectories e) :
    e.Writable p := by
  obtain ⟨d', hwrite⟩ := h (.text "") 0
  exact hsame.writable hwrite

/-- Where a file was copied to, everything can be written. -/
theorem writable_of_copy (h : d.copy source goal now = .ok d') : d.Writable goal := by
  unfold copy at h
  obtain ⟨⟨spot, node⟩, -, h⟩ := bind_eq_ok.1 h
  cases node with
  | directory changed => cases h
  | file content changed => exact (SameDirectories.refl d).writable h

/-- A file can be copied to where it can be written. -/
theorem Writable.exists_copy (h : d.Writable goal) (hfile : (d.file? source).isSome) (now : Int) :
    ∃ d', d.copy source goal now = .ok d' := by
  obtain ⟨node, hnode⟩ := Option.isSome_iff_exists.1 hfile
  obtain ⟨spot, hleads, hthere, hkind, hslash⟩ := file?_eq_some.1 hnode
  have hfind : d.find source = .ok (spot, node) :=
    find_eq_ok.2 ⟨hleads, hthere, fun hends => by rw [hslash] at hends; cases hends⟩
  cases node with
  | directory changed => cases hkind
  | file content changed =>
    obtain ⟨d', hwrite⟩ := h (if (d.find goal).toOption.any (·.1 == spot) then .text "" else content) now
    exact ⟨d', bind_eq_ok.2 ⟨_, hfind, hwrite⟩⟩

end Disk

namespace Archive

variable {a a' : Archive} {d d' e : Disk} {p : FilePath} {now : Int}

theorem exists_store (hsame : d.SameDirectories e) (h : a.store d p now = (d', .ok ()))
    (a' : Archive) (now' : Int) : ∃ e', a'.store e p now' = (e', .ok ()) := by
  unfold store at h ⊢
  dsimp only at h ⊢
  split at h
  · cases (Prod.mk.inj h).2
  · next drafted hwrite =>
    split at h
    · cases (Prod.mk.inj h).2
    · next stored hrename =>
      obtain ⟨e₁, hagain⟩ := hsame.writable hwrite (.text a'.document) now'
      have hafter : drafted.SameDirectories e₁ := ((Disk.sameDirectories_write hwrite).symm.trans
        hsame).trans (Disk.sameDirectories_write hagain)
      have hfile : (e₁.file? (draftPath p)).isSome := by
        have htext := Disk.text?_write hagain
        rw [Disk.text?_eq] at htext
        exact Option.isSome_of_mem (Option.bind_eq_some_iff.1 htext).choose_spec.1
      obtain ⟨e₂, hmoved⟩ := hafter.exists_rename hrename hfile now'
      rw [hagain]
      dsimp only
      rw [hmoved]
      exact ⟨e₂, rfl⟩

end Archive

end ScriptBuild
