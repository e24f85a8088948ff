import Mathlib.Tactic.Common
import ScriptBuild.Disk.Change

namespace ScriptBuild

namespace Disk

variable {d d' d'' : Disk} {p q : FilePath} {spot other : Spot} {place : Place} {name step : String}
  {node : Node} {content : Content} {now time : Int} {made made' : FilePath → Prop}

/-- Two parts succeed if the first one does, and the second one with what the first one gives. -/
theorem bind_eq_ok {α β : Type} {x : Except Refusal α} {f : α → Except Refusal β} {b : β} :
    x >>= f = .ok b ↔ ∃ a, x = .ok a ∧ f a = .ok b := by
  cases x with
  | error reason => simp [bind, Except.bind]
  | ok a => simp [bind, Except.bind]

/-- There is a directory at a spot. -/
def IsDirectoryAt (d : Disk) (spot : Spot) : Prop :=
  ∃ changed, d.atSpot? spot = some (.directory changed)

/-- A path leads to a spot, at which there need not be anything. -/
def Leads (d : Disk) (p : FilePath) (spot : Spot) : Prop :=
  ∃ steps, route p = .ok steps ∧ d.walk (start p) steps = .ok spot

theorem isDirectoryAt_iff : d.IsDirectoryAt spot ↔
    ∃ node, d.atSpot? spot = some node ∧ node.isDirectory := by
  constructor
  · rintro ⟨changed, heq⟩
    exact ⟨_, heq, rfl⟩
  · rintro ⟨node, heq, hkind⟩
    cases node with
    | directory changed => exact ⟨changed, heq⟩
    | file content changed => cases hkind

/-- A step can be taken from directories only. -/
theorem isDirectoryAt_of_enter (h : d.enter spot step = .ok other) : d.IsDirectoryAt spot := by
  unfold enter at h
  split at h
  · cases h
  · cases h
  · next changed heq => exact ⟨changed, heq⟩

/-- A step by a name leads to that name in the directory. -/
theorem enter_eq_inside (h : d.enter spot step = .ok other) (hname : isName step) :
    ∃ place, spot = .inside place ∧ other = .inside (place ++ [step]) := by
  obtain ⟨changed, hthere⟩ := isDirectoryAt_of_enter h
  obtain ⟨hdot, hdots⟩ := Bool.and_eq_true_iff.1 hname
  rw [bne_iff_ne] at hdot hdots
  simp only [enter, hthere, beq_iff_eq, hdot, hdots, if_false] at h
  split at h
  · cases h
  · cases spot with
    | outside => cases h
    | inside place => exact ⟨place, rfl, (Except.ok.inj h).symm⟩

/-- A step from a directory depends on nothing else. -/
theorem enter_congr (h : d.IsDirectoryAt spot) (h' : d'.IsDirectoryAt spot) :
    d.enter spot step = d'.enter spot step := by
  obtain ⟨changed, heq⟩ := h
  obtain ⟨changed', heq'⟩ := h'
  simp only [enter, heq, heq']

/-- The last step is taken from where the others lead. -/
theorem walk_append (steps : List String) :
    d.walk spot (steps ++ [step]) = d.walk spot steps >>= (d.enter · step) := by
  rw [walk, walk, List.foldlM_append]
  exact congrArg _ (funext fun other => bind_pure (d.enter other step))

/-- The route of a path is made of its steps. -/
theorem route_eq_ok {steps : List String} (h : route p = .ok steps) : steps = p.steps := by
  unfold route at h
  repeat' split at h
  · cases h
  · cases h
  · cases h
  · exact (Except.ok.inj h).symm

/-- A path names what is at the spot to which it leads. If it ends in a slash, that has to be a
directory. -/
theorem find_eq_ok : d.find p = .ok (spot, node) ↔
    d.Leads p spot ∧ d.atSpot? spot = some node ∧ (p.endsInSlash → node.isDirectory) := by
  unfold find Leads
  cases hroute : route p with
  | error reason => simp [bind, Except.bind]
  | ok steps =>
    simp only [bind, Except.bind, Except.ok.injEq, exists_eq_left']
    cases hwalk : d.walk (start p) steps with
    | error reason => simp
    | ok other =>
      simp only [Except.ok.injEq]
      cases hnode : d.atSpot? other with
      | none =>
        simp only [reduceCtorEq, false_iff, not_and]
        rintro rfl hsome
        rw [hnode] at hsome
        cases hsome
      | some found =>
        dsimp only
        split
        · next hslash =>
          rw [Bool.and_eq_true, Bool.not_eq_true'] at hslash
          simp only [reduceCtorEq, false_iff, not_and]
          rintro rfl hsome hkind
          obtain rfl := Option.some.inj (hnode.symm.trans hsome)
          rw [hkind hslash.1] at hslash
          cases hslash.2
        · next hslash =>
          simp only [Except.ok.injEq, Prod.mk.injEq]
          constructor
          · rintro ⟨rfl, rfl⟩
            refine ⟨rfl, hnode, fun hends => ?_⟩
            simpa [hends] using hslash
          · rintro ⟨rfl, hsome, _⟩
            exact ⟨rfl, Option.some.inj (hnode.symm.trans hsome)⟩

/-- A path names something if it leads to it, and does not call a file a directory. -/
theorem hasPath_iff : d.hasPath p ↔
    ∃ spot node, d.Leads p spot ∧ d.atSpot? spot = some node ∧
      (p.endsInSlash → node.isDirectory) := by
  simp only [← find_eq_ok, hasPath, lookup, Option.isSome_map]
  cases d.find p with
  | error reason => simp [Except.toOption]
  | ok found => exact ⟨fun _ => ⟨found.1, found.2, rfl⟩, fun _ => rfl⟩

/-- A spot to which steps can lead: all that is around it are directories. -/
def Open (d : Disk) (spot : Spot) : Prop :=
  ∀ place front, spot = .inside place → front <+: place → front ≠ place →
    d.IsDirectoryAt (.inside front)

theorem open_start (d : Disk) (p : FilePath) : d.Open (start p) := by
  intro place front heq hinitial hne
  unfold start at heq
  split at heq
  · cases heq
  · cases heq
    exact absurd (List.prefix_nil.1 hinitial) hne

/-- A step leads to a spot to which steps can lead. -/
theorem Open.enter (h : d.Open spot) (henter : d.enter spot step = .ok other) : d.Open other := by
  have hthere := isDirectoryAt_of_enter henter
  by_cases hname : isName step
  · obtain ⟨place, rfl, rfl⟩ := enter_eq_inside henter hname
    rintro _ front ⟨⟩ hinitial hne
    have hinside := (List.prefix_concat_iff.1 hinitial).resolve_left hne
    by_cases heq : front = place
    · exact heq ▸ hthere
    · exact h place front rfl hinside heq
  · obtain ⟨changed, hdirectory⟩ := hthere
    rw [isName, Bool.and_eq_true, bne_iff_ne, bne_iff_ne, not_and_or, not_not, not_not] at hname
    simp only [Disk.enter, hdirectory] at henter
    split at henter
    · cases henter
      exact h
    · next hdot =>
      have hdots : step = ".." := hname.resolve_left fun heq => hdot (by rw [heq]; rfl)
      rw [if_pos (by simp [hdots])] at henter
      cases henter
      match spot, h with
      | .outside, _ | .inside [], _ => exact fun _ _ heq => by cases heq
      | .inside (name :: place), h =>
        rintro _ front ⟨⟩ hinitial hne
        refine h _ front rfl (hinitial.trans (List.dropLast_prefix _)) fun heq => ?_
        have hlength := hinitial.length_le
        rw [heq, List.length_dropLast, List.length_cons] at hlength
        omega

theorem Open.walk {steps : List String} (h : d.Open spot) (hwalk : d.walk spot steps = .ok other) :
    d.Open other := by
  induction steps generalizing spot with
  | nil => exact Except.ok.inj hwalk ▸ h
  | cons step steps ih =>
    have hcons : d.enter spot step >>= (d.walk · steps) = .ok other := hwalk
    obtain ⟨next, henter, hrest⟩ := bind_eq_ok.1 hcons
    exact ih (h.enter henter) hrest

/-- Two disks have directories at the same spots, as far as steps can lead there on the first. -/
def SameDirectories (d d' : Disk) : Prop :=
  ∀ spot, d.Open spot → (d'.IsDirectoryAt spot ↔ d.IsDirectoryAt spot)

namespace SameDirectories

/-- A step leads to the same spot on disks with the same directories. -/
theorem enter_eq_ok (h : d.SameDirectories d') (hopen : d.Open spot) :
    d'.enter spot step = .ok other ↔ d.enter spot step = .ok other := by
  constructor
  · intro henter
    have hthere := isDirectoryAt_of_enter henter
    rwa [enter_congr hthere ((h spot hopen).1 hthere)] at henter
  · intro henter
    have hthere := isDirectoryAt_of_enter henter
    rwa [enter_congr hthere ((h spot hopen).2 hthere)] at henter

theorem walk_eq_ok (h : d.SameDirectories d') (hopen : d.Open spot) (steps : List String) :
    d'.walk spot steps = .ok other ↔ d.walk spot steps = .ok other := by
  induction steps generalizing spot with
  | nil => rfl
  | cons step steps ih =>
    have hcons (d : Disk) : d.walk spot (step :: steps) =
        (d.enter spot step).bind (d.walk · steps) := rfl
    rw [hcons, hcons]
    cases hnew : d'.enter spot step with
    | ok next =>
      have hold := (h.enter_eq_ok hopen).1 hnew
      rw [hold]
      exact ih (hopen.enter hold)
    | error reason =>
      cases hold : d.enter spot step with
      | ok next =>
        rw [(h.enter_eq_ok hopen).2 hold] at hnew
        cases hnew
      | error reason' => simp [Except.bind]

/-- Every path leads to the same spot on disks with the same directories. -/
theorem leads_iff (h : d.SameDirectories d') : d'.Leads p spot ↔ d.Leads p spot := by
  simp only [Leads, h.walk_eq_ok (open_start d p)]

end SameDirectories

theorem SameDirectories.open (h : d.SameDirectories d') (hopen : d.Open spot) : d'.Open spot := by
  intro place front heq hinitial hne
  refine (h _ fun other front' heq' hinitial' hne' => ?_).2 (hopen place front heq hinitial hne)
  obtain rfl := Spot.inside.inj heq'
  refine hopen place front' heq (hinitial'.trans hinitial) fun hsame => hne ?_
  exact hinitial.eq_of_length_le (hsame ▸ hinitial'.length_le)

theorem SameDirectories.refl (d : Disk) : d.SameDirectories d := fun _ _ => Iff.rfl

theorem SameDirectories.symm (h : d.SameDirectories d') : d'.SameDirectories d := by
  have hopen (place : Place) (hopen : d'.Open (.inside place)) : d.Open (.inside place) := by
    rintro _ front ⟨⟩ hinitial hne
    -- The directories around a place are taken from the outside to the inside.
    induction hlength : front.length using Nat.strongRecOn generalizing front with
    | _ length ih =>
      refine (h _ ?_).1 (hopen place front rfl hinitial hne)
      rintro _ outer ⟨⟩ houter hproper
      have hlt : outer.length < front.length := Nat.lt_of_le_of_ne houter.length_le fun heq =>
        hproper (houter.eq_of_length heq)
      have hstays : outer ≠ place := fun heq => by
        have hle := hinitial.length_le
        rw [heq] at hlt
        omega
      exact ih outer.length (hlength ▸ hlt) outer (houter.trans hinitial) hstays rfl
  intro spot hspot
  cases spot with
  | outside => exact (h .outside fun _ _ heq => nomatch heq).symm
  | inside place => exact (h _ (hopen place hspot)).symm

theorem SameDirectories.trans (h : d.SameDirectories d') (h' : d'.SameDirectories d'') :
    d.SameDirectories d'' := fun spot hopen => (h' spot (h.open hopen)).trans (h spot hopen)

/-- One disk has all that another has, and beyond that only files at paths of which something is
known. -/
structure Adds (made : FilePath → Prop) (d d' : Disk) : Prop where
  keeps : ∀ spot node, d.atSpot? spot = some node →
    ∃ node', d'.atSpot? spot = some node' ∧ node'.isDirectory = node.isDirectory
  only : ∀ spot node, d.atSpot? spot = none → d'.atSpot? spot = some node →
    node.isDirectory = false ∧ ∃ p, made p ∧ d.Leads p spot

theorem Adds.refl (made : FilePath → Prop) (d : Disk) : d.Adds made d where
  keeps spot node heq := ⟨node, heq, rfl⟩
  only spot node hnone hsome := by rw [hnone] at hsome; cases hsome

theorem Adds.mono (h : d.Adds made d') (hmade : ∀ p, made p → made' p) : d.Adds made' d' where
  keeps := h.keeps
  only spot node hnone hsome := by
    obtain ⟨hfile, p, hp, hleads⟩ := h.only spot node hnone hsome
    exact ⟨hfile, p, hmade p hp, hleads⟩

/-- Where files are gained, directories stay where they are. -/
theorem Adds.isDirectoryAt_iff (h : d.Adds made d') :
    d'.IsDirectoryAt spot ↔ d.IsDirectoryAt spot := by
  rw [Disk.isDirectoryAt_iff, Disk.isDirectoryAt_iff]
  constructor
  · rintro ⟨node', heq', hkind⟩
    cases heq : d.atSpot? spot with
    | none =>
      rw [(h.only spot node' heq heq').1] at hkind
      cases hkind
    | some node =>
      obtain ⟨node'', heq'', hsame⟩ := h.keeps spot node heq
      obtain rfl := Option.some.inj (heq'.symm.trans heq'')
      exact ⟨node, rfl, hsame.symm.trans hkind⟩
  · rintro ⟨node, heq, hkind⟩
    obtain ⟨node', heq', hsame⟩ := h.keeps spot node heq
    exact ⟨node', heq', hsame.trans hkind⟩

theorem Adds.leads_iff (h : d.Adds made d') : d'.Leads p spot ↔ d.Leads p spot :=
  SameDirectories.leads_iff fun _ _ => h.isDirectoryAt_iff

theorem Adds.trans (h : d.Adds made d') (h' : d'.Adds made d'') : d.Adds made d'' where
  keeps spot node heq := by
    obtain ⟨node', heq', hsame⟩ := h.keeps spot node heq
    obtain ⟨node'', heq'', hsame'⟩ := h'.keeps spot node' heq'
    exact ⟨node'', heq'', hsame'.trans hsame⟩
  only spot node'' hnone hsome := by
    cases heq' : d'.atSpot? spot with
    | none =>
      obtain ⟨hfile, p, hp, hleads⟩ := h'.only spot node'' heq' hsome
      exact ⟨hfile, p, hp, h.leads_iff.1 hleads⟩
    | some node' =>
      obtain ⟨hfile, hp⟩ := h.only spot node' hnone heq'
      obtain ⟨again, heq'', hsame⟩ := h'.keeps spot node' heq'
      obtain rfl := Option.some.inj (hsome.symm.trans heq'')
      exact ⟨hsame.trans hfile, hp⟩

theorem Adds.hasPath (h : d.Adds made d') (hold : d.hasPath p) : d'.hasPath p := by
  rw [hasPath_iff] at hold ⊢
  obtain ⟨spot, node, hleads, heq, hslash⟩ := hold
  obtain ⟨node', heq', hsame⟩ := h.keeps spot node heq
  exact ⟨spot, node', h.leads_iff.2 hleads, heq', fun hends => hsame.trans (hslash hends)⟩

/-- What a path names was there before, or it was made under some path that leads to the same
spot. -/
theorem Adds.hasPath_or (h : d.Adds made d') (hnew : d'.hasPath p) :
    d.hasPath p ∨ ∃ q spot, made q ∧ d.Leads q spot ∧ d.Leads p spot := by
  rw [hasPath_iff] at hnew
  obtain ⟨spot, node', hleads, heq', hslash⟩ := hnew
  rw [h.leads_iff] at hleads
  cases heq : d.atSpot? spot with
  | none =>
    obtain ⟨_, q, hq, hleads'⟩ := h.only spot node' heq heq'
    exact .inr ⟨q, spot, hq, hleads', hleads⟩
  | some node =>
    obtain ⟨again, heq'', hsame⟩ := h.keeps spot node heq
    obtain rfl := Option.some.inj (heq'.symm.trans heq'')
    refine .inl (hasPath_iff.2 ⟨spot, node, hleads, heq, fun hends => ?_⟩)
    exact hsame.symm.trans (hslash hends)

/-- Setting what a place holds changes no other place. -/
theorem at?_put (hplace : place ≠ []) (other : Place) :
    (d.put place node).at? other = if other = place then some node else d.at? other := by
  have hput : d.put place node = { d with nodes := d.nodes.insert place node } := by
    simp [put, List.isEmpty_iff, hplace]
  rw [hput, at?, at?]
  split
  · next hempty =>
    rw [List.isEmpty_iff] at hempty
    rw [if_neg fun h : other = place => hplace (h ▸ hempty)]
  · simp only [Std.ExtTreeMap.getElem?_insert, Std.LawfulEqCmp.compare_eq_iff_eq,
      eq_comm (a := place)]

/-- A directory that changes changes no other place. -/
theorem at?_stamp (other : Place) : (d.stamp place now).at? other =
    if other = place then some (.directory now) else d.at? other := by
  by_cases hplace : place = []
  · subst hplace
    cases other with
    | nil => rfl
    | cons name other => rfl
  · exact at?_put hplace other

theorem changedAround_put : (d.put place node).changedAround = d.changedAround := by
  unfold put
  split <;> rfl

/-- What is given below the working directory is no change around it. -/
theorem changedAround_give : (d.give place name node now).changedAround = d.changedAround := by
  simp only [give]
  split
  · exact changedAround_put
  · exact changedAround_put.trans changedAround_put

/-- A name gets what it is given, and at most the time of its directory changes besides. -/
theorem at?_give (d : Disk) (place : Place) (name : String) (node : Node) (now : Int) :
    ∃ stamped : Bool, ∀ other, (d.give place name node now).at? other =
      if other = place ++ [name] then some node
      else if other = place ∧ stamped then some (.directory now) else d.at? other := by
  have hne : place ++ [name] ≠ [] := by simp
  have hself : place ++ [name] ≠ place := by simp
  simp only [give]
  split
  · exact ⟨false, fun other => by simp [at?_put hne]⟩
  · refine ⟨true, fun other => ?_⟩
    rw [at?_stamp, at?_put hne]
    grind

/-- A name is given a file, and at most the time of its directory changes. -/
theorem adds_give (content : Content) (time now : Int)
    (hdirectory : d.IsDirectoryAt (.inside place))
    (hname : ∀ changed, d.nodes[place ++ [name]]? ≠ some (.directory changed))
    (hleads : d.Leads p (.inside (place ++ [name]))) :
    d.Adds (· = p) (d.give place name (.file content time) now) ∧
      (d.give place name (.file content time) now).at? (place ++ [name]) =
        some (.file content time) := by
  have hold : d.at? (place ++ [name]) = d.nodes[place ++ [name]]? := by simp [at?]
  obtain ⟨changed, hthere⟩ := hdirectory
  obtain ⟨stamped, hnew⟩ := at?_give d place name (.file content time) now
  refine ⟨⟨fun spot node heq => ?_, fun spot node hnone hsome => ?_⟩, ?_⟩
  · cases spot with
    | outside =>
      refine ⟨node, ?_, rfl⟩
      rw [← heq]
      simp only [atSpot?, changedAround_give]
    | inside other =>
      simp only [atSpot?] at heq hthere ⊢
      rw [hnew]
      split
      · next hplace =>
        refine ⟨_, rfl, ?_⟩
        cases node with
        | directory changed =>
          rw [hplace, hold] at heq
          exact absurd heq (hname changed)
        | file _ _ => rfl
      · split
        · next hplace =>
          rw [hplace.1, hthere] at heq
          obtain rfl := Option.some.inj heq
          exact ⟨_, rfl, rfl⟩
        · exact ⟨node, heq, rfl⟩
  · cases spot with
    | outside => cases hnone
    | inside other =>
      simp only [atSpot?] at hnone hsome hthere
      rw [hnew] at hsome
      split at hsome
      · next hplace =>
        obtain rfl := Option.some.inj hsome
        exact ⟨rfl, p, rfl, hplace ▸ hleads⟩
      · split at hsome
        · next hplace =>
          rw [hplace.1, hthere] at hnone
          cases hnone
        · rw [hnone] at hsome
          cases hsome
  · rw [hnew, if_pos rfl]

/-- Something can be made where the steps of a path but for the last one lead to a directory, and
the last one is a name. -/
theorem target_eq_ok (h : d.target p = .ok (spot, some name)) :
    ∃ steps, route p = .ok (steps ++ [name]) ∧ d.walk (start p) steps = .ok spot ∧
      d.IsDirectoryAt spot ∧ isName name := by
  unfold target at h
  obtain ⟨steps, hroute, h⟩ := bind_eq_ok.1 h
  obtain ⟨directory, hwalk, h⟩ := bind_eq_ok.1 h
  split at h
  · cases h
  · cases h
  · next changed hthere =>
    obtain ⟨rfl, hlast⟩ := Prod.mk.inj (Except.ok.inj h)
    obtain ⟨hlast, hname⟩ := Option.filter_eq_some_iff.1 hlast
    obtain ⟨before, rfl⟩ := List.getLast?_eq_some_iff.1 hlast
    rw [List.dropLast_concat] at hwalk
    exact ⟨before, hroute, hwalk, ⟨changed, hthere⟩, hname⟩

/-- A name that is not too long leads from a directory to what it names there. -/
theorem enter_name (hdirectory : d.IsDirectoryAt (.inside place)) (hname : isName name)
    (hshort : name.utf8ByteSize ≤ longestName) :
    d.enter (.inside place) name = .ok (.inside (place ++ [name])) := by
  obtain ⟨changed, hthere⟩ := hdirectory
  obtain ⟨hdot, hdots⟩ := Bool.and_eq_true_iff.1 hname
  rw [bne_iff_ne] at hdot hdots
  simp [enter, hthere, hdot, hdots, Nat.not_lt.2 hshort]

/-- A name that stands for no directory is given a file if that is written. -/
theorem write_eq_give {place : Place} {name : String} {former : Option Node}
    (htarget : d.target p = .ok (.inside place, some name)) (hslash : p.endsInSlash = false)
    (hnamed : d.named (.inside place) name = .ok former)
    (hfree : ∀ changed, former ≠ some (.directory changed)) :
    d.write p content now = .ok (d.give place name (.file content now) now) := by
  unfold write
  rw [htarget]
  dsimp only [Except.bind, bind]
  rw [hslash, hnamed]
  cases former with
  | none => rfl
  | some node =>
    cases node with
    | file _ _ => rfl
    | directory changed => exact absurd rfl (hfree changed)

/-- A file that can be written is a name in a directory, which stands for no directory itself. -/
theorem write_eq_ok (h : d.write p content now = .ok d') : ∃ place name,
    d.Leads p (.inside (place ++ [name])) ∧ d.IsDirectoryAt (.inside place) ∧
      (∀ changed, d.nodes[place ++ [name]]? ≠ some (.directory changed)) ∧
      p.endsInSlash = false ∧ name.utf8ByteSize ≤ longestName ∧
      d' = d.give place name (.file content now) now := by
  unfold write at h
  obtain ⟨⟨spot, last⟩, htarget, h⟩ := bind_eq_ok.1 h
  cases last with
  | none => cases h
  | some name =>
    dsimp only at h
    split at h
    · cases h
    · next hslash =>
      obtain ⟨found, hnamed, h⟩ := bind_eq_ok.1 h
      obtain ⟨steps, hroute, hwalk, hdirectory, hname⟩ := target_eq_ok htarget
      unfold named at hnamed
      split at hnamed
      · cases hnamed
      · next hshort =>
        cases spot with
        | outside => cases found with
          | none => cases h
          | some node => cases Except.ok.inj hnamed
        | inside place =>
          obtain rfl := Except.ok.inj hnamed
          refine ⟨place, name, ⟨_, hroute, ?_⟩, hdirectory, ?_, by simpa using hslash,
            Nat.le_of_not_lt hshort, ?_⟩
          · rw [walk_append, hwalk]
            exact enter_name hdirectory hname (Nat.le_of_not_lt hshort)
          · intro changed heq
            rw [heq] at h
            cases h
          · cases heq : d.nodes[place ++ [name]]? with
            | none =>
              rw [heq] at h
              exact (Except.ok.inj h).symm
            | some node =>
              rw [heq] at h
              cases node with
              | directory changed => cases h
              | file _ _ => exact (Except.ok.inj h).symm

/-- Writing a file makes it and keeps the rest. -/
theorem adds_write (h : d.write p content now = .ok d') : d.Adds (· = p) d' ∧ d'.hasPath p := by
  obtain ⟨place, name, hleads, hdirectory, hfree, hslash, _, rfl⟩ := write_eq_ok h
  obtain ⟨hadds, hnew⟩ := adds_give content now now hdirectory hfree hleads
  refine ⟨hadds, hasPath_iff.2 ⟨_, _, hadds.leads_iff.2 hleads, hnew, fun hends => ?_⟩⟩
  rw [hslash] at hends
  cases hends

end Disk

end ScriptBuild
