import ScriptBuild.Proofs.Resolution.Tracking

namespace ScriptBuild

/-- Two worlds answer alike for nobody and for some directories, and bodies say the same in both. An
    analysis looks names up from the directories of the units that it leaves behind, so it fares the
    same in two such worlds, however they answer for other directories. -/
structure World.AgreesFrom (D : FilePath → Prop) (w w' : World) : Prop where
  nobody : ∀ name, w'.lookup.find name none = w.lookup.find name none
  find : ∀ name d, D d → w'.lookup.find name (some d) = w.lookup.find name (some d)
  names : w'.lookup.names = w.lookup.names
  namesIn : ∀ d, D d → w'.lookup.namesIn d = w.lookup.namesIn d
  events : w'.events = w.events

theorem World.AgreesFrom.symm {D : FilePath → Prop} {w w' : World} (h : AgreesFrom D w w') :
    AgreesFrom D w' w where
  nobody name := (h.nobody name).symm
  find name d hd := (h.find name d hd).symm
  names := h.names.symm
  namesIn d hd := (h.namesIn d hd).symm
  events := h.events.symm

/-- All units of a program that are files are in some directories. -/
def Program.LiesIn (p : Program) (D : FilePath → Prop) : Prop :=
  ∀ id u d, p.units.get? id = some u → u.directory? = some d → D d

/-- If the files of a grown program are in some directories, those it had before are too. -/
theorem Program.LiesIn.of_grows {p q : Program} {D : FilePath → Prop} (h : q.LiesIn D)
    (hgrows : p.units.Grows q.units) : p.LiesIn D := by
  intro id u d hu hd
  obtain ⟨v, hv, huv⟩ := hgrows id u hu
  exact h id v d hv (by rwa [BuildUnit.directory?, huv.kind])

/-- Two functions that agree as long as a property holds, which they keep. -/
theorem List.foldl_congr_of {α β : Type} {f g : β → α → β} {P : β → Prop}
    (h : ∀ b a, P b → g b a = f b a ∧ P (f b a)) (items : List α) {b : β} (hb : P b) :
    items.foldl g b = items.foldl f b ∧ P (items.foldl f b) := by
  induction items generalizing b with
  | nil => exact ⟨rfl, hb⟩
  | cons a items ih =>
    obtain ⟨hsame, hnext⟩ := h b a hb
    rw [List.foldl_cons, List.foldl_cons, hsame]
    exact ih hnext

namespace Resolution

variable {D : FilePath → Prop} {w w' : World} {r s : Resolution} {id : Nat}
  {definition : Option Definition} {found : Option Nat}

/-- What a unit is looked up for: it can be handled, and is in one of some directories. -/
structure Placed (D : FilePath → Prop) (id : Nat) (r : Resolution) : Prop where
  sane : r.Sane
  unit : r.IsUnit id
  within : ∀ d, r.directoryOf id = some d → D d

/-- A unit stays placed while the program grows. -/
theorem Placed.next (h : Placed D id r) (hsane : s.Sane)
    (hgrows : r.program.units.Grows s.program.units) : Placed D id s where
  sane := hsane
  unit := h.unit.mono hgrows
  within d hd := h.within d ((directoryOf_of_grows hgrows h.unit.lt_size).symm.trans hd)

/-- A name is known alike in both worlds. -/
theorem isKnown_congr (h : w.AgreesFrom D w') {directory : Option FilePath}
    (hd : ∀ d, directory = some d → D d) (name : String) :
    r.isKnown w' directory name = r.isKnown w directory name := by
  cases directory with
  | none => simp only [isKnown, h.names]
  | some d => simp only [isKnown, h.names, h.namesIn d (hd d rfl)]

/-- A name is found alike in both worlds. -/
theorem find_congr (h : w.AgreesFrom D w') {directory : Option FilePath}
    (hd : ∀ d, directory = some d → D d) (name : String) :
    w'.lookup.find name directory = w.lookup.find name directory := by
  cases directory with
  | none => exact h.nobody name
  | some d => exact h.find name d (hd d rfl)

/-- A name of a placed unit is looked up alike in both worlds. -/
theorem lookupExternal_congr (h : w.AgreesFrom D w') (hd : ∀ d, r.directoryOf id = some d → D d)
    (name : String) : r.lookupExternal w' id name = r.lookupExternal w id name := by
  rw [directoryOf] at hd
  simp only [lookupExternal, isKnown_congr h hd, find_congr h hd]

/-- A reference of a placed unit is resolved alike in both worlds, and the unit is still placed. -/
theorem Placed.importReference (hr : Placed D id r) (h : w.AgreesFrom D w')
    (reference : String × Span) :
    Resolution.importReference w' id r reference = Resolution.importReference w id r reference ∧
      Placed D id (Resolution.importReference w id r reference) := by
  obtain ⟨hsane, hchanges⟩ := hr.sane.importReference w reference hr.unit
  refine ⟨?_, hr.next hsane hchanges.touches.units⟩
  simp only [Resolution.importReference, lookupExternal_congr h hr.within]

/-- A unit stays placed when a global variable is declared, for which nothing is looked up. -/
theorem Placed.declareGlobal (hr : Placed D id r) (name : String) :
    Placed D id (Resolution.declareGlobal id r name) := by
  obtain ⟨hsane, hchanges⟩ := hr.sane.declareGlobal name hr.unit
  exact hr.next hsane hchanges.touches.units

/-- The body of a placed unit is read alike in both worlds. -/
theorem Placed.readBody (hr : Placed D id r) (h : w.AgreesFrom D w') :
    r.readBody w' id = r.readBody w id := by
  unfold Resolution.readBody
  rw [h.events]
  split
  · rfl
  · next body hbody =>
    obtain ⟨u, hu, -⟩ := Option.bind_eq_some_iff.1 hbody
    obtain ⟨hget, hhas⟩ := Option.filter_eq_some_iff.1 hu
    dsimp only
    split
    · rfl
    · next events _ =>
      have hopen := changes_openBody (Summary.ofEvents events).slots hget hhas
      have hopened : Placed D id (r.openBody id (Summary.ofEvents events).slots) :=
        hr.next (hr.sane.changes hopen rfl rfl) (Program.Changes.touches hopen).units
      have hplaced := List.foldlRecOn (Summary.ofEvents events).globals
        (Resolution.declareGlobal id) hopened fun _ hs name _ => hs.declareGlobal name
      have hfold := (List.foldl_congr_of (f := Resolution.importReference w id)
        (g := Resolution.importReference w' id) (fun _ reference hs => hs.importReference h reference)
        (Summary.ofEvents events).references hplaced).1
      exact congrArg (fun s : Resolution => (({ s with run := { s.run with
        scopes := s.run.scopes.insert id (Summary.ofEvents events).scopes } } : Resolution),
          (none : Option Fault))) hfold

/-- A recorded import of a placed unit is looked up alike in both worlds, and the unit is still
placed. -/
theorem Placed.recheckImport (h : w.AgreesFrom D w') (state : Resolution × Bool)
    (x : Target × String) (hr : Placed D id state.1) :
    Resolution.recheckImport w' id state x = Resolution.recheckImport w id state x ∧
      Placed D id (Resolution.recheckImport w id state x).1 := by
  obtain ⟨r, changed⟩ := state
  obtain ⟨hsane, hchanges⟩ := hr.sane.recheckImport w x changed hr.unit
  refine ⟨?_, hr.next hsane hchanges.touches.units⟩
  simp only [Resolution.recheckImport, lookupExternal_congr h hr.within]

/-- The imports of a placed unit are fixed up alike in both worlds. -/
theorem Placed.recheck (hr : Placed D id r) (h : w.AgreesFrom D w') :
    r.recheck w' id = r.recheck w id := by
  have hfold := (List.foldl_congr_of (P := fun state => Placed D id state.1)
    (fun state x hs => Placed.recheckImport h state x hs) (lookedUpImports r.program id)
    (b := (r, false)) hr).1
  rw [Resolution.recheck, Resolution.recheck, hfold]

/-- A placed unit is handled alike in both worlds. -/
theorem Placed.handle {work : Work} (hr : Placed D work.unit r) (h : w.AgreesFrom D w') :
    r.handle w' work = r.handle w work := by
  have hbegin : Placed D work.unit
      { r with run := { r.run with handled := r.run.handled.insert work.unit } } :=
    hr.next ⟨hr.sane.waiting, hr.sane.found⟩ (.refl _)
  unfold Resolution.handle
  cases work with
  | read id => exact if_congr Iff.rfl rfl (hbegin.readBody h)
  | recheck id =>
    exact if_congr Iff.rfl rfl (congrArg (fun k : Resolution × Bool => (k.1, none)) (hbegin.recheck h))

/-- Working off what waits looks names up from the directories of units only. -/
theorem drain_congr (fuel : Nat) (hr : r.Sane) (h : w.AgreesFrom D w')
    (hlies : (r.drain w fuel).1.program.LiesIn D) : r.drain w' fuel = r.drain w fuel := by
  induction fuel generalizing r with
  | zero => rfl
  | succ fuel ih =>
    rw [Resolution.drain] at hlies
    rw [Resolution.drain, Resolution.drain]
    split
    · rfl
    · next work later hwaiting =>
      rw [hwaiting] at hlies
      dsimp only at hlies
      have hlater : Sane { r with run := { r.run with waiting := later } } :=
        ⟨fun x hx => hr.waiting x (hwaiting ▸ List.mem_cons_of_mem _ hx), hr.found⟩
      have hunit : IsUnit { r with run := { r.run with waiting := later } } work.unit :=
        hr.waiting work (hwaiting ▸ List.mem_cons_self)
      obtain ⟨hsane, hevolves⟩ := hlater.handle w work hunit
      have hhandle (hwithin : r.program.LiesIn D) :
          ({ r with run := { r.run with waiting := later } } : Resolution).handle w' work =
            ({ r with run := { r.run with waiting := later } } : Resolution).handle w work := by
        obtain ⟨u, hu, htable⟩ := hunit
        refine Placed.handle (D := D) ⟨hlater, ⟨u, hu, htable⟩, fun d hd => ?_⟩ h
        rw [directoryOf, hu] at hd
        exact hwithin work.unit u d hu hd
      generalize ({ r with run := { r.run with waiting := later } } : Resolution).handle w work = k
        at hsane hevolves hlies hhandle
      obtain ⟨s, fault⟩ := k
      cases fault with
      | some fault => rw [hhandle (hlies.of_grows (grows_of_evolves hevolves))]
      | none =>
        have hlast := (hsane.drain fuel w).2
        rw [hhandle (hlies.of_grows ((grows_of_evolves hevolves).trans (grows_of_evolves hlast)))]
        exact ih hsane hlies

/-- An analysis fares the same in a world that agrees for the directories of the units that it leaves
behind. -/
theorem analyze_congr (hr : r.Sane) (h : w.AgreesFrom D w') (entry : String)
    (definition : Option Definition)
    (hlies : (r.analyze w entry definition).1.program.LiesIn D) :
    r.analyze w' entry definition = r.analyze w entry definition := by
  unfold Resolution.analyze at hlies ⊢
  rw [h.nobody]
  cases hd : definition.or (w.lookup.find entry none) with
  | none => rfl
  | some d =>
    rw [hd] at hlies
    dsimp only at hlies ⊢
    split
    · rfl
    · next htable =>
      rw [if_neg htable] at hlies
      have hunit := (hr.unitFor entry d).1
      generalize r.unitFor entry d = k at hunit hlies
      obtain ⟨r', root⟩ := k
      dsimp only at hunit hlies ⊢
      have hsame : (r'.drain w workLimit).1.program.LiesIn D → r'.drain w' workLimit =
          r'.drain w workLimit := drain_congr workLimit hunit h
      generalize r'.drain w workLimit = k at hlies hsame
      obtain ⟨s, fault⟩ := k
      cases fault with
      | none => rw [hsame hlies]
      | some fault => rw [hsame hlies]

end Resolution

/-- A lookup that takes each directory for one that is spelled in a given way. -/
def NameLookup.respelled (l : NameLookup) (spelling : DirectoryKey → FilePath) : NameLookup where
  find name directory := l.find name (directory.map fun d => spelling d.key)
  names := l.names
  namesIn directory := l.namesIn (spelling directory.key)

/-- The same world with such a lookup. -/
def World.respelled (w : World) (spelling : DirectoryKey → FilePath) : World :=
  { w with lookup := w.lookup.respelled spelling }

/-- A respelled lookup asks only for one spelling of a directory, so it ignores the others. -/
theorem World.ignoresSpelling_respelled (w : World) (spelling : DirectoryKey → FilePath) :
    (w.respelled spelling).lookup.IgnoresSpelling where
  find name d d' hsame := by
    have hkey := FilePath.key_eq_iff.2 (FilePath.same_iff.1 hsame)
    simp only [respelled, NameLookup.respelled, Option.map_some, hkey]
  namesIn d d' hsame := by
    have hkey := FilePath.key_eq_iff.2 (FilePath.same_iff.1 hsame)
    simp only [respelled, NameLookup.respelled, hkey]

/-- What a respelled lookup offers, the lookup itself offers. -/
theorem World.offers_of_respelled {w : World} {spelling : DirectoryKey → FilePath} {d : Definition}
    (h : (w.respelled spelling).lookup.Offers d) : w.lookup.Offers d := by
  obtain ⟨name, directory, hfind⟩ := h
  exact ⟨name, _, hfind⟩

/-- For the directories that are spelled in the given way, respelling changes nothing. -/
theorem World.agreesFrom_respelled {D : FilePath → Prop} {spelling : DirectoryKey → FilePath}
    (hspelling : ∀ d, D d → spelling d.key = d) (w : World) : w.AgreesFrom D (w.respelled spelling) where
  nobody _ := rfl
  find name d hd := by simp only [respelled, NameLookup.respelled, Option.map_some, hspelling d hd]
  names := rfl
  namesIn d hd := by simp only [respelled, NameLookup.respelled, hspelling d hd]
  events := rfl

/-- The files of a program that are in one directory spell it in one way. -/
def Program.SpelledOnce (p : Program) : Prop :=
  ∀ id other u v d d', p.units.get? id = some u → p.units.get? other = some v →
    u.directory? = some d → v.directory? = some d' → d.key = d'.key → d = d'

/-- Then the keys of the directories of units tell how they are spelled. -/
theorem Program.SpelledOnce.exists_spelling {p : Program} (h : p.SpelledOnce) :
    ∃ spelling : DirectoryKey → FilePath, p.LiesIn fun d => spelling d.key = d := by
  classical
  let found (key : DirectoryKey) : Prop :=
    ∃ d : FilePath, d.key = key ∧ ∃ id u, p.units.get? id = some u ∧ u.directory? = some d
  refine ⟨fun key => if hfound : found key then hfound.choose else ⟨""⟩, fun id u d hu hd => ?_⟩
  have hfound : found d.key := ⟨d, rfl, id, u, hu, hd⟩
  obtain ⟨hkey, other, v, hv, hd'⟩ := hfound.choose_spec
  exact (dif_pos hfound).trans (h other id v u _ d hv hu hd' hd hkey)

end ScriptBuild
