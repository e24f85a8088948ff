import ScriptBuild.Proofs.Resolution.Schedule
import ScriptBuild.Proofs.Summary

namespace ScriptBuild

/-- The names that are looked up denote no global variables. -/
def NameLookup.FindsNoGlobals (l : NameLookup) : Prop :=
  ∀ name directory d, l.find name directory = some d → d.kind ≠ .globals

namespace Resolution

variable {w : World} {r s : Resolution} {id other table : Nat} {name n m : String} {t t' : Target}
  {d : Definition} {directory : Option FilePath} {slots globals names : List String} {span : Span}
  {u : BuildUnit} {body : Body} {events : List Event}

/-- The states of a resolution in a world, also in the middle of an analysis. -/
inductive Resolving (w : World) : Resolution → Prop where
  | start (p : Program) : Resolving w (.start p)
  | reset {r : Resolution} (h : Resolving w r) : Resolving w r.reset
  /-- A definition that is no shared table is met. -/
  | meet (name : String) {d : Definition} (htable : d.kind.isSharedTable = false) {r : Resolution}
      (h : Resolving w r) : Resolving w (r.unitFor name d).1
  /-- Some of what waits is taken up or dropped. -/
  | drop (later : List Work) {r : Resolution} (hlater : ∀ work ∈ later, work ∈ r.run.waiting)
      (h : Resolving w r) : Resolving w { r with run := { r.run with waiting := later } }
  | handle (work : Work) {r : Resolution} (hunit : r.IsUnit work.unit) (h : Resolving w r) :
      Resolving w (r.handle w work).1
  | recheck {id : Nat} {r : Resolution} (hunit : r.IsUnit id) (h : Resolving w r) :
      Resolving w (r.recheck w id).1
  | markBuilt (id : Nat) {r : Resolution} (h : Resolving w r) : Resolving w (r.markBuilt id)

/-- A unit is known and holds no global variables. -/
def IsApart (r : Resolution) (id : Nat) : Prop :=
  ∃ u, r.program.units.get? id = some u ∧ u.kind ≠ .globals

/-- Nothing that is remembered leads to the global variables. -/
structure Apart (r : Resolution) : Prop extends Sane r where
  found_apart : ∀ directory name id, r.foundFrom directory name = some id → r.IsApart id

theorem IsApart.mono (h : r.IsApart id) (hgrows : r.program.units.Grows s.program.units) :
    s.IsApart id := by
  obtain ⟨u, hu, hkind⟩ := h
  obtain ⟨v, hv, huv⟩ := hgrows id u hu
  exact ⟨v, hv, by rwa [huv.kind]⟩

/-- A unit that is no shared table is apart from the global variables. -/
theorem IsUnit.isApart (h : r.IsUnit id) : r.IsApart id := by
  obtain ⟨u, hu, htable⟩ := h
  refine ⟨u, hu, ?_⟩
  rintro hkind
  rw [hkind] at htable
  cases htable

/-- The table of global variables is not apart from them. -/
theorem IsApart.not_globalTable (h : r.IsApart id) : ¬ r.GlobalTable id := by
  intro htable
  obtain ⟨u, hu, hkind⟩ := h
  obtain ⟨_, v, ⟨⟩, hv, hglobal⟩ := htable.isGlobal
  rw [Option.some.inj (hu.symm.trans hv)] at hkind
  exact hkind hglobal

/-- A run stays apart from the global variables while the program grows and nothing is
remembered. -/
theorem Apart.mono (h : r.Apart) (hs : s.Sane) (hgrows : r.program.units.Grows s.program.units)
    (hfound : s.run.found = r.run.found) : s.Apart where
  toSane := hs
  found_apart directory name id heq := by
    rw [foundFrom, hfound] at heq
    exact (h.found_apart directory name id heq).mono hgrows

/-- The unit of a definition of another kind is apart from the global variables. -/
theorem isApart_unitFor (h : r.Sane) (name : String) (hkind : d.kind ≠ .globals) :
    (r.unitFor name d).1.IsApart (r.unitFor name d).2 := by
  by_cases htable : d.kind.isSharedTable
  · rw [unitFor, if_pos htable]
    obtain ⟨-, -, hmatch, -⟩ := h.tableFor name htable
    obtain ⟨u, hu, -, hidentity⟩ := Catalog.describes_of_findMatch hmatch
    refine ⟨u, hu, fun hglobals => hkind ?_⟩
    have htag : u.kind.tag = d.kind.tag := congrArg Identity.tag hidentity
    rw [hglobals] at htag
    cases hd : d.kind <;> simp_all [UnitKind.tag, UnitKind.isSharedTable]
  · exact (isUnit_unitFor h name (by simpa using htable)).isApart

/-- Finding or making the unit of a definition leads nowhere near the global variables. -/
theorem Apart.unitFor (h : r.Apart) (name : String) (d : Definition) :
    (r.unitFor name d).1.Apart := by
  obtain ⟨hs, hgrows, -⟩ := h.toSane.unitFor name d
  exact h.mono hs hgrows.touches.units found_unitFor

/-- A lookup remembers no global variables, and leads to none unless to the unit that asks. -/
theorem Apart.looked (h : r.Apart) (hw : w.lookup.FindsNoGlobals) (id : Nat) (name : String) :
    (r.lookupExternal w id name).1.Apart ∧
      ∀ other, (r.lookupExternal w id name).2 = .unit other → other ≠ id →
        (r.lookupExternal w id name).1.IsApart other := by
  obtain ⟨hs, -⟩ := h.toSane.looked w id name
  have hlookup := lookupOutcome w r id name
  generalize r.lookupExternal w id name = k at hs hlookup ⊢
  cases hlookup with
  | own =>
    refine ⟨h, ?_⟩
    rintro _ ⟨⟩ hne
    exact absurd rfl hne
  | recalled _ hfound =>
    refine ⟨h, ?_⟩
    rintro _ ⟨⟩ -
    exact h.found_apart _ _ _ hfound
  | missing => exact ⟨⟨hs, h.found_apart⟩, by simp⟩
  | @found names namesIn d _ _ _ hfind =>
    have hlearned : (r.learn names namesIn).Apart := ⟨h.toSane.learn names namesIn, h.found_apart⟩
    have hmet := hlearned.unitFor name d
    have hapart := isApart_unitFor hlearned.toSane name (hw name _ d hfind)
    refine ⟨⟨hs, fun directory n other hother => ?_⟩, ?_⟩
    · rcases foundFrom_rememberFound_eq_some hother with ⟨rfl, -⟩ | hold
      · exact hapart
      · exact hmet.found_apart directory n other hold
    · rintro _ ⟨⟩ -
      exact hapart

/-- What a unit that is no shared table looks up leads to no global variables. -/
theorem Apart.lookupExternal (h : r.Apart) (hw : w.lookup.FindsNoGlobals) (name : String)
    (hunit : r.IsUnit id) : (r.lookupExternal w id name).1.Apart ∧
      ∀ other, (r.lookupExternal w id name).2 = .unit other →
        (r.lookupExternal w id name).1.IsApart other := by
  obtain ⟨hs, hother⟩ := h.looked hw id name
  obtain ⟨-, hgrows, -⟩ := h.toSane.looked w id name
  refine ⟨hs, fun other heq => ?_⟩
  by_cases hself : other = id
  · exact hself ▸ (hunit.mono hgrows.touches.units).isApart
  · exact hother other heq hself

/-- Declaring a global variable remembers nothing, so the run stays apart. -/
theorem Apart.declareGlobal (h : r.Apart) (name : String) (hunit : r.IsUnit id) :
    (Resolution.declareGlobal id r name).Apart := by
  obtain ⟨hs, hchanges⟩ := h.toSane.declareGlobal name hunit
  refine h.mono hs hchanges.touches.units ?_
  rw [Resolution.declareGlobal]
  have hfound : (r.tableFor name .globals).1.run.found = r.run.found :=
    found_unitFor (d := ⟨.globals, 0, .table⟩)
  exact hfound

/-- Resolving a reference in a world that finds no global variables leads nowhere near them. -/
theorem Apart.importReference (h : r.Apart) (hw : w.lookup.FindsNoGlobals)
    (reference : String × Span) (hunit : r.IsUnit id) :
    (Resolution.importReference w id r reference).Apart := by
  obtain ⟨hs, -⟩ := h.toSane.importReference w reference hunit
  obtain ⟨hlooked, -⟩ := h.lookupExternal hw reference.1 hunit
  refine hlooked.mono hs ?_ ?_
  · rw [importReference_units]
    exact .refl _
  · rw [importReference_run]

/-- Looking up an import again in a world that finds no global variables leads nowhere near them. -/
theorem Apart.recheckImport (h : r.Apart) (hw : w.lookup.FindsNoGlobals) (x : Target × String)
    (changed : Bool) (hunit : r.IsUnit id) :
    (Resolution.recheckImport w id (r, changed) x).1.Apart := by
  obtain ⟨hs, -⟩ := h.toSane.recheckImport w x changed hunit
  obtain ⟨hlooked, -⟩ := h.lookupExternal hw x.2 hunit
  refine hlooked.mono hs ?_ ?_
  · rw [recheckImport_units]
    exact .refl _
  · rw [recheckImport_run]

/-- A fix-up in a world that finds no global variables leads nowhere near them. -/
theorem Apart.recheck (h : r.Apart) (hw : w.lookup.FindsNoGlobals) (hunit : r.IsUnit id) :
    (r.recheck w id).1.Apart := by
  obtain ⟨-, -, hlast⟩ := h.toSane.recheck_induction (P := Apart) w hunit h
    (fun _ changed _ hunit hs x _ => hs.recheckImport hw x changed hunit)
    fun _ _ hs => ⟨⟨hs.waiting, hs.found⟩, hs.found_apart⟩
  exact hlast

/-- Reading a body in a world that finds no global variables leads nowhere near them. -/
theorem Apart.readBody (h : r.Apart) (hw : w.lookup.FindsNoGlobals) (id : Nat) :
    (r.readBody w id).1.Apart := by
  have hsane := h.toSane.readBody w id
  have hread := readOutcome w r id
  generalize r.readBody w id = k at hsane hread ⊢
  cases hread with
  | bodiless => exact h
  | faulty => exact h.mono hsane.1 hsane.2.touches.units rfl
  | @read u _ events hget hhas =>
    have hopen := changes_openBody (Summary.ofEvents events).slots hget hhas
    have hopened : (r.openBody id (Summary.ofEvents events).slots).Apart :=
      h.mono (h.toSane.changes hopen rfl rfl) hopen.touches.units rfl
    obtain ⟨-, -, hs⟩ := h.toSane.importBody_induction (P := Apart) w hget hhas (.ofEvents events)
      hopened (fun _ _ hunit hs name _ => hs.declareGlobal name hunit)
      fun _ _ hunit hs reference _ => hs.importReference hw reference hunit
    exact ⟨⟨hs.waiting, hs.found⟩, hs.found_apart⟩

theorem apart_start (p : Program) : (start p).Apart where
  toSane := sane_start p
  found_apart _ _ _ heq := by simp [foundFrom, start, Run.start] at heq

/-- Every state of a resolution in such a world is apart from the global variables. -/
theorem Resolving.apart (h : Resolving w r) (hw : w.lookup.FindsNoGlobals) : r.Apart := by
  induction h with
  | start p => exact apart_start p
  | reset _ _ => exact apart_start _
  | meet name htable _ ih => exact ih.unitFor name _
  | drop later hlater _ ih =>
    exact ⟨⟨fun work hwork => ih.waiting work (hlater work hwork), ih.found⟩, ih.found_apart⟩
  | @handle work r hunit _ ih =>
    have hbegin : (r.begin work r.run.waiting).Apart := ⟨⟨ih.waiting, ih.found⟩, ih.found_apart⟩
    have hhandle := handleOutcome w r work
    generalize r.handle w work = k at hhandle ⊢
    cases hhandle with
    | handled => exact ih
    | read => exact hbegin.readBody hw _
    | recheck => exact hbegin.recheck hw hunit
  | recheck hunit _ ih => exact ih.recheck hw hunit
  | markBuilt id _ ih => exact ⟨⟨ih.waiting, ih.found⟩, ih.found_apart⟩

/-- Working off the queue goes through states of the resolution. -/
theorem Resolving.drain (fuel : Nat) (h : Resolving w r) (hsane : r.Sane) :
    Resolving w (r.drain w fuel).1 := by
  suffices hall : Resolving w (r.drain w fuel).1 ∧ (r.drain w fuel).1.Sane from hall.1
  refine drain_keeps (P := fun s => Resolving w s ∧ s.Sane)
    (fun {s work later} ⟨hs, hsane⟩ hwaiting => ?_) ⟨h, hsane⟩ fuel
  have hlater : ∀ x ∈ later, x ∈ s.run.waiting := fun x hx =>
    hwaiting ▸ List.mem_cons_of_mem work hx
  have hunit : IsUnit { s with run := { s.run with waiting := later } } work.unit :=
    hsane.waiting work (hwaiting ▸ List.mem_cons_self)
  have hdropped : Sane { s with run := { s.run with waiting := later } } :=
    ⟨fun x hx => hsane.waiting x (hlater x hx), hsane.found⟩
  exact ⟨.handle work hunit (hs.drop later hlater), (hdropped.handle w work hunit).1⟩

/-- Analyses lead from such states to such states, whether they succeed or fail. -/
theorem Resolving.analyze (h : Resolving w r) (hw : w.lookup.FindsNoGlobals) (entry : String)
    (definition : Option Definition) : Resolving w (r.analyze w entry definition).1 := by
  have hdrained {d : Definition} (htable : d.kind.isSharedTable = false) :
      Resolving w ((r.unitFor entry d).1.drain w workLimit).1 := by
    have hmet := h.meet entry htable
    exact hmet.drain workLimit (hmet.apart hw).toSane
  have hanalyze := analyzeOutcome w r entry definition
  generalize r.analyze w entry definition = k at hanalyze ⊢
  cases hanalyze with
  | undefined | table => exact h
  | done _ htable hdrain =>
    have hlast := hdrained htable
    rwa [hdrain] at hlast
  | failed _ htable hdrain =>
    have hlast := hdrained htable
    rw [hdrain] at hlast
    exact hlast.drop [] (by simp)

/-- It is remembered that a name is known from a directory. -/
def Recalls (r : Resolution) (directory : Option FilePath) (name : String) : Prop :=
  ∃ names, r.run.names = some names ∧ (name ∈ names ∨ ∃ d near, directory = some d ∧
    r.run.namesIn[d.key]? = some near ∧ name ∈ near)

/-- What a name means for a unit is settled: the unit exports it, or it is remembered where it was
    found, or it is remembered not to be known, or it is remembered to be known and the lookup finds
    nothing. A lookup that was made once gives the same answer for the rest of the reading, so that
    it does not matter when it is made. -/
inductive Answered (w : World) (r : Resolution) (id : Nat) (name : String) : Target → Prop where
  | own (hown : r.Exports id name) : Answered w r id name (.unit id)
  | found {other : Nat} (hown : ¬ r.Exports id name)
      (hfound : r.foundFrom (r.directoryOf id) name = some other) :
      Answered w r id name (.unit other)
  | unknown {names : NameSet} (hown : ¬ r.Exports id name)
      (hfound : r.foundFrom (r.directoryOf id) name = none)
      (hnames : r.run.names = some names) (hnot : name ∉ names)
      (hnear : ∀ directory, r.directoryOf id = some directory →
        ∃ near, r.run.namesIn[directory.key]? = some near ∧ name ∉ near) :
      Answered w r id name .unresolved
  | undefined (hown : ¬ r.Exports id name)
      (hfound : r.foundFrom (r.directoryOf id) name = none)
      (hrecalls : r.Recalls (r.directoryOf id) name)
      (hfind : w.lookup.find name (r.directoryOf id) = none) : Answered w r id name .unresolved

/-- A part of a run after which an answer for a unit is still the same. -/
structure Abides (id : Nat) (name : String) (r s : Resolution) : Prop where
  exports : s.Exports id name ↔ r.Exports id name
  directory : s.directoryOf id = r.directoryOf id
  found : s.foundFrom (r.directoryOf id) name = r.foundFrom (r.directoryOf id) name
  names : ∀ names, r.run.names = some names → s.run.names = some names
  namesIn : ∀ (key : DirectoryKey) near, r.run.namesIn[key]? = some near →
    s.run.namesIn[key]? = some near

theorem Abides.trans {r₁ r₂ r₃ : Resolution} (h : Abides id name r₁ r₂)
    (h' : Abides id name r₂ r₃) : Abides id name r₁ r₃ where
  exports := h'.exports.trans h.exports
  directory := h'.directory.trans h.directory
  found := by
    have hfound := h'.found
    rw [h.directory] at hfound
    exact hfound.trans h.found
  names names heq := h'.names names (h.names names heq)
  namesIn key near heq := h'.namesIn key near (h.namesIn key near heq)

/-- An answer abides as long as the units and what is remembered stay as they are. -/
theorem Abides.of_units (hunits : s.program.units = r.program.units) (hrun : s.run.found = r.run.found)
    (hnames : s.run.names = r.run.names) (hnamesIn : s.run.namesIn = r.run.namesIn) :
    Abides id name r s where
  exports := by rw [Exports, Exports, hunits]
  directory := by rw [directoryOf, directoryOf, hunits]
  found := by rw [foundFrom, foundFrom, hrun]
  names names heq := hnames.trans heq
  namesIn key near heq := by rw [hnamesIn, heq]

/-- What is settled stays settled as long as the answer abides. -/
theorem Answered.abides (h : Answered w r id name t) (habides : Abides id name r s) :
    Answered w s id name t := by
  have hown (hnot : ¬ r.Exports id name) : ¬ s.Exports id name := mt habides.exports.1 hnot
  cases h with
  | own hexports => exact .own (habides.exports.2 hexports)
  | found hnot hfound =>
    refine .found (hown hnot) ?_
    rw [habides.directory, habides.found, hfound]
  | unknown hnot hfound hnames hname hnear =>
    refine .unknown (hown hnot) ?_ (habides.names _ hnames) hname fun directory heq => ?_
    · rw [habides.directory, habides.found, hfound]
    · rw [habides.directory] at heq
      obtain ⟨near, hkept, hfar⟩ := hnear directory heq
      exact ⟨near, habides.namesIn _ near hkept, hfar⟩
  | undefined hnot hfound hrecalls hfind =>
    refine .undefined (hown hnot) ?_ ?_ ?_
    · rw [habides.directory, habides.found, hfound]
    · obtain ⟨names, hnames, hknown⟩ := hrecalls
      rw [habides.directory]
      refine ⟨names, habides.names names hnames, hknown.imp_right ?_⟩
      rintro ⟨d, near, heq, hnear, hmem⟩
      exact ⟨d, near, heq, habides.namesIn _ near hnear, hmem⟩
    · rw [habides.directory, hfind]

theorem insert_of_getElem? {key : DirectoryKey} {near : NameSet}
    {namesIn : Std.ExtTreeMap DirectoryKey NameSet} (h : namesIn[key]? = some near) :
    namesIn.insert key near = namesIn := by
  refine Std.ExtTreeMap.ext_getElem? fun other => ?_
  rw [Std.ExtTreeMap.getElem?_insert]
  split
  · next heq => rw [← Std.LawfulEqCmp.compare_eq_iff_eq.1 heq, h]
  · rfl

/-- A name is not known if it is remembered not to be, and asking for it changes nothing. -/
theorem isKnown_of_unknown {names : NameSet} (hnames : r.run.names = some names)
    (hnot : name ∉ names)
    (hnear : ∀ d, directory = some d → ∃ near, r.run.namesIn[d.key]? = some near ∧ name ∉ near) :
    r.isKnown w directory name = (r, false) := by
  have hcontains : names.contains name = false := Bool.eq_false_iff.2 hnot
  simp only [isKnown, hnames, Option.getD_some, hcontains, Bool.false_eq_true, if_false]
  cases directory with
  | none => rw [← hnames]
  | some d =>
    obtain ⟨near, hkept, hfar⟩ := hnear d rfl
    have hfar : near.contains name = false := Bool.eq_false_iff.2 hfar
    simp only [hkept, Option.getD_some, hfar, insert_of_getElem? hkept]
    rw [← hnames]

/-- A name that is remembered to be known is known without asking the lookup. -/
theorem Recalls.isKnown (h : r.Recalls directory name) : r.isKnown w directory name = (r, true) := by
  obtain ⟨names, hnames, hknown⟩ := h
  simp only [Resolution.isKnown, hnames, Option.getD_some]
  split
  · rw [← hnames]
  · next hnot =>
    obtain ⟨d, near, rfl, hkept, hmem⟩ := hknown.resolve_left hnot
    have hmem : near.contains name = true := hmem
    simp only [hkept, Option.getD_some, hmem, insert_of_getElem? hkept]
    rw [← hnames]

/-- A settled answer is the one that the lookup gives, and the lookup changes nothing. -/
theorem Answered.lookupExternal_eq (h : Answered w r id name t) :
    r.lookupExternal w id name = (r, t) := by
  cases h with
  | own hown =>
    rw [Exports] at hown
    simp only [Resolution.lookupExternal, hown, if_true]
  | found hnot hfound =>
    rw [Exports, Bool.not_eq_true] at hnot
    rw [directoryOf] at hfound
    simp only [Resolution.lookupExternal, hnot, hfound, Bool.false_eq_true, if_false]
  | unknown hnot hfound hnames hname hnear =>
    have hunknown := isKnown_of_unknown (w := w) hnames hname hnear
    rw [Exports, Bool.not_eq_true] at hnot
    rw [directoryOf] at hfound hunknown
    simp only [Resolution.lookupExternal, hnot, hfound, hunknown, Bool.false_eq_true, if_false]
  | undefined hnot hfound hrecalls hfind =>
    have hknown := hrecalls.isKnown (w := w)
    rw [Exports, Bool.not_eq_true] at hnot
    rw [directoryOf] at hfound hknown hfind
    simp only [Resolution.lookupExternal, hnot, hfound, hknown, hfind, Bool.false_eq_true, if_false,
      if_true]

/-- A settled answer is the one that the lookup gives. -/
theorem Answered.lookupExternal (h : Answered w r id name t) :
    (r.lookupExternal w id name).2 = t := by
  rw [h.lookupExternal_eq]

theorem Answered.unique (h : Answered w r id name t) (h' : Answered w r id name t') : t = t' :=
  h.lookupExternal.symm.trans h'.lookupExternal

/-- What is remembered after it was asked whether a name is known. -/
theorem isKnown_remembers {known : Bool} (hasked : r.isKnown w directory name = (s, known)) :
    ∃ names namesIn, s = r.learn (some names) namesIn ∧
    (∀ names', r.run.names = some names' → names = names') ∧
    (∀ (key : DirectoryKey) near, r.run.namesIn[key]? = some near → namesIn[key]? = some near) ∧
    (known = false → name ∉ names ∧
      ∀ d, directory = some d → ∃ near, namesIn[d.key]? = some near ∧ name ∉ near) ∧
    (known = true → s.Recalls directory name) := by
  obtain rfl : (r.isKnown w directory name).1 = s := congrArg Prod.fst hasked
  obtain rfl : (r.isKnown w directory name).2 = known := congrArg Prod.snd hasked
  have hkept : ∀ names', r.run.names = some names' → r.run.names.getD w.lookup.names = names' := by
    intro names' heq
    rw [heq, Option.getD_some]
  simp only [isKnown]
  split
  · next hmem => exact ⟨_, _, rfl, hkept, fun _ _ heq => heq, by simp, fun _ => ⟨_, rfl, .inl hmem⟩⟩
  · next hnot =>
    have hnot : name ∉ r.run.names.getD w.lookup.names := hnot
    cases directory with
    | none => exact ⟨_, _, rfl, hkept, fun _ _ heq => heq, fun _ => ⟨hnot, by simp⟩, by simp⟩
    | some d =>
      refine ⟨_, _, rfl, hkept, fun key near heq => ?_, fun hfar => ⟨hnot, ?_⟩, fun hnear =>
        ⟨_, rfl, .inr ⟨d, _, rfl, Std.ExtTreeMap.getElem?_insert_self, hnear⟩⟩⟩
      · simp only [Std.ExtTreeMap.getElem?_insert, Std.LawfulEqCmp.compare_eq_iff_eq]
        split
        · next hkey => rw [hkey, heq, Option.getD_some]
        · exact heq
      · rintro _ ⟨⟩
        exact ⟨_, Std.ExtTreeMap.getElem?_insert_self, Bool.eq_false_iff.1 hfar⟩

/-- What is remembered about one name says nothing about another. -/
theorem foundFrom_rememberFound_of_ne {directory' : Option FilePath} (hne : m ≠ name) :
    (r.rememberFound directory name id).foundFrom directory' m = r.foundFrom directory' m := by
  simp only [foundFrom, rememberFound, Std.ExtTreeMap.getElem?_insert,
    Std.LawfulEqCmp.compare_eq_iff_eq]
  split
  · next hkey =>
    rw [← hkey, Option.bind_some, Std.ExtTreeMap.getD_eq_getD_getElem?]
    simp only [Std.ExtTreeMap.getElem?_insert, Std.LawfulEqCmp.compare_eq_iff_eq,
      if_neg (Ne.symm hne)]
    cases r.run.found[directory.map FilePath.key]? with
    | none => simp
    | some names => rfl
  · rfl

theorem abides_learn {names : NameSet} {namesIn : Std.ExtTreeMap DirectoryKey NameSet}
    (hnames : ∀ names', r.run.names = some names' → names = names')
    (hnear : ∀ (key : DirectoryKey) near,
      r.run.namesIn[key]? = some near → namesIn[key]? = some near) :
    Abides id name r (r.learn (some names) namesIn) :=
  ⟨.rfl, rfl, rfl, fun names' heq => congrArg some (hnames names' heq), hnear⟩

/-- A lookup settles its answer, and leaves alone what is settled about other names. -/
theorem Sane.answered_lookupExternal (h : r.Sane) (w : World) (name : String)
    (hlt : id < r.program.units.size) :
    Answered w (r.lookupExternal w id name).1 id name (r.lookupExternal w id name).2 ∧
      ∀ other, other ≠ name → Abides id other r (r.lookupExternal w id name).1 := by
  have hrefl (other : String) : Abides id other r r := .of_units rfl rfl rfl rfl
  have hlookup := lookupOutcome w r id name
  generalize r.lookupExternal w id name = k at hlookup ⊢
  cases hlookup with
  | own hown => exact ⟨.own hown, fun other _ => hrefl other⟩
  | recalled hown hfound => exact ⟨.found hown hfound, fun other _ => hrefl other⟩
  | @missing _ _ known hown hfound hasked hmissing =>
    obtain ⟨names, namesIn, heq, hnames, hnear, hunknown, hrecalls⟩ := isKnown_remembers hasked
    rw [heq] at hrecalls ⊢
    refine ⟨?_, fun other _ => abides_learn hnames hnear⟩
    cases known with
    | false =>
      obtain ⟨hname, hfar⟩ := hunknown rfl
      exact .unknown hown hfound rfl hname hfar
    | true =>
      exact .undefined hown hfound (hrecalls rfl) (hmissing.resolve_left Bool.noConfusion)
  | @found _ _ d hown hfound hasked hfind =>
    obtain ⟨names, namesIn, heq, hnames, hnear, -, -⟩ := isKnown_remembers hasked
    rw [heq]
    obtain ⟨-, hgrows, -⟩ := (h.learn (some names) namesIn).unitFor name d
    have hexports {n : String} (hn : ((r.learn (some names) namesIn).unitFor name d).1.Exports id n) :=
      exports_unitFor hn
    obtain ⟨freshness, waiting, hrun⟩ := run_unitFor (r.learn (some names) namesIn) name d
    generalize (r.learn (some names) namesIn).unitFor name d = k at hgrows hexports hrun ⊢
    obtain ⟨s, found⟩ := k
    dsimp only at hgrows hexports hrun ⊢
    have hdirectory : s.directoryOf id = r.directoryOf id :=
      directoryOf_of_grows (r := r) hgrows.touches.units hlt
    have hmet (other : String) (hother : other ≠ name) : Abides id other r s :=
      (abides_learn hnames hnear).trans
        ⟨⟨fun hmet => (hexports hmet).resolve_right fun heq => hother heq.2,
          fun hold => hold.grows hgrows⟩, hdirectory, by rw [foundFrom, foundFrom, hrun],
          fun _ heq => by rw [hrun, heq], fun _ _ heq => by rw [hrun, heq]⟩
    have hremembers (other : String) (hother : other ≠ name) :
        Abides id other s (s.rememberFound (r.directoryOf id) name found) :=
      ⟨.rfl, rfl, foundFrom_rememberFound_of_ne hother, fun _ heq => heq, fun _ _ heq => heq⟩
    refine ⟨?_, fun other hother => (hmet other hother).trans (hremembers other hother)⟩
    by_cases hown' : s.Exports id name
    · -- The unit that asks is a shared table, and got the name just now.
      obtain ⟨rfl, -⟩ := (hexports hown').resolve_left hown
      exact .own hown'
    · exact .found hown' (hdirectory ▸ foundFrom_rememberFound)

/-- How far the body of a unit has been read: it exports its slots, and has imported the global
    variables and the names on the lists. A name is imported from elsewhere if some reference means
    it outside of the body, the body does not define a top-level function of that name, and the
    lookup does not lead back to the unit; the global variables come from declarations alone. -/
structure Importing (w : World) (id : Nat) (slots globals names : List String) (r : Resolution) :
    Prop where
  apart : r.Apart
  unit : r.IsUnit id
  exports : ∀ n, r.Exports id n ↔ n ∈ slots
  sound : ∀ t n, r.program.Takes id t n →
    (n ∈ globals ∧ ∃ table, t = .unit table ∧ r.GlobalTable table) ∨
      (n ∈ names ∧ t ≠ .unit id ∧ Answered w r id n t)
  declares : ∀ n ∈ globals, ∃ table, r.GlobalTable table ∧ r.program.Takes id (.unit table) n
  answers : ∀ n ∈ names, ∃ t, Answered w r id n t ∧
    (∀ other, t = .unit other → r.IsApart other) ∧ (t ≠ .unit id → r.program.Takes id t n)

/-- Units are met, and what was settled stays. -/
theorem Importing.look (h : Importing w id slots globals names r) (hs : s.Apart)
    (hgrows : r.program.Grows s.program) (habides : ∀ n ∈ names, Abides id n r s) :
    Importing w id slots globals names s := by
  have hunits := hgrows.touches.units
  have htakes (t : Target) (n : String) : s.program.Takes id t n ↔ r.program.Takes id t n := by
    rw [Program.Takes, hgrows.touches.imports id not_false, Program.Takes]
  refine ⟨hs, h.unit.mono hunits, fun n => (h.unit.exports_iff hgrows).trans (h.exports n),
    fun t n ht => ?_, fun n hn => ?_, fun n hn => ?_⟩
  · refine (h.sound t n ((htakes t n).1 ht)).imp ?_ ?_
    · rintro ⟨hn, table, heq, htable⟩
      exact ⟨hn, table, heq, htable.mono hunits⟩
    · rintro ⟨hn, hne, hanswered⟩
      exact ⟨hn, hne, hanswered.abides (habides n hn)⟩
  · obtain ⟨table, htable, ht⟩ := h.declares n hn
    exact ⟨table, htable.mono hunits, (htakes _ n).2 ht⟩
  · obtain ⟨t, hanswered, hapart, ht⟩ := h.answers n hn
    exact ⟨t, hanswered.abides (habides n hn), fun other heq => (hapart other heq).mono hunits,
      fun hne => (htakes t n).2 (ht hne)⟩

/-- An import has been recorded, and nothing else has changed on which lookups depend. -/
structure Entered (id : Nat) (t : Target) (n : String) (r s : Resolution) : Prop where
  program : s.program = r.program.recordImport id t n
  found : s.run.found = r.run.found
  names : s.run.names = r.run.names
  namesIn : s.run.namesIn = r.run.namesIn

theorem Entered.units (h : Entered id t n r s) : s.program.units = r.program.units := by
  rw [h.program, Program.units_recordImport]

/-- All answers abide when an import is recorded. -/
theorem Entered.abides (h : Entered id t n r s) (name : String) : Abides id name r s :=
  .of_units h.units h.found h.names h.namesIn

/-- After an import was recorded the unit takes that name, unless from itself, and what it took
before. -/
theorem Entered.takes_iff (h : Entered id t n r s) : s.program.Takes id t' m ↔
    (t' = t ∧ m = n ∧ t ≠ .unit id) ∨ r.program.Takes id t' m := by
  rw [h.program, Program.takes_recordImport]
  simp

/-- What was read before an import was recorded is still there. -/
theorem Importing.keep (h : Importing w id slots globals names r) (hentered : Entered id t n r s) :
    s.IsUnit id ∧ (∀ n, s.Exports id n ↔ n ∈ slots) ∧
      (∀ t m, r.program.Takes id t m →
        (m ∈ globals ∧ ∃ table, t = .unit table ∧ s.GlobalTable table) ∨
          (m ∈ names ∧ t ≠ .unit id ∧ Answered w s id m t)) ∧
      (∀ m ∈ globals, ∃ table, s.GlobalTable table ∧ s.program.Takes id (.unit table) m) ∧
      ∀ m ∈ names, ∃ t, Answered w s id m t ∧ (∀ other, t = .unit other → s.IsApart other) ∧
        (t ≠ .unit id → s.program.Takes id t m) := by
  have htable {table : Nat} : s.GlobalTable table ↔ r.GlobalTable table := by
    rw [GlobalTable, hentered.units, GlobalTable]
  have hapart {other : Nat} : s.IsApart other ↔ r.IsApart other := by
    rw [IsApart, hentered.units, IsApart]
  refine ⟨?_, fun n => (hentered.abides n).exports.trans (h.exports n), fun t m ht => ?_,
    fun m hm => ?_, fun m hm => ?_⟩
  · rw [IsUnit, hentered.units]
    exact h.unit
  · simp only [htable]
    refine (h.sound t m ht).imp_right ?_
    rintro ⟨hm, hne, hanswered⟩
    exact ⟨hm, hne, hanswered.abides (hentered.abides m)⟩
  · obtain ⟨table, hglobal, ht⟩ := h.declares m hm
    exact ⟨table, htable.2 hglobal, hentered.takes_iff.2 (.inr ht)⟩
  · obtain ⟨t, hanswered, hother, ht⟩ := h.answers m hm
    exact ⟨t, hanswered.abides (hentered.abides m), fun other heq => hapart.2 (hother other heq),
      fun hne => hentered.takes_iff.2 (.inr (ht hne))⟩

/-- A name that was looked up is imported from where the lookup leads. -/
theorem Importing.reference (h : Importing w id slots globals names r) (hentered : Entered id t n r s)
    (hs : s.Apart) (hanswered : Answered w r id n t)
    (hapart : ∀ other, t = .unit other → r.IsApart other) :
    Importing w id slots globals (names ++ [n]) s := by
  obtain ⟨hunit, hexports, hsound, hdeclares, hanswers⟩ := h.keep hentered
  have hlast : n ∈ names ++ [n] := List.mem_append_right _ (List.mem_singleton_self n)
  have hsettled := hanswered.abides (hentered.abides n)
  refine ⟨hs, hunit, hexports, fun t' m ht => ?_, hdeclares, fun m hm => ?_⟩
  · rcases hentered.takes_iff.1 ht with ⟨rfl, rfl, hne⟩ | hold
    · exact .inr ⟨hlast, hne, hsettled⟩
    · exact (hsound t' m hold).imp_right (And.imp_left (List.mem_append_left _))
  · rcases List.mem_append.1 hm with hm | hm
    · exact hanswers m hm
    · rw [List.mem_singleton.1 hm]
      refine ⟨t, hsettled, fun other heq => ?_, fun hne => hentered.takes_iff.2 (.inl ⟨rfl, rfl, hne⟩)⟩
      rw [IsApart, hentered.units]
      exact hapart other heq

/-- A global variable that is declared is imported from the table of global variables. -/
theorem Importing.global (h : Importing w id slots globals names r)
    (hentered : Entered id (.unit table) n r s) (hs : s.Apart) (htable : r.GlobalTable table) :
    Importing w id slots (globals ++ [n]) names s := by
  obtain ⟨hunit, hexports, hsound, hdeclares, hanswers⟩ := h.keep hentered
  have hlast : n ∈ globals ++ [n] := List.mem_append_right _ (List.mem_singleton_self n)
  have hnew : s.GlobalTable table := by
    rw [GlobalTable, hentered.units]
    exact htable
  refine ⟨hs, hunit, hexports, fun t' m ht => ?_, fun m hm => ?_, hanswers⟩
  · rcases hentered.takes_iff.1 ht with ⟨rfl, rfl, -⟩ | hold
    · exact .inl ⟨hlast, table, rfl, hnew⟩
    · exact (hsound t' m hold).imp_left (And.imp_left (List.mem_append_left _))
  · rcases List.mem_append.1 hm with hm | hm
    · exact hdeclares m hm
    · rw [List.mem_singleton.1 hm]
      refine ⟨table, hnew, hentered.takes_iff.2 (.inl ⟨rfl, rfl, ?_⟩)⟩
      rintro heq
      cases heq
      exact h.unit.isApart.not_globalTable htable

/-- A global variable is imported from the shared table, as long as no reference was resolved. -/
theorem Importing.declareGlobal (h : Importing w id slots globals [] r) (n : String) :
    Importing w id slots (globals ++ [n]) [] (r.declareGlobal id n) := by
  have hlast := h.apart.declareGlobal n h.unit
  have hmet : (r.tableFor n .globals).1.Apart := h.apart.unitFor n ⟨.globals, 0, .table⟩
  obtain ⟨-, hgrows, hmatch, -⟩ := h.apart.toSane.tableFor n
    (show UnitKind.globals.isSharedTable from rfl)
  exact (h.look hmet hgrows (by simp)).global ⟨rfl, rfl, rfl, rfl⟩ hlast hmatch

/-- A reference that did not occur yet is imported from where it is found. -/
theorem Importing.importReference (h : Importing w id slots globals names r)
    (hw : w.lookup.FindsNoGlobals) (n : String) (span : Span) (hnew : n ∉ names) :
    Importing w id slots globals (names ++ [n]) (r.importReference w id (n, span)) := by
  obtain ⟨hlooked, hapart⟩ := h.apart.lookupExternal hw n h.unit
  obtain ⟨hanswered, habides⟩ := h.apart.toSane.answered_lookupExternal w n h.unit.lt_size
  obtain ⟨-, hgrows, -⟩ := h.apart.toSane.lookupExternal w n h.unit
  have hread := h.look hlooked hgrows fun m hm => habides m fun heq => hnew (heq ▸ hm)
  have hrun := importReference_run w r id (n, span)
  refine hread.reference ⟨importReference_program w r id (n, span), ?_, ?_, ?_⟩
    (h.apart.importReference hw (n, span) h.unit) hanswered hapart <;> rw [hrun]

/-- All global variables on a list are imported, by induction on it. -/
theorem Importing.foldl_declareGlobal (list : List String)
    (h : Importing w id slots globals [] r) :
    Importing w id slots (globals ++ list) [] (list.foldl (Resolution.declareGlobal id) r) := by
  induction list generalizing r globals with
  | nil => rwa [List.append_nil]
  | cons n list ih =>
    rw [List.foldl_cons, List.append_cons]
    exact ih (h.declareGlobal n)

/-- All references on a list are imported, by induction on it, if each occurs once. -/
theorem Importing.foldl_importReference (list : List (String × Span))
    (h : Importing w id slots globals names r) (hw : w.lookup.FindsNoGlobals)
    (hnodup : (names ++ list.map (·.1)).Nodup) :
    Importing w id slots globals (names ++ list.map (·.1))
      (list.foldl (Resolution.importReference w id) r) := by
  induction list generalizing r names with
  | nil => rwa [List.map_nil, List.append_nil]
  | cons x list ih =>
    rw [List.map_cons, List.append_cons] at hnodup
    rw [List.foldl_cons, List.map_cons, List.append_cons]
    refine ih (h.importReference hw x.1 x.2 ?_) hnodup
    have hbefore := (List.nodup_append.1 hnodup).1
    exact fun hmem => (List.nodup_append.1 hbefore).2.2 x.1 hmem x.1 (List.mem_singleton_self _) rfl

theorem Apart.openBody (h : r.Apart) (slots : List String) (hget : r.program.units.get? id = some u)
    (hbody : u.kind.hasBody) : Importing w id slots [] [] (r.openBody id slots) := by
  have hchanges := changes_openBody slots hget hbody
  have hunit : r.IsUnit id := ⟨u, hget, UnitKind.isSharedTable_of_hasBody hbody⟩
  have hopened : (r.openBody id slots).Apart :=
    h.mono (h.toSane.changes hchanges rfl rfl) hchanges.touches.units rfl
  have hget' : (r.openBody id slots).program.units.get? id =
      some (slots.foldl BuildUnit.addSlot { u with slots := [] }) := by
    have hcleared : (r.program.clearBody id).units.get? id = some { u with slots := [] } :=
      Catalog.get?_modify_of_get? hget rfl
    exact Catalog.get?_modify_of_get? hcleared (BuildUnit.becomes_foldl_addSlot slots _).name
  have htakes (t : Target) (n : String) : ¬ (r.openBody id slots).program.Takes id t n := by
    have hnone : (r.program.clearBody id).importsOf id = .empty := by
      rw [Program.importsOf_clearBody, if_pos rfl]
    have himports : (r.openBody id slots).program.importsOf id = .empty := hnone
    rw [Program.Takes, himports]
    exact Imports.not_has_empty
  refine ⟨hopened, hunit.mono hchanges.touches.units, fun n => ?_,
    fun t n ht => absurd ht (htakes t n), fun n hn => absurd hn List.not_mem_nil,
    fun n hn => absurd hn List.not_mem_nil⟩
  rw [Exports, hget', Option.any_some, BuildUnit.hasSlot_foldl_addSlot]
  simp [BuildUnit.hasSlot]

/-- Reading a body whose events can be had succeeds, and imports what the summary says. -/
theorem Apart.importing (h : r.Apart) (hw : w.lookup.FindsNoGlobals)
    (hget : r.program.units.get? id = some u) (hhas : u.kind.hasBody) (hbody : u.body = some body)
    (hevents : w.events body = .ok events) : ∃ s, r.readBody w id = (s, none) ∧
      Importing w id (Summary.ofEvents events).slots (Summary.ofEvents events).globals
        ((Summary.ofEvents events).references.map (·.1)) s := by
  have hnodup : ((Summary.ofEvents events).references.map (·.1)).Nodup :=
    Summary.nodup_firstOccurrences _ _
  have hopened := h.openBody (w := w) (Summary.ofEvents events).slots hget hhas
  have hdeclared := hopened.foldl_declareGlobal (Summary.ofEvents events).globals
  have himported := hdeclared.foldl_importReference (Summary.ofEvents events).references hw hnodup
  refine ⟨_, readBody_of_events hget hhas hbody hevents, himported.look ?_ .refl ?_⟩
  · exact ⟨⟨himported.apart.waiting, himported.apart.found⟩, himported.apart.found_apart⟩
  · exact fun _ _ => .of_units rfl rfl rfl rfl

/-- When the body of a unit has been read, a name is imported from elsewhere than the global variables
if and only if a reference means it outside of the body, it is no top-level function of the unit, and
the lookup does not lead back to the unit. It is imported from one target only, which is the one that
the lookup gives. From the global variables exactly the names are imported that the body declares
global. -/
theorem imports_of_readBody (w : World) (hw : w.lookup.FindsNoGlobals) (r : Resolution)
    (hr : Resolving w r) (id : Nat) (u : BuildUnit) (hget : r.program.units.get? id = some u)
    (hhas : u.kind.hasBody) (body : Body) (hbody : u.body = some body) (events : List Event)
    (hevents : w.events body = .ok events) (hinside : Event.EntersInside events) :
    ∃ s, r.readBody w id = (s, none) ∧
      (∀ n, (∃ t, s.program.Takes id t n ∧ ∀ table, s.GlobalTable table → t ≠ .unit table) ↔
        Event.RefersOutside events n ∧ ¬ Event.Declares events .function n 0 ∧
          (s.lookupExternal w id n).2 ≠ .unit id) ∧
      (∀ t n, s.program.Takes id t n → (∀ table, s.GlobalTable table → t ≠ .unit table) →
        t = (s.lookupExternal w id n).2) ∧
      ∀ n, (∃ table, s.GlobalTable table ∧ s.program.Takes id (.unit table) n) ↔
        ∃ scope, Event.Declares events .global n scope := by
  obtain ⟨s, hread, hs⟩ := (hr.apart hw).importing hw hget hhas hbody hevents
  have hapart {t : Target} {n : String} (h : Answered w s id n t) (table : Nat)
      (htable : s.GlobalTable table)
      (hmem : n ∈ (Summary.ofEvents events).references.map (·.1)) : t ≠ .unit table := by
    rintro rfl
    obtain ⟨t', hanswered, hother, -⟩ := hs.answers n hmem
    exact (hother table (hanswered.unique h)).not_globalTable htable
  refine ⟨s, hread, fun n => ⟨?_, ?_⟩, fun t n ht hnot => ?_, fun n => ⟨?_, ?_⟩⟩
  · rintro ⟨t, ht, hnot⟩
    rcases hs.sound t n ht with ⟨-, table, heq, htable⟩ | ⟨hmem, hne, hanswered⟩
    · exact absurd heq (hnot table htable)
    · refine ⟨(Summary.mem_references hinside).1 hmem, fun htop => ?_, ?_⟩
      · have hown : s.Exports id n := (hs.exports n).2 ((Summary.mem_slots hinside).2 htop)
        exact hne (hanswered.unique (.own hown))
      · rwa [hanswered.lookupExternal]
  · rintro ⟨houtside, -, hne⟩
    have hmem := (Summary.mem_references hinside).2 houtside
    obtain ⟨t, hanswered, hother, ht⟩ := hs.answers n hmem
    rw [hanswered.lookupExternal] at hne
    exact ⟨t, ht hne, fun table htable => hapart hanswered table htable hmem⟩
  · rcases hs.sound t n ht with ⟨-, table, heq, htable⟩ | ⟨-, -, hanswered⟩
    · exact absurd heq (hnot table htable)
    · exact hanswered.lookupExternal.symm
  · rintro ⟨table, htable, ht⟩
    rcases hs.sound _ n ht with ⟨hmem, -⟩ | ⟨hmem, -, hanswered⟩
    · exact (Summary.mem_globals hinside).1 hmem
    · exact absurd rfl (hapart hanswered table htable hmem)
  · intro hdeclares
    exact hs.declares n ((Summary.mem_globals hinside).2 hdeclares)

/-- A function with a variable that a closure captures, which also calls a function that is nested
further down, and one that is in another script. -/
def closureEvents : List Event :=
  [.declare .function "f" ⟨0, 1⟩, .enter .function (some "f") ⟨0, 90⟩, .declare .assigned "x" ⟨10, 11⟩,
    .enter .closure none ⟨20, 40⟩, .reference "x" ⟨21, 22⟩, .reference "inner" ⟨23, 28⟩,
    .reference "g" ⟨29, 30⟩, .exit, .declare .global "v" ⟨45, 46⟩,
    .declare .function "inner" ⟨50, 55⟩, .enter .function (some "inner") ⟨50, 80⟩, .exit, .exit]

/-- The world of that script and of the other one. -/
def closureWorld : World where
  lookup :=
    { find := fun name _ =>
        if name = "g" then some ⟨.script ⟨"g.m"⟩, 1, .file ⟨"g.m"⟩⟩ else none
      names := {"f", "g"}
      namesIn := fun _ => ∅ }
  events
    | .file ⟨"f.m"⟩ => .ok closureEvents
    | _ => .ok []

/-- The script was met, and is about to be read. -/
def closureMet : Resolution :=
  ((start .empty).unitFor "f" ⟨.script ⟨"f.m"⟩, 1, .file ⟨"f.m"⟩⟩).1

theorem findsNoGlobals_closureWorld : closureWorld.lookup.FindsNoGlobals := by
  intro name directory d hfind
  simp only [closureWorld, Option.ite_none_right_eq_some, Option.some.injEq] at hfind
  obtain ⟨-, rfl⟩ := hfind
  simp

theorem entersInside_closureEvents : Event.EntersInside closureEvents := by
  intro kind name span hmem
  rintro rfl
  simp [closureEvents] at hmem

/-- Nothing in the example declares the name that is looked up. -/
theorem not_declares_closureEvents {declaration : Declaration} {before after : List Event}
    {scope : Nat} (hsplit : closureEvents = before ++ after) :
    ¬ Event.Declares before declaration "g" scope := by
  rintro ⟨first, span, rest, rfl, -⟩
  have hmem : .declare declaration "g" span ∈ closureEvents := by simp [hsplit]
  simp [closureEvents] at hmem

theorem refersOutside_closureEvents : Event.RefersOutside closureEvents "g" := by
  have hsplit : closureEvents = closureEvents.take 6 ++ closureEvents.drop 6 := rfl
  refine ⟨closureEvents.take 6, ⟨29, 30⟩, closureEvents.drop 7, rfl, ?_, ?_⟩
  · rintro scope - ⟨declaration, -, hdeclares⟩
    exact not_declares_closureEvents hsplit hdeclares
  · rintro scope - ⟨-, hdeclares⟩
    exact not_declares_closureEvents (List.append_nil _).symm hdeclares

/-- The script imports the other one and its global variable. -/
theorem imports_of_readBody_closure : ∃ s, closureMet.readBody closureWorld 0 = (s, none) ∧
    (∃ t, s.program.Takes 0 t "g") ∧
      ∃ table, s.GlobalTable table ∧ s.program.Takes 0 (.unit table) "v" := by
  have hmet : Resolving closureWorld closureMet := .meet "f" rfl (.start .empty)
  obtain ⟨s, hread, himports, -, hglobals⟩ := imports_of_readBody closureWorld
    findsNoGlobals_closureWorld closureMet hmet 0
    ⟨"f", 0, .script ⟨"f.m"⟩, 1, some (.file ⟨"f.m"⟩), []⟩ (by decide) rfl _ rfl closureEvents
    rfl entersInside_closureEvents
  have hs : s = (closureMet.readBody closureWorld 0).1 := by rw [hread]
  have helsewhere : (s.lookupExternal closureWorld 0 "g").2 ≠ .unit 0 := by
    rw [hs]
    decide
  obtain ⟨t, ht, -⟩ := (himports "g").2 ⟨refersOutside_closureEvents,
    not_declares_closureEvents (List.append_nil _).symm, helsewhere⟩
  have hglobal : ∃ scope, Event.Declares closureEvents .global "v" scope :=
    ⟨1, closureEvents.take 8, _, closureEvents.drop 9, rfl, rfl⟩
  exact ⟨s, hread, ⟨t, ht⟩, (hglobals "v").2 hglobal⟩

end Resolution

end ScriptBuild
