import ScriptBuild.Proofs.Program.Change

namespace ScriptBuild

/-- What a definition of a name identifies. -/
def Definition.identity (d : Definition) : Identity := d.kind.identity d.timestamp

namespace NameLookup

/-- Whether a name is known everywhere or in a directory. -/
def Knows (l : NameLookup) (directory : Option FilePath) (name : String) : Prop :=
  name ∈ l.names ∨ ∃ d, directory = some d ∧ name ∈ l.namesIn d

/-- What a lookup answers depends on the directory and not on how its path is spelled. -/
structure IgnoresSpelling (l : NameLookup) : Prop where
  find : ∀ name (d d' : FilePath), d.same d' →
    (l.find name (some d)).map Definition.identity = (l.find name (some d')).map Definition.identity
  namesIn : ∀ d d' : FilePath, d.same d' → l.namesIn d = l.namesIn d'

/-- A name is found alike from a directory, however it is spelled. -/
theorem IgnoresSpelling.find_eq {l : NameLookup} (hl : l.IgnoresSpelling) (name : String)
    {d d' : Option FilePath} (hkey : d.map FilePath.key = d'.map FilePath.key) :
    (l.find name d).map Definition.identity = (l.find name d').map Definition.identity := by
  cases d with
  | none => cases d' with
    | none => rfl
    | some _ => cases hkey
  | some a => cases d' with
    | none => cases hkey
    | some b => exact hl.find name a b (FilePath.same_iff.2 (FilePath.key_eq_iff.1 (Option.some.inj hkey)))

/-- A directory holds the same names however it is spelled. -/
theorem IgnoresSpelling.namesIn_eq {l : NameLookup} (hl : l.IgnoresSpelling) {d d' : FilePath}
    (hkey : d.key = d'.key) : l.namesIn d = l.namesIn d' :=
  hl.namesIn d d' (FilePath.same_iff.2 (FilePath.key_eq_iff.1 hkey))

/-- A name is known alike from a directory, however it is spelled. -/
theorem IgnoresSpelling.knows_iff {l : NameLookup} (hl : l.IgnoresSpelling) (name : String)
    {d d' : Option FilePath} (hkey : d.map FilePath.key = d'.map FilePath.key) :
    l.Knows d name ↔ l.Knows d' name := by
  cases d with
  | none => cases d' with
    | none => rfl
    | some _ => cases hkey
  | some a => cases d' with
    | none => cases hkey
    | some b => simp [Knows, hl.namesIn_eq (Option.some.inj hkey)]

/-- A lookup answers with a definition of a name, for some directory or for nobody. -/
def Offers (l : NameLookup) (d : Definition) : Prop := ∃ name directory, l.find name directory = some d

end NameLookup

/-- Among some definitions those of one file agree on the time at which it was changed. -/
def SameTimes (offered : Definition → Prop) : Prop :=
  ∀ d d', offered d → offered d' → d.kind.isFile → d.identity = d'.identity →
    d.timestamp = d'.timestamp

/-- A world in which lookups do not depend on spelling and all definitions on offer, which may be more
than the lookup gives, agree on the times of files. -/
structure Steady (w : World) (offered : Definition → Prop) : Prop where
  spelling : w.lookup.IgnoresSpelling
  times : SameTimes offered
  offers : ∀ d, w.lookup.Offers d → offered d

/-- No definition on offer of the file of a unit is newer than what is recorded. -/
def BuildUnit.Current (offered : Definition → Prop) (u : BuildUnit) : Prop :=
  ∀ d, offered d → d.kind.isFile → d.identity = u.identity → d.timestamp ≤ u.timestamp

namespace Resolution

variable {w : World} {r s : Resolution} {id other : Nat} {name : String} {t t' : Target}
  {d d' : Definition}

/-- A unit was met in the run. -/
def Met (r : Resolution) (id : Nat) : Prop := id ∈ r.run.freshness

/-- The directory from which the names of a unit are looked up. -/
def directoryOf (r : Resolution) (id : Nat) : Option FilePath :=
  (r.program.units.get? id).bind BuildUnit.directory?

/-- A unit exports a name. -/
def Exports (r : Resolution) (id : Nat) (name : String) : Prop :=
  (r.program.units.get? id).any (·.hasSlot name)

/-- A definition that was found for a name denotes a unit: a shared table that lists the name, or a
unit that was met. -/
structure Denotes (r : Resolution) (name : String) (d : Definition) (id : Nat) : Prop where
  unit : d.kind.isSharedTable = false → r.program.units.findMatch name d.kind d.timestamp = some id
  met : d.kind.isSharedTable = false → r.Met id
  table : d.kind.isSharedTable → r.program.units.findMatch (tableName d.kind) d.kind 0 = some id
  listed : d.kind.isSharedTable → r.Exports id name

/-- What a lookup from a directory says that a name stands for. -/
inductive Stands (w : World) (r : Resolution) (directory : Option FilePath) (name : String) :
    Target → Prop where
  | unknown (hunknown : ¬ w.lookup.Knows directory name) : Stands w r directory name .unresolved
  | undefined (hnone : w.lookup.find name directory = none) : Stands w r directory name .unresolved
  | defined {d : Definition} {id : Nat} (hknown : w.lookup.Knows directory name)
      (hfind : w.lookup.find name directory = some d) (hdenotes : r.Denotes name d id) :
      Stands w r directory name (.unit id)

/-- What a name of a unit means that it does not bind in its scopes. This is said without the caches
    of the run that looks the name up: it is the unit itself if it exports the name, or else the
    unit denoted by the definition that the lookup finds. -/
inductive Means (w : World) (r : Resolution) (id : Nat) (name : String) : Target → Prop where
  | own (hown : r.Exports id name) : Means w r id name (.unit id)
  | foreign {t : Target} (hown : ¬ r.Exports id name)
      (hstands : Stands w r (r.directoryOf id) name t) : Means w r id name t

/-- What is denoted is a unit of the kind of the definition. -/
theorem Denotes.exists_unit (h : r.Denotes name d id) :
    ∃ u, r.program.units.get? id = some u ∧ u.kind.tag = d.kind.tag := by
  cases htable : d.kind.isSharedTable with
  | false =>
    obtain ⟨u, hu, _, hid⟩ := Catalog.describes_of_findMatch (h.unit htable)
    exact ⟨u, hu, congrArg Identity.tag hid⟩
  | true =>
    obtain ⟨u, hu, _, hid⟩ := Catalog.describes_of_findMatch (h.table htable)
    exact ⟨u, hu, congrArg Identity.tag hid⟩

/-- A unit may import a name from where the name means something. -/
theorem Means.mayTake {u : BuildUnit} (h : Means w r id name t)
    (hget : r.program.units.get? id = some u) (htable : u.kind.isSharedTable = false) :
    r.program.MayTake id t name where
  taker := ⟨u, hget, htable⟩
  target other heq := by
    cases h with
    | own => cases heq; exact Catalog.lt_size_of_get? hget
    | foreign _ hstands =>
      cases hstands with
      | unknown => cases heq
      | undefined => cases heq
      | defined _ _ hdenotes =>
        cases heq
        obtain ⟨v, hv, _⟩ := hdenotes.exists_unit
        exact Catalog.lt_size_of_get? hv
  listed other v heq hv hshared := by
    cases h with
    | own =>
      cases heq
      rw [Option.some.inj (hget.symm.trans hv), hshared] at htable
      cases htable
    | foreign _ hstands =>
      cases hstands with
      | unknown => cases heq
      | undefined => cases heq
      | defined _ _ hdenotes =>
        cases heq
        obtain ⟨v', hv', htag⟩ := hdenotes.exists_unit
        obtain rfl := Option.some.inj (hv.symm.trans hv')
        have hlisted := hdenotes.listed (by rw [← UnitKind.isSharedTable_eq_of_tag htag, hshared])
        rwa [Exports, hv, Option.any_some] at hlisted
  foreign v hv hown hne := by
    cases h with
    | own => exact absurd rfl hne
    | foreign hnot => exact absurd (by rwa [Exports, hv, Option.any_some]) hnot

theorem Denotes.unique (h : r.Denotes name d id) (h' : r.Denotes name d' other)
    (heq : d.identity = d'.identity) : id = other := by
  have htag : d.kind.tag = d'.kind.tag := congrArg Identity.tag heq
  cases htable : d.kind.isSharedTable with
  | false =>
    have h' := h'.unit (by rw [← UnitKind.isSharedTable_eq_of_tag htag, htable])
    rw [← Catalog.findMatch_of_identity heq, h.unit htable] at h'
    exact Option.some.inj h'
  | true =>
    have h' := h'.table (by rw [← UnitKind.isSharedTable_eq_of_tag htag, htable])
    have hkind : d.kind = d'.kind := by
      generalize d.kind = a at htag htable
      generalize d'.kind = b at htag
      cases a <;> cases b <;> simp_all [UnitKind.tag, UnitKind.isSharedTable]
    rw [← hkind, h.table htable] at h'
    exact Option.some.inj h'

/-- A name stands for one thing from a directory, however that is spelled. -/
theorem Stands.unique {directory directory' : Option FilePath} (hl : w.lookup.IgnoresSpelling)
    (hkey : directory.map FilePath.key = directory'.map FilePath.key)
    (h : Stands w r directory name t) (h' : Stands w r directory' name t') : t = t' := by
  have hfind := hl.find_eq name hkey
  have hknows := hl.knows_iff name hkey
  cases h with
  | unknown hunknown =>
    cases h' with
    | unknown => rfl
    | undefined => rfl
    | defined hknown => exact absurd (hknows.2 hknown) hunknown
  | undefined hnone =>
    cases h' with
    | unknown => rfl
    | undefined => rfl
    | defined hknown hfind' => rw [hnone, hfind'] at hfind; cases hfind
  | defined hknown hfound hdenotes =>
    cases h' with
    | unknown hunknown => exact absurd (hknows.1 hknown) hunknown
    | undefined hnone => rw [hnone, hfound] at hfind; cases hfind
    | defined hknown' hfound' hdenotes' =>
      rw [hfound, hfound'] at hfind
      rw [hdenotes.unique hdenotes' (Option.some.inj hfind)]

/-- A name of a unit means one thing. -/
theorem Means.unique (hl : w.lookup.IgnoresSpelling) (h : Means w r id name t)
    (h' : Means w r id name t') : t = t' := by
  cases h with
  | own hown =>
    cases h' with
    | own => rfl
    | foreign hnot => exact absurd hown hnot
  | foreign hown hstands =>
    cases h' with
    | own hown' => exact absurd hown' hown
    | foreign _ hstands' => exact hstands.unique hl rfl hstands'

/-- One state comes later in a run than another: units grow, stay nodes and stay met. -/
structure Before (r s : Resolution) : Prop where
  units : r.program.units.Grows s.program.units
  node : ∀ id, r.program.graph.hasNode id → s.program.graph.hasNode id
  met : ∀ id, r.Met id → s.Met id

theorem Before.refl (r : Resolution) : r.Before r := ⟨.refl _, fun _ h => h, fun _ h => h⟩

theorem Before.trans {r₁ r₂ r₃ : Resolution} (h : r₁.Before r₂) (h' : r₂.Before r₃) :
    r₁.Before r₃ where
  units := h.units.trans h'.units
  node id hid := h'.node id (h.node id hid)
  met id hid := h'.met id (h.met id hid)

theorem directoryOf_of_grows (hgrows : r.program.units.Grows s.program.units)
    (hlt : id < r.program.units.size) : s.directoryOf id = r.directoryOf id := by
  obtain ⟨u, hu⟩ := Catalog.exists_get? hlt
  obtain ⟨v, hv, huv⟩ := hgrows id u hu
  simp only [directoryOf, hu, hv, Option.bind_some, BuildUnit.directory?, huv.kind]

theorem Before.directoryOf (h : r.Before s) (hlt : id < r.program.units.size) :
    s.directoryOf id = r.directoryOf id :=
  directoryOf_of_grows h.units hlt

theorem Denotes.mono (h : r.Before s) (hdenotes : r.Denotes name d id) : s.Denotes name d id where
  unit htable := h.units.findMatch (hdenotes.unit htable)
  met htable := h.met id (hdenotes.met htable)
  table htable := h.units.findMatch (hdenotes.table htable)
  listed htable := by
    obtain ⟨u, hu, _, hid⟩ := Catalog.describes_of_findMatch (hdenotes.table htable)
    obtain ⟨v, hv, huv⟩ := h.units id u hu
    have hlisted := hdenotes.listed htable
    have htag : u.kind.tag = d.kind.tag := congrArg Identity.tag hid
    simp only [Exports, hu, hv, Option.any_some, BuildUnit.hasSlot, List.contains_iff_mem]
      at hlisted ⊢
    exact huv.slots (by rw [UnitKind.isSharedTable_eq_of_tag htag, htable]) name hlisted

theorem Stands.mono {directory : Option FilePath} (h : r.Before s)
    (hstands : Stands w r directory name t) : Stands w s directory name t := by
  cases hstands with
  | unknown hunknown => exact .unknown hunknown
  | undefined hnone => exact .undefined hnone
  | defined hknown hfind hdenotes => exact .defined hknown hfind (hdenotes.mono h)

/-- A name means the same for the rest of the run, as long as the unit does not begin or cease to
export it. -/
theorem Means.mono (h : r.Before s) (hlt : id < r.program.units.size)
    (hexports : s.Exports id name ↔ r.Exports id name) (hmeans : Means w r id name t) :
    Means w s id name t := by
  cases hmeans with
  | own hown => exact .own (hexports.2 hown)
  | foreign hown hstands =>
    refine .foreign (fun hown' => hown (hexports.1 hown')) ?_
    rw [h.directoryOf hlt]
    exact hstands.mono h

end Resolution

end ScriptBuild
