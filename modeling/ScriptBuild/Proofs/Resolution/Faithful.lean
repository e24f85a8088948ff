import ScriptBuild.Proofs.Resolution.Reached

namespace ScriptBuild

/-- What the bodies of units say. The events of a body are determined by the name of its unit, by what
identifies the unit among those of that name, and by the time of its file. -/
abbrev Library := String → Identity → Nat → Except Fault (List Event)

namespace Program

variable {B : Library} {known : Definition → Prop} {awaited : Nat → Prop} {p q : Program} {id : Nat}
  {u v : BuildUnit} {only : Nat → Prop} {summary : Summary}

/-- What is recorded of a unit is what its body says: its slots, its global variables under the table
that holds them, and under any other targets the names that it refers to and does not export. -/
structure Tells (p : Program) (id : Nat) (u : BuildUnit) (summary : Summary) : Prop where
  slots : u.slots = summary.slots.foldl Summary.Progress.addName []
  globals : ∀ n, n ∈ summary.globals ↔ ∃ t, p.Takes id t n ∧ p.IsGlobal t
  names : ∀ n, (n ∈ summary.references.map (·.1) ∧ ¬ u.hasSlot n) ↔
    ∃ t, p.Takes id t n ∧ ¬ p.IsGlobal t
  table : ∀ t n, p.Takes id t n → p.IsGlobal t → ∃ table, t = .unit table ∧
    p.units.findMatch Resolution.globalsName .globals 0 = some table

/-- What is recorded of a unit is what the library has for it. -/
def Told (B : Library) (p : Program) (id : Nat) (u : BuildUnit) : Prop :=
  ∃ events, B u.name u.identity u.timestamp = .ok events ∧ p.Tells id u (.ofEvents events)

/-- A unit comes from a known definition, whose file was changed at the recorded time. -/
def Stems (known : Definition → Prop) (u : BuildUnit) : Prop :=
  u.kind.isFile → ∃ d, known d ∧ d.identity = u.identity ∧ d.timestamp = u.timestamp

/-- Units without code export nothing. -/
def Bare (p : Program) : Prop := ∀ id u, p.units.get? id = some u → u.kind.hasBody = false →
  u.kind.isSharedTable = false → u.slots = []

/-- A program records what the bodies of its units say, but for those that are about to be read. A
    body is looked at only when its unit is new or its file has changed; in every other run the
    names that were recorded are moved between targets, and no name is lost that way and none is
    added. -/
structure Faithful (B : Library) (known : Definition → Prop) (awaited : Nat → Prop) (p : Program) :
    Prop where
  linked : p.Linked
  permitted : p.Permitted
  bare : p.Bare
  idle : ∀ id u, p.units.get? id = some u → u.kind.hasBody = false → Resolution.Idle p id
  stems : ∀ id u, p.units.get? id = some u → Stems known u
  told : ∀ id u, p.units.get? id = some u → u.kind.hasBody → ¬ awaited id → p.Told B id u

theorem faithful_empty : Program.empty.Faithful B known awaited where
  linked := linked_empty
  permitted := permitted_empty
  bare id u hu := by cases hu
  idle id u hu := by cases hu
  stems id u hu := by cases hu
  told id u hu := by cases hu

theorem Faithful.mono {known' : Definition → Prop} (h : p.Faithful B known awaited)
    (hknown : ∀ d, known d → known' d) : p.Faithful B known' awaited where
  linked := h.linked
  permitted := h.permitted
  bare := h.bare
  idle := h.idle
  stems id u hu hfile := by
    obtain ⟨d, hd, heq⟩ := h.stems id u hu hfile
    exact ⟨d, hknown d hd, heq⟩
  told := h.told

/-- What is recorded of a unit tells the same as long as its slots, its imports and the table of
global variables are the same. -/
theorem Tells.congr (h : p.Tells id u summary) (hslots : v.slots = u.slots)
    (htakes : ∀ t n, q.Takes id t n ↔ p.Takes id t n)
    (hglobal : ∀ t n, p.Takes id t n → (q.IsGlobal t ↔ p.IsGlobal t))
    (htable : ∀ table, p.units.findMatch Resolution.globalsName .globals 0 = some table →
      q.units.findMatch Resolution.globalsName .globals 0 = some table) : q.Tells id v summary where
  slots := hslots.trans h.slots
  globals n := by
    rw [h.globals]
    refine exists_congr fun t => ?_
    rw [htakes]
    exact and_congr_right fun ht => (hglobal t n ht).symm
  names n := by
    rw [BuildUnit.hasSlot, hslots, ← BuildUnit.hasSlot, h.names]
    refine exists_congr fun t => ?_
    rw [htakes]
    exact and_congr_right fun ht => not_congr (hglobal t n ht).symm
  table t n ht hyes := by
    rw [htakes] at ht
    obtain ⟨table, heq, hmatch⟩ := h.table t n ht ((hglobal t n ht).1 hyes)
    exact ⟨table, heq, htable table hmatch⟩

theorem Told.mono (h : p.Told B id u) (hlinked : p.Linked) (htouches : p.Touches only q)
    (hid : ¬ only id) (hu : p.units.get? id = some u) (hv : q.units.get? id = some v)
    (htable : u.kind.isSharedTable = false) (htime : v.timestamp = u.timestamp) :
    q.Told B id v := by
  obtain ⟨events, hevents, htells⟩ := h
  have huv := htouches.units.becomes hu hv
  refine ⟨events, by rw [huv.name, huv.identity, htime, hevents], ?_⟩
  refine htells.congr (htouches.slots id u v hid hu hv htable) (fun t n => ?_) (fun t n ht => ?_)
    fun table => htouches.units.findMatch
  · rw [Takes, htouches.imports id hid, Takes]
  · exact Resolution.isGlobal_iff_of_takes htouches.units (fun _ _ => hlinked.lt_of_takes) ht

/-- A change of one unit that gives no slot to a unit without code keeps units without code bare. -/
theorem Bare.modify {f : BuildUnit → BuildUnit} {graph : Digraph}
    {imports : Std.ExtTreeMap Nat Imports} (h : p.Bare) (id : Nat)
    (hkind : ∀ u, (f u).kind = u.kind)
    (hslots : ∀ u, p.units.get? id = some u → u.kind.hasBody = false →
      u.kind.isSharedTable = false → u.slots = [] → (f u).slots = []) :
    Bare ⟨p.units.modify id f, graph, imports⟩ := by
  intro other v hv hbody htable
  rw [Catalog.get?_modify_eq] at hv
  split at hv
  · next heq =>
    subst heq
    obtain ⟨u, hu, rfl⟩ := Option.map_eq_some_iff.1 hv
    dsimp only at hbody htable
    rw [hkind] at hbody htable
    exact hslots u hu hbody htable (h _ u hu hbody htable)
  · exact h other v hv hbody htable

/-- One change of a program keeps units without code bare. -/
theorem Bare.change (h : p.Bare) (hchange : p.Change id q) : q.Bare := by
  cases hchange with
  | grow hgrow =>
    cases hgrow with
    | insert name kind timestamp body hnew =>
      intro other v hv hbody htable
      rw [insertUnit, Catalog.get?_insert] at hv
      split at hv
      · obtain rfl := Option.some.inj hv
        rfl
      · exact h other v hv hbody htable
    | slot other u slot hget hshared =>
      refine h.modify other (fun u => BuildUnit.becomes_addSlot.kind) fun v hv _ htable => ?_
      rw [Option.some.inj (hv.symm.trans hget), hshared] at htable
      cases htable
    | stamp => exact h.modify _ (fun _ => rfl) fun _ _ _ _ hnone => hnone
    | attach => exact h.modify _ (fun _ => rfl) fun _ _ _ _ hnone => hnone
    | node => exact h
  | clear => exact h.modify id (fun _ => rfl) fun _ _ _ _ _ => rfl
  | exports u slots hget hbody =>
    refine h.modify id (fun u => (BuildUnit.becomes_foldl_addSlot slots u).kind) fun v hv hnone => ?_
    rw [Option.some.inj (hv.symm.trans hget), hbody] at hnone
    cases hnone
  | record => rw [Bare, units_recordImport]; exact h
  | remove => rw [Bare, units_removeImport]; exact h

/-- Units without code are bare whatever becomes of the program. -/
theorem Bare.evolves (h : p.Bare) (hevolves : p.Evolves q) : q.Bare := by
  induction hevolves with
  | refl => exact h
  | tail _ hchange ih =>
    obtain ⟨id, hchange⟩ := hchange
    exact ih.change hchange

/-- What is kept of a program has the same global variables. -/
theorem isGlobal_kept {t : Target} : p.kept.IsGlobal t ↔ p.IsGlobal t := by
  constructor
  · rintro ⟨other, v, rfl, hv, hkind⟩
    rw [get?_kept] at hv
    obtain ⟨u, hu, rfl⟩ := Option.map_eq_some_iff.1 hv
    exact ⟨other, u, rfl, hu, hkind⟩
  · rintro ⟨other, u, rfl, hu, hkind⟩
    exact ⟨other, u.kept, rfl, by rw [get?_kept, hu, Option.map_some], hkind⟩

/-- Saving a program and restoring it keeps what is recorded. -/
theorem Faithful.restore_save (h : p.Faithful B known awaited) :
    (Program.restore p.save).Faithful B known awaited := by
  have hback {id : Nat} {v : BuildUnit} (hv : p.kept.units.get? id = some v) :
      ∃ u, p.units.get? id = some u ∧ v = u.kept := by
    rw [get?_kept] at hv
    obtain ⟨u, hu, rfl⟩ := Option.map_eq_some_iff.1 hv
    exact ⟨u, hu, rfl⟩
  rw [h.linked.restore_save]
  split
  · refine ⟨h.linked.kept, h.permitted.kept, fun id v hv => ?_, fun id v hv => ?_, fun id v hv => ?_,
      fun id v hv hbody hnot => ?_⟩ <;> obtain ⟨u, hu, rfl⟩ := hback hv
    · exact h.bare id u hu
    · exact h.idle id u hu
    · exact h.stems id u hu
    · obtain ⟨events, hevents, htells⟩ := h.told id u hu hbody hnot
      refine ⟨events, hevents, htells.congr rfl (fun _ _ => .rfl) (fun _ _ _ => isGlobal_kept) ?_⟩
      intro table htable
      rwa [findMatch_kept]
  · exact faithful_empty

end Program

/-- The directory from which the names of the unit of a definition are looked up. -/
def Definition.directory? (d : Definition) : Option FilePath := d.kind.path?.bind FilePath.parent?

/-- A unit that is a file is no shared table. -/
theorem UnitKind.isSharedTable_of_isFile {kind : UnitKind} (hfile : kind.isFile) :
    kind.isSharedTable = false := by
  cases kind <;> simp_all [UnitKind.isFile, UnitKind.path?, UnitKind.isSharedTable]

namespace Resolution

variable {B : Library} {past offered : Definition → Prop} {w : World} {r r₀ s : Resolution}
  {id other : Nat} {name n slot : String} {t : Target} {d : Definition} {kind : UnitKind}
  {u v : BuildUnit} {only : Nat → Prop} {directory : Option FilePath} {span : Span}
  {slots globals names : List String} {summary : Summary} {work : Work} {later : List Work}
  {fuel : Nat} {todo : List (Target × String)} {x : Target × String} {changed : Bool}

/-- A world in which a program may be analyzed whose units come from past definitions. Files get no
older and their bodies are those of the library, nothing is found to be a table of global variables,
and no name that a body refers to without exporting it is found in the very unit of the body. -/
structure Dependable (B : Library) (past : Definition → Prop) (w : World)
    (offered : Definition → Prop) : Prop extends Steady w offered where
  later : ∀ d d', past d → offered d' → d.kind.isFile → d.identity = d'.identity →
    d.timestamp ≤ d'.timestamp
  bodies : ∀ name directory d, w.lookup.find name directory = some d → d.kind.hasBody →
    w.events d.body = B name d.identity d.timestamp
  globals : ∀ d, w.lookup.Offers d → d.kind ≠ .globals
  foreign : ∀ name directory d events, w.lookup.find name directory = some d →
    w.lookup.Knows directory name → directory.map FilePath.key = d.directory?.map FilePath.key →
    B name d.identity d.timestamp = .ok events →
    name ∈ (Summary.ofEvents events).references.map (·.1) → name ∈ (Summary.ofEvents events).slots

/-- Definitions that are known: those from the past and those on offer. -/
abbrev Seen (past offered : Definition → Prop) (d : Definition) : Prop := past d ∨ offered d

/-- The body of a unit can be read and will say what the library has. -/
def Legible (B : Library) (w : World) (u : BuildUnit) : Prop :=
  u.kind.hasBody → ∃ body, u.body = some body ∧ w.events body = B u.name u.identity u.timestamp

/-- A unit waits to be read. -/
def Awaits (r : Resolution) (id : Nat) : Prop := .read id ∈ r.run.waiting

/-- A unit waits to be read, and is as the library and the known definitions have it. -/
structure Primed (B : Library) (w : World) (known : Definition → Prop) (r : Resolution) (id : Nat)
    (u : BuildUnit) : Prop where
  awaits : r.Awaits id
  legible : Legible B w u
  stems : Program.Stems known u

/-- What handling a unit does to the records of all of them: one that was met keeps its time and its
body and is not read once more; one that was not met, or not known, may have to be read. -/
structure Meets (B : Library) (w : World) (known : Definition → Prop) (only : Nat → Prop)
    (r s : Resolution) : Prop where
  before : r.Before s
  waits : ∀ work ∈ r.run.waiting, work ∈ s.run.waiting
  slots : ∀ id u v, ¬ only id → r.program.units.get? id = some u → s.program.units.get? id = some v →
    u.kind.isSharedTable = false → v.slots = u.slots
  kept : ∀ id u v, r.program.units.get? id = some u → s.program.units.get? id = some v →
    u.kind.isSharedTable = false →
    (v.timestamp = u.timestamp ∧ (u.body.isSome → v.body = u.body) ∧ (s.Awaits id → r.Awaits id)) ∨
      (¬ r.Met id ∧ Primed B w known s id v)
  new : ∀ id v, r.program.units.get? id = none → s.program.units.get? id = some v →
    v.kind.isSharedTable = false → Primed B w known s id v

section

variable {known : Definition → Prop}

theorem Legible.congr (h : Legible B w u) (hbecomes : u.Becomes v)
    (htime : v.timestamp = u.timestamp) (hbody : u.body.isSome → v.body = u.body) :
    Legible B w v := by
  intro hcode
  obtain ⟨body, hwhere, hevents⟩ := h (by rwa [← hbecomes.kind])
  refine ⟨body, ?_, by rw [hbecomes.name, hbecomes.identity, htime, hevents]⟩
  rw [hbody (by rw [hwhere]; rfl), hwhere]

theorem Stems.congr (h : Program.Stems known u) (hbecomes : u.Becomes v)
    (htime : v.timestamp = u.timestamp) : Program.Stems known v := by
  intro hfile
  obtain ⟨d, hd, hidentity, htime'⟩ := h (by rwa [← hbecomes.kind])
  exact ⟨d, hd, by rw [hbecomes.identity, hidentity], by rw [htime, htime']⟩

namespace Meets

/-- A step that keeps the times, bodies and slots of all units, and lets none of them wait, meets
nothing. -/
theorem of_same (hbefore : r.Before s) (hwaiting : s.run.waiting = r.run.waiting)
    (hsame : ∀ id v, s.program.units.get? id = some v → v.kind.isSharedTable = false →
      ∃ u, r.program.units.get? id = some u ∧ v.timestamp = u.timestamp ∧
        (u.body.isSome → v.body = u.body) ∧ (¬ only id → v.slots = u.slots)) :
    Meets B w known only r s := by
  have hpick {id : Nat} {u v : BuildUnit} (hu : r.program.units.get? id = some u)
      (hv : s.program.units.get? id = some v) (htable : u.kind.isSharedTable = false) :
      v.timestamp = u.timestamp ∧ (u.body.isSome → v.body = u.body) ∧
        (¬ only id → v.slots = u.slots) := by
    obtain ⟨u', hu', hrest⟩ := hsame id v hv
      (by rw [(hbefore.units.becomes hu hv).kind, htable])
    rwa [Option.some.inj (hu.symm.trans hu')]
  refine ⟨hbefore, by rw [hwaiting]; exact fun _ => id, fun id u v hid hu hv htable => ?_,
    fun id u v hu hv htable => ?_, fun id v hnone hv htable => ?_⟩
  · exact (hpick hu hv htable).2.2 hid
  · obtain ⟨htime, hbody, _⟩ := hpick hu hv htable
    exact .inl ⟨htime, hbody, fun hawaits => by rwa [Awaits, ← hwaiting]⟩
  · obtain ⟨u, hu, _⟩ := hsame id v hv htable
    rw [hnone] at hu
    cases hu

/-- A step that leaves the units as they are, and lets none of them wait, meets nothing. -/
theorem of_units (hbefore : r.Before s) (hwaiting : s.run.waiting = r.run.waiting)
    (hunits : s.program.units = r.program.units) : Meets B w known only r s :=
  of_same hbefore hwaiting fun id v hv _ =>
    ⟨v, by rwa [← hunits], rfl, fun _ => rfl, fun _ => rfl⟩

theorem refl (r : Resolution) : Meets B w known only r r := of_units (.refl r) rfl rfl

/-- A unit that waits to be read and is legible still does and is after a step. -/
theorem primed (h : Meets B w known only r s) (hprimed : Primed B w known r id u)
    (hu : r.program.units.get? id = some u) (hv : s.program.units.get? id = some v)
    (htable : u.kind.isSharedTable = false) : Primed B w known s id v := by
  rcases h.kept id u v hu hv htable with ⟨htime, hbody, _⟩ | ⟨_, hprimed'⟩
  · have hbecomes := h.before.units.becomes hu hv
    exact ⟨h.waits _ hprimed.awaits, hprimed.legible.congr hbecomes htime hbody,
      Stems.congr hprimed.stems hbecomes htime⟩
  · exact hprimed'

/-- What two steps do to the records, one after the other, is again what handling does. -/
theorem trans {r₁ r₂ r₃ : Resolution} (h : Meets B w known only r₁ r₂)
    (h' : Meets B w known only r₂ r₃) : Meets B w known only r₁ r₃ where
  before := h.before.trans h'.before
  waits work hwork := h'.waits work (h.waits work hwork)
  slots id u v hid hu hv htable := by
    obtain ⟨m, hm, hum⟩ := h.before.units id u hu
    rw [h'.slots id m v hid hm hv (by rw [hum.kind, htable]), h.slots id u m hid hu hm htable]
  kept id u v hu hv htable := by
    obtain ⟨m, hm, hum⟩ := h.before.units id u hu
    have htable' : m.kind.isSharedTable = false := by rw [hum.kind, htable]
    rcases h.kept id u m hu hm htable with ⟨htime, hbody, hawaits⟩ | ⟨hmet, hprimed⟩
    · rcases h'.kept id m v hm hv htable' with ⟨htime', hbody', hawaits'⟩ | ⟨hmet, hprimed⟩
      · refine .inl ⟨htime'.trans htime, fun hsome => ?_, fun h => hawaits (hawaits' h)⟩
        rw [hbody' (hum.body hsome), hbody hsome]
      · exact .inr ⟨fun hid => hmet (h.before.met id hid), hprimed⟩
    · exact .inr ⟨hmet, h'.primed hprimed hm hv htable'⟩
  new id v hnone hv htable := by
    cases hm : r₂.program.units.get? id with
    | none => exact h'.new id v hm hv htable
    | some m =>
      have htable' : m.kind.isSharedTable = false := by
        rw [← (h'.before.units.becomes hm hv).kind, htable]
      exact h'.primed (h.new id m hnone hm htable') hm hv htable'

theorem mono {only' : Nat → Prop} (h : Meets B w known only r s)
    (honly : ∀ id, only id → only' id) : Meets B w known only' r s :=
  ⟨h.before, h.waits, fun id u v hid => h.slots id u v fun hyes => hid (honly id hyes), h.kept, h.new⟩

end Meets

/-- Adding a slot to a shared table leaves the records of units as they are. -/
theorem Underway.meets_growTable (h : Underway w offered r) (slot : String) (htable : r.IsTable id) :
    Meets B w known only r (r.growTable id slot) := by
  have hbefore := (h.growTable slot htable).2.before
  refine .of_same hbefore (by rw [growTable_run]) fun other v hv hnot => ?_
  rw [get?_growTable] at hv
  split at hv
  · next heq =>
    subst heq
    obtain ⟨u, hu, hshared⟩ := htable
    obtain rfl : u.addSlot slot = v := by simpa [hu] using hv
    rw [BuildUnit.becomes_addSlot.kind, hshared] at hnot
    cases hnot
  · exact ⟨v, hv, rfl, fun _ => rfl, fun _ => rfl⟩

/-- Finding or making a shared table leaves the records of units as they are. -/
theorem Underway.meets_tableFor (h : Underway w offered r) (slot : String)
    (htable : kind.isSharedTable) : Meets B w known only r (r.tableFor slot kind).1 := by
  cases hmatch : r.program.units.findMatch (tableName kind) kind 0 with
  | some id =>
    rw [tableFor_of_some hmatch]
    obtain ⟨u, hu, _, hid⟩ := Catalog.describes_of_findMatch hmatch
    refine h.meets_growTable slot ⟨u, hu, ?_⟩
    rw [UnitKind.isSharedTable_eq_of_tag (congrArg Identity.tag hid), htable]
  | none =>
    rw [tableFor_of_none hmatch]
    obtain ⟨hmade, hlooked⟩ := h.makeTable htable hmatch
    refine .trans (.of_same hlooked.before rfl fun other v hv hnot => ?_)
      (hmade.meets_growTable slot (isTable_makeTable htable))
    have hv : (r.program.insertUnit (tableName kind) kind 0 (some .table)).units.get? other = some v :=
      hv
    rw [Program.insertUnit, Catalog.get?_insert] at hv
    split at hv
    · obtain rfl := Option.some.inj hv
      rw [htable] at hnot
      cases hnot
    · exact ⟨v, hv, rfl, fun _ => rfl, fun _ => rfl⟩

/-- A unit whose definition is newer is met for the first time, and waits to be read. -/
theorem meets_refresh_of_outdated (hbefore : r.Before (r.refresh id d)) (hnewer : r.Outdated id d)
    (hknown : known d) (hget : r.program.units.get? id = some u) (hidentity : u.identity = d.identity)
    (hmet : ¬ r.Met id)
    (hbody : d.kind.hasBody → w.events d.body = B u.name d.identity d.timestamp) :
    Meets B w known only r (r.refresh id d) := by
  rw [refresh_of_outdated hnewer] at hbefore ⊢
  obtain ⟨u', hu', hfile, _⟩ := hnewer
  obtain rfl := Option.some.inj (hget.symm.trans hu')
  have hother {other : Nat} {v : BuildUnit} (hne : id ≠ other)
      (hv : (r.program.units.modify id fun u =>
        { u with timestamp := d.timestamp, body := some d.body }).get? other = some v) :
      r.program.units.get? other = some v := by rwa [Catalog.get?_modify_of_ne hne] at hv
  have hstamped : ({ u with timestamp := d.timestamp, body := some d.body } : BuildUnit).identity =
      d.identity := by
    rw [← hidentity]
    simp [BuildUnit.identity, UnitKind.identity, UnitKind.isEphemeral_of_isFile hfile]
  refine ⟨hbefore, fun work hwork => List.mem_append_left _ hwork, fun other u' v _ hu' hv _ => ?_,
    fun other u' v hu' hv _ => ?_, fun other v hnone hv _ => ?_⟩
  · by_cases heq : id = other
    · subst heq
      rw [Catalog.get?_modify_of_get? hu' rfl] at hv
      obtain rfl := Option.some.inj hv
      rfl
    · rw [Option.some.inj (hu'.symm.trans (hother heq hv))]
  · by_cases heq : id = other
    · subst heq
      rw [Catalog.get?_modify_of_get? hget rfl] at hv
      obtain rfl := Option.some.inj hv
      refine .inr ⟨hmet, List.mem_append_right _ (List.mem_singleton_self _), fun hcode => ?_,
        fun _ => ⟨d, hknown, hstamped.symm, rfl⟩⟩
      refine ⟨d.body, rfl, ?_⟩
      rw [hstamped]
      refine hbody ?_
      rwa [← UnitKind.hasBody_eq_of_tag (congrArg Identity.tag hidentity)]
    · obtain rfl := Option.some.inj (hu'.symm.trans (hother heq hv))
      refine .inl ⟨rfl, fun _ => rfl, fun hawaits => ?_⟩
      rcases List.mem_append.1 hawaits with hold | hnew
      · exact hold
      · exact absurd (Work.read.inj (List.mem_singleton.1 hnew)).symm heq
  · by_cases heq : id = other
    · rw [← heq, hget] at hnone
      cases hnone
    · rw [hother heq hv] at hnone
      cases hnone

/-- A unit whose definition is not newer is met for the first time, and stays as it is. -/
theorem meets_refresh_of_not_outdated (hbefore : r.Before (r.refresh id d))
    (hnot : ¬ r.Outdated id d) : Meets B w known only r (r.refresh id d) := by
  rw [refresh_of_not_outdated hnot] at hbefore ⊢
  have hsame {other : Nat} {v : BuildUnit} (hv : (r.program.units.modify id fun u =>
      { u with body := u.body.or (some d.body) }).get? other = some v) :
      ∃ u, r.program.units.get? other = some u ∧ v.timestamp = u.timestamp ∧
        (u.body.isSome → v.body = u.body) ∧ v.slots = u.slots := by
    rw [Catalog.get?_modify_eq] at hv
    split at hv
    · obtain ⟨u', hu', rfl⟩ := Option.map_eq_some_iff.1 hv
      exact ⟨u', hu', rfl, Option.or_of_isSome, rfl⟩
    · exact ⟨v, hv, rfl, fun _ => rfl, rfl⟩
  refine ⟨hbefore, fun work hwork => List.mem_append_left _ hwork, fun other u' v _ hu' hv _ => ?_,
    fun other u' v hu' hv _ => ?_, fun other v hnone hv _ => ?_⟩
  all_goals obtain ⟨u'', hu'', htime, hkept, hslots⟩ := hsame hv
  · rwa [Option.some.inj (hu'.symm.trans hu'')]
  · obtain rfl := Option.some.inj (hu'.symm.trans hu'')
    refine .inl ⟨htime, hkept, fun hawaits => ?_⟩
    exact (List.mem_append.1 hawaits).resolve_right fun hnew => by cases List.mem_singleton.1 hnew
  · rw [hu''] at hnone
    cases hnone

/-- A unit that is met for the first time waits to be read only if its definition is newer. -/
theorem Underway.meets_refresh (h : Underway w offered r) (hsame : SameTimes offered)
    (hoffered : offered d) (hknown : known d) (hget : r.program.units.get? id = some u)
    (hidentity : u.identity = d.identity) (htable : u.kind.isSharedTable = false)
    (hmet : ¬ r.Met id)
    (hbody : d.kind.hasBody → w.events d.body = B u.name d.identity d.timestamp) :
    Meets B w known only r (r.refresh id d) := by
  have hbefore := (h.refresh hsame hoffered hget hidentity htable hmet).2.1.before
  by_cases hnewer : r.Outdated id d
  · exact meets_refresh_of_outdated hbefore hnewer hknown hget hidentity hmet hbody
  · exact meets_refresh_of_not_outdated hbefore hnewer

/-- A unit that is made for a definition waits to be read, and its body is that of the library. -/
theorem meets_makeUnit (hbefore : r.Before (r.makeUnit name d)) (hknown : known d)
    (hbody : d.kind.hasBody → w.events d.body = B name d.identity d.timestamp) :
    Meets B w known only r (r.makeUnit name d) := by
  have hunits {id : Nat} {v : BuildUnit} (hv : (r.program.insertUnit name d.kind d.timestamp
      (some d.body)).units.get? id = some v) : r.program.units.get? id = some v ∨
        id = r.program.units.size ∧
          ⟨name, r.program.units.nextOverload name, d.kind, d.timestamp, some d.body, []⟩ = v := by
    rw [Program.insertUnit, Catalog.get?_insert] at hv
    split at hv
    · next heq => exact .inr ⟨heq, Option.some.inj hv⟩
    · exact .inl hv
  have hold {id : Nat} {u v : BuildUnit} (hu : r.program.units.get? id = some u)
      (hv : (r.program.insertUnit name d.kind d.timestamp (some d.body)).units.get? id = some v) :
      v = u := by
    rcases hunits hv with hv | ⟨rfl, _⟩
    · exact Option.some.inj (hv.symm.trans hu)
    · rw [Catalog.get?_size] at hu
      cases hu
  refine ⟨hbefore, fun work hwork => List.mem_append_left _ hwork,
    fun other u v _ hu hv _ => by rw [hold hu hv], fun other u v hu hv _ => ?_,
    fun other v hnone hv _ => ?_⟩
  · obtain rfl := hold hu hv
    refine .inl ⟨rfl, fun _ => rfl, fun hawaits => ?_⟩
    rcases List.mem_append.1 hawaits with hin | hnew
    · exact hin
    · have heq : other = r.program.units.size := Work.read.inj (List.mem_singleton.1 hnew)
      have hlt := Catalog.lt_size_of_get? hu
      omega
  · rcases hunits hv with hv | ⟨rfl, rfl⟩
    · rw [hv] at hnone
      cases hnone
    · exact ⟨List.mem_append_right _ (List.mem_singleton_self _),
        fun hcode => ⟨d.body, rfl, hbody hcode⟩, fun _ => ⟨d, hknown, rfl, rfl⟩⟩

/-- A unit that is met with a definition, new or newer than recorded, waits to be read, and its body
is that of the library. -/
theorem Underway.meets_unitFor (h : Underway w offered r) (hsame : SameTimes offered) (name : String)
    (hoffered : offered d) (hknown : known d)
    (hbody : d.kind.hasBody → w.events d.body = B name d.identity d.timestamp) :
    Meets B w known only r (r.unitFor name d).1 := by
  have hbefore := (h.unitFor hsame name hoffered).2.1.before
  have hunit := unitOutcome r name d
  generalize r.unitFor name d = k at hunit hbefore ⊢
  cases hunit with
  | table htable => exact h.meets_tableFor name htable
  | made => exact meets_makeUnit hbefore hknown hbody
  | met => exact .refl r
  | refreshed htable hmatch hmet =>
    obtain ⟨u, hu, hname, hidentity⟩ := Catalog.describes_of_findMatch hmatch
    have hshared : u.kind.isSharedTable = false := by
      rw [UnitKind.isSharedTable_eq_of_tag (congrArg Identity.tag hidentity), htable]
    exact h.meets_refresh hsame hoffered hknown hu hidentity hshared hmet (by rwa [hname])

end

/-- A lookup meets at most the unit that the name is resolved to. -/
theorem Underway.meets_lookupExternal (h : Underway w offered r) (hw : Dependable B past w offered)
    (id : Nat) (name : String) :
    Meets B w (Seen past offered) only r (r.lookupExternal w id name).1 := by
  have hasks := h.isKnown hw.spelling (r.directoryOf id) name
  have hlookup := lookupOutcome w r id name
  generalize r.lookupExternal w id name = k at hlookup ⊢
  cases hlookup with
  | own | recalled => exact .refl r
  | missing _ _ hasked =>
    rw [hasked] at hasks
    exact .of_units hasks.2.1.before rfl rfl
  | @found names namesIn d _ _ hasked hfind =>
    rw [hasked] at hasks
    obtain ⟨hs, hlooked, -⟩ := hasks
    have hquiet : Meets B w (Seen past offered) only r (r.learn names namesIn) :=
      .of_units hlooked.before rfl rfl
    have hoffered := hw.offers d ⟨name, _, hfind⟩
    refine hquiet.trans ((hs.meets_unitFor hw.times name hoffered (.inr hoffered)
      (hw.bodies name _ d hfind)).trans ?_)
    exact .of_units (before_of_eq rfl rfl) rfl rfl

/-- A change of imports keeps what is recorded of all units themselves. -/
theorem Agrees.meets {known : Definition → Prop} (h : r.Agrees s)
    (hunits : s.program.units = r.program.units)
    (hnode : ∀ a, r.program.graph.hasNode a → s.program.graph.hasNode a) :
    Meets B w known only r s :=
  .of_units ⟨by rw [hunits]; exact .refl _, hnode, fun id hmet => (h.met id).2 hmet⟩ h.waiting hunits

/-- Declaring a global variable leaves the records of other units as they are. -/
theorem Underway.meets_declareGlobal {known : Definition → Prop} (h : Underway w offered r)
    (id : Nat) (n : String) : Meets B w known only r (r.declareGlobal id n) := by
  have htable : Meets B w known only r (r.tableFor n .globals).1 := h.meets_tableFor n rfl
  rw [declareGlobal_eq]
  generalize r.tableFor n .globals = k at htable ⊢
  refine htable.trans (Agrees.meets ⟨fun _ => .rfl, rfl, rfl, rfl, rfl, rfl⟩ ?_ fun a ha => ?_)
  · exact Program.units_recordImport
  · exact Program.hasNode_recordImport.2 (.inl ha)

/-- Resolving a reference meets at most the unit that it is resolved to. -/
theorem Underway.meets_importReference (h : Underway w offered r) (hw : Dependable B past w offered)
    (id : Nat) (reference : String × Span) :
    Meets B w (Seen past offered) only r (r.importReference w id reference) := by
  refine (h.meets_lookupExternal hw id reference.1).trans (Agrees.meets
    (.of_run (importReference_run w r id reference)) (importReference_units w r id reference)
    fun a ha => ?_)
  rw [importReference_program]
  exact Program.hasNode_recordImport.2 (.inl ha)

/-- Steps that each keep what holds, one after the other. -/
theorem Meets.foldl {known : Definition → Prop} {α : Type} {step : Resolution → α → Resolution}
    (holds : Resolution → Prop) (items : List α) (h : holds r)
    (hstep : ∀ r x, holds r → holds (step r x) ∧ Meets B w known only r (step r x)) :
    Meets B w known only r (items.foldl step r) := by
  induction items generalizing r with
  | nil => exact .refl r
  | cons x items ih =>
    obtain ⟨hnext, hmeets⟩ := hstep r x h
    exact hmeets.trans (ih hnext)

theorem foldl_addSlot_eq (slots : List String) (u : BuildUnit) :
    ∃ all, slots.foldl BuildUnit.addSlot u = { u with slots := all } := by
  induction slots generalizing u with
  | nil => exact ⟨u.slots, rfl⟩
  | cons slot slots ih =>
    rw [List.foldl_cons, BuildUnit.addSlot]
    split
    · exact ih u
    · obtain ⟨all, hall⟩ := ih { u with slots := u.slots ++ [slot] }
      exact ⟨all, hall⟩

/-- Opening a body changes the slots of its unit only. -/
theorem meets_openBody {known : Definition → Prop} (h : Underway w offered r) (slots : List String)
    (hget : r.program.units.get? id = some u) (hbody : u.kind.hasBody) :
    Meets B w known (· = id) r (r.openBody id slots) := by
  refine .of_same (h.openBody slots hget hbody).works.before rfl fun other v hv _ => ?_
  have hv : ((r.program.clearBody id).units.modify id fun u =>
    slots.foldl BuildUnit.addSlot u).get? other = some v := hv
  rw [Catalog.get?_modify fun _ => (BuildUnit.becomes_foldl_addSlot slots _).name,
    Program.clearBody, Catalog.get?_modify_eq] at hv
  split at hv
  · next heq =>
    subst heq
    obtain ⟨m, hm, rfl⟩ := Option.map_eq_some_iff.1 hv
    obtain ⟨u', hu', rfl⟩ := Option.map_eq_some_iff.1 hm
    obtain ⟨all, hall⟩ := foldl_addSlot_eq slots { u' with slots := [] }
    rw [hall]
    exact ⟨u', hu', rfl, fun _ => rfl, fun hne => absurd rfl hne⟩
  · exact ⟨v, hv, rfl, fun _ => rfl, fun _ => rfl⟩

/-- Reading a body changes the slots of its unit only, and meets what its references are resolved
to. -/
theorem Underway.meets_readBody (h : Underway w offered r) (hw : Dependable B past w offered)
    (hread : (r.readBody w id).2 = none) :
    Meets B w (Seen past offered) (· = id) r (r.readBody w id).1 := by
  have houtcome := readOutcome w r id
  generalize r.readBody w id = k at houtcome hread ⊢
  cases houtcome with
  | bodiless => exact .refl r
  | faulty => cases hread
  | @read u body events hget hhas =>
    have hopen := h.openBody (Summary.ofEvents events).slots hget hhas
    have hdeclared := hopen.foldl_declareGlobal (Summary.ofEvents events).globals
    have hdeclare : Meets B w (Seen past offered) (· = id)
        (r.openBody id (Summary.ofEvents events).slots) _ :=
      .foldl (fun r' => ∃ globals, Reading w offered id (Summary.ofEvents events).slots r r'
        globals []) (Summary.ofEvents events).globals ⟨_, hopen⟩ fun r' n ⟨_, hr'⟩ =>
        ⟨⟨_, hr'.declareGlobal⟩, hr'.underway.meets_declareGlobal id n⟩
    refine (((meets_openBody h _ hget hhas).trans hdeclare).trans (.foldl
      (fun r' => ∃ names, Reading w offered id (Summary.ofEvents events).slots r r'
        ([] ++ (Summary.ofEvents events).globals) names) (Summary.ofEvents events).references
        ⟨_, hdeclared⟩ fun r' x ⟨_, hr'⟩ => ⟨⟨_, hr'.importReference hw.toSteady⟩,
          hr'.underway.meets_importReference hw id x⟩)).trans ?_
    exact .of_units (before_of_eq rfl rfl) rfl rfl

/-- Looking up one recorded import again changes the slots of no unit. -/
theorem Underway.meets_recheckImport (h : Underway w offered r) (hw : Dependable B past w offered)
    (id : Nat) (changed : Bool) (x : Target × String) :
    Meets B w (Seen past offered) only r (recheckImport w id (r, changed) x).1 := by
  have hlooked : Meets B w (Seen past offered) only r (r.lookupExternal w id x.2).1 :=
    h.meets_lookupExternal hw id x.2
  by_cases heq : (r.lookupExternal w id x.2).2 = x.1
  · rwa [recheckImport_of_eq heq]
  · refine hlooked.trans (Agrees.meets (.of_run (recheckImport_run w r id changed x))
      (recheckImport_units w r id changed x) fun a ha => ?_)
    rw [recheckImport_program_of_ne changed heq]
    exact Program.hasNode_recordImport.2 (.inl (Program.hasNode_removeImport.2 ha))

/-- Looking up the recorded imports of a unit again changes the slots of no unit. -/
theorem Rechecking.meets_foldl (h : Rechecking w offered id r₀ r todo) (changed : Bool)
    (hw : Dependable B past w offered) (htodo : ∀ x ∈ todo, x ∈ lookedUpImports r₀.program id)
    (hlt : id < r₀.program.units.size) (hunit : ¬ r₀.IsTable id) :
    Meets B w (Seen past offered) only r (todo.foldl (recheckImport w id) (r, changed)).1 := by
  induction todo generalizing r changed with
  | nil => exact .refl r
  | cons x todo ih =>
    rw [List.foldl_cons]
    refine (h.underway.meets_recheckImport hw id changed x).trans
      (ih ?_ _ fun y hy => htodo y (List.mem_cons_of_mem _ hy))
    exact h.step hw.toSteady (htodo x List.mem_cons_self) hlt hunit

/-- A fix-up changes the slots of no unit. -/
theorem Underway.meets_recheck (h : Underway w offered r) (hw : Dependable B past w offered)
    (hmet : r.Met id) (hunit : ¬ r.IsTable id) :
    Meets B w (Seen past offered) only r (r.recheck w id).1 := by
  have hlt := (h.ready id hmet).lt_size
  have hall : Meets B w (Seen past offered) only r
      ((lookedUpImports r.program id).foldl (recheckImport w id) (r, false)).1 :=
    (Rechecking.start h id).meets_foldl false hw (fun _ hx => hx) hlt hunit
  have hrecheck := recheckOutcome w r id
  generalize r.recheck w id = k at hrecheck ⊢
  cases hrecheck with
  | kept hfold => rwa [hfold] at hall
  | marked hfold =>
    rw [hfold] at hall
    refine hall.trans (.of_units ⟨.refl _, fun _ h => h, fun other hother => ?_⟩ rfl rfl)
    exact met_setFreshness.2 (.inl hother)

/-- A unit that is as new as any definition on offer is as old as each of its own. -/
theorem Dependable.timestamp_eq (hw : Dependable B past w offered)
    (hstems : Program.Stems (Seen past offered) u) (hcurrent : u.Current offered)
    (hoffered : offered d) (hidentity : d.identity = u.identity)
    (htable : d.kind.isSharedTable = false) : d.timestamp = u.timestamp := by
  have htag : d.kind.tag = u.kind.tag := congrArg Identity.tag hidentity
  cases hephemeral : d.kind.isEphemeral with
  | true =>
    have htime := congrArg Identity.time hidentity
    simpa [Definition.identity, BuildUnit.identity, UnitKind.identity, hephemeral,
      ← UnitKind.isEphemeral_eq_of_tag htag] using htime
  | false =>
    have hfile := UnitKind.isFile_of_not htable hephemeral
    obtain ⟨d', hknown, hidentity', htime⟩ := hstems (by rwa [← UnitKind.isFile_eq_of_tag htag])
    have hsame : d'.identity = d.identity := hidentity'.trans hidentity.symm
    have hfile' : d'.kind.isFile := by
      rwa [UnitKind.isFile_eq_of_tag (congrArg Identity.tag hsame)]
    rcases hknown with hpast | hoffered'
    · exact Nat.le_antisymm (hcurrent d hoffered hfile hidentity)
        (htime ▸ hw.later d' d hpast hoffered hfile' hsame)
    · rw [← htime, hw.times d' d hoffered' hoffered hfile' hsame]

/-- Nothing that a name means is the table of global variables. -/
theorem Dependable.not_isGlobal (hw : Dependable B past w offered)
    (hmeans : Means w r id n t) (hunit : ¬ r.IsTable id) : ¬ r.program.IsGlobal t := by
  intro hglobal
  cases hmeans with
  | own => exact hunit (IsGlobal.isTable hglobal)
  | foreign _ hstands =>
    cases hstands with
    | unknown => obtain ⟨_, _, heq, _⟩ := hglobal; cases heq
    | undefined => obtain ⟨_, _, heq, _⟩ := hglobal; cases heq
    | defined _ hfind hdenotes =>
      obtain ⟨other, v, heq, hv, hkind⟩ := hglobal
      cases heq
      obtain ⟨u, hu, htag⟩ := hdenotes.exists_unit
      rw [Option.some.inj (hu.symm.trans hv), hkind] at htag
      refine hw.globals _ ⟨_, _, hfind⟩ ?_
      generalize Definition.kind _ = a at htag
      cases a <;> simp_all [UnitKind.tag]

/-- Definition and unit of one identity look names up from one directory, however it is spelled. -/
theorem directory?_key (hidentity : u.kind.identity u.timestamp = d.identity) :
    u.directory?.map FilePath.key = d.directory?.map FilePath.key := by
  have hpath : u.kind.path?.map FilePath.components = d.kind.path?.map FilePath.components :=
    congrArg Identity.path hidentity
  rw [BuildUnit.directory?, Definition.directory?]
  cases hu : u.kind.path? with
  | none => cases hd : d.kind.path? with
    | none => rfl
    | some q => simp [hu, hd] at hpath
  | some p => cases hd : d.kind.path? with
    | none => simp [hu, hd] at hpath
    | some q =>
      have hparent := FilePath.components_parent?
        (by simpa [hu, hd] using hpath : p.components = q.components)
      rw [Option.bind_some, Option.bind_some]
      cases hp : p.parent? <;> cases hq : q.parent? <;>
        simp_all [FilePath.key_eq_iff]

/-- A unit whose slots were collected from names has a slot for each of them, and no other one. -/
theorem hasSlot_iff (hslots : u.slots = slots.foldl Summary.Progress.addName []) :
    u.hasSlot n ↔ n ∈ slots := by
  have heq := slots_foldl_addSlot slots { u with slots := [] }
  have hiff : (slots.foldl BuildUnit.addSlot { u with slots := [] }).hasSlot n ↔
      n ∈ slots ∨ ({ u with slots := [] } : BuildUnit).hasSlot n :=
    BuildUnit.hasSlot_foldl_addSlot slots _
  rw [BuildUnit.hasSlot, heq, ← hslots] at hiff
  rw [BuildUnit.hasSlot, hiff]
  simp [BuildUnit.hasSlot]

/-- A name that the body of a unit refers to and that the unit does not export is not found in the
unit. -/
theorem Dependable.ne_self {events : List Event} (hw : Dependable B past w offered)
    (h : Underway w offered r) (hmet : r.Met id) (hget : r.program.units.get? id = some u)
    (htable : u.kind.isSharedTable = false) (hstems : Program.Stems (Seen past offered) u)
    (hevents : B u.name u.identity u.timestamp = .ok events)
    (hslots : u.slots = (Summary.ofEvents events).slots.foldl Summary.Progress.addName [])
    (hname : n ∈ (Summary.ofEvents events).references.map (·.1)) (hown : ¬ u.hasSlot n)
    (hmeans : Means w r id n t) : t ≠ .unit id := by
  have hexports : ¬ r.Exports id n := by rwa [Exports, hget, Option.any_some]
  rintro rfl
  cases hmeans with
  | own hyes => exact hexports hyes
  | foreign _ hstands =>
    cases hstands with
    | defined hknown hfind hdenotes =>
      obtain ⟨u', hu', htag⟩ := hdenotes.exists_unit
      obtain rfl := Option.some.inj (hget.symm.trans hu')
      have hunit := hdenotes.unit (by rw [← UnitKind.isSharedTable_eq_of_tag htag, htable])
      obtain ⟨u', hu', hthis, hidentity⟩ := Catalog.describes_of_findMatch hunit
      obtain rfl := Option.some.inj (hget.symm.trans hu')
      obtain ⟨v, hv, hready⟩ := (h.ready id hmet).unit
      obtain rfl := Option.some.inj (hget.symm.trans hv)
      have hoffered := hw.offers _ ⟨_, _, hfind⟩
      have htime := hw.timestamp_eq hstems (hready htable).2 hoffered hidentity.symm
        (by rw [← UnitKind.isSharedTable_eq_of_tag htag, htable])
      refine hown ((hasSlot_iff hslots).2 (hw.foreign n _ _ events hfind hknown ?_ ?_ hname))
      · rw [directoryOf, hget, Option.bind_some]
        exact directory?_key hidentity
      · rw [htime, ← hevents, ← hthis]
        exact congrArg (B u.name · u.timestamp) hidentity.symm

/-- What a body says is recorded when it has been read. -/
theorem Read.told {events : List Event} (h : Read w offered id (.ofEvents events) r₀ r)
    (hw : Dependable B past w offered) (hmet : r.Met id) (hlinked : r.program.Linked)
    (hget : r.program.units.get? id = some u) (hstems : Program.Stems (Seen past offered) u)
    (hevents : B u.name u.identity u.timestamp = .ok events) : r.program.Told B id u := by
  obtain ⟨u', hu', htable, hslots⟩ := h.unit
  obtain rfl := Option.some.inj (hget.symm.trans hu')
  have hunit := h.not_isTable
  have hnone {t : Target} {n : String} (hglobal : r.program.IsGlobal t) : ¬ Means w r id n t :=
    fun hmeans => hw.not_isGlobal hmeans hunit hglobal
  refine ⟨events, hevents, hslots, fun n => ⟨fun hn => ?_, ?_⟩, fun n => ⟨?_, ?_⟩,
    fun t n htakes hglobal => ?_⟩
  · obtain ⟨table, htakes, htable⟩ := h.declares n hn
    exact ⟨_, htakes, htable.isGlobal⟩
  · rintro ⟨t, htakes, hglobal⟩
    rcases h.declared t n htakes hglobal with ⟨hn, _⟩ | ⟨_, hmeans⟩
    · exact hn
    · exact absurd hmeans (hnone hglobal)
  · rintro ⟨hn, hown⟩
    obtain ⟨t, hmeans, himp⟩ := h.complete n hn
    have hne := hw.ne_self h.underway hmet hget htable hstems hevents hslots hn hown hmeans
    exact ⟨t, himp hne, fun hglobal => hnone hglobal hmeans⟩
  · rintro ⟨t, htakes, hglobal⟩
    obtain ⟨hn, hmeans⟩ := h.sound t n htakes hglobal
    refine ⟨hn, fun hslot => ?_⟩
    cases hmeans with
    | own => exact hlinked.loop id n htakes
    | foreign hown => exact hown (by rwa [Exports, hget, Option.any_some])
  · rcases h.declared t n htakes hglobal with ⟨_, htable⟩ | ⟨_, hmeans⟩
    · exact htable
    · exact absurd hmeans (hnone hglobal)

/-- What was recorded of a unit is still recorded when its names have been looked up again. -/
theorem Rechecking.told (h : Rechecking w offered id r₀ r []) (hw : Dependable B past w offered)
    (hmet : r.Met id) (hlinked : r₀.program.Linked) (hu : r₀.program.units.get? id = some u)
    (hget : r.program.units.get? id = some v) (htable : u.kind.isSharedTable = false)
    (hstems : Program.Stems (Seen past offered) v) (htime : v.timestamp = u.timestamp)
    (hslots : v.slots = u.slots) (htold : r₀.program.Told B id u) : r.program.Told B id v := by
  obtain ⟨events, hevents, htells⟩ := htold
  have hgrows := h.works.before.units
  have huv := hgrows.becomes hu hget
  have hevents : B v.name v.identity v.timestamp = .ok events := by
    rw [huv.name, huv.identity, htime, hevents]
  have hunit : ¬ r.IsTable id := not_isTable_of_get? hget (by rw [huv.kind, htable])
  have hglobal {t : Target} {n : String} (ht : r₀.program.Takes id t n) :
      r.program.IsGlobal t ↔ r₀.program.IsGlobal t :=
    isGlobal_iff_of_takes hgrows (fun _ _ => hlinked.lt_of_takes) ht
  have hnone {t : Target} {n : String} (hyes : r.program.IsGlobal t) : ¬ Means w r id n t :=
    fun hmeans => hw.not_isGlobal hmeans hunit hyes
  have hslots' : v.slots = (Summary.ofEvents events).slots.foldl Summary.Progress.addName [] := by
    rw [hslots, htells.slots]
  have hown (n : String) : v.hasSlot n ↔ u.hasSlot n := by
    rw [BuildUnit.hasSlot, hslots, BuildUnit.hasSlot]
  refine ⟨events, hevents, hslots', fun n => ?_, fun n => ?_, fun t n htakes hyes => ?_⟩
  · rw [htells.globals]
    constructor
    · rintro ⟨t, ht, hyes⟩
      refine ⟨t, h.kept t n ht fun hmem => (mem_lookedUpImports.1 hmem).2 hyes, (hglobal ht).2 hyes⟩
    · rintro ⟨t, ht, hyes⟩
      rcases h.names t n ht with hold | ⟨_, _, _, hmeans⟩
      · exact ⟨t, hold, (hglobal hold).1 hyes⟩
      · exact absurd hmeans (hnone hyes)
  · rw [hown]
    constructor
    · intro hn
      obtain ⟨t, ht, hnot⟩ := (htells.names n).1 hn
      obtain ⟨t', hmeans, himp⟩ := (h.complete (t, n) (mem_lookedUpImports.2 ⟨ht, hnot⟩)).resolve_left
        fun hmem => List.not_mem_nil hmem.1
      have hne := hw.ne_self h.underway hmet hget (by rw [huv.kind, htable]) hstems hevents hslots'
        hn.1 (by rw [hown]; exact hn.2) hmeans
      exact ⟨t', himp hne, fun hyes => hnone hyes hmeans⟩
    · rintro ⟨t, ht, hnot⟩
      rw [htells.names]
      rcases h.names t n ht with hold | ⟨⟨t', _⟩, hx, rfl, _⟩
      · exact ⟨t, hold, fun hyes => hnot ((hglobal hold).2 hyes)⟩
      · exact ⟨t', mem_lookedUpImports.1 hx⟩
  · rcases h.names t n htakes with hold | ⟨_, _, _, hmeans⟩
    · obtain ⟨table, heq, hmatch⟩ := htells.table t n hold ((hglobal hold).1 hyes)
      exact ⟨table, heq, hgrows.findMatch hmatch⟩
    · exact absurd hmeans (hnone hyes)

section

variable {known : Definition → Prop} {awaited awaited' : Nat → Prop}

/-- A unit that waits was met just now, or it is as it was. -/
theorem Meets.primed_or (h : Meets B w known only r s) (hv : s.program.units.get? id = some v)
    (htable : v.kind.isSharedTable = false) : Primed B w known s id v ∨
      ∃ u, r.program.units.get? id = some u ∧ v.timestamp = u.timestamp ∧
        (u.body.isSome → v.body = u.body) ∧ (s.Awaits id → r.Awaits id) := by
  cases hu : r.program.units.get? id with
  | none => exact .inl (h.new id v hu hv htable)
  | some u =>
    rcases h.kept id u v hu hv (by rw [← (h.before.units.becomes hu hv).kind, htable]) with
      hsame | ⟨_, hprimed⟩
    · exact .inr ⟨u, rfl, hsame⟩
    · exact .inl hprimed

theorem Meets.legible (h : Meets B w known only r s)
    (hlegible : ∀ id u, r.Awaits id → r.program.units.get? id = some u → Legible B w u)
    (hawaits : s.Awaits id) (hv : s.program.units.get? id = some v) : Legible B w v := by
  intro hbody
  rcases h.primed_or hv (UnitKind.isSharedTable_of_hasBody hbody) with
    hprimed | ⟨u, hu, htime, hwhere, hthen⟩
  · exact hprimed.legible hbody
  · exact ((hlegible id u (hthen hawaits) hu).congr (h.before.units.becomes hu hv) htime hwhere) hbody

/-- Only the units that change need a closer look. -/
theorem Meets.faithful (h : Meets B w known only r s)
    (hfaithful : r.program.Faithful B known awaited) (htouches : r.program.Touches only s.program)
    (hevolves : r.program.Evolves s.program)
    (hawaited : ∀ id, ¬ only id → ¬ awaited' id → ¬ awaited id ∧ ¬ s.Awaits id)
    (hidle : ∀ id u, only id → s.program.units.get? id = some u → u.kind.hasBody = false →
      Idle s.program id)
    (htold : ∀ id u, only id → s.program.units.get? id = some u → u.kind.hasBody → ¬ awaited' id →
      s.program.Told B id u) : s.program.Faithful B known awaited' := by
  have hgrows := h.before.units
  refine ⟨hfaithful.linked.evolves hevolves, hfaithful.permitted.evolves hevolves,
    hfaithful.bare.evolves hevolves, fun id v hv hbody => ?_, fun id v hv hfile => ?_,
    fun id v hv hbody hnot => ?_⟩
  · by_cases hid : only id
    · exact hidle id v hid hv hbody
    · intro t n htakes
      rw [Program.Takes, htouches.imports id hid] at htakes
      obtain ⟨u, hu⟩ := Catalog.exists_get? (hfaithful.linked.taker id t n htakes)
      exact hfaithful.idle id u hu (by rw [← (hgrows.becomes hu hv).kind, hbody]) t n htakes
  · rcases h.primed_or hv (UnitKind.isSharedTable_of_isFile hfile) with hprimed | ⟨u, hu, htime, _⟩
    · exact hprimed.stems hfile
    · exact (Stems.congr (hfaithful.stems id u hu) (hgrows.becomes hu hv) htime) hfile
  · by_cases hid : only id
    · exact htold id v hid hv hbody hnot
    · obtain ⟨hbefore, hwait⟩ := hawaited id hid hnot
      rcases h.primed_or hv (UnitKind.isSharedTable_of_hasBody hbody) with hprimed | ⟨u, hu, htime, _⟩
      · exact absurd hprimed.awaits hwait
      · have huv := hgrows.becomes hu hv
        have hbody : u.kind.hasBody := by rwa [← huv.kind]
        exact (hfaithful.told id u hu hbody hbefore).mono hfaithful.linked htouches hid hu hv
          (UnitKind.isSharedTable_of_hasBody hbody) htime

end

/-- What is known of a unit when it was handled without a fault: a unit without code imports nothing,
and what a body says is recorded if it was read now, or if it was recorded before. -/
structure Handled (B : Library) (past : Definition → Prop) (w : World) (offered : Definition → Prop)
    (r : Resolution) (work : Work) (later : List Work) (s : Resolution) : Prop where
  underway : Underway w offered s
  works : (r.begin work later).Works work.unit s
  meets : Meets B w (Seen past offered) (· = work.unit) (r.begin work later) s
  idle : ∀ u, s.program.units.get? work.unit = some u → u.kind.hasBody = false →
    Idle s.program work.unit
  told : ∀ u v, r.program.units.get? work.unit = some u → s.program.units.get? work.unit = some v →
    v.kind.hasBody → (work = .recheck work.unit → r.program.Told B work.unit u) →
    s.program.Told B work.unit v

/-- What waits is a unit with a body, and no shared table. -/
theorem Underway.exists_waiting (h : Underway w offered r) (hmem : work ∈ r.run.waiting) :
    ∃ u, r.program.units.get? work.unit = some u ∧ u.kind.isSharedTable = false ∧ u.body.isSome := by
  have hunit := h.agenda.waiting_unit work hmem
  obtain ⟨u, hu, hready⟩ := (h.ready work.unit (h.agenda.waiting_met work hmem)).unit
  have htable : u.kind.isSharedTable = false := by
    rw [← Bool.not_eq_true]
    exact fun hshared => hunit ⟨u, hu, hshared⟩
  exact ⟨u, hu, htable, (hready htable).1⟩

/-- A unit that was read without a fault is as its body says. -/
theorem Underway.handled_read {awaited : Nat → Prop} (h : Underway w offered r)
    (hw : Dependable B past w offered)
    (hfaithful : r.program.Faithful B (Seen past offered) awaited)
    (hlegible : ∀ id u, r.Awaits id → r.program.units.get? id = some u → Legible B w u)
    (hwaiting : r.run.waiting = .read id :: later)
    (hhandle : (r.begin (.read id) later).readBody w id = (s, none)) :
    Handled B past w offered r (.read id) later s := by
  have hbegin := h.begin hwaiting
  have hmem : .read id ∈ r.run.waiting := hwaiting ▸ List.mem_cons_self
  have hmet : r.Met id := h.agenda.waiting_met (.read id) hmem
  obtain ⟨u, hu, htable, hsome⟩ := h.exists_waiting hmem
  have hu : r.program.units.get? id = some u := hu
  have hcode {v : BuildUnit} (hgrows : r.program.units.Grows s.program.units)
      (hv : s.program.units.get? id = some v) : v.kind.hasBody = u.kind.hasBody := by
    rw [(hgrows.becomes hu hv).kind]
  have hread := hbegin.readBody hw.toSteady hu
  have hmeets := hbegin.meets_readBody hw
    (show (_ : Resolution × Option Fault).2 = none by rw [hhandle])
  rcases hread with ⟨hnone, heq⟩ | ⟨_, fault, _, _, _, heq⟩ |
    ⟨body, events, hbody, hwhere, hevents, _, hread⟩
  · rw [heq] at hmeets
    rw [hhandle] at heq
    obtain rfl := (Prod.mk.inj heq).1
    have hbody : u.kind.hasBody = false := by
      refine hnone.resolve_right fun hnone => ?_
      rw [hnone] at hsome
      cases hsome
    refine ⟨hbegin, .refl _ _, hmeets, fun _ _ _ => ?_, fun _ v _ hv hyes => ?_⟩
    · exact hfaithful.idle id u hu hbody
    · rw [hcode (.refl _) hv, hbody] at hyes
      cases hyes
  · rw [hhandle] at heq
    cases (Prod.mk.inj heq).2
  · rw [hhandle] at hread hmeets
    refine ⟨hread.underway, hread.works, hmeets, fun v hv hnot => ?_, fun _ v _ hv _ _ => ?_⟩
    · rw [hcode hread.works.before.units hv, hbody] at hnot
      cases hnot
    · obtain ⟨body', hwhere', hevents'⟩ := hlegible id u hmem hu hbody
      obtain rfl := Option.some.inj (hwhere.symm.trans hwhere')
      have huv := hread.works.before.units.becomes hu hv
      obtain ⟨htime, _⟩ := (hmeets.kept id u v hu hv htable).resolve_right fun h => h.1 hmet
      refine hread.told hw (hread.works.met id hmet)
        (hfaithful.linked.evolves hread.works.program.evolves) hv
        (Stems.congr (hfaithful.stems id u hu) huv htime) ?_
      rw [huv.name, huv.identity, htime, ← hevents', hevents]

/-- A unit whose imports were fixed up is as its body says if it was so before. -/
theorem Underway.handled_recheck {awaited : Nat → Prop} (h : Underway w offered r)
    (hw : Dependable B past w offered)
    (hfaithful : r.program.Faithful B (Seen past offered) awaited)
    (hwaiting : r.run.waiting = .recheck id :: later) :
    Handled B past w offered r (.recheck id) later
      ((r.begin (.recheck id) later).recheck w id).1 := by
  have hbegin := h.begin hwaiting
  have hmem : .recheck id ∈ r.run.waiting := hwaiting ▸ List.mem_cons_self
  have hmet : r.Met id := h.agenda.waiting_met (.recheck id) hmem
  have hunit : ¬ r.IsTable id := h.agenda.waiting_unit (.recheck id) hmem
  obtain ⟨u, hu, htable, -⟩ := h.exists_waiting hmem
  have hu : r.program.units.get? id = some u := hu
  have hrecheck := hbegin.recheck hw.toSteady id hmet hunit
  have hmeets : Meets B w (Seen past offered) (fun _ => False) (r.begin (.recheck id) later)
      ((r.begin (.recheck id) later).recheck w id).1 := hbegin.meets_recheck hw hmet hunit
  refine ⟨hrecheck.underway, hrecheck.works, hmeets.mono fun _ => False.elim,
    fun v hv hbody t n htakes => ?_, fun u' v hu' hv hbody hold => ?_⟩
  · rw [(hrecheck.works.before.units.becomes hu hv).kind] at hbody
    have hidle := hfaithful.idle id u hu hbody
    rcases hrecheck.names t n htakes with hold | ⟨x, hx, _⟩
    · exact hidle t n hold
    · exact hidle x.1 x.2 (mem_lookedUpImports.1 hx).1
  · obtain rfl := Option.some.inj (hu.symm.trans hu')
    have huv := hrecheck.works.before.units.becomes hu hv
    obtain ⟨htime, _⟩ := (hmeets.kept id u v hu hv htable).resolve_right fun h => h.1 hmet
    exact hrecheck.told hw (hrecheck.works.met id hmet) hfaithful.linked hu hv htable
      (Stems.congr (hfaithful.stems id u hu) huv htime) htime
      (hmeets.slots id u v not_false hu hv htable) (hold rfl)

/-- A unit that was handled without a fault is as its body says, if it was read now or was as its
body says before. -/
theorem Underway.handled {awaited : Nat → Prop} (h : Underway w offered r)
    (hw : Dependable B past w offered)
    (hfaithful : r.program.Faithful B (Seen past offered) awaited)
    (hlegible : ∀ id u, r.Awaits id → r.program.units.get? id = some u → Legible B w u)
    (hwaiting : r.run.waiting = work :: later)
    (hhandle : ({ r with run := { r.run with waiting := later } } : Resolution).handle w work =
      (s, none)) : Handled B past w offered r work later s := by
  have hfresh := h.agenda.waiting_fresh work (hwaiting ▸ List.mem_cons_self)
  cases work with
  | read id =>
    rw [handle_read id hfresh] at hhandle
    exact h.handled_read hw hfaithful hlegible hwaiting hhandle
  | recheck id =>
    rw [handle_recheck id hfresh] at hhandle
    obtain rfl := (Prod.mk.inj hhandle).1
    exact h.handled_recheck hw hfaithful hwaiting

/-- A run records what the bodies of all units say that do not wait to be read, and can read the
others. -/
structure Attentive (B : Library) (w : World) (known : Definition → Prop) (r : Resolution) : Prop where
  faithful : r.program.Faithful B known r.Awaits
  legible : ∀ id u, r.Awaits id → r.program.units.get? id = some u → Legible B w u

/-- A run that only looked names up is as attentive as before. -/
theorem Attentive.looked {known : Definition → Prop} (h : Attentive B w known r)
    (hlooked : r.Looked s) (hmeets : Meets B w known (fun _ => False) r s) :
    Attentive B w known s where
  faithful := hmeets.faithful h.faithful hlooked.program.touches
    (.mono (fun _ _ hgrow => ⟨0, .grow hgrow⟩) _ _ hlooked.program)
    (fun _ _ hnot => ⟨fun hawaits => hnot (hmeets.waits _ hawaits), hnot⟩) (fun _ _ => False.elim)
    fun _ _ => False.elim
  legible _ _ hawaits hv := hmeets.legible h.legible hawaits hv

/-- Handling a unit without a fault keeps a run attentive: what was read is recorded now, and what
waits can be read. -/
theorem Attentive.handle (h : Attentive B w (Seen past offered) r) (hw : Dependable B past w offered)
    (hunderway : Underway w offered r) (hwaiting : r.run.waiting = work :: later)
    (hhandle : ({ r with run := { r.run with waiting := later } } : Resolution).handle w work =
      (s, none)) : Attentive B w (Seen past offered) s := by
  have hhandled := hunderway.handled hw h.faithful h.legible hwaiting hhandle
  have hnodup := hunderway.agenda.nodup
  have hkeeps {id : Nat} (hid : id ≠ work.unit) (hawaits : r.Awaits id) :
      (r.begin work later).Awaits id := by
    rw [Awaits, hwaiting] at hawaits
    exact (List.mem_cons.1 hawaits).resolve_left fun heq => hid (congrArg Work.unit heq)
  refine ⟨?_, fun id u hawaits hv => hhandled.meets.legible (fun id u hawaits hu => ?_) hawaits hv⟩
  · refine hhandled.meets.faithful (h.faithful : (r.begin work later).program.Faithful _ _ _)
      hhandled.works.program.touches hhandled.works.program.evolves (fun id hid hnot => ?_) ?_ ?_
    · exact ⟨fun hawaits => hnot (hhandled.meets.waits _ (hkeeps hid hawaits)), hnot⟩
    · rintro id u rfl
      exact hhandled.idle u
    · rintro id v rfl hv hbody -
      obtain ⟨u, hu⟩ := Catalog.exists_get? (hunderway.ready work.unit
        (hunderway.agenda.waiting_met work (hwaiting ▸ List.mem_cons_self))).lt_size
      refine hhandled.told u v hu hv hbody fun hrecheck => h.faithful.told work.unit u hu ?_ ?_
      · rwa [← (hhandled.works.before.units.becomes hu hv).kind]
      · intro hawaits
        rw [hwaiting, List.map_cons, List.nodup_cons] at hnodup
        rw [Awaits, hwaiting, hrecheck] at hawaits
        exact hnodup.1 (List.mem_map.2 ⟨_, (List.mem_cons.1 hawaits).resolve_left nofun, rfl⟩)
  · rw [Awaits] at hawaits
    refine h.legible id u ?_ hu
    rw [Awaits, hwaiting]
    exact List.mem_cons_of_mem _ hawaits

/-- When no work is left, everything is recorded. -/
theorem Attentive.drain (h : Attentive B w (Seen past offered) r) (hw : Dependable B past w offered)
    (hsweep : Sweep w offered r) (hdrain : r.drain w fuel = (s, none)) :
    Attentive B w (Seen past offered) s := by
  have hkeeps {r s : Resolution} {work : Work} {later : List Work}
      (hr : Attentive B w (Seen past offered) r ∧ Sweep w offered r)
      (hwaiting : r.run.waiting = work :: later)
      (hhandle : ({ r with run := { r.run with waiting := later } } : Resolution).handle w work =
        (s, none)) : Attentive B w (Seen past offered) s ∧ Sweep w offered s :=
    ⟨hr.1.handle hw hr.2.underway hwaiting hhandle, (hr.2.handle hw.toSteady hwaiting hhandle).1⟩
  exact (drain_induction hkeeps ⟨h, hsweep⟩ hdrain).1.1

end Resolution

end ScriptBuild
