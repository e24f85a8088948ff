import ScriptBuild.Proofs.Resolution.Outcomes

namespace ScriptBuild

namespace Resolution

variable {w : World} {offered : Definition → Prop} {r s : Resolution} {id other : Nat}
  {name slot : String} {t : Target} {d : Definition} {kind : UnitKind} {work : Work}
  {directory : Option FilePath} {freshness : Freshness}

/-- A shared table exports the slot that was added. -/
theorem exports_growTable (hlt : id < r.program.units.size) : (r.growTable id slot).Exports id slot := by
  obtain ⟨u, hu⟩ := Catalog.exists_get? hlt
  rw [Exports, growTable_program, Catalog.get?_modify_of_get? hu BuildUnit.becomes_addSlot.name,
    Option.any_some]
  exact BuildUnit.hasSlot_addSlot.2 (.inl rfl)

/-- The program grows when a shared table gets a slot. -/
theorem grows_growTable (slot : String) (htable : r.IsTable id) :
    r.program.Grows (r.growTable id slot).program := by
  obtain ⟨u, hu, hshared⟩ := htable
  rw [growTable_program]
  exact .single (.slot id u slot hu hshared)

/-- Adding a slot to a shared table only looks a name up. -/
theorem Underway.growTable (h : Underway w offered r) (slot : String) (htable : r.IsTable id) :
    Underway w offered (r.growTable id slot) ∧ r.Looked (r.growTable id slot) := by
  have hgrows := grows_growTable slot htable
  refine h.meet_table hgrows growTable_run (fun _ hmet => hmet.growTable) fun other hmet => ?_
  refine (met_growTable hmet).imp_right ?_
  rintro rfl
  obtain ⟨u, hu, hshared⟩ := htable
  obtain ⟨v, hv, huv⟩ := hgrows.touches.units other u hu
  exact ⟨v, hv, by rw [huv.kind, hshared]⟩

/-- The unit that is made for a shared table is one. -/
theorem isTable_makeTable (htable : kind.isSharedTable) :
    (r.makeTable kind).IsTable r.program.units.size :=
  ⟨_, by rw [makeTable]; exact (Catalog.get?_insert).trans (if_pos rfl), htable⟩

/-- Making a shared table only looks a name up. -/
theorem Underway.makeTable (h : Underway w offered r) (htable : kind.isSharedTable)
    (hmatch : r.program.units.findMatch (tableName kind) kind 0 = none) :
    Underway w offered (r.makeTable kind) ∧ r.Looked (r.makeTable kind) := by
  refine h.meet_table (.single (.insert _ kind 0 .table hmatch fun _ => rfl)) rfl
    (fun _ hmet => met_setFreshness.2 (.inl hmet)) fun other hmet => ?_
  refine (met_setFreshness.1 hmet).imp_right ?_
  rintro rfl
  exact isTable_makeTable htable

/-- The unit of a shared table has the slot that is asked for. -/
theorem Underway.tableFor (h : Underway w offered r) (slot : String) (htable : kind.isSharedTable) :
    Underway w offered (r.tableFor slot kind).1 ∧ r.Looked (r.tableFor slot kind).1 ∧
      (r.tableFor slot kind).1.program.units.findMatch (tableName kind) kind 0 =
        some (r.tableFor slot kind).2 ∧
      (r.tableFor slot kind).1.Exports (r.tableFor slot kind).2 slot := by
  cases hmatch : r.program.units.findMatch (tableName kind) kind 0 with
  | some id =>
    rw [tableFor_of_some hmatch]
    obtain ⟨u, hu, hname, hid⟩ := Catalog.describes_of_findMatch hmatch
    have hshared : r.IsTable id :=
      ⟨u, hu, by rw [UnitKind.isSharedTable_eq_of_tag (congrArg Identity.tag hid), htable]⟩
    obtain ⟨hunderway, hlooked⟩ := h.growTable slot hshared
    exact ⟨hunderway, hlooked, hlooked.before.units.findMatch hmatch,
      exports_growTable (Catalog.lt_size_of_get? hu)⟩
  | none =>
    rw [tableFor_of_none hmatch]
    obtain ⟨hmade, hlooked⟩ := h.makeTable htable hmatch
    have hmatch' : (r.makeTable kind).program.units.findMatch (tableName kind) kind 0 =
        some r.program.units.size := Catalog.findMatch_insert hmatch
    obtain ⟨hunderway, hlooked'⟩ := hmade.growTable slot (isTable_makeTable htable)
    exact ⟨hunderway, hlooked.trans hlooked', hlooked'.before.units.findMatch hmatch',
      exports_growTable (Catalog.describes_of_findMatch hmatch').lt_size⟩

/-- A unit of another kind is no shared table. -/
theorem not_isTable_of_get? {u : BuildUnit} (hget : r.program.units.get? id = some u)
    (htable : u.kind.isSharedTable = false) : ¬ r.IsTable id := by
  rintro ⟨v, hv, hshared⟩
  rw [Option.some.inj (hget.symm.trans hv), hshared] at htable
  cases htable

/-- A unit that is met with a definition has been met from then on, and nothing else has changed. -/
theorem Underway.refresh {u : BuildUnit} (h : Underway w offered r) (hsame : SameTimes offered)
    (hoffered : offered d) (hget : r.program.units.get? id = some u)
    (hidentity : u.identity = d.identity) (htable : u.kind.isSharedTable = false)
    (hmet : ¬ r.Met id) :
    Underway w offered (r.refresh id d) ∧ r.Looked (r.refresh id d) ∧ (r.refresh id d).Met id := by
  have hlt := Catalog.lt_size_of_get? hget
  by_cases hnewer : r.Outdated id d
  · rw [refresh_of_outdated hnewer]
    obtain ⟨v, hv, hfile, hlater⟩ := hnewer
    obtain rfl := Option.some.inj (hget.symm.trans hv)
    have hv' : (r.program.units.modify id fun u =>
        { u with timestamp := d.timestamp, body := some d.body }).get? id =
        some { u with timestamp := d.timestamp, body := some d.body } := by
      exact Catalog.get?_modify_of_get? hget rfl
    have hstamped : BuildUnit.identity { u with timestamp := d.timestamp, body := some d.body } =
        d.identity := by
      rw [← hidentity]
      simp [BuildUnit.identity, UnitKind.identity, UnitKind.isEphemeral_of_isFile hfile]
    refine and_assoc.1 ⟨h.meet (.read id) (Relation.ReflTransGen.tail (.single
      (.stamp id u d.timestamp d.body hget hfile hlater)) (.node id ?_)) rfl ?_ hmet ?_ ?_, ?_⟩
    · rwa [Catalog.size_modify]
    · rintro other hmem
      obtain rfl := Work.read.inj (List.mem_singleton.1 hmem)
      exact .inr ⟨_, hv', hfile⟩
    · refine ⟨⟨_, hv', fun _ => ⟨rfl, fun d' hoffered' hfile' hidentity' => ?_⟩⟩, fun _ =>
        Digraph.hasNode_addNode.2 (.inl rfl)⟩
      exact Nat.le_of_eq (hsame d' d hoffered' hoffered hfile' (hidentity'.trans hstamped))
    · exact not_isTable_of_get? hv' htable
    · exact Std.ExtTreeMap.mem_insert_self
  · rw [refresh_of_not_outdated hnewer]
    have hv' : (r.program.units.modify id fun u => { u with body := u.body.or (some d.body) }).get? id =
        some { u with body := u.body.or (some d.body) } := by
      exact Catalog.get?_modify_of_get? hget rfl
    refine and_assoc.1 ⟨h.meet (.recheck id) (Relation.ReflTransGen.tail (.single
      (.attach id d.body)) (.node id ?_)) rfl ?_ hmet ?_ ?_, ?_⟩
    · rwa [Catalog.size_modify]
    · rintro other hmem
      cases List.mem_singleton.1 hmem
    · refine ⟨⟨_, hv', fun _ => ⟨by simp, fun d' hoffered' hfile' hidentity' => ?_⟩⟩, fun _ =>
        Digraph.hasNode_addNode.2 (.inl rfl)⟩
      have hidentity' : d'.identity = d.identity := hidentity'.trans hidentity
      have htag : d'.kind.tag = u.kind.tag :=
        congrArg Identity.tag (hidentity'.trans hidentity.symm)
      rw [hsame d' d hoffered' hoffered hfile' hidentity']
      by_contra hlt
      exact hnewer ⟨u, hget, by rw [← UnitKind.isFile_eq_of_tag htag, hfile'], Nat.lt_of_not_le hlt⟩
    · exact not_isTable_of_get? hv' htable
    · exact Std.ExtTreeMap.mem_insert_self

/-- A unit that is made for a definition has been met from then on. -/
theorem Underway.makeUnit (h : Underway w offered r) (hsame : SameTimes offered)
    (hoffered : offered d) (htable : d.kind.isSharedTable = false)
    (hmatch : r.program.units.findMatch name d.kind d.timestamp = none) :
    Underway w offered (r.makeUnit name d) ∧ r.Looked (r.makeUnit name d) := by
  have hget : (r.makeUnit name d).program.units.get? r.program.units.size = _ :=
    Catalog.get?_insert.trans (if_pos rfl)
  have hmet : ¬ r.Met r.program.units.size := fun hmet =>
    absurd (h.ready _ hmet).lt_size (Nat.lt_irrefl _)
  refine h.meet (.read r.program.units.size) (.single ?_) rfl (fun other hmem => .inl ?_) hmet
    ⟨⟨_, hget, fun _ => ⟨rfl, fun d' hoffered' hfile hidentity => ?_⟩⟩, fun _ => ?_⟩
    (not_isTable_of_get? hget htable)
  · exact .insert name d.kind d.timestamp d.body hmatch (by simp [htable])
  · exact Nat.le_of_eq (Work.read.inj (List.mem_singleton.1 hmem)).symm
  · exact Nat.le_of_eq (hsame d' d hoffered' hoffered hfile hidentity)
  · exact Digraph.hasNode_addNode.2 (.inl rfl)

/-- The unit that a definition denotes is met. -/
theorem Underway.unitFor (h : Underway w offered r) (hsame : SameTimes offered) (name : String)
    (hoffered : offered d) :
    Underway w offered (r.unitFor name d).1 ∧ r.Looked (r.unitFor name d).1 ∧
      (r.unitFor name d).1.Denotes name d (r.unitFor name d).2 := by
  have hunit := unitOutcome r name d
  generalize r.unitFor name d = k at hunit ⊢
  cases hunit with
  | table htable =>
    obtain ⟨hunderway, hlooked, hmatch, hslot⟩ := h.tableFor name htable
    refine ⟨hunderway, hlooked, ?_⟩
    constructor <;> simp [htable, hmatch, hslot]
  | made htable hmatch =>
    obtain ⟨hunderway, hlooked⟩ := h.makeUnit hsame hoffered htable hmatch
    refine ⟨hunderway, hlooked, ⟨fun _ => Catalog.findMatch_insert hmatch, fun _ => ?_, ?_, ?_⟩⟩
    · exact Std.ExtTreeMap.mem_insert_self
    · simp [htable]
    · simp [htable]
  | met htable hmatch hmet =>
    exact ⟨h, .refl r, ⟨fun _ => hmatch, fun _ => hmet, by simp [htable], by simp [htable]⟩⟩
  | refreshed htable hmatch hmet =>
    obtain ⟨u, hu, _, hidentity⟩ := Catalog.describes_of_findMatch hmatch
    have hshared : u.kind.isSharedTable = false := by
      rw [UnitKind.isSharedTable_eq_of_tag (congrArg Identity.tag hidentity), htable]
    obtain ⟨hunderway, hlooked, hmet'⟩ := h.refresh hsame hoffered hu hidentity hshared hmet
    refine ⟨hunderway, hlooked, ⟨fun _ => ?_, fun _ => hmet', by simp [htable], by simp [htable]⟩⟩
    exact hlooked.before.units.findMatch hmatch

/-- Whether a name is known is answered as the lookup does, and the program stays as it is. -/
theorem Underway.isKnown (h : Underway w offered r) (hl : w.lookup.IgnoresSpelling)
    (directory : Option FilePath) (name : String) :
    Underway w offered (r.isKnown w directory name).1 ∧ r.Looked (r.isKnown w directory name).1 ∧
      (r.isKnown w directory name).1.program = r.program ∧
      ((r.isKnown w directory name).2 ↔ w.lookup.Knows directory name) := by
  have hnames : r.run.names.getD w.lookup.names = w.lookup.names := by
    cases heq : r.run.names with
    | none => rfl
    | some names => exact h.remembers.names names heq
  have hkept : Remembers w { r with run := { r.run with names := some w.lookup.names } } := by
    refine ⟨fun names heq => (Option.some.inj heq).symm, h.remembers.namesIn, fun d n id heq => ?_⟩
    exact Stands.mono (r := r) (before_of_eq rfl rfl) (h.remembers.found d n id heq)
  have hstay := h.remember (s := { r with run := { r.run with names := some w.lookup.names } })
    rfl rfl rfl rfl rfl hkept
  simp only [Resolution.isKnown, hnames]
  split
  · next hknown =>
    have hknows : w.lookup.Knows directory name := by
      simp [NameLookup.Knows, ← Std.ExtTreeSet.contains_iff_mem, hknown]
    exact ⟨hstay.1, hstay.2, rfl, iff_of_true rfl hknows⟩
  · next hunknown =>
    have hunknown : name ∉ w.lookup.names := by simpa using hunknown
    cases directory with
    | none => exact ⟨hstay.1, hstay.2, rfl, by simp [NameLookup.Knows, hunknown]⟩
    | some directory =>
      have hnear : (r.run.namesIn[directory.key]?).getD (w.lookup.namesIn directory) =
          w.lookup.namesIn directory := by
        cases heq : r.run.namesIn[directory.key]? with
        | none => rfl
        | some names => exact h.remembers.namesIn directory names heq
      simp only [hnear]
      refine and_assoc.1 ⟨h.remember rfl rfl rfl rfl rfl
        ⟨hkept.names, fun directory' names heq => ?_, fun d n id heq => ?_⟩, trivial, ?_⟩
      · simp only [Std.ExtTreeMap.getElem?_insert, Std.LawfulEqCmp.compare_eq_iff_eq] at heq
        split at heq
        · next hkey => rw [← Option.some.inj heq, hl.namesIn_eq hkey]
        · exact h.remembers.namesIn directory' names heq
      · exact Stands.mono (r := r) (before_of_eq rfl rfl) (h.remembers.found d n id heq)
      · simp [NameLookup.Knows, hunknown]

/-- A definition of the same identity denotes the same unit. -/
theorem Denotes.of_identity {d' : Definition} (h : r.Denotes name d id)
    (heq : d.identity = d'.identity) : r.Denotes name d' id := by
  have htag : d.kind.tag = d'.kind.tag := congrArg Identity.tag heq
  have htable : d'.kind.isSharedTable = d.kind.isSharedTable :=
    (UnitKind.isSharedTable_eq_of_tag htag).symm
  refine ⟨fun hnot => ?_, fun hnot => h.met (htable ▸ hnot), fun hshared => ?_,
    fun hshared => h.listed (htable ▸ hshared)⟩
  · rw [← Catalog.findMatch_of_identity heq]
    exact h.unit (htable ▸ hnot)
  · have hkind : d.kind = d'.kind := by
      generalize d.kind = a at htag
      generalize d'.kind = b at htag hshared
      cases a <;> cases b <;> simp_all [UnitKind.tag, UnitKind.isSharedTable]
    rw [← hkind]
    exact h.table (htable ▸ hshared)

/-- A name stands for the same however its directory is spelled. -/
theorem Stands.of_key {directory' : Option FilePath} (hl : w.lookup.IgnoresSpelling)
    (hkey : directory.map FilePath.key = directory'.map FilePath.key)
    (h : Stands w r directory name t) : Stands w r directory' name t := by
  have hfind := hl.find_eq name hkey
  have hknows := hl.knows_iff name hkey
  cases h with
  | unknown hunknown => exact .unknown fun hknown => hunknown (hknows.2 hknown)
  | undefined hnone =>
    rw [hnone, Option.map_none, eq_comm, Option.map_eq_none_iff] at hfind
    exact .undefined hfind
  | defined hknown hfound hdenotes =>
    rw [hfound, Option.map_some, eq_comm, Option.map_eq_some_iff] at hfind
    obtain ⟨d', hfound', heq⟩ := hfind
    exact .defined (hknows.1 hknown) hfound' (hdenotes.of_identity heq.symm)

/-- A run may remember what a name stands for. -/
theorem Underway.rememberFound (h : Underway w offered r) (hl : w.lookup.IgnoresSpelling)
    (hstands : Stands w r directory name (.unit id)) :
    Underway w offered (r.rememberFound directory name id) ∧
      r.Looked (r.rememberFound directory name id) := by
  refine h.remember rfl rfl rfl rfl rfl
    ⟨h.remembers.names, h.remembers.namesIn, fun directory' name' other heq => ?_⟩
  have hbefore : r.Before (r.rememberFound directory name id) := before_of_eq rfl rfl
  simp only [foundFrom, Resolution.rememberFound, Std.ExtTreeMap.getElem?_insert,
    Std.LawfulEqCmp.compare_eq_iff_eq] at heq
  split at heq
  · next hkey =>
    simp only [Option.bind_some, Std.ExtTreeMap.getElem?_insert,
      Std.LawfulEqCmp.compare_eq_iff_eq] at heq
    split at heq
    · next hname =>
      obtain rfl := Option.some.inj heq
      exact hname ▸ (hstands.of_key hl hkey).mono hbefore
    · refine (h.remembers.found directory' name' other ?_).mono hbefore
      rw [foundFrom, ← hkey]
      rw [Std.ExtTreeMap.getD_eq_getD_getElem?] at heq
      cases hold : r.run.found[directory.map FilePath.key]? with
      | none => rw [hold] at heq; simp at heq
      | some names => rw [hold] at heq; exact heq
  · exact (h.remembers.found directory' name' other heq).mono hbefore

/-- Looking a name up gives what it means, and keeps all that holds of a run. -/
theorem Underway.lookupExternal (h : Underway w offered r) (hw : Steady w offered) (name : String)
    (hlt : id < r.program.units.size) (hunit : ¬ r.IsTable id) :
    Underway w offered (r.lookupExternal w id name).1 ∧
      r.Looked (r.lookupExternal w id name).1 ∧
      Means w (r.lookupExternal w id name).1 id name (r.lookupExternal w id name).2 := by
  have hlookup := lookupOutcome w r id name
  generalize r.lookupExternal w id name = k at hlookup ⊢
  have hasks := h.isKnown hw.spelling (r.directoryOf id) name
  cases hlookup with
  | own hown => exact ⟨h, .refl r, .own hown⟩
  | recalled hown hfound => exact ⟨h, .refl r, .foreign hown (h.remembers.found _ _ _ hfound)⟩
  | missing hown _ hasked hmissing =>
    rw [hasked] at hasks
    obtain ⟨hs, hlooked, -, hknows⟩ := hasks
    refine ⟨hs, hlooked, .foreign hown ?_⟩
    rcases hmissing with rfl | hnone
    · exact .unknown fun hknown => Bool.false_ne_true (hknows.2 hknown)
    · exact .undefined hnone
  | @found names namesIn d hown _ hasked hfind =>
    rw [hasked] at hasks
    obtain ⟨hs, hlooked, -, hknows⟩ := hasks
    have hfound := hs.unitFor hw.times name (hw.offers d ⟨name, _, hfind⟩)
    generalize (r.learn names namesIn).unitFor name d = k at hfound ⊢
    obtain ⟨s, other⟩ := k
    obtain ⟨hs', hlooked', hdenotes⟩ := hfound
    have hstands : Stands w s (r.directoryOf id) name (.unit other) :=
      .defined (hknows.1 rfl) hfind hdenotes
    obtain ⟨hs'', hlooked''⟩ := hs'.rememberFound hw.spelling hstands
    have hall := (hlooked.trans hlooked').trans hlooked''
    refine ⟨hs'', hall, .foreign (fun hown' => hown ((hall.exports_iff hlt hunit).1 hown')) ?_⟩
    dsimp only
    rw [hall.before.directoryOf hlt]
    exact hstands.mono hlooked''.before

end Resolution

end ScriptBuild
