import ScriptBuild.Proofs.Resolution.Identity
import ScriptBuild.Proofs.SearchPath.Kinds
import ScriptBuild.Proofs.SearchPath.Located

namespace ScriptBuild

namespace Catalog

variable {Q : String → UnitKind → Prop} {c : Catalog} {id : Nat} {name : String} {kind : UnitKind}
  {timestamp : Nat} {body : Option Body} {f : BuildUnit → BuildUnit}

/-- All units are as a property of their names and kinds says. For the property that a unit is the
    file of its name, where a search looks for it, or no file, this says whose file each unit is. -/
def Each (Q : String → UnitKind → Prop) (c : Catalog) : Prop :=
  ∀ id u, c.get? id = some u → Q u.name u.kind

/-- A unit that is as the property says may be added. -/
theorem Each.insert (h : c.Each Q) (hnew : Q name kind) : (c.insert name kind timestamp body).Each Q := by
  intro id u hu
  rw [get?_insert] at hu
  split at hu
  · obtain rfl := Option.some.inj hu
    exact hnew
  · exact h id u hu

/-- A change that keeps name and kind of a unit keeps the property. -/
theorem Each.modify (h : c.Each Q) (id : Nat) (hname : ∀ u, (f u).name = u.name)
    (hkind : ∀ u, (f u).kind = u.kind) : (c.modify id f).Each Q := by
  intro other v hv
  rw [get?_modify hname] at hv
  split at hv
  · obtain ⟨u, hu, rfl⟩ := Option.map_eq_some_iff.1 hv
    rw [hname, hkind]
    exact h other u hu
  · exact h other v hv

end Catalog

namespace Resolution

variable {Q : String → UnitKind → Prop} {w : World} {r s : Resolution} {id : Nat} {name : String}
  {kind : UnitKind} {d : Definition}

/-- What a world offers under a name is as a property says, and so are the shared tables. -/
structure Offering (w : World) (Q : String → UnitKind → Prop) : Prop where
  table : ∀ kind : UnitKind, kind.isSharedTable → Q (tableName kind) kind
  find : ∀ name directory d, w.lookup.find name directory = some d → Q name d.kind

/-- Adding a slot changes no name and no kind. -/
theorem each_growTable (h : r.program.units.Each Q) (id : Nat) (slot : String) :
    (r.growTable id slot).program.units.Each Q := by
  rw [growTable_program]
  exact h.modify id (fun _ => BuildUnit.becomes_addSlot.name) fun _ => BuildUnit.becomes_addSlot.kind

/-- A shared table that is found or made is as the property says. -/
theorem each_tableFor (h : r.program.units.Each Q) (slot : String) (hkind : Q (tableName kind) kind) :
    (r.tableFor slot kind).1.program.units.Each Q := by
  cases hmatch : r.program.units.findMatch (tableName kind) kind 0 with
  | some id =>
    rw [tableFor_of_some hmatch]
    exact each_growTable h id slot
  | none =>
    rw [tableFor_of_none hmatch]
    exact each_growTable (r := r.makeTable kind) (h.insert hkind) _ slot

/-- A unit that is met with a definition keeps its name and kind. -/
theorem each_refresh (h : r.program.units.Each Q) (id : Nat) (d : Definition) :
    (r.refresh id d).program.units.Each Q := by
  by_cases hnewer : r.Outdated id d
  · rw [refresh_of_outdated hnewer]
    exact h.modify id (fun _ => rfl) fun _ => rfl
  · rw [refresh_of_not_outdated hnewer]
    exact h.modify id (fun _ => rfl) fun _ => rfl

/-- A unit that is made for a definition on offer is as the property says. -/
theorem each_unitFor (h : r.program.units.Each Q) (hw : Offering w Q) (hd : Q name d.kind) :
    (r.unitFor name d).1.program.units.Each Q := by
  have hcases := unitOutcome r name d
  generalize r.unitFor name d = k at hcases ⊢
  cases hcases with
  | table htable => exact each_tableFor h name (hw.table d.kind htable)
  | made => exact h.insert hd
  | met => exact h
  | refreshed => exact each_refresh h _ d

/-- A lookup makes no unit but for a definition on offer, and shared tables. -/
theorem each_lookupExternal (h : r.program.units.Each Q) (hw : Offering w Q) (id : Nat)
    (name : String) : (r.lookupExternal w id name).1.program.units.Each Q := by
  have hlookup := lookupOutcome w r id name
  generalize r.lookupExternal w id name = k at hlookup ⊢
  cases hlookup with
  | own | recalled | missing => exact h
  | @found names namesIn d _ _ _ hfind =>
    exact each_unitFor (r := r.learn names namesIn) h hw (hw.find name _ d hfind)

/-- A global variable makes no unit but the table that holds it. -/
theorem each_declareGlobal (h : r.program.units.Each Q) (hw : Offering w Q) (id : Nat)
    (name : String) : (declareGlobal id r name).program.units.Each Q := by
  rw [declareGlobal_eq, modifyProgram, Program.units_recordImport]
  exact each_tableFor h name (hw.table .globals rfl)

/-- A reference makes no unit but for a definition on offer, and shared tables. -/
theorem each_importReference (h : r.program.units.Each Q) (hw : Offering w Q) (id : Nat)
    (reference : String × Span) : (importReference w id r reference).program.units.Each Q := by
  rw [importReference_units]
  exact each_lookupExternal h hw id reference.1

/-- A body that is opened changes no name and no kind. -/
theorem each_openBody (h : r.program.units.Each Q) (id : Nat) (slots : List String) :
    (r.openBody id slots).program.units.Each Q := by
  have hcleared : (r.program.clearBody id).units.Each Q := h.modify id (fun _ => rfl) fun _ => rfl
  exact hcleared.modify id (fun u => (BuildUnit.becomes_foldl_addSlot slots u).name)
    fun u => (BuildUnit.becomes_foldl_addSlot slots u).kind

/-- Reading a body makes no unit but for definitions on offer, and shared tables. -/
theorem each_readBody (h : r.program.units.Each Q) (hw : Offering w Q) (id : Nat) :
    (r.readBody w id).1.program.units.Each Q := by
  have hread := readOutcome w r id
  generalize r.readBody w id = k at hread ⊢
  cases hread with
  | bodiless => exact h
  | faulty => exact h.modify id (fun _ => rfl) fun _ => rfl
  | @read _ _ events =>
    have hopened := each_openBody h id (Summary.ofEvents events).slots
    have hdeclared := List.foldlRecOn (Summary.ofEvents events).globals (declareGlobal id)
      (motive := fun s => s.program.units.Each Q) hopened
      fun _ hs name _ => each_declareGlobal hs hw id name
    exact List.foldlRecOn (Summary.ofEvents events).references (importReference w id)
      (motive := fun s => s.program.units.Each Q) hdeclared
      fun _ hs reference _ => each_importReference hs hw id reference

/-- An import that is looked up again makes no unit but for a definition on offer. -/
theorem each_recheckImport (h : r.program.units.Each Q) (hw : Offering w Q) (id : Nat)
    (changed : Bool) (x : Target × String) :
    (recheckImport w id (r, changed) x).1.program.units.Each Q := by
  rw [recheckImport_units]
  exact each_lookupExternal h hw id x.2

/-- A fix-up makes no unit but for definitions on offer. -/
theorem each_recheck (h : r.program.units.Each Q) (hw : Offering w Q) (id : Nat) :
    (r.recheck w id).1.program.units.Each Q := by
  have hall := List.foldlRecOn (lookedUpImports r.program id) (recheckImport w id)
    (motive := fun k : Resolution × Bool => k.1.program.units.Each Q) (b := (r, false)) h
    fun k hk x _ => each_recheckImport hk hw id k.2 x
  have hrecheck := recheckOutcome w r id
  generalize r.recheck w id = k at hrecheck ⊢
  cases hrecheck with
  | kept hfold | marked hfold => rwa [hfold] at hall

/-- Handling a unit makes no unit but for definitions on offer, and shared tables. -/
theorem each_handle (h : r.program.units.Each Q) (hw : Offering w Q) (work : Work) :
    (r.handle w work).1.program.units.Each Q := by
  have hhandle := handleOutcome w r work
  generalize r.handle w work = k at hhandle ⊢
  cases hhandle with
  | handled => exact h
  | @read id => exact each_readBody (r := r.begin (.read id) r.run.waiting) h hw id
  | @recheck id => exact each_recheck (r := r.begin (.recheck id) r.run.waiting) h hw id

/-- Working off the queue keeps the property. -/
theorem each_drain (fuel : Nat) (h : r.program.units.Each Q) (hw : Offering w Q) :
    (r.drain w fuel).1.program.units.Each Q :=
  drain_keeps (P := fun s => s.program.units.Each Q)
    (fun {s work later} hs _ =>
      each_handle (r := { s with run := { s.run with waiting := later } }) hs hw work) h fuel

/-- An analysis makes units of what the world offers, and of the definition of the entry point. -/
theorem each_analyze (h : r.program.units.Each Q) (hw : Offering w Q) (entry : String)
    (definition : Option Definition) (hentry : ∀ d ∈ definition, Q entry d.kind) :
    (r.analyze w entry definition).1.program.units.Each Q := by
  have hdrained {d : Definition} (hd : definition.or (w.lookup.find entry none) = some d) :
      ((r.unitFor entry d).1.drain w workLimit).1.program.units.Each Q := by
    have hkind : Q entry d.kind := by
      rcases Option.or_eq_some_iff.1 hd with hgiven | ⟨_, hfound⟩
      · exact hentry d hgiven
      · exact hw.find entry none d hfound
    exact each_drain workLimit (each_unitFor h hw hkind) hw
  have hanalyze := analyzeOutcome w r entry definition
  generalize r.analyze w entry definition = k at hanalyze ⊢
  cases hanalyze with
  | undefined | table => exact h
  | done hd _ hdrain | failed hd _ hdrain =>
    have hlast := hdrained hd
    rwa [hdrain] at hlast

/-- What may come next where names are looked up over search paths, on disks that may change in
between: a name is analyzed, or an entry point that is defined, or something else goes on. -/
inductive Searching (r : Resolution) : Resolution → Prop where
  | named (s : SearchPath) (d : Disk) (name : String) :
      Searching r (r.analyze (.ofDisk s d) name none).1
  | entered (s : SearchPath) (d : Disk) (now : Nat) (entry : Entry) (definition : Definition)
      (hmeaning : entry.meaning s d now = .defined definition) :
      Searching r (r.analyze (.ofDisk s d) entry.name (some definition)).1
  | rechecked (s : SearchPath) (d : Disk) (id : Nat) : Searching r (r.recheck (.ofDisk s d) id).1
  | markBuilt (id : Nat) : Searching r (r.markBuilt id)
  | reset : Searching r r.reset
  | restored (hsize : r.program.units.size < 2 ^ 32 - 1)
      (htime : ∀ id u, r.program.units.get? id = some u → u.timestamp < 2 ^ 64) :
      Searching r (.start (.restore r.program.save))

/-- What comes next over search paths may come next in general. -/
theorem Searching.onward (h : Searching r s) : Onward r s := by
  cases h with
  | named s d name => exact .analyzed _ name none
  | entered s d now entry definition => exact .analyzed _ entry.name (some definition)
  | rechecked s d id => exact .rechecked _ id
  | markBuilt id => exact .markBuilt id
  | reset => exact .reset
  | restored hsize htime => exact .restored hsize htime

/-- What any number of steps over search paths lead to comes about in general. -/
theorem onward_of_searching (h : Relation.ReflTransGen Searching r s) :
    Relation.ReflTransGen Onward r s :=
  Relation.ReflTransGen.mono (fun _ _ => Searching.onward) _ _ h

open SearchPath (Sited ClassAndScript sited_of_find)

/-- A search offers files only where it looks for their names. -/
theorem offering_ofDisk (s : SearchPath) (d : Disk) : Offering (.ofDisk s d) Sited where
  table kind htable := by
    refine .pathless ?_
    cases kind <;> first | rfl | cases htable
  find _ _ _ hfind := sited_of_find hfind

/-- What an entry point stands for is a file of its name, or a snippet. -/
theorem sited_of_meaning {s : SearchPath} {d : Disk} {now : Nat} {entry : Entry}
    {definition : Definition} (h : entry.meaning s d now = .defined definition) :
    Sited entry.name definition.kind := by
  cases entry with
  | named name => cases h
  | located name directory => exact sited_of_find (Entry.meaning_eq_defined h).1
  | snippet name text =>
    obtain rfl := Entry.Meaning.defined.inj h
    exact .pathless rfl

/-- One step over search paths, whatever the disk, leaves every unit where its name is looked
for. -/
theorem Searching.each (h : Searching r s) (hr : Reached r)
    (hidentifying : r.program.units.Identifying) (hsited : r.program.units.Each Sited) :
    s.program.units.Each Sited := by
  cases h with
  | named s d name =>
    exact each_analyze hsited (offering_ofDisk s d) name none fun _ hnone => by cases hnone
  | entered s d now entry definition hmeaning =>
    refine each_analyze hsited (offering_ofDisk s d) entry.name (some definition) ?_
    rintro _ ⟨⟩
    exact sited_of_meaning hmeaning
  | rechecked s d id => exact each_recheck hsited (offering_ofDisk s d) id
  | markBuilt | reset => exact hsited
  | restored hsize htime =>
    rw [restore_save_of_identifying hr hidentifying hsize htime]
    intro id v hv
    rw [start, Program.get?_kept] at hv
    obtain ⟨u, hu, rfl⟩ := Option.map_eq_some_iff.1 hv
    exact hsited id u hu

/-- Wherever resolutions over search paths lead, each unit is where its name is looked for. -/
theorem each_of_searching (h : Relation.ReflTransGen Searching (start .empty) r) :
    r.program.units.Each Sited := by
  induction h with
  | refl =>
    intro id u hu
    simp [start, Program.empty, Catalog.empty, Catalog.get?] at hu
  | tail hbefore hstep ih =>
    obtain ⟨hreached, hidentifying⟩ := identifying_of_onward (onward_of_searching hbefore)
    exact hstep.each hreached hidentifying ih

/-- All who find a file on a disk say the same of its kind and its time, and no file becomes two units
in the course of resolutions over search paths. There are two exceptions. The file of a class is a
class for those who search for the name, and a script for those who refer to it from the class
directory; and a name with slashes can lead to the file of another name. -/
theorem kind_of_file :
    (∀ (s : SearchPath) (d : Disk) (name name' : String) (context context' : Option FilePath)
      (a a' : Definition) (p q : FilePath), s.find d name context = some a →
        s.find d name' context' = some a' → a.kind.path? = some p → a'.kind.path? = some q →
        p.same q → a.timestamp = a'.timestamp ∧
          (a.kind.same a'.kind ∨ ClassAndScript a.kind a'.kind)) ∧
    ∀ r, Relation.ReflTransGen Searching (start .empty) r → ∀ (id other : Nat) (u v : BuildUnit)
      (p q : FilePath), r.program.units.get? id = some u → r.program.units.get? other = some v →
        u.kind.path? = some p → v.kind.path? = some q → p.same q →
        id = other ∨ ClassAndScript u.kind v.kind ∨
          u.name ≠ v.name ∧ ('/' ∈ u.name.toList ∨ '/' ∈ v.name.toList) := by
  have hkinds {kind kind' : UnitKind} {p q : FilePath} (htag : kind.tag = kind'.tag)
      (hp : kind.path? = some p) (hq : kind'.path? = some q) (hsame : p.same q) :
      kind.same kind' := by
    rw [UnitKind.same, htag, beq_self_eq_true, Bool.true_and, hp, hq]
    exact hsame
  refine ⟨fun s d name name' context context' a a' p q h h' hp hq hsame => ?_,
    fun r hr id other u v p q hu hv hp hq hsame => ?_⟩
  · obtain ⟨htime, hkind⟩ := SearchPath.alike_of_find h h' hp hq hsame
    exact ⟨htime, hkind.imp_left fun htag => hkinds htag hp hq hsame⟩
  · have hsited := each_of_searching hr
    have hidentified := (identifying_of_onward (onward_of_searching hr)).2.identified
    rcases (hsited id u hu).tag_eq (hsited other v hv) hp hq hsame with htag | hclass
    · by_cases hname : u.name = v.name
      · exact .inl (hidentified.file id other u v hu hv hname (by rw [UnitKind.isFile, hp]; rfl)
          (hkinds htag hp hq hsame))
      · refine .inr (.inr ⟨hname, ?_⟩)
        by_contra hslash
        rw [not_or] at hslash
        exact hname ((hsited id u hu).name_eq (hsited other v hv) hslash.1 hslash.2 hp hq hsame)
    · exact .inr (.inl hclass)

/-- A search from the directory around that of a class. -/
def classSearch : SearchPath := .new [⟨"src"⟩] []

/-- The class was analyzed by its name, and its file once more by the name of a file in its
directory. -/
def classMet : Resolution :=
  (((start .empty).analyze (.ofDisk classSearch SearchPath.nestedDisk) "P" none).1.analyze
    (.ofDisk classSearch SearchPath.nestedDisk) "@P/P" none).1

/-- The example's units come about by two analyses. -/
theorem searching_classMet : Relation.ReflTransGen Searching (start .empty) classMet :=
  .tail (.single (.named classSearch SearchPath.nestedDisk "P"))
    (.named classSearch SearchPath.nestedDisk "@P/P")

/-- A script has one kind and time however its directory is spelled, and the units of the file of a class
are the two that it may have. -/
theorem kind_of_file_class :
    classSearch.find SearchPath.nestedDisk "a" (some ⟨"src/lib"⟩) =
      some ⟨.script ⟨"src/lib/a.m"⟩, 7, .file ⟨"src/lib/a.m"⟩⟩ ∧
    classSearch.find SearchPath.nestedDisk "a" (some ⟨"src/./lib"⟩) =
      some ⟨.script ⟨"src/./lib/a.m"⟩, 7, .file ⟨"src/./lib/a.m"⟩⟩ ∧
    (UnitKind.script ⟨"src/lib/a.m"⟩).same (.script ⟨"src/./lib/a.m"⟩) ∧
    Relation.ReflTransGen Searching (start .empty) classMet ∧
    (classMet.program.units.get? 0).map BuildUnit.kind = some (.classFile ⟨"src/@P/P.m"⟩) ∧
    (classMet.program.units.get? 1).map BuildUnit.kind = some (.script ⟨"src/@P/P.m"⟩) ∧
    ClassAndScript (.classFile ⟨"src/@P/P.m"⟩) (.script ⟨"src/@P/P.m"⟩) := by
  obtain ⟨hfound, hreached⟩ := kind_of_file
  have hfind : classSearch.find SearchPath.nestedDisk "a" (some ⟨"src/lib"⟩) =
      some ⟨.script ⟨"src/lib/a.m"⟩, 7, .file ⟨"src/lib/a.m"⟩⟩ := by decide
  have hfind' : classSearch.find SearchPath.nestedDisk "a" (some ⟨"src/./lib"⟩) =
      some ⟨.script ⟨"src/./lib/a.m"⟩, 7, .file ⟨"src/./lib/a.m"⟩⟩ := by decide
  obtain ⟨_, hkind⟩ := hfound _ _ _ _ _ _ _ _ _ _ hfind hfind' rfl rfl (by decide)
  have hclass : classMet.program.units.get? 0 = some ⟨"P", 0, .classFile ⟨"src/@P/P.m"⟩, 5,
      some (.file ⟨"src/@P/P.m"⟩), []⟩ := by decide +kernel
  have hscript : classMet.program.units.get? 1 = some ⟨"P", 1, .script ⟨"src/@P/P.m"⟩, 5,
      some (.file ⟨"src/@P/P.m"⟩), []⟩ := by decide +kernel
  refine ⟨hfind, hfind', ?_, searching_classMet, by rw [hclass]; rfl, by rw [hscript]; rfl, ?_⟩
  · rcases hkind with hsame | hother
    · exact hsame
    · cases hother
  · rcases hreached classMet searching_classMet 0 1 _ _ _ _ hclass hscript rfl rfl
      (by decide) with heq | hpair | ⟨hname, _⟩
    · cases heq
    · exact hpair
    · exact absurd rfl hname

/-- The file of a class is a class for a search and a script for its directory, and the code of the
class makes it both. By the name of its path it is one more unit. -/
theorem kinds_of_classFile :
    classSearch.find SearchPath.nestedDisk "P" none =
      some ⟨.classFile ⟨"src/@P/P.m"⟩, 5, .file ⟨"src/@P/P.m"⟩⟩ ∧
    classSearch.find SearchPath.nestedDisk "P" (some ⟨"src/@P"⟩) =
      some ⟨.script ⟨"src/@P/P.m"⟩, 5, .file ⟨"src/@P/P.m"⟩⟩ ∧
    Relation.ReflTransGen Searching (start .empty) classMet ∧
    classMet.program.units.units.toList.map (fun u => (u.name, u.kind)) =
      [("P", .classFile ⟨"src/@P/P.m"⟩), ("P", .script ⟨"src/@P/P.m"⟩),
        ("@P/P", .script ⟨"src/@P/P.m"⟩)] :=
  ⟨by decide +kernel, by decide +kernel, searching_classMet, by decide +kernel⟩

end Resolution

end ScriptBuild
