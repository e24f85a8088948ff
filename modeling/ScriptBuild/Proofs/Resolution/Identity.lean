import Mathlib.Algebra.Ring.Nat
import ScriptBuild.Proofs.Resolution.Tracking

namespace ScriptBuild

/-- A unit is still the same one: it has its name, its overload number, its kind, and what identifies
it. -/
structure BuildUnit.Remains (u v : BuildUnit) : Prop where
  name : v.name = u.name
  overload : v.overload = u.overload
  kind : v.kind = u.kind
  identity : v.identity = u.identity

theorem BuildUnit.Remains.trans {u v w : BuildUnit} (huv : u.Remains v) (hvw : v.Remains w) :
    u.Remains w where
  name := hvw.name.trans huv.name
  overload := hvw.overload.trans huv.overload
  kind := hvw.kind.trans huv.kind
  identity := hvw.identity.trans huv.identity

/-- A unit is the same one after everything that becomes of it. -/
theorem BuildUnit.Becomes.remains {u v : BuildUnit} (h : u.Becomes v) : u.Remains v :=
  ⟨h.name, h.overload, h.kind, h.identity⟩

/-- What is kept of a unit is the same unit. -/
theorem BuildUnit.remains_kept (u : BuildUnit) : u.Remains u.kept := ⟨rfl, rfl, rfl, rfl⟩

namespace Catalog

variable {c d e : Catalog} {id other k : Nat} {u v : BuildUnit} {name : String} {kind : UnitKind}
  {timestamp overload : Nat} {body : Option Body}

/-- Every unit of a catalog is the same unit of another one, under the same number. -/
def Retains (c d : Catalog) : Prop := ∀ id u, c.get? id = some u → ∃ v, d.get? id = some v ∧ u.Remains v

theorem Retains.refl (c : Catalog) : c.Retains c := fun _ u hu => ⟨u, hu, rfl, rfl, rfl, rfl⟩

theorem Retains.trans (hcd : c.Retains d) (hde : d.Retains e) : c.Retains e := by
  intro id u hu
  obtain ⟨v, hv, huv⟩ := hcd id u hu
  obtain ⟨w, hw, hvw⟩ := hde id v hv
  exact ⟨w, hw, huv.trans hvw⟩

theorem Grows.retains (h : c.Grows d) : c.Retains d := fun id u hu =>
  (h id u hu).imp fun _ hv => ⟨hv.1, hv.2.remains⟩

/-- The units of a name are listed in the order of their discovery. -/
theorem pairwise_overloads (c : Catalog) (name : String) :
    (c.overloads name).Pairwise (· < ·) := by
  rw [overloads_eq_filter]
  exact List.pairwise_lt_range.filter _

/-- A unit that is added comes last among those of its name. -/
theorem overloads_push : (c.push u).overloads name =
    c.overloads name ++ if u.name = name then [c.size] else [] := by
  rw [overloads, (c.push u).listed, push, BuildUnit.positions_push, overloads, c.listed, size]

/-- A name has no more units than there are. -/
theorem length_overloads_le (c : Catalog) (name : String) :
    (c.overloads name).length ≤ c.size := by
  rw [overloads_eq_filter]
  exact Nat.le_trans (List.length_filter_le _ _) (Nat.le_of_eq List.length_range)

/-- A catalog that retains all units, and has no other ones, lists the same ones under each name. -/
theorem Retains.overloads_eq (h : c.Retains d) (hsize : d.size = c.size) (name : String) :
    d.overloads name = c.overloads name := by
  rw [overloads_eq_filter, overloads_eq_filter, ids, ids, hsize]
  refine List.filter_congr fun id hid => ?_
  obtain ⟨u, hu⟩ := exists_get? (List.mem_range.1 hid)
  obtain ⟨v, hv, huv⟩ := h id u hu
  rw [hu, hv, Option.any_some, Option.any_some, huv.name]

/-- The units of each name are numbered in the order of their discovery. -/
def Numbered (c : Catalog) : Prop := ∀ name k id, (c.overloads name)[k]? = some id →
  ∃ u, c.get? id = some u ∧ u.overload = k

/-- An overload number is smaller than the number of units. -/
theorem Numbered.overload_lt (h : c.Numbered) (hu : c.get? id = some u) : u.overload < c.size := by
  obtain ⟨k, hk⟩ := List.mem_iff_getElem?.1 (mem_overloads.2 ⟨u, hu, rfl⟩)
  obtain ⟨v, hv, rfl⟩ := h u.name k id hk
  rw [Option.some.inj (hu.symm.trans hv)] at hk ⊢
  exact Nat.lt_of_lt_of_le (List.getElem?_eq_some_iff.1 hk).1 (c.length_overloads_le _)

/-- Of consecutive numbers the last one is the largest. -/
theorem foldl_max_of_getElem? (ids : List Nat) (value : Nat → Nat) (first : Nat)
    (hvalue : ∀ k id, ids[k]? = some id → value id = first + k + 1) :
    ids.foldl (fun next id => max next (value id)) first = first + ids.length := by
  induction ids generalizing first with
  | nil => rfl
  | cons id ids ih =>
    have hhead : value id = first + 1 := hvalue 0 id rfl
    rw [List.foldl_cons, hhead, Nat.max_eq_right (Nat.le_succ first), ih, List.length_cons]
    · omega
    · intro k other hk
      rw [hvalue (k + 1) other hk]
      omega

/-- The number of the next unit of a name is how many there are. -/
theorem Numbered.nextOverload_eq (h : c.Numbered) (name : String) :
    c.nextOverload name = (c.overloads name).length := by
  rw [nextOverload, foldl_max_of_getElem? _ _ 0 fun k id hk => ?_, Nat.zero_add]
  obtain ⟨u, hu, rfl⟩ := h name k id hk
  rw [hu, Option.map_some, Option.getD_some, Nat.zero_add]

/-- A unit that is added gets the next overload number of its name. -/
theorem Numbered.insert (h : c.Numbered) : (c.insert name kind timestamp body).Numbered := by
  intro other k id hk
  rw [Catalog.insert, overloads_push] at hk
  by_cases hlt : k < (c.overloads other).length
  · rw [List.getElem?_append_left hlt] at hk
    obtain ⟨u, hu, hover⟩ := h other k id hk
    refine ⟨u, ?_, hover⟩
    rw [get?_insert, if_neg (Nat.ne_of_lt (lt_size_of_get? hu)), hu]
  · rw [List.getElem?_append_right (Nat.le_of_not_lt hlt)] at hk
    split at hk
    · next hname =>
      obtain rfl : name = other := hname
      have hlast : k = (c.overloads name).length := by
        have hzero := (List.getElem?_eq_some_iff.1 hk).1
        rw [List.length_singleton] at hzero
        omega
      subst hlast
      obtain rfl : c.size = id := by simpa using hk
      exact ⟨_, get?_insert.trans (if_pos rfl), h.nextOverload_eq name⟩
    · simp at hk

/-- What tells the units of a catalog apart, as it comes about: their overload numbers count the units
of a name, no two units of a name have the same identity, and shared tables have names of their
own. -/
structure Identifying (c : Catalog) : Prop where
  numbered : c.Numbered
  unique : ∀ id other u v, c.get? id = some u → c.get? other = some v → u.name = v.name →
    u.identity = v.identity → id = other
  table : ∀ id u, c.get? id = some u → u.kind.isSharedTable → u.name = Resolution.tableName u.kind

/-- Nothing need be told apart in an empty catalog. -/
theorem identifying_empty : empty.Identifying where
  numbered name k id hk := by simp [overloads, empty] at hk
  unique id _ u _ hu := by simp [empty, get?] at hu
  table id u hu := by simp [empty, get?] at hu

/-- What tells units apart is retained with them. -/
theorem Identifying.of_retains (h : c.Identifying) (hretains : c.Retains d) (hsize : d.size = c.size) :
    d.Identifying := by
  have hback {id : Nat} {v : BuildUnit} (hv : d.get? id = some v) :
      ∃ u, c.get? id = some u ∧ u.Remains v := by
    obtain ⟨u, hu⟩ := exists_get? (hsize ▸ lt_size_of_get? hv)
    obtain ⟨v', hv', huv⟩ := hretains id u hu
    exact ⟨u, hu, Option.some.inj (hv.symm.trans hv') ▸ huv⟩
  refine ⟨fun name k id hk => ?_, fun id other u v hu hv hname hidentity => ?_,
    fun id v hv htable => ?_⟩
  · rw [hretains.overloads_eq hsize] at hk
    obtain ⟨u, hu, hover⟩ := h.numbered name k id hk
    obtain ⟨v, hv, huv⟩ := hretains id u hu
    exact ⟨v, hv, huv.overload.trans hover⟩
  · obtain ⟨u', hu', huu⟩ := hback hu
    obtain ⟨v', hv', hvv⟩ := hback hv
    exact h.unique id other u' v' hu' hv' (by rw [← huu.name, ← hvv.name, hname])
      (by rw [← huu.identity, ← hvv.identity, hidentity])
  · obtain ⟨u, hu, huv⟩ := hback hv
    rw [huv.kind] at htable ⊢
    rw [huv.name]
    exact h.table id u hu htable

/-- A definition that denotes nothing yet is told apart from all units. -/
theorem Identifying.insert (h : c.Identifying) (hnew : c.findMatch name kind timestamp = none)
    (htable : kind.isSharedTable → name = Resolution.tableName kind) :
    (c.insert name kind timestamp body).Identifying where
  numbered := h.numbered.insert
  unique id other u v hu hv hname hidentity := by
    have hother {id : Nat} {w : BuildUnit} (hw : c.get? id = some w) (hname : w.name = name) :
        w.identity ≠ kind.identity timestamp := fun heq =>
      findMatch_eq_none_iff.1 hnew id ⟨w, hw, hname, heq⟩
    rw [get?_insert] at hu hv
    split at hu <;> split at hv
    · omega
    · obtain rfl := Option.some.inj hu
      exact absurd hidentity.symm (hother hv hname.symm)
    · obtain rfl := Option.some.inj hv
      exact absurd hidentity (hother hu hname)
    · exact h.unique id other u v hu hv hname hidentity
  table id u hu hshared := by
    rw [get?_insert] at hu
    split at hu
    · obtain rfl := Option.some.inj hu
      exact htable hshared
    · exact h.table id u hu hshared

/-- How the units of a catalog are told apart and found, said for all who read it. A name with an
    overload number is a unit's for good, through every run and through saving and loading; a
    definition that denotes a unit makes no other one. -/
structure Identified (c : Catalog) : Prop where
  position : ∀ id, (c.get? id).isSome ↔ id < c.size
  overload : ∀ id other u v, c.get? id = some u → c.get? other = some v → u.name = v.name →
    u.overload = v.overload → id = other
  /-- No two units of a name and kind have the same file. -/
  file : ∀ id other u v, c.get? id = some u → c.get? other = some v → u.name = v.name →
    u.kind.isFile → u.kind.same v.kind → id = other
  /-- No two units of a name and kind that their time identifies have the same time. -/
  ephemeral : ∀ id other u v, c.get? id = some u → c.get? other = some v → u.name = v.name →
    u.kind.isEphemeral → u.kind = v.kind → u.timestamp = v.timestamp → id = other
  /-- There is one table of global variables at most, and one of built-in functions. -/
  table : ∀ id other u v, c.get? id = some u → c.get? other = some v → u.kind.isSharedTable →
    u.kind = v.kind → id = other
  /-- The index lists the units of a name in the order of their discovery. -/
  index : ∀ name, (c.overloads name).Pairwise (· < ·) ∧
    ∀ id, id ∈ c.overloads name ↔ ∃ u, c.get? id = some u ∧ u.name = name
  find_iff : ∀ name overload id, c.find name overload = some id ↔
    ∃ u, c.get? id = some u ∧ u.name = name ∧ u.overload = overload
  findMatch_iff : ∀ name kind timestamp id, c.findMatch name kind timestamp = some id ↔
    ∃ u, c.get? id = some u ∧ u.name = name ∧ denotes kind timestamp u

/-- Units whose numbers count the units of their names have different ones. -/
theorem Numbered.distinct (h : c.Numbered) : c.Distinct := by
  intro id other u v hu hv hname hoverload
  obtain ⟨k, hk⟩ := List.mem_iff_getElem?.1 (mem_overloads.2 ⟨u, hu, hname⟩)
  obtain ⟨l, hl⟩ := List.mem_iff_getElem?.1 (mem_overloads.2 ⟨v, hv, rfl⟩)
  obtain ⟨u', hu', hk'⟩ := h v.name k id hk
  obtain ⟨v', hv', hl'⟩ := h v.name l other hl
  obtain rfl := Option.some.inj (hu.symm.trans hu')
  obtain rfl := Option.some.inj (hv.symm.trans hv')
  rw [← hk', hoverload, hl', hl] at hk
  exact (Option.some.inj hk).symm

/-- Units that are numbered in the order of discovery, and told apart by their identities, are found
by number and by definition. -/
theorem Identifying.identified (h : c.Identifying) : c.Identified where
  position _ := isSome_get?_iff
  overload := h.numbered.distinct
  file id other u v hu hv hname hfile hsame := by
    obtain ⟨htag, hpath⟩ := UnitKind.same_iff.1 hsame
    refine h.unique id other u v hu hv hname ?_
    have hephemeral : u.kind.isEphemeral = false := UnitKind.isEphemeral_of_isFile hfile
    simp only [BuildUnit.identity, UnitKind.identity, htag, hpath,
      ← UnitKind.isEphemeral_eq_of_tag htag, hephemeral, Bool.false_eq_true, if_false]
  ephemeral id other u v hu hv hname _ hkind htime :=
    h.unique id other u v hu hv hname (by rw [BuildUnit.identity, BuildUnit.identity, hkind, htime])
  table id other u v hu hv htable hkind := by
    have hname : u.name = v.name := by
      rw [h.table id u hu htable, h.table other v hv (hkind ▸ htable), hkind]
    refine h.unique id other u v hu hv hname ?_
    have hephemeral : v.kind.isEphemeral = false := by
      rw [hkind] at htable
      cases hv : v.kind <;> simp_all [UnitKind.isSharedTable, UnitKind.isEphemeral]
    simp only [BuildUnit.identity, UnitKind.identity, hkind, hephemeral, Bool.false_eq_true, if_false]
  index name := ⟨c.pairwise_overloads name, fun _ => mem_overloads⟩
  find_iff _ _ _ := h.numbered.distinct.find_eq_some_iff
  findMatch_iff name kind timestamp id := by
    simp only [denotes_iff]
    refine ⟨describes_of_findMatch, fun hdescribes => findMatch_eq_some_iff.2 ⟨hdescribes, ?_⟩⟩
    rintro other hlt ⟨v, hv, hvname, hvidentity⟩
    obtain ⟨u, hu, huname, huidentity⟩ := hdescribes
    exact Nat.ne_of_lt hlt (h.unique other id v u hv hu (hvname.trans huname.symm)
      (hvidentity.trans huidentity.symm))

end Catalog

namespace Program

variable {p q : Program} {id : Nat}

/-- A change adds at most one unit, which nothing denoted. -/
theorem Change.units_eq_insert_or (h : p.Change id q) : (∃ name kind timestamp body,
    p.units.findMatch name kind timestamp = none ∧
      (kind.isSharedTable → name = Resolution.tableName kind) ∧
      q.units = p.units.insert name kind timestamp body) ∨ q.units.size = p.units.size := by
  cases h with
  | grow hgrow =>
    cases hgrow with
    | insert name kind timestamp body hnew htable =>
      exact .inl ⟨name, kind, timestamp, some body, hnew, htable, rfl⟩
    | slot | stamp | attach => exact .inr Catalog.size_modify
    | node => exact .inr rfl
  | clear | exports => exact .inr Catalog.size_modify
  | record => exact .inr (congrArg Catalog.size units_recordImport)
  | remove => exact .inr (congrArg Catalog.size units_removeImport)

/-- One change of a program tells units apart as before. -/
theorem identifying_of_change (h : p.units.Identifying) (hchange : p.Change id q) :
    q.units.Identifying := by
  rcases hchange.units_eq_insert_or with ⟨name, kind, timestamp, body, hnew, htable, heq⟩ | hsize
  · rw [heq]
    exact h.insert hnew htable
  · exact h.of_retains hchange.touches.units.retains hsize

/-- Whatever becomes of a program, its units are told apart. -/
theorem identifying_of_evolves (h : p.units.Identifying) (hevolves : p.Evolves q) :
    q.units.Identifying := by
  induction hevolves with
  | refl => exact h
  | tail _ hchange ih =>
    obtain ⟨id, hchange⟩ := hchange
    exact identifying_of_change ih hchange

/-- What is kept of a program retains its units. -/
theorem retains_kept (p : Program) : p.units.Retains p.kept.units := fun _ u hu =>
  ⟨u.kept, by rw [get?_kept, hu, Option.map_some], u.remains_kept⟩

end Program

namespace Resolution

variable {r s : Resolution}

/-- What may come next: the analysis of an entry point in any world, which may fail, another look at
the imports of a unit, a unit is built, a new run, or the program is saved and loaded. Unit numbers
have 32 bits and times have 64. -/
inductive Onward (r : Resolution) : Resolution → Prop where
  | analyzed (w : World) (entry : String) (definition : Option Definition) :
      Onward r (r.analyze w entry definition).1
  | rechecked (w : World) (id : Nat) : Onward r (r.recheck w id).1
  | markBuilt (id : Nat) : Onward r (r.markBuilt id)
  | reset : Onward r r.reset
  | restored (hsize : r.program.units.size < 2 ^ 32 - 1)
      (htime : ∀ id u, r.program.units.get? id = some u → u.timestamp < 2 ^ 64) :
      Onward r (.start (.restore r.program.save))

/-- What comes next after a reached state is a reached state. -/
theorem Onward.reached (h : Onward r s) (hr : Reached r) : Reached s := by
  cases h with
  | analyzed w entry definition => exact .analyzed w entry definition hr
  | rechecked w id => exact .rechecked w id hr
  | markBuilt id => exact .markBuilt id hr
  | reset => exact .reset hr
  | restored => exact .restored hr

/-- What is saved comes back, as overload numbers fit into 32 bits where the units do. -/
theorem restore_save_of_identifying (hr : Reached r) (h : r.program.units.Identifying)
    (hsize : r.program.units.size < 2 ^ 32 - 1)
    (htime : ∀ id u, r.program.units.get? id = some u → u.timestamp < 2 ^ 64) :
    .restore r.program.save = r.program.kept := by
  have hfits : r.program.Fits := fun id u hu => by
    have hlt := h.numbered.overload_lt hu
    exact ⟨by rw [Archive.small]; omega, htime id u hu⟩
  exact hr.kept.linked.restore_save.trans (if_pos (Program.fits_ofProgram hfits))

/-- Whatever comes next, the units are told apart as before, and each one is still the same. -/
theorem Onward.identifying (h : Onward r s) (hr : Reached r)
    (hidentifying : r.program.units.Identifying) :
    s.program.units.Identifying ∧ r.program.units.Retains s.program.units := by
  have hevolves (h : r.program.Evolves s.program) :
      s.program.units.Identifying ∧ r.program.units.Retains s.program.units :=
    ⟨Program.identifying_of_evolves hidentifying h, (grows_of_evolves h).retains⟩
  cases h with
  | analyzed w entry definition => exact hevolves (hr.kept.sane.analyze w entry definition).2
  | rechecked w id => exact hevolves (hr.kept.evolves_recheck w id).2
  | markBuilt | reset => exact ⟨hidentifying, .refl _⟩
  | restored hsize htime =>
    rw [restore_save_of_identifying hr hidentifying hsize htime]
    exact ⟨hidentifying.of_retains r.program.retains_kept Program.size_kept, r.program.retains_kept⟩

/-- In every state that comes about from an empty program, units are told apart by their overload
numbers and identities. -/
theorem identifying_of_onward (h : Relation.ReflTransGen Onward (start .empty) r) :
    Reached r ∧ r.program.units.Identifying := by
  induction h with
  | refl => exact ⟨.start, Catalog.identifying_empty⟩
  | tail _ hstep ih => exact ⟨hstep.reached ih.1, (hstep.identifying ih.1 ih.2).1⟩

/-- Wherever resolutions lead from nothing, by way of saved programs too, the units are told apart by
their names with their overload numbers, and by what definitions denote them; and each unit remains
the same one under its number from then on. -/
theorem identified_of_onward (hr : Relation.ReflTransGen Onward (start .empty) r)
    (hs : Relation.ReflTransGen Onward r s) :
    r.program.units.Identified ∧ r.program.units.Retains s.program.units := by
  refine ⟨(identifying_of_onward hr).2.identified, ?_⟩
  induction hs with
  | refl => exact .refl _
  | tail hbefore hstep ih =>
    obtain ⟨hreached, hidentifying⟩ := identifying_of_onward (hr.trans hbefore)
    exact ih.trans (hstep.identifying hreached hidentifying).2

/-- A world of one script, which may be moved. -/
def movingWorld (path : FilePath) : World where
  lookup :=
    { find := fun name _ => if name = "g" then some ⟨.script path, 1, .file path⟩ else none
      names := {"g"}
      namesIn := fun _ => ∅ }
  events _ := .ok []

/-- The script was found, and the program was saved. -/
def foundOnce : Resolution := ((start .empty).analyze (movingWorld ⟨"g.m"⟩) "g" none).1

/-- What was kept was loaded, and the script was found elsewhere. -/
def foundTwice : Resolution :=
  ((start foundOnce.program.kept).analyze (movingWorld ⟨"lib/g.m"⟩) "g" none).1

/-- The script that was found elsewhere is another unit of the same name. -/
theorem identified_of_onward_moved : Relation.ReflTransGen Onward (start .empty) foundOnce ∧
    Relation.ReflTransGen Onward foundOnce foundTwice ∧
    (foundTwice.program.units.overloads "g").map
      (fun id => (foundTwice.program.units.get? id).map fun u => (u.overload, u.kind)) =
        [some (0, .script ⟨"g.m"⟩), some (1, .script ⟨"lib/g.m"⟩)] ∧
    foundTwice.program.units.Identified ∧
    foundOnce.program.units.Retains foundTwice.program.units := by
  have hfirst : Relation.ReflTransGen Onward (start .empty) foundOnce :=
    .single (.analyzed _ _ _)
  have hsize : foundOnce.program.units.size < 2 ^ 32 - 1 := by decide
  have htime : ∀ id u, foundOnce.program.units.get? id = some u → u.timestamp < 2 ^ 64 := by
    have hall : ∀ u ∈ foundOnce.program.units.units, u.timestamp < 2 ^ 64 := by decide
    exact fun id u hu => hall u (Array.mem_of_getElem? hu)
  have hloaded : Onward foundOnce (start foundOnce.program.kept) := by
    obtain ⟨hreached, hidentifying⟩ := identifying_of_onward hfirst
    rw [← restore_save_of_identifying hreached hidentifying hsize htime]
    exact .restored hsize htime
  have hnext : Relation.ReflTransGen Onward foundOnce foundTwice :=
    .tail (.single hloaded) (.analyzed _ _ _)
  exact ⟨hfirst, hnext, by decide +kernel, (identified_of_onward (hfirst.trans hnext) .refl).1,
    (identified_of_onward hfirst hnext).2⟩

end Resolution

end ScriptBuild
