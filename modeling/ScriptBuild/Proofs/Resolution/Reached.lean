import ScriptBuild.Proofs.Archive.RoundTrip
import ScriptBuild.Proofs.Resolution.Evolution

namespace ScriptBuild

/-- Units, dependencies and imports fit together whatever becomes of a program. -/
theorem Program.Linked.evolves {p q : Program} (h : p.Linked) (hevolves : p.Evolves q) :
    q.Linked := by
  induction hevolves with
  | refl => exact h
  | tail _ hchange ih =>
    obtain ⟨id, hchange⟩ := hchange
    exact ih.change hchange

/-- What is permitted stays permitted whatever becomes of a program. -/
theorem Program.Permitted.evolves {p q : Program} (h : p.Permitted) (hevolves : p.Evolves q) :
    q.Permitted := by
  induction hevolves with
  | refl => exact h
  | tail _ hchange ih =>
    obtain ⟨id, hchange⟩ := hchange
    exact ih.change hchange

/-- What is kept of a program is permitted. -/
theorem Program.Permitted.kept {p : Program} (h : p.Permitted) : p.kept.Permitted := by
  intro id t n htakes
  obtain ⟨⟨u, hu, htable⟩, htarget, hlisted, hforeign⟩ := h id t n htakes
  refine ⟨⟨u.kept, by rw [get?_kept, hu, Option.map_some], htable⟩,
    fun other heq => by rw [size_kept]; exact htarget other heq, fun other v heq hv => ?_,
    fun v hv hslot hne => ?_⟩
  · rw [get?_kept] at hv
    obtain ⟨v', hv', rfl⟩ := Option.map_eq_some_iff.1 hv
    exact hlisted other v' heq hv'
  · rw [get?_kept] at hv
    obtain ⟨v', hv', rfl⟩ := Option.map_eq_some_iff.1 hv
    obtain ⟨other, g, heq, hget, hkind⟩ := hforeign v' hv' hslot hne
    exact ⟨other, g.kept, heq, by rw [get?_kept, hget, Option.map_some], hkind⟩

namespace Resolution

variable {w : World} {r : Resolution} {id : Nat}

/-- The states that resolutions lead to from nothing. Anything may be analyzed or looked up again in
    any world, and in between runs begin anew and the program is saved and restored. -/
inductive Reached : Resolution → Prop where
  | start : Reached (.start .empty)
  /-- The analysis of an entry point, which may succeed or fail. -/
  | analyzed (w : World) (entry : String) (definition : Option Definition) {r : Resolution}
      (h : Reached r) : Reached (r.analyze w entry definition).1
  | reset {r : Resolution} (h : Reached r) : Reached r.reset
  /-- The imports of any unit are looked up again. -/
  | rechecked (w : World) (id : Nat) {r : Resolution} (h : Reached r) : Reached (r.recheck w id).1
  | markBuilt (id : Nat) {r : Resolution} (h : Reached r) : Reached (r.markBuilt id)
  /-- The program is saved, and restored in a later process. -/
  | restored {r : Resolution} (h : Reached r) : Reached (.start (.restore r.program.save))

/-- What every step keeps. -/
structure Kept (r : Resolution) : Prop where
  sane : r.Sane
  linked : r.program.Linked
  permitted : r.program.Permitted

/-- Every step that is sane and lets the program evolve keeps it in order. -/
theorem Kept.of_evolves {s : Resolution} (h : Kept r) (hsane : s.Sane)
    (hevolves : r.program.Evolves s.program) : Kept s :=
  ⟨hsane, h.linked.evolves hevolves, h.permitted.evolves hevolves⟩

theorem kept_start {p : Program} (hlinked : p.Linked) (hpermitted : p.Permitted) : Kept (start p) :=
  ⟨sane_start p, hlinked, hpermitted⟩

/-- A unit that imports nothing has nothing to be looked up again. -/
theorem recheck_of_idle (hidle : ∀ t n, ¬ r.program.Takes id t n) :
    r.recheck w id = (r, false) := by
  have hnone : lookedUpImports r.program id = [] := by
    refine List.eq_nil_iff_forall_not_mem.2 fun x hmem => ?_
    exact hidle x.1 x.2 (mem_lookedUpImports.1 hmem).1
  simp [Resolution.recheck, hnone]

/-- Fixing up the imports of any unit, also of one that is not there, lets the program evolve. -/
theorem Kept.evolves_recheck (h : Kept r) (w : World) (id : Nat) :
    (r.recheck w id).1.Sane ∧ r.program.Evolves (r.recheck w id).1.program := by
  by_cases hidle : ∀ t n, ¬ r.program.Takes id t n
  · rw [recheck_of_idle hidle]
    exact ⟨h.sane, .refl⟩
  · push Not at hidle
    obtain ⟨t, n, htakes⟩ := hidle
    obtain ⟨hsane, hchanges⟩ := h.sane.recheck w (h.permitted id t n htakes).taker
    exact ⟨hsane, hchanges.evolves⟩

/-- Fixing up the imports of a unit keeps the program in order. -/
theorem Kept.recheck (h : Kept r) (w : World) (id : Nat) : Kept (r.recheck w id).1 :=
  h.of_evolves (h.evolves_recheck w id).1 (h.evolves_recheck w id).2

/-- A program that is saved and restored is in order. -/
theorem Kept.restore (h : Kept r) : Kept (start (.restore r.program.save)) := by
  rw [h.linked.restore_save]
  split
  · exact kept_start h.linked.kept h.permitted.kept
  · exact kept_start Program.linked_empty Program.permitted_empty

theorem Reached.kept (h : Reached r) : Kept r := by
  induction h with
  | start => exact kept_start Program.linked_empty Program.permitted_empty
  | analyzed w entry definition _ ih =>
    obtain ⟨hsane, hevolves⟩ := ih.sane.analyze w entry definition
    exact ih.of_evolves hsane hevolves
  | reset _ ih => exact kept_start ih.linked ih.permitted
  | rechecked w id _ ih => exact ih.recheck w id
  | markBuilt id _ ih => exact ⟨⟨ih.sane.waiting, ih.sane.found⟩, ih.linked, ih.permitted⟩
  | restored _ ih => exact ih.restore

/-- In every state that is reached, units, dependencies and imports fit together. -/
theorem coherent_of_reached (h : Reached r) : r.program.Coherent :=
  h.kept.linked.coherent h.kept.permitted

/-- A world of two scripts. One has a global variable, calls the other, and calls a function that is
nowhere; the other one calls back and cannot always be read. -/
def twoScripts (readable : Bool) : World where
  lookup :=
    { find := fun name _ =>
        if name = "f" then some ⟨.script ⟨"f.m"⟩, 1, .file ⟨"f.m"⟩⟩
        else if name = "g" then some ⟨.script ⟨"g.m"⟩, 1, .file ⟨"g.m"⟩⟩
        else none
      names := {"f", "g"}
      namesIn := fun _ => ∅ }
  events
    | .file ⟨"f.m"⟩ => .ok [.declare .global "x" ⟨0, 1⟩, .reference "g" ⟨2, 3⟩,
        .reference "h" ⟨4, 5⟩]
    | _ => if readable then .ok [.reference "f" ⟨0, 1⟩] else .error .tooManyUnits

/-- The state after an analysis that fails, a look at the imports of the second script, and another
analysis in a new run. -/
def twoAttempts : Resolution :=
  let failed := ((start .empty).analyze (twoScripts false) "f" none).1
  let looked := (failed.recheck (twoScripts true) 2).1
  (looked.reset.analyze (twoScripts true) "g" none).1

theorem reached_twoAttempts : Reached twoAttempts :=
  .analyzed _ _ _ (.reset (.rechecked _ _ (.analyzed _ _ _ .start)))

theorem coherent_twoAttempts :
    Reached twoAttempts ∧ twoAttempts.program.units.size = 3 ∧ twoAttempts.program.Coherent :=
  ⟨reached_twoAttempts, by decide, coherent_of_reached reached_twoAttempts⟩

end Resolution

namespace Program

variable {p : Program}

/-- The programs that are put together from nothing without a resolution: units are added as nodes
and get slots, and imports are recorded and removed among them. -/
inductive Assembled : Program → Prop where
  | empty : Assembled .empty
  | insertUnit (name : String) (kind : UnitKind) (timestamp : Nat) (body : Option Body)
      {p : Program} (h : Assembled p) : Assembled (p.insertUnit name kind timestamp body)
  | addSlot (id : Nat) (slot : String) {p : Program} (h : Assembled p) :
      Assembled { p with units := p.units.modify id (·.addSlot slot) }
  | recordImport (id : Nat) (t : Target) (n : String) {p : Program} (h : Assembled p)
      (hid : id < p.units.size) (htarget : ∀ other, t = .unit other → other < p.units.size) :
      Assembled (p.recordImport id t n)
  | removeImport (id : Nat) (t : Target) (n : String) {p : Program} (h : Assembled p) :
      Assembled (p.removeImport id t n)

/-- In an assembled program units, dependencies and imports fit together. -/
theorem Assembled.linked (h : Assembled p) : p.Linked := by
  induction h with
  | empty => exact linked_empty
  | insertUnit name kind timestamp body _ ih => exact ih.insertUnit
  | addSlot id slot _ ih =>
    exact ih.modify id (fun u => BuildUnit.becomes_addSlot.name) fun u =>
      BuildUnit.becomes_addSlot.overload
  | recordImport id t n _ hid htarget ih => exact ih.recordImport hid htarget
  | removeImport id t n _ ih => exact ih.removeImport

/-- A program that is saved and restored has the same units under the same numbers, the same
overloads of every name, the same dependencies and the same imports. Only where the bodies are is
not kept, but follows from the kinds that imply it. -/
theorem restore_save_of_reached
    (h : (∃ r, Resolution.Reached r ∧ r.program = p) ∨ Assembled p) (hfits : p.Fits) :
    (∀ id, (restore p.save).units.get? id =
        (p.units.get? id).map fun u => { u with body := u.kind.body? }) ∧
      (∀ name, (restore p.save).units.overloads name = p.units.overloads name) ∧
      (restore p.save).graph = p.graph ∧ (restore p.save).imports = p.imports := by
  have hlinked : p.Linked := by
    rcases h with ⟨r, hr, rfl⟩ | h
    · exact hr.kept.linked
    · exact h.linked
  rw [hlinked.restore_save, if_pos (fits_ofProgram hfits)]
  exact ⟨fun _ => get?_kept, overloads_kept, rfl, rfl⟩

/-- A snippet with an odd name that takes a slot of a shared table and misses another name. -/
def oddNames : Program :=
  let units := (Program.empty.insertUnit "\"\\\n\u0001é" .snippet 7 (some (.inline "x"))).insertUnit
    "<globals>" .globals 0 (some .table)
  let listed := { units with units := units.units.modify 1 (·.addSlot "\t") }
  (listed.recordImport 0 (.unit 1) "\t").recordImport 0 .unresolved "/"

theorem assembled_oddNames : Assembled oddNames := by
  refine .recordImport _ _ _ (.recordImport _ _ _ (.addSlot _ _ (.insertUnit _ _ _ _
    (.insertUnit _ _ _ _ .empty))) (by decide) ?_) (by decide) fun _ heq => by cases heq
  rintro _ ⟨⟩
  decide

theorem fits_oddNames : oddNames.Fits := by
  intro id u hget
  match id, hget with
  | 0, hget => cases hget; decide
  | 1, hget => cases hget; decide
  | id + 2, hget => cases hget

theorem restore_save_oddNames : Assembled oddNames ∧ oddNames.Fits ∧
    (restore oddNames.save).units.get? 0 =
      (oddNames.units.get? 0).map fun u => { u with body := u.kind.body? } :=
  ⟨assembled_oddNames, fits_oddNames,
    (restore_save_of_reached (.inr assembled_oddNames) fits_oddNames).1 0⟩

end Program

end ScriptBuild
