import ScriptBuild.Proofs.Resolution.Faithful

namespace ScriptBuild

namespace Resolution

variable {w : World} {r : Resolution} {work : Work} {later : List Work} (handled : NodeSet)

/-- The same state, in which other units count as handled. It matters only when work is taken up:
    everything else that a run does is the same whichever units have been handled, which is what the
    lemmas on `counting` say one step at a time. -/
def counting (handled : NodeSet) (r : Resolution) : Resolution :=
  { r with run := { r.run with handled } }

theorem growTable_counting (r : Resolution) (id : Nat) (slot : String) :
    (r.counting handled).growTable id slot = (r.growTable id slot).counting handled := by
  simp only [growTable]
  rw [apply_ite (counting handled)]
  rfl

theorem tableFor_counting (r : Resolution) (slot : String) (kind : UnitKind) :
    (r.counting handled).tableFor slot kind =
      ((r.tableFor slot kind).1.counting handled, (r.tableFor slot kind).2) := by
  cases hmatch : r.program.units.findMatch (tableName kind) kind 0 with
  | some id =>
    rw [tableFor_of_some hmatch, tableFor_of_some (r := r.counting handled) hmatch,
      growTable_counting]
  | none =>
    rw [tableFor_of_none hmatch, tableFor_of_none (r := r.counting handled) hmatch]
    exact congrArg (·, _) (growTable_counting handled (r.makeTable kind) _ slot)

theorem refresh_counting (r : Resolution) (id : Nat) (d : Definition) :
    (r.counting handled).refresh id d = (r.refresh id d).counting handled := by
  simp only [refresh]
  rw [apply_ite (counting handled)]
  rfl

theorem unitFor_counting (r : Resolution) (name : String) (d : Definition) :
    (r.counting handled).unitFor name d =
      ((r.unitFor name d).1.counting handled, (r.unitFor name d).2) := by
  rw [unitFor, unitFor]
  split
  · exact tableFor_counting handled r name d.kind
  · rw [show (r.counting handled).program = r.program from rfl]
    cases r.program.units.findMatch name d.kind d.timestamp with
    | none => rfl
    | some id =>
      dsimp only
      rw [refresh_counting, show (r.counting handled).run.freshness = r.run.freshness from rfl]
      split <;> rfl

theorem isKnown_counting (r : Resolution) (w : World) (directory : Option FilePath) (name : String) :
    (r.counting handled).isKnown w directory name =
      ((r.isKnown w directory name).1.counting handled, (r.isKnown w directory name).2) := by
  simp only [isKnown, show (r.counting handled).run.names = r.run.names from rfl]
  split
  · rfl
  · cases directory <;> rfl

theorem lookupExternal_counting (r : Resolution) (w : World) (id : Nat) (name : String) :
    (r.counting handled).lookupExternal w id name =
      ((r.lookupExternal w id name).1.counting handled, (r.lookupExternal w id name).2) := by
  simp only [lookupExternal, isKnown_counting, unitFor_counting,
    show (r.counting handled).program = r.program from rfl,
    show (r.counting handled).foundFrom = r.foundFrom from rfl]
  by_cases hown : (r.program.units.get? id).any (·.hasSlot name) = true
  · simp only [hown, if_true]
  · simp only [hown]
    cases r.foundFrom ((r.program.units.get? id).bind BuildUnit.directory?) name with
    | some other => rfl
    | none =>
      dsimp only
      cases (r.isKnown w ((r.program.units.get? id).bind BuildUnit.directory?) name).2 with
      | false => rfl
      | true =>
        cases w.lookup.find name ((r.program.units.get? id).bind BuildUnit.directory?) <;> rfl

theorem declareGlobal_counting (r : Resolution) (id : Nat) (name : String) :
    declareGlobal id (r.counting handled) name = (declareGlobal id r name).counting handled := by
  rw [declareGlobal_eq, declareGlobal_eq, tableFor_counting]
  generalize r.tableFor name .globals = k
  rfl

theorem importReference_counting (r : Resolution) (w : World) (id : Nat) (x : String × Span) :
    importReference w id (r.counting handled) x = (importReference w id r x).counting handled := by
  simp only [importReference, lookupExternal_counting]
  split <;> rfl

theorem recheckImport_counting (r : Resolution) (w : World) (id : Nat) (changed : Bool)
    (x : Target × String) : recheckImport w id (r.counting handled, changed) x =
      ((recheckImport w id (r, changed) x).1.counting handled,
        (recheckImport w id (r, changed) x).2) := by
  simp only [recheckImport, lookupExternal_counting]
  split
  · rfl
  · split <;> rfl

theorem foldl_counting {α : Type} {step : Resolution → α → Resolution} (items : List α)
    (hstep : ∀ r x, step (r.counting handled) x = (step r x).counting handled) (r : Resolution) :
    items.foldl step (r.counting handled) = (items.foldl step r).counting handled := by
  induction items generalizing r with
  | nil => rfl
  | cons x items ih => rw [List.foldl_cons, List.foldl_cons, hstep, ih]

theorem absorb_counting (r : Resolution) (w : World) (id : Nat) (s : Summary) :
    (r.counting handled).absorb w id s = (r.absorb w id s).counting handled := by
  have hopen : (r.counting handled).modifyProgram (fun p =>
      { p with units := p.units.modify id fun u => s.slots.foldl BuildUnit.addSlot u }) =
      (r.modifyProgram fun p =>
        { p with units := p.units.modify id fun u => s.slots.foldl BuildUnit.addSlot u }).counting
          handled := rfl
  simp only [absorb]
  rw [hopen, foldl_counting handled _ fun r x => declareGlobal_counting handled r id x,
    foldl_counting handled _ fun r x => importReference_counting handled r w id x]
  rfl

theorem readBody_counting (r : Resolution) (w : World) (id : Nat) :
    (r.counting handled).readBody w id =
      ((r.readBody w id).1.counting handled, (r.readBody w id).2) := by
  unfold readBody
  rw [show (r.counting handled).program = r.program from rfl]
  split
  · rfl
  · dsimp only
    split
    · rfl
    · exact congrArg (·, none) (absorb_counting handled
        ⟨r.program.clearBody id, { r.run with readings := r.run.readings + 1 }⟩ w id _)

theorem foldl_recheckImport_counting (r : Resolution) (w : World) (id : Nat)
    (items : List (Target × String)) (changed : Bool) :
    items.foldl (recheckImport w id) (r.counting handled, changed) =
      ((items.foldl (recheckImport w id) (r, changed)).1.counting handled,
        (items.foldl (recheckImport w id) (r, changed)).2) := by
  induction items generalizing r changed with
  | nil => rfl
  | cons x items ih => rw [List.foldl_cons, List.foldl_cons, recheckImport_counting, ih]

theorem recheck_counting (r : Resolution) (w : World) (id : Nat) :
    (r.counting handled).recheck w id =
      ((r.recheck w id).1.counting handled, (r.recheck w id).2) := by
  simp only [recheck, show (r.counting handled).program = r.program from rfl,
    foldl_recheckImport_counting]
  generalize (lookedUpImports r.program id).foldl (recheckImport w id) (r, false) = k
  rw [show (k.1.counting handled).freshness id = k.1.freshness id from rfl]
  split <;> rfl

theorem handle_counting (hfresh : work.unit ∉ r.run.handled) (hnot : work.unit ∉ handled) :
    ({ r.counting handled with run := { (r.counting handled).run with waiting := later } } :
        Resolution).handle w work =
      (((({ r with run := { r.run with waiting := later } } : Resolution).handle w work).1.counting
        (handled.insert work.unit)),
        (({ r with run := { r.run with waiting := later } } : Resolution).handle w work).2) := by
  cases work with
  | read id =>
    rw [handle_read id hfresh, handle_read (r := r.counting handled) id hnot]
    exact readBody_counting _ (r.begin (.read id) later) w id
  | recheck id =>
    rw [handle_recheck id hfresh, handle_recheck (r := r.counting handled) id hnot]
    exact congrArg (·.1, none) (recheck_counting _ (r.begin (.recheck id) later) w id)

/-- The unit of work that is taken up counts as handled, and no other one besides. -/
theorem handled_handle (hfresh : work.unit ∉ r.run.handled) :
    (({ r with run := { r.run with waiting := later } } : Resolution).handle w work).1.run.handled =
      r.run.handled.insert work.unit :=
  congrArg (·.1.run.handled) (handle_counting r.run.handled hfresh hfresh)

/-- Finding or making the unit of a definition handles no unit. -/
theorem handled_unitFor (r : Resolution) (name : String) (d : Definition) :
    (r.unitFor name d).1.run.handled = r.run.handled :=
  congrArg (·.1.run.handled) (unitFor_counting r.run.handled r name d)

/-- A fix-up counts no other unit as handled. -/
theorem handled_recheck (r : Resolution) (w : World) (id : Nat) :
    (r.recheck w id).1.run.handled = r.run.handled :=
  congrArg (·.1.run.handled) (recheck_counting r.run.handled r w id)

end Resolution

end ScriptBuild
