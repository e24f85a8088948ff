import ScriptBuild.Proofs.Resolution.Reached

namespace ScriptBuild

namespace Program

variable {p q : Program} {id a b : Nat} {t : Target} {n : String} {row : Archive.Row}

/-- The units are the nodes, only units import, and none imports from itself. A unit may depend on
more than it imports from. -/
structure Intact (p : Program) : Prop extends p.Sound where
  known : ∀ id, id < p.units.size → p.graph.hasNode id
  taker : ∀ id t n, p.Takes id t n → id < p.units.size
  loop : ∀ id n, ¬ p.Takes id (.unit id) n

/-- A unit depends on another one from which it imports nothing. -/
def Loose (p : Program) (a b : Nat) : Prop := p.graph.Edge a b ∧ ∀ n, ¬ p.Takes a (.unit b) n

/-- A program that fits together is intact. -/
theorem Linked.intact (h : p.Linked) : p.Intact := ⟨h.toSound, h.known, h.taker, h.loop⟩

/-- What a unit imports from is a unit. -/
theorem Intact.lt_of_takes (h : p.Intact) (htakes : p.Takes a (.unit b) n) : b < p.units.size :=
  h.lt_of_edge (h.edge a b n htakes)

/-- A unit depends on those that it imports from, and loosely on others. -/
theorem Intact.edge_iff (h : p.Intact) :
    p.graph.Edge a b ↔ (∃ n, p.Takes a (.unit b) n) ∨ p.Loose a b := by
  constructor
  · intro hedge
    by_cases htakes : ∃ n, p.Takes a (.unit b) n
    · exact .inl htakes
    · exact .inr ⟨hedge, fun n hn => htakes ⟨n, hn⟩⟩
  · rintro (⟨n, hn⟩ | hloose)
    · exact h.edge a b n hn
    · exact hloose.1

/-- A change that adds units only as nodes, and imports only to units and from others. -/
theorem Intact.step (h : p.Intact) (hsound : q.Sound)
    (hnode : ∀ a, p.graph.hasNode a → q.graph.hasNode a) (hsize : p.units.size ≤ q.units.size)
    (hunits : ∀ a, a < q.units.size → a < p.units.size ∨ q.graph.hasNode a)
    (htakes : ∀ a t n, q.Takes a t n → p.Takes a t n ∨ (a < p.units.size ∧ t ≠ .unit a)) :
    q.Intact where
  toSound := hsound
  known a ha := by
    rcases hunits a ha with hold | hnew
    · exact hnode a (h.known a hold)
    · exact hnew
  taker a t n hn := by
    rcases htakes a t n hn with hold | ⟨hlt, _⟩
    · exact Nat.lt_of_lt_of_le (h.taker a t n hold) hsize
    · exact Nat.lt_of_lt_of_le hlt hsize
  loop a n hn := by
    rcases htakes a _ n hn with hold | ⟨_, hne⟩
    · exact h.loop a n hold
    · exact hne rfl

/-- A single change that looking a name up makes leaves a program intact. -/
theorem Intact.grow (h : p.Intact) (hgrow : p.Grow q) : q.Intact := by
  have htouches := hgrow.touches
  refine h.step (h.toSound.grow hgrow) htouches.node htouches.units.size_le (fun a ha => ?_)
    fun a t n hn => .inl (by rwa [Takes, ← htouches.imports a not_false])
  cases hgrow with
  | insert name kind timestamp body hnew =>
    rw [insertUnit, Catalog.size_insert] at ha
    rcases Nat.lt_succ_iff_lt_or_eq.1 ha with hold | heq
    · exact .inl hold
    · exact .inr (Digraph.hasNode_addNode.2 (.inl heq))
  | slot => exact .inl (by rwa [Catalog.size_modify] at ha)
  | stamp => exact .inl (by rwa [Catalog.size_modify] at ha)
  | attach => exact .inl (by rwa [Catalog.size_modify] at ha)
  | node => exact .inl ha

/-- So does a single change that handling a unit makes. -/
theorem Intact.change (h : p.Intact) (hchange : p.Change id q) : q.Intact := by
  have htouches := hchange.touches
  have hsound := h.toSound.change hchange
  have hsize := htouches.units.size_le
  cases hchange with
  | grow hgrow => exact h.grow hgrow
  | clear u hget hbody =>
    refine h.step hsound htouches.node hsize (fun a ha => .inl ?_) fun a t n hn => .inl ?_
    · rwa [Program.clearBody, Catalog.size_modify] at ha
    · exact (takes_clearBody.1 hn).2
  | exports u slots hget hbody himports =>
    exact h.step hsound htouches.node hsize (fun a ha => .inl (by rwa [Catalog.size_modify] at ha))
      fun a t n hn => .inl hn
  | record t n hmay =>
    obtain ⟨u, hu, _⟩ := hmay.taker
    refine h.step hsound htouches.node hsize (fun a ha => .inl ?_) fun a s m hn => ?_
    · rwa [units_recordImport] at ha
    · rcases takes_recordImport.1 hn with ⟨rfl, rfl, _, hne⟩ | hold
      · exact .inr ⟨Catalog.lt_size_of_get? hu, hne⟩
      · exact .inl hold
  | remove t n =>
    refine h.step hsound htouches.node hsize (fun a ha => .inl ?_) fun a s m hn => .inl ?_
    · rwa [units_removeImport] at ha
    · exact (takes_removeImport.1 hn).1

theorem Intact.evolves (h : p.Intact) (hevolves : p.Evolves q) : q.Intact := by
  induction hevolves with
  | refl => exact h
  | tail _ hchange ih =>
    obtain ⟨id, hchange⟩ := hchange
    exact ih.change hchange

/-- No change makes a dependency without an import. -/
theorem Loose.of_change (hproper : p.Proper) (hchange : p.Change id q) (h : q.Loose a b) :
    p.Loose a b := by
  obtain ⟨hedge, hnone⟩ := h
  have htouches := hchange.touches
  cases hchange with
  | grow hgrow =>
    have hgrown := hgrow.touches
    refine ⟨(hgrown.edge a b not_false).1 hedge, fun n hn => hnone n ?_⟩
    rwa [Takes, hgrown.imports a not_false]
  | clear u hget hbody =>
    obtain ⟨hedge, hne⟩ := Digraph.edge_removeOut.1 hedge
    exact ⟨hedge, fun n hn => hnone n (takes_clearBody.2 ⟨hne, hn⟩)⟩
  | exports => exact ⟨hedge, hnone⟩
  | record t n hmay =>
    have hkept : ∀ m, ¬ p.Takes a (.unit b) m := fun m hm => hnone m (takes_recordImport.2 (.inr hm))
    rcases edge_recordImport.1 hedge with hedge | ⟨rfl, rfl, hne⟩
    · exact ⟨hedge, hkept⟩
    · exact absurd (takes_recordImport.2 (.inl ⟨rfl, rfl, rfl, by simpa using hne⟩)) (hnone n)
  | remove t n =>
    obtain ⟨hedge, hrest⟩ := (edge_removeImport hproper).1 hedge
    -- A name that goes leaves another one behind, or else the dependency would have gone too.
    have honly (m : String) (hm : p.Takes a (.unit b) m) : a = id ∧ Target.unit b = t ∧ m = n := by
      by_contra hnot
      exact hnone m (takes_removeImport.2 ⟨hm, hnot⟩)
    refine ⟨hedge, fun m hm => ?_⟩
    obtain ⟨rfl, rfl, rfl⟩ := honly m hm
    exact hrest ⟨rfl, rfl, hm, fun k hk => (honly k hk).2.2⟩

theorem Loose.of_evolves (hsound : p.Sound) (hevolves : p.Evolves q) (h : q.Loose a b) :
    p.Loose a b := by
  induction hevolves with
  | refl => exact h
  | tail hbefore hchange ih =>
    obtain ⟨id, hchange⟩ := hchange
    exact ih (h.of_change (hsound.evolves hbefore).proper hchange)

/-- Changes of another unit keep a dependency without an import. -/
theorem Touches.loose_iff {only : Nat → Prop} (h : p.Touches only q) (ha : ¬ only a) :
    q.Loose a b ↔ p.Loose a b := by
  simp only [Loose, Takes, h.edge a b ha, h.imports a ha]

theorem intact_empty : Program.empty.Intact := linked_empty.intact

/-- Restoring a unit leaves a program intact. -/
theorem Intact.restoreUnit (h : p.Intact) : (Archive.restoreUnit p row).Intact := by
  have hsound : (Archive.restoreUnit p row).Sound := h.toSound.restoreUnit
  unfold Archive.restoreUnit at hsound ⊢
  split
  · exact h
  · next hnone =>
    rw [if_neg hnone] at hsound
    refine h.step hsound (fun a ha => Digraph.hasNode_addNode.2 (.inr ha))
      (by rw [pushUnit, Catalog.size_push]; exact Nat.le_succ _) (fun a ha => ?_)
      fun a t n hn => .inl hn
    rw [pushUnit, Catalog.size_push] at ha
    rcases Nat.lt_succ_iff_lt_or_eq.1 ha with hold | heq
    · exact .inl hold
    · exact .inr (Digraph.hasNode_addNode.2 (.inl heq))

/-- So does recording an import from a unit that is there. -/
theorem Intact.recordImport (h : p.Intact) (hid : id < p.units.size)
    (htarget : ∀ other, t = .unit other → other < p.units.size) : (p.recordImport id t n).Intact := by
  refine h.step (h.toSound.recordImport hid htarget) (fun a ha => hasNode_recordImport.2 (.inl ha))
    (Nat.le_of_eq (by rw [units_recordImport]))
    (fun a ha => .inl (by rwa [units_recordImport] at ha)) fun a s m hn => ?_
  rcases takes_recordImport.1 hn with ⟨rfl, rfl, _, hne⟩ | hold
  · exact .inr ⟨hid, hne⟩
  · exact .inl hold

/-- So does recording several of them. -/
theorem Intact.foldl_recordImport (h : p.Intact) (names : List String) (hid : id < p.units.size)
    (htarget : ∀ other, t = .unit other → other < p.units.size) :
    (names.foldl (fun p n => p.recordImport id t n) p).Intact := by
  induction names generalizing p with
  | nil => exact h
  | cons n names ih =>
    exact ih (h.recordImport hid htarget) (by rwa [units_recordImport]) (by rwa [units_recordImport])

/-- So does restoring a dependency, with names or without. -/
theorem Intact.restoreDependency (h : p.Intact) (d : Archive.Dependency) (hid : id < p.units.size) :
    (Archive.restoreDependency id p d).Intact := by
  unfold Archive.restoreDependency
  split
  · exact h
  · next other hfind =>
    obtain ⟨v, hget, _⟩ := Catalog.exists_of_find hfind
    have hother := Catalog.lt_size_of_get? hget
    have hadded : Intact { p with graph := p.graph.addEdge id other } :=
      h.step (h.toSound.addEdge hid hother)
        (fun a ha => Digraph.hasNode_addEdge.2 (.inr (.inr ha))) (Nat.le_refl _)
        (fun a ha => .inl ha) fun a t n hn => .inl hn
    refine hadded.foldl_recordImport _ hid ?_
    rintro x ⟨⟩
    exact hother

/-- So does restoring the row of a unit. -/
theorem Intact.restoreImports (h : p.Intact) : (Archive.restoreImports p row).Intact := by
  unfold Archive.restoreImports
  split
  · exact h
  · next id hfind =>
    obtain ⟨u, hget, _⟩ := Catalog.exists_of_find hfind
    have hid := Catalog.lt_size_of_get? hget
    have hunits := (h.toSound.foldl_restoreDependency row.dependencies hid).2
    have hdependencies : (row.dependencies.foldl (Archive.restoreDependency id) p).Intact ∧
        id < (row.dependencies.foldl (Archive.restoreDependency id) p).units.size := by
      refine ⟨?_, by rwa [hunits]⟩
      refine (List.foldlRecOn row.dependencies (Archive.restoreDependency id)
        (motive := fun q => q.Intact ∧ q.units = p.units) ⟨h, rfl⟩ fun q hq d _ => ?_).1
      obtain ⟨hq, hsame⟩ := hq
      have hid' : id < q.units.size := by rwa [hsame]
      exact ⟨hq.restoreDependency d hid', (hq.toSound.restoreDependency d hid').2.trans hsame⟩
    exact hdependencies.1.foldl_recordImport _ hdependencies.2 fun _ heq => by cases heq

/-- Whatever an archive says, the program that it describes is intact. -/
theorem intact_toProgram (archive : Archive) : archive.toProgram.Intact := by
  have hunits : (archive.units.foldl Archive.restoreUnit .empty).Intact :=
    List.foldlRecOn archive.units Archive.restoreUnit intact_empty fun _ h _ _ => h.restoreUnit
  exact List.foldlRecOn archive.units Archive.restoreImports hunits fun _ h _ _ => h.restoreImports

end Program

/-- Every program that comes about is intact. -/
theorem Resolution.Arises.intact {r : Resolution} (h : Resolution.Arises r) : r.program.Intact := by
  induction h with
  | restored archive => exact Program.intact_toProgram archive
  | analyzed w entry definition hr ih => exact ih.evolves (hr.sane.analyze w entry definition).2
  | reset _ ih => exact ih
  | markBuilt id _ ih => exact ih

end ScriptBuild
