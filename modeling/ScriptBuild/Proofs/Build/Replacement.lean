import ScriptBuild.Proofs.Build.Course
import ScriptBuild.Proofs.Build.Persistence
import ScriptBuild.Proofs.Build.Refresh

namespace ScriptBuild

variable {σ : Type}

namespace Builder

open BuildM CourseM

variable {b : Builder σ} {s s' : BuildState σ} {entries : List Entry} {touched : NodeSet}

/-- Part of a build leaves alone the file of the archive, or that there is none. -/
def KeepsCache (b : Builder σ) (s s' : BuildState σ) : Prop :=
  s'.disk.file? b.layout.cacheFile = s.disk.file? b.layout.cacheFile

theorem KeepsCache.trans {s₁ : BuildState σ} (h : b.KeepsCache s s₁) (h' : b.KeepsCache s₁ s') :
    b.KeepsCache s s' :=
  Eq.trans h' h

/-- The draft does not lead to the place of the archive. -/
theorem apart_draftPath (b : Builder σ) :
    b.layout.cacheFile.Apart (Archive.draftPath b.layout.cacheFile) := fun _ =>
  Disk.apart_of_getLast? Layout.getLast?_cacheFile Layout.getLast?_draftPath (by decide) (by decide)
    (by decide)

/-- Keeping the archive is writing its draft and moving it. -/
theorem persist_eq (b : Builder σ) (touched : NodeSet) :
    b.persist touched = (b.writeDraft touched >>= fun _ => b.moveDraft) := by
  funext s
  change _ = EStateM.bind (b.writeDraft touched) (fun _ => b.moveDraft) s
  unfold EStateM.bind persist writeDraft moveDraft Archive.store
  dsimp only
  generalize s.archive.updateRows s.resolution.program touched.toList = archive
  generalize b.layout.cacheFile = path
  cases s.disk.write (Archive.draftPath path) (.text archive.document) b.now with
  | error reason => rfl
  | ok drafted =>
    dsimp only
    cases drafted.rename (Archive.draftPath path) path b.now <;> rfl

/-- Writing the draft leaves the archive alone, also if it fails. -/
theorem writeDraft_keepsCache (b : Builder σ) (touched : NodeSet) :
    Frames b.KeepsCache (b.writeDraft touched) := by
  intro s
  unfold final writeDraft
  dsimp only
  cases hwrite : s.disk.write (Archive.draftPath b.layout.cacheFile) (.text
      (s.archive.updateRows s.resolution.program touched.toList).document) b.now with
  | error reason => exact rfl
  | ok drafted => exact Disk.file?_write_of_apart hwrite (b.apart_draftPath s.disk)

/-- If the draft cannot be moved, nothing has changed. -/
theorem moveDraft_eq_error {fault : Fault} (h : b.moveDraft s = .error fault s') : s' = s := by
  unfold moveDraft at h
  split at h
  · cases h
  · cases h
    rfl

/-- The entry points of a build keep the archive on the disk. -/
theorem passes_keepsCache (hconfined : b.toolchain.Confined) (entries : List Entry) :
    Passes b.KeepsCache (b.courseEntries entries)
      (startRun >>= fun _ => entries.mapM b.buildEntry) :=
  passes_entries (respects_keepsFile hconfined b.layout.cacheFile) (fun _ _ => rfl)
    b.avoids_cacheFile entries

/-- Keeping the archive replaces it in its last action, unless it fails. -/
theorem coursePersist_cases (b : Builder σ) (touched : NodeSet) (s : BuildState σ)
    (seen : List (BuildState σ)) :
    ∃ earlier, (∀ mid ∈ earlier, b.KeepsCache s mid) ∧
      ((∃ fault s', b.persist touched s = .error fault s' ∧
          b.coursePersist touched (s, seen) = .error fault (s', seen ++ earlier) ∧
          b.KeepsCache s s') ∨
        ∃ s', b.persist touched s = .ok () s' ∧
          b.coursePersist touched (s, seen) = .ok () (s', seen ++ earlier ++ [s'])) := by
  have hdraft := b.writeDraft_keepsCache touched s
  rw [BuildM.final] at hdraft
  rw [persist_eq]
  unfold coursePersist
  cases hwrite : b.writeDraft touched s with
  | error fault s₁ =>
    rw [hwrite] at hdraft
    refine ⟨[s₁], by simpa using hdraft, .inl ⟨fault, s₁, ?_, ?_, hdraft⟩⟩
    · exact BuildM.bind_eq_error.2 (.inl hwrite)
    · exact after_error (note_of_error hwrite)
  | ok _ s₁ =>
    rw [hwrite] at hdraft
    rw [after_ok (note_of_ok hwrite)]
    cases hmove : b.moveDraft s₁ with
    | error fault s₂ =>
      obtain rfl := moveDraft_eq_error hmove
      refine ⟨[s₂, s₂], by simpa using hdraft, .inl ⟨fault, s₂, ?_, ?_, hdraft⟩⟩
      · exact BuildM.bind_eq_error.2 (.inr ⟨_, s₂, hwrite, hmove⟩)
      · rw [note_of_error hmove, List.append_assoc]
        rfl
    | ok _ s₂ =>
      refine ⟨[s₁], by simpa using hdraft, .inr ⟨s₂, ?_, note_of_ok hmove⟩⟩
      exact BuildM.bind_eq_ok.2 ⟨_, s₁, hwrite, hmove⟩

/-- A build takes its entry points one after the other in a new run, and then keeps the archive. -/
theorem build_eq (b : Builder σ) (entries : List Entry) : b.build entries =
    ((startRun >>= fun _ => entries.mapM b.buildEntry) >>= fun results => get >>= fun s =>
      b.persist (Std.ExtTreeSet.ofList (results.flatMap (·.touched))) >>= fun _ =>
        pure (reportOf results s.resolution.run.unresolved)) := by
  rw [bind_assoc]
  rfl

/-- A build keeps the archive on the disk wherever it fails; if it succeeds, it does so up to its
last action. -/
theorem course_cases (hconfined : b.toolchain.Confined) (s : BuildState σ) (entries : List Entry) :
    ∃ earlier, (∀ mid ∈ earlier, b.KeepsCache s mid) ∧
      ((∃ fault s', b.build entries s = .error fault s' ∧
          b.course entries (s, []) = .error fault (s', earlier) ∧ b.KeepsCache s s') ∨
        ∃ report s', b.build entries s = .ok report s' ∧
          b.course entries (s, []) = .ok report (s', earlier ++ [s'])) := by
  obtain ⟨seen, hcourse, hseen, hend⟩ := passes_keepsCache hconfined entries s []
  rw [List.nil_append] at hcourse
  rw [BuildM.final] at hend
  rw [build_eq]
  unfold course
  generalize hrun : (startRun >>= fun _ => entries.mapM b.buildEntry) s = result at hcourse hend
  cases result with
  | error fault s₁ =>
    rw [noted] at hcourse
    refine ⟨seen, hseen, .inl ⟨fault, s₁, ?_, after_error hcourse, hend⟩⟩
    exact BuildM.bind_eq_error.2 (.inl hrun)
  | ok results s₁ =>
    rw [noted] at hcourse
    rw [after_ok hcourse, look_bind]
    obtain ⟨more, hmore, hpersist⟩ := b.coursePersist_cases
      (Std.ExtTreeSet.ofList (results.flatMap (·.touched))) s₁ seen
    refine ⟨seen ++ more, fun mid hmem => ?_, ?_⟩
    · rcases List.mem_append.mp hmem with hmem | hmem
      · exact hseen mid hmem
      · exact hend.trans (hmore mid hmem)
    · rcases hpersist with ⟨fault, s₂, hpersist, hnotes, hkept⟩ | ⟨s₂, hpersist, hnotes⟩
      · refine .inl ⟨fault, s₂, ?_, after_error hnotes, hend.trans hkept⟩
        refine BuildM.bind_eq_error.2 (.inr ⟨results, s₁, hrun, ?_⟩)
        rw [BuildM.get_bind]
        exact BuildM.bind_eq_error.2 (.inl hpersist)
      · refine .inr ⟨reportOf results s₁.resolution.run.unresolved, s₂, ?_, ?_⟩
        · refine BuildM.bind_eq_ok.2 ⟨results, s₁, hrun, ?_⟩
          rw [BuildM.get_bind]
          exact BuildM.bind_eq_ok.2 ⟨(), s₂, hpersist, rfl⟩
        · rw [after_ok hnotes]
          rfl

/-- The archive on the disk is replaced as a whole and only by builds that succeed. A build that fails
leaves its file as it was, or leaves none if there was none; one that succeeds leaves the document of
its archive. Every state on the way has one of the two files. -/
theorem cacheFile_of_build (b : Builder σ) (hconfined : b.toolchain.Confined) (s : BuildState σ)
    (entries : List Entry) :
    forget (b.course entries) s = b.build entries s ∧
      (∀ fault s', b.build entries s = .error fault s' →
        s'.disk.file? b.layout.cacheFile = s.disk.file? b.layout.cacheFile) ∧
      (∀ report s', b.build entries s = .ok report s' →
        s'.disk.text? b.layout.cacheFile = some s'.archive.document) ∧
      ∀ mid ∈ states (b.course entries) s,
        mid.disk.file? b.layout.cacheFile = s.disk.file? b.layout.cacheFile ∨
          ∃ report s', b.build entries s = .ok report s' ∧
            mid.disk.file? b.layout.cacheFile = s'.disk.file? b.layout.cacheFile := by
  obtain ⟨earlier, hearlier, hend⟩ := b.course_cases hconfined s entries
  rcases hend with ⟨fault, s₁, hbuild, hcourse, hkept⟩ | ⟨report, s₁, hbuild, hcourse⟩
  · refine ⟨by rw [forget, hcourse, hbuild], ?_, ?_, ?_⟩
    · intro fault' s' hrun
      obtain ⟨-, rfl⟩ := EStateM.Result.error.inj (hbuild.symm.trans hrun)
      exact hkept
    · intro report s' hrun
      cases hbuild.symm.trans hrun
    · intro mid hmid
      rw [states, hcourse] at hmid
      exact .inl (hearlier mid hmid)
  · refine ⟨by rw [forget, hcourse, hbuild], ?_, ?_, ?_⟩
    · intro fault s' hrun
      cases hbuild.symm.trans hrun
    · intro report' s' hrun
      obtain ⟨results, s₂, -, hpersist, -⟩ := build_eq_ok.1 hrun
      exact (persist_eq_ok hpersist).2.2
    · intro mid hmid
      rw [states, hcourse] at hmid
      rcases List.mem_append.mp hmid with hmid | hmid
      · exact .inl (hearlier mid hmid)
      · obtain rfl := List.mem_singleton.mp hmid
        exact .inr ⟨report, mid, hbuild, rfl⟩

/-- Tools that fail change no more than they would otherwise. -/
theorem confined_failingAt {t : Toolchain σ} (h : t.Confined) (p : FilePath) :
    (failingAt t p).Confined := by
  intro i tools d q hapart
  by_cases hfails : i.output = p
  · simp only [failingAt, if_pos hfails]
  · simp only [failingAt, if_neg hfails]
    exact h i tools d q hapart

/-- On a disk with an archive, a build of the edited pair whose tools fail leaves the archive of the
former build, and one whose tools work replaces it. -/
theorem cacheFile_of_build_pair :
    (editedDisk grownText).text? stubBuilder.layout.cacheFile = some pairArchive.document ∧
    (brokenBuilder.toolchain.Confined ∧ ∃ fault s', brokenBuilder.build [.located "f" ⟨"."⟩]
        (.start brokenBuilder.config (editedDisk grownText) ()) = .error fault s' ∧
      s'.disk.file? brokenBuilder.layout.cacheFile =
        (editedDisk grownText).file? brokenBuilder.layout.cacheFile) ∧
    stubBuilder.toolchain.Confined ∧ ∃ report s', stubBuilder.build [.located "f" ⟨"."⟩]
        (.start stubBuilder.config (editedDisk grownText) ()) = .ok report s' ∧
      s'.disk.text? stubBuilder.layout.cacheFile = some s'.archive.document := by
  have hbroken : brokenBuilder.toolchain.Confined := confined_failingAt confined_stubBuilder _
  obtain ⟨fault, s₁, hfails⟩ := build_grown_error
  obtain ⟨report, s₂, hrun, -⟩ := build_grown
  have hkept := (cacheFile_of_build brokenBuilder hbroken _ [.located "f" ⟨"."⟩]).2.1 fault s₁ hfails
  have hdone := (cacheFile_of_build stubBuilder confined_stubBuilder _
    [.located "f" ⟨"."⟩]).2.2.1 report s₂ hrun
  exact ⟨text?_editedDisk grownText, ⟨hbroken, fault, s₁, hfails, hkept⟩, confined_stubBuilder,
    report, s₂, hrun, hdone⟩

end Builder

end ScriptBuild
