import ScriptBuild.Proofs.Build.Frame

namespace ScriptBuild

variable {σ : Type}

namespace FilePath

variable {p q directory : FilePath} {name extension : String} {c : Char}

/-- A path that ends like a script or a precompiled module. -/
def IsSource (p : FilePath) : Prop :=
  p.text.toList.getLast? = some 'm' ∨ p.text.toList.getLast? = some '4'

/-- Where a definition may be looked for: a name with the extension of a script or of a precompiled
module. -/
theorem IsSource.entry (hextension : extension = SearchPath.scriptExtension ∨
    extension ∈ SearchPath.moduleExtensions) :
    (directory.entry (SearchPath.withExtension name extension)).IsSource := by
  have hlast {c : Char} (hext : extension.toList.getLast? = some c) :
      (directory.entry (SearchPath.withExtension name extension)).text.toList.getLast? = some c := by
    refine getLast?_text_entry ?_
    rw [SearchPath.withExtension, String.toList_append, List.getLast?_append, hext, Option.some_or]
  rcases hextension with rfl | hmodule
  · exact .inl (hlast (by decide))
  · refine .inr (hlast ?_)
    simp only [SearchPath.moduleExtensions, List.mem_cons, List.not_mem_nil, or_false] at hmodule
    rcases hmodule with rfl | rfl | rfl | rfl <;> decide

/-- A path that ends in another character than sources do leads elsewhere. -/
theorem IsSource.apart (h : p.IsSource) (hq : q.text.toList.getLast? = some c)
    (hc : c ∉ ['/', '.', 'm', '4']) : p.Apart q := by
  simp only [List.mem_cons, List.not_mem_nil, or_false, not_or] at hc
  obtain ⟨hslash, hdot, hm, h4⟩ := hc
  intro d
  rcases h with hp | hp
  · exact Disk.apart_of_getLast? hp hq (by decide) ⟨hslash, hdot⟩ (Ne.symm hm)
  · exact Disk.apart_of_getLast? hp hq (by decide) ⟨hslash, hdot⟩ (Ne.symm h4)

end FilePath

/-- Two disks have the same files wherever definitions are looked for. -/
def Disk.SameSources (d d' : Disk) : Prop := ∀ p : FilePath, p.IsSource → d'.file? p = d.file? p

theorem Disk.SameSources.trans {d d' d'' : Disk} (h : d.SameSources d') (h' : d'.SameSources d'') :
    d.SameSources d'' := fun p hp => (h' p hp).trans (h p hp)

namespace SearchPath

variable {s : SearchPath} {d d' : Disk}

/-- What a file defines is told by the file alone. -/
theorem inFile?_eq (d : Disk) (kind : FilePath → UnitKind) (p : FilePath) : inFile? d kind p =
    (d.file? p).map fun node => ⟨kind p, node.changed.toNat, .file p⟩ := by
  rw [inFile?, timestamp, Disk.isFile, Disk.changed?, Disk.file?]
  cases d.lookup p with
  | none => rfl
  | some node => cases hkind : node.isDirectory <;> simp [Option.filter, hkind]

/-- What a name denotes depends on the files at such paths only. -/
theorem find_congr (h : d.SameSources d') : s.find d' = s.find d := by
  have hfile {kind : FilePath → UnitKind} {p : FilePath} (hp : p.IsSource) :
      inFile? d' kind p = inFile? d kind p := by rw [inFile?_eq, inFile?_eq, h p hp]
  have hdirectory (directory : FilePath) (name : String) :
      inDirectory? d' directory name = inDirectory? d directory name := by
    rw [inDirectory?, inDirectory?, hfile (.entry (.inl rfl))]
    simp only [moduleExtensions, List.findSome?_cons, List.findSome?_nil]
    rw [hfile (.entry (.inr (by decide))), hfile (.entry (.inr (by decide))),
      hfile (.entry (.inr (by decide))), hfile (.entry (.inr (by decide)))]
  have hprivate (directory : FilePath) (name : String) :
      inPrivate? d' directory name = inPrivate? d directory name :=
    hfile (.entry (.inl rfl))
  have hclass (directory : FilePath) (name : String) :
      classIn? d' directory name = classIn? d directory name :=
    hfile (.entry (.inl rfl))
  funext name context
  simp only [find, hdirectory, hprivate, hclass]

end SearchPath

/-- Tools that change no file but the one that they are asked for. -/
def Toolchain.Confined (t : Toolchain σ) : Prop :=
  ∀ (i : Invocation) (tools : σ) (d : Disk) (p : FilePath), d.Apart p i.output →
    (t.run i (tools, d)).1.2.file? p = d.file? p

/-- Tools that change no other file change the text of none. -/
theorem Toolchain.Confined.careful {t : Toolchain σ} (h : t.Confined) : t.Careful :=
  fun i tools d p hapart => Disk.text?_congr (h i tools d p hapart)

/-- Part of a build changes neither the program nor any file that defines something. -/
structure BuildState.KeepsSources (s s' : BuildState σ) : Prop where
  resolution : s'.resolution = s.resolution
  sources : s.disk.SameSources s'.disk

namespace Builder

open BuildM

variable {b : Builder σ} {name : String} {plan : Plan} {generated : NodeSet} {steps : List Step}
  {p : FilePath}

/-- With confined tools, a file that is not made stays as it is. -/
theorem respects_keepsFile (hconfined : b.toolchain.Confined) (p : FilePath) :
    b.Respects (fun s s' => s'.disk.file? p = s.disk.file? p) p.Apart where
  refl _ := rfl
  trans _ _ _ h h' := h'.trans h
  run i hapart s := by
    have hfile := hconfined i s.tools s.disk p (hapart s.disk)
    unfold final run
    generalize b.toolchain.run i (s.tools, s.disk) = k at hfile ⊢
    obtain ⟨⟨tools, disk⟩, result⟩ := k
    cases result <;> exact hfile
  write q text hapart s := by
    simp only [final, writeFile]
    cases hwrite : s.disk.write q (.text text) b.now with
    | ok disk => exact Disk.file?_write_of_apart hwrite (hapart s.disk)
    | error _ => rfl
  copy source q hapart s := by
    simp only [final, copyFile]
    cases hcopy : s.disk.copy source q b.now with
    | ok disk => exact Disk.file?_copy_of_apart hcopy (hapart s.disk)
    | error _ => rfl
  register _ _ _ _ := rfl

theorem respects_resolution (b : Builder σ) :
    b.Respects (fun s s' => s'.resolution = s.resolution) fun _ => True where
  refl _ := rfl
  trans _ _ _ h h' := h'.trans h
  run i _ s := by
    unfold final run
    generalize b.toolchain.run i (s.tools, s.disk) = k
    obtain ⟨⟨tools, disk⟩, result⟩ := k
    cases result <;> rfl
  write q text _ s := by
    simp only [final, writeFile]
    cases s.disk.write q (.text text) b.now <;> rfl
  copy source q _ s := by
    simp only [final, copyFile]
    cases s.disk.copy source q b.now <;> rfl
  register _ _ _ _ := rfl

/-- What makes nothing where a source can be keeps all sources. -/
theorem respects_keepsSources (hconfined : b.toolchain.Confined) :
    b.Respects BuildState.KeepsSources fun q => ∀ p : FilePath, p.IsSource → p.Apart q where
  refl _ := ⟨rfl, fun _ _ => rfl⟩
  trans _ _ _ h h' := ⟨h'.resolution.trans h.resolution, h.sources.trans h'.sources⟩
  run i hapart s := ⟨b.respects_resolution.run i trivial s,
    fun p hp => (respects_keepsFile hconfined p).run i (hapart p hp) s⟩
  write q text hapart s := ⟨b.respects_resolution.write q text trivial s,
    fun p hp => (respects_keepsFile hconfined p).write q text (hapart p hp) s⟩
  copy source q hapart s := ⟨b.respects_resolution.copy source q trivial s,
    fun p hp => (respects_keepsFile hconfined p).copy source q (hapart p hp) s⟩
  register _ _ _ _ := ⟨rfl, fun _ _ => rfl⟩

/-- Nothing that is made ends like a source. -/
theorem makes_apart_isSource (b : Builder σ) (action : Action) (u : BuildUnit) :
    b.Makes name action u fun q => ∀ p : FilePath, p.IsSource → p.Apart q where
  parts role _ _ hp := hp.apart Layout.getLast?_path (by cases role <;> decide)
  output _ _ hp := hp.apart Layout.getLast?_outputPath (by decide)

/-- The steps of a plan change neither the program nor any file that defines something. -/
theorem execute_keepsSources (hconfined : b.toolchain.Confined) :
    Frames BuildState.KeepsSources (b.execute name plan generated steps) :=
  execute_frames (respects_keepsSources hconfined) fun step _ u =>
    b.makes_apart_isSource step.action u

end Builder

end ScriptBuild
