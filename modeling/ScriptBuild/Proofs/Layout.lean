import Mathlib.Tactic.Common
import ScriptBuild.Layout
import ScriptBuild.Proofs.Disk
import ScriptBuild.Proofs.FilePath.Entries

namespace ScriptBuild

namespace BuildUnit

variable {u v : BuildUnit} {c d : Char} {cs ds : List Char} {m n : Nat}

theorem digitChar_injective (hm : m < 16) (hn : n < 16) (heq : m.digitChar = n.digitChar) : m = n := by
  have hall : ∀ m < 16, ∀ n < 16, m.digitChar = n.digitChar → m = n := by decide
  exact hall m hm n hn heq

theorem toDigits_injective (heq : Nat.toDigits 16 m = Nat.toDigits 16 n) : m = n := by
  induction m using Nat.strongRecOn generalizing n with
  | ind m ih =>
    rw [Nat.toDigits_eq_if (by decide), Nat.toDigits_eq_if (n := n) (by decide)] at heq
    have hm := Nat.mod_lt m (y := 16) (by decide)
    have hn := Nat.mod_lt n (y := 16) (by decide)
    split at heq <;> split at heq
    · exact digitChar_injective ‹_› ‹_› (List.singleton_inj.1 heq)
    · have hlen := congrArg List.length heq
      have hpos := Nat.length_toDigits_pos (b := 16) (n := n / 16)
      simp only [List.length_append, List.length_singleton] at hlen
      omega
    · have hlen := congrArg List.length heq
      have hpos := Nat.length_toDigits_pos (b := 16) (n := m / 16)
      simp only [List.length_append, List.length_singleton] at hlen
      omega
    · obtain ⟨hhigh, hlow⟩ := List.append_inj' heq rfl
      have hquotient := ih (m / 16) (by omega) hhigh
      have hremainder := digitChar_injective hm hn (List.singleton_inj.1 hlow)
      omega

theorem isAlphanum_of_mem_toDigits (hmem : c ∈ Nat.toDigits 16 n) : c.isAlphanum := by
  induction n using Nat.strongRecOn with
  | ind n ih =>
    have hall : ∀ d < 16, d.digitChar.isAlphanum := by decide
    rw [Nat.toDigits_eq_if (by decide)] at hmem
    split at hmem
    · obtain rfl := List.mem_singleton.1 hmem
      exact hall n ‹_›
    · rcases List.mem_append.1 hmem with hmem | hmem
      · exact ih (n / 16) (by omega) hmem
      · obtain rfl := List.mem_singleton.1 hmem
        exact hall (n % 16) (Nat.mod_lt n (by decide))

/-- What stands between the underscores in the spelling of a character that is no letter or digit. -/
def escapeCode (c : Char) : List Char := if c == '_' then [] else Nat.toDigits 16 c.toNat

/-- A letter or digit stays, and anything else is spelled between underscores. -/
theorem escapeChar_eq : escapeChar c =
    if c.isAlphanum then [c] else '_' :: (escapeCode c ++ ['_']) := by
  unfold escapeChar escapeCode
  split
  · rfl
  · split <;> rfl

/-- Between the underscores there are letters and digits only. -/
theorem isAlphanum_of_mem_escapeCode (hmem : d ∈ escapeCode c) : d.isAlphanum := by
  unfold escapeCode at hmem
  split at hmem
  · cases hmem
  · exact isAlphanum_of_mem_toDigits hmem

theorem underscore_not_mem_escapeCode : '_' ∉ escapeCode c := fun hmem =>
  absurd (isAlphanum_of_mem_escapeCode hmem) (by decide)

/-- Characters are told apart by what stands between the underscores. -/
theorem escapeCode_injective (heq : escapeCode c = escapeCode d) : c = d := by
  unfold escapeCode at heq
  split at heq <;> split at heq
  · next hc hd => rw [beq_iff_eq.1 hc, beq_iff_eq.1 hd]
  · exact absurd heq.symm Nat.toDigits_ne_nil
  · exact absurd heq Nat.toDigits_ne_nil
  · exact Char.toNat_inj.1 (toDigits_injective heq)

/-- A spelling has no other characters than letters, digits and underscores. -/
theorem mem_escapeChar (hmem : d ∈ escapeChar c) : d.isAlphanum ∨ d = '_' := by
  rw [escapeChar_eq] at hmem
  split at hmem
  · next halnum =>
    obtain rfl := List.mem_singleton.1 hmem
    exact .inl halnum
  · simp only [List.mem_cons, List.mem_append, List.not_mem_nil, or_false] at hmem
    rcases hmem with heq | hmem | heq
    · exact .inr heq
    · exact .inl (isAlphanum_of_mem_escapeCode hmem)
    · exact .inr heq

/-- A text without underscores is cut off by the first underscore after it. -/
theorem append_underscore_inj {a b : List Char} (ha : '_' ∉ a) (hb : '_' ∉ b)
    (heq : a ++ '_' :: cs = b ++ '_' :: ds) : a = b ∧ cs = ds := by
  induction a generalizing b with
  | nil =>
    cases b with
    | nil => exact ⟨rfl, (List.cons.inj heq).2⟩
    | cons x b => exact absurd (List.cons.inj heq).1 fun h => hb (h ▸ List.mem_cons_self)
  | cons x a ih =>
    cases b with
    | nil => exact absurd (List.cons.inj heq).1 fun h => ha (h ▸ List.mem_cons_self)
    | cons y b =>
      obtain ⟨hhead, htail⟩ := List.cons.inj heq
      obtain ⟨hab, hrest⟩ := ih (fun h => ha (List.mem_cons_of_mem _ h))
        (fun h => hb (List.mem_cons_of_mem _ h)) htail
      exact ⟨by rw [hhead, hab], hrest⟩

/-- The spelling of a character ends where it ends, whatever follows. -/
theorem escapeChar_append_inj (heq : escapeChar c ++ cs = escapeChar d ++ ds) : c = d ∧ cs = ds := by
  have hunderscore : ¬ '_'.isAlphanum := by decide
  rw [escapeChar_eq, escapeChar_eq] at heq
  split at heq <;> split at heq
  · exact List.cons.inj heq
  · next hc _ => exact absurd ((List.cons.inj heq).1 ▸ hc) hunderscore
  · next _ hd => exact absurd ((List.cons.inj heq).1 ▸ hd) hunderscore
  · simp only [List.cons_append, List.append_assoc, List.nil_append, List.cons.injEq, true_and] at heq
    obtain ⟨hcode, hrest⟩ :=
      append_underscore_inj underscore_not_mem_escapeCode underscore_not_mem_escapeCode heq
    exact ⟨escapeCode_injective hcode, hrest⟩

/-- A name can be read back from its spelling letter by letter. -/
theorem flatMap_escapeChar_injective (heq : cs.flatMap escapeChar = ds.flatMap escapeChar) :
    cs = ds := by
  have hne (c : Char) : escapeChar c ≠ [] := by
    rw [escapeChar_eq]
    split <;> simp
  induction cs generalizing ds with
  | nil =>
    cases ds with
    | nil => rfl
    | cons d ds => exact absurd heq.symm (by simp [hne])
  | cons c cs ih =>
    cases ds with
    | nil => exact absurd heq (by simp [hne])
    | cons d ds =>
      obtain ⟨rfl, hrest⟩ := escapeChar_append_inj heq
      rw [ih hrest]

/-- The last underscore of a stem stands before the overload number. -/
theorem stem_injective (heq : u.stem = v.stem) : u.name = v.name ∧ u.overload = v.overload := by
  have heq := congrArg List.reverse (String.ofList_injective heq)
  simp only [List.reverse_append, List.reverse_cons, List.append_assoc, List.singleton_append] at heq
  obtain ⟨hdigits, hname⟩ := append_underscore_inj
    (by simp) (by simp) heq
  have hdigits := List.reverse_inj.1 hdigits
  have hname := flatMap_escapeChar_injective (List.reverse_inj.1 hname)
  refine ⟨String.toList_injective hname, ?_⟩
  rw [← Nat.ofDigitChars_ten_toDigits (n := u.overload), hdigits, Nat.ofDigitChars_ten_toDigits]

/-- A stem ends in the digits of the overload number. -/
theorem stem_ends_in_digit : ∃ c cs, u.stem.toList.reverse = c :: cs ∧ c.isDigit := by
  obtain ⟨c, cs, hdigits⟩ := List.exists_cons_of_ne_nil
    (List.reverse_ne_nil_iff.2 (Nat.toDigits_ne_nil (n := u.overload) (b := 10)))
  have hmem : c ∈ Nat.toDigits 10 u.overload := by
    rw [← List.mem_reverse, hdigits]
    exact List.mem_cons_self
  refine ⟨c, cs ++ '_' :: (u.name.toList.flatMap escapeChar).reverse, ?_,
    Nat.isDigit_of_mem_toDigits (by decide) (by decide) hmem⟩
  simp [stem, hdigits]

theorem slash_not_mem_stem : '/' ∉ u.stem.toList := by
  simp only [stem, String.toList_ofList, List.mem_append, List.mem_flatMap, List.mem_cons, not_or]
  refine ⟨?_, by decide, fun hmem => ?_⟩
  · rintro ⟨c, _, hmem⟩
    rcases mem_escapeChar hmem with halnum | heq
    · exact absurd halnum (by decide)
    · exact absurd heq (by decide)
  · exact absurd (Nat.isDigit_of_mem_toDigits (by decide) (by decide) hmem) (by decide)

end BuildUnit

namespace Layout

variable {u v : BuildUnit} {role other : FileRole}

/-- The name of the file of a unit in a given role. -/
def fileName (role : FileRole) (u : BuildUnit) : String := u.stem ++ role.ending

/-- The roles have different endings. -/
theorem ending_injective (heq : role.ending = other.ending) : role = other := by
  revert heq
  cases role <;> cases other <;> decide

/-- What follows the last digit of a file name is its ending. -/
theorem takeWhile_fileName : (fileName role u).toList.reverse.takeWhile (!·.isDigit) =
    role.ending.toList.reverse := by
  obtain ⟨c, cs, hstem, hdigit⟩ := u.stem_ends_in_digit
  have hending : ∀ c ∈ role.ending.toList.reverse, (!c.isDigit) = true :=
    List.all_eq_true.1 (by cases role <;> decide)
  rw [fileName, String.toList_append, List.reverse_append, List.takeWhile_append_of_pos hending, hstem,
    List.takeWhile_cons_of_neg (by simp [hdigit]), List.append_nil]

/-- Different files have different names. -/
theorem fileName_injective (heq : fileName role u = fileName other v) :
    u.stem = v.stem ∧ role = other := by
  have hending : role.ending.toList.reverse = other.ending.toList.reverse := by
    rw [← takeWhile_fileName, heq, takeWhile_fileName]
  have hrole := ending_injective (String.toList_injective (List.reverse_inj.1 hending))
  subst hrole
  refine ⟨?_, rfl⟩
  have hnames := congrArg String.toList heq
  simp only [fileName, String.toList_append, List.append_cancel_right_eq] at hnames
  exact String.toList_injective hnames

/-- There is no slash in the name of a file. -/
theorem slash_not_mem_fileName : '/' ∉ (fileName role u).toList := by
  rw [fileName, String.toList_append, List.mem_append, not_or]
  refine ⟨BuildUnit.slash_not_mem_stem, ?_⟩
  cases role <;> decide

theorem fileName_ne_empty : fileName role u ≠ "" := by
  intro heq
  obtain ⟨c, cs, hstem, _⟩ := u.stem_ends_in_digit
  have hempty := congrArg (fun name => name.toList.reverse) heq
  rw [fileName, String.toList_append, List.reverse_append, hstem] at hempty
  simp at hempty

theorem isName_fileName : Disk.isName (fileName role u) := by
  have hdigit (name : String) (hnone : name.toList.all (!·.isDigit)) : fileName role u ≠ name := by
    rintro rfl
    obtain ⟨c, cs, hstem, hdigit⟩ := u.stem_ends_in_digit
    have hmem : c ∈ u.stem.toList := by
      rw [← List.mem_reverse, hstem]
      exact List.mem_cons_self
    have hnot := List.all_eq_true.1 hnone c (by
      rw [fileName, String.toList_append]
      exact List.mem_append_left _ hmem)
    rw [hdigit] at hnot
    cases hnot
  rw [Disk.isName, Bool.and_eq_true, bne_iff_ne, bne_iff_ne]
  exact ⟨hdigit "." (by decide), hdigit ".." (by decide)⟩

variable {l : Layout} {d : Disk} {spot : Spot}

/-- The files of a layout lie in its directory of objects, each under its name. -/
theorem leads_path (h : d.Leads (l.path role u) spot) : ∃ place,
    d.walk (Disk.start l.objectsDirectory) l.objectsDirectory.steps = .ok (.inside place) ∧
      spot = .inside (place ++ [fileName role u]) := by
  obtain ⟨steps, hroute, hwalk⟩ := h
  have hroute := Disk.route_eq_ok hroute
  have hsteps : (l.path role u).steps = l.objectsDirectory.steps ++ [fileName role u] :=
    FilePath.steps_entry slash_not_mem_fileName fileName_ne_empty
  have habsolute : (l.path role u).isAbsolute = l.objectsDirectory.isAbsolute :=
    FilePath.isAbsolute_entry slash_not_mem_fileName
  have hstart : Disk.start (l.path role u) = Disk.start l.objectsDirectory := by
    simp only [Disk.start, habsolute]
  rw [hroute, hsteps, hstart, Disk.walk_append] at hwalk
  obtain ⟨directory, hdirectory, henter⟩ := Disk.bind_eq_ok.1 hwalk
  obtain ⟨place, hplace, hspot⟩ := Disk.enter_eq_inside henter isName_fileName
  exact ⟨place, hplace ▸ hdirectory, hspot⟩

/-- Two files at one spot have one name. -/
theorem fileName_eq_of_leads (h : d.Leads (l.path role u) spot) (h' : d.Leads (l.path other v) spot) :
    fileName role u = fileName other v := by
  obtain ⟨place, hplace, rfl⟩ := leads_path h
  obtain ⟨place', hplace', heq⟩ := leads_path h'
  obtain rfl := Spot.inside.inj (Except.ok.inj (hplace.symm.trans hplace'))
  exact List.singleton_inj.1 (List.append_cancel_left (Spot.inside.inj heq))

/-- The name of a file can name something in a directory. -/
theorem isPlain_fileName : FilePath.IsPlain (fileName role u) := by
  have hnamed : Disk.isName (fileName role u) := isName_fileName
  rw [Disk.isName, Bool.and_eq_true, bne_iff_ne, bne_iff_ne] at hnamed
  exact ⟨slash_not_mem_fileName, fileName_ne_empty, hnamed.1, hnamed.2⟩

/-- The file of a unit is an entry of the directory of objects. -/
theorem components_path :
    (l.path role u).components = l.objectsDirectory.components ++ [.name (fileName role u)] :=
  FilePath.components_entry isPlain_fileName

/-- Two paths of a layout name one file exactly if they have one role for units of one name and one
    overload number. -/
theorem same_path_iff : (l.path role u).same (l.path other v) ↔
    role = other ∧ u.name = v.name ∧ u.overload = v.overload := by
  constructor
  · intro hsame
    have hcomponents := FilePath.same_iff.1 hsame
    rw [components_path, components_path, List.append_cancel_left_eq, List.singleton_inj] at hcomponents
    obtain ⟨hstem, hrole⟩ := fileName_injective (FilePath.Component.name.inj hcomponents)
    exact ⟨hrole, BuildUnit.stem_injective hstem⟩
  · rintro ⟨rfl, hname, hoverload⟩
    have hstem : u.stem = v.stem := by rw [BuildUnit.stem, BuildUnit.stem, hname, hoverload]
    rw [FilePath.same_iff, components_path, components_path, fileName, fileName, hstem]

end Layout

end ScriptBuild
