import Mathlib.Tactic.Common
import ScriptBuild.Stub
import ScriptBuild.Proofs.Layout

namespace ScriptBuild

namespace BuildUnit

variable {u v : BuildUnit} {c d : Char} {as bs xs ys : List Char} {m n : Nat} {slot other : String}

/-- How a slot is spelled in symbols. -/
def spelling (slot : String) : List Char := slot.toList.map symbolChar

/-- How a name, an overload number and a spelled slot are put together. -/
def spell (as : List Char) (m : Nat) (xs : List Char) : List Char :=
  as.flatMap escapeChar ++ '_' :: (Nat.toDigits 10 m ++ '_' :: xs)

/-- A symbol is its prefix, the escaped name, the overload number and the spelled slot. -/
theorem toList_symbol : (u.symbol slot).toList =
    "sc_".toList ++ spell u.name.toList u.overload (spelling slot) := by
  simp [symbol, stem, spell, spelling]

/-- One name goes on where the other one ends, with a character whose number is written like the
    overload number after the shorter name; the slot there is spelled like all the rest. -/
def Overruns (as : List Char) (m : Nat) (xs bs : List Char) (n : Nat) (ys : List Char) : Prop :=
  ∃ c rest, bs = as ++ c :: rest ∧ ¬ c.isAlphanum ∧ escapeCode c = Nat.toDigits 10 m ∧
    xs = spell rest n ys

theorem spell_cons : spell (c :: as) m xs = escapeChar c ++ spell as m xs := by
  simp [spell]

/-- Whether one name overruns another one does not depend on a common first character. -/
theorem overruns_cons : Overruns (c :: as) m xs (c :: bs) n ys ↔ Overruns as m xs bs n ys := by
  simp [Overruns]

/-- After equal names the overload number and the slot can be read back. -/
theorem spell_nil_inj (heq : spell [] m xs = spell [] n ys) : m = n ∧ xs = ys := by
  obtain ⟨hdigits, hrest⟩ := append_underscore_inj (by simp) (by simp) (List.cons.inj heq).2
  refine ⟨?_, hrest⟩
  rw [← Nat.ofDigitChars_ten_toDigits (n := m), hdigits, Nat.ofDigitChars_ten_toDigits]

/-- Where one name has ended, the other one can only go on with a character that the stem escapes. -/
theorem overruns_of_spell_eq (heq : spell [] m xs = spell (c :: bs) n ys) :
    Overruns [] m xs (c :: bs) n ys := by
  have hunderscore : ¬ '_'.isAlphanum := by decide
  rw [spell_cons, escapeChar_eq] at heq
  split at heq
  · next halnum => exact absurd ((List.cons.inj heq).1 ▸ halnum) hunderscore
  · next hescaped =>
    simp only [spell, List.flatMap_nil, List.nil_append, List.cons_append, List.append_assoc,
      List.cons.injEq, true_and] at heq
    obtain ⟨hcode, hrest⟩ := append_underscore_inj (by simp) underscore_not_mem_escapeCode heq
    exact ⟨c, bs, rfl, hescaped, hcode.symm, hrest⟩

/-- A name that overruns another one is spelled alike. -/
theorem spell_eq_of_overruns (h : Overruns as m xs bs n ys) : spell as m xs = spell bs n ys := by
  obtain ⟨c, rest, rfl, hescaped, hcode, rfl⟩ := h
  simp [spell, escapeChar_eq, hescaped, hcode]

/-- The induction is on both names at once: as long as they agree, so do their spellings. -/
theorem spell_eq_iff : spell as m xs = spell bs n ys ↔
    (as = bs ∧ m = n ∧ xs = ys) ∨ Overruns as m xs bs n ys ∨ Overruns bs n ys as m xs := by
  refine ⟨fun heq => ?_, ?_⟩
  · induction as generalizing bs with
    | nil =>
      cases bs with
      | nil => exact .inl ⟨rfl, spell_nil_inj heq⟩
      | cons d bs => exact .inr (.inl (overruns_of_spell_eq heq))
    | cons c as ih =>
      cases bs with
      | nil => exact .inr (.inr (overruns_of_spell_eq heq.symm))
      | cons d bs =>
        rw [spell_cons, spell_cons] at heq
        obtain ⟨rfl, hrest⟩ := escapeChar_append_inj heq
        rw [overruns_cons, overruns_cons, List.cons_inj_right]
        exact ih hrest
  · rintro (⟨rfl, rfl, rfl⟩ | hover | hover)
    · rfl
    · exact spell_eq_of_overruns hover
    · exact (spell_eq_of_overruns hover).symm

/-- The name of `v` goes on where that of `u` ends, with a character whose number is written like
    the overload number of `u`, and the slot of `u` is spelled like what follows in the symbol of
    `v`. A symbol is a stem and a slot with an underscore between them. The stem can be read back
    but the slot cannot, since all its other characters become underscores; and where the stem ends
    cannot always be seen, since an overload number is written like the number of a character that
    the stem escapes. -/
def RunsInto (u : BuildUnit) (slot : String) (v : BuildUnit) (other : String) : Prop :=
  Overruns u.name.toList u.overload (spelling slot) v.name.toList v.overload (spelling other)

/-- Two exported slots get one symbol if they belong to one unit and are spelled alike, or if one of
    them runs into the other, and in no other case. -/
theorem symbol_eq_iff : u.symbol slot = v.symbol other ↔
    (u.name = v.name ∧ u.overload = v.overload ∧ spelling slot = spelling other) ∨
      u.RunsInto slot v other ∨ v.RunsInto other u slot := by
  rw [← String.toList_inj, toList_symbol, toList_symbol, List.append_cancel_left_eq, spell_eq_iff,
    String.toList_inj]
  rfl

/-- A class in which an accessor and a method differ in a point only. -/
def accessorClass : BuildUnit :=
  ⟨"C", 0, .classFile ⟨"src/@C/C.m"⟩, 1, none, ["get.x", "get_x"]⟩

example : accessorClass.symbol "get.x" = "sc_C_0_get_x" ∧
    accessorClass.symbol "get_x" = "sc_C_0_get_x" := by decide

-- A blank has the number 20 in hexadecimal, so a name with a blank reads like the overload of this
-- number of a shorter name.
example : (⟨"a b", 0, .snippet, 0, none, ["c"]⟩ : BuildUnit).symbol "c" = "sc_a_20_b_0_c" ∧
    (⟨"a", 20, .snippet, 0, none, ["b_0_c"]⟩ : BuildUnit).symbol "b_0_c" = "sc_a_20_b_0_c" := by
  decide

/-- A name of ASCII letters, digits and underscores. -/
def IsPlainWord (name : String) : Prop := ∀ c ∈ name.toList, c.isAlphanum ∨ c = '_'

theorem spelling_of_isPlainWord (h : IsPlainWord slot) : spelling slot = slot.toList := by
  refine (List.map_congr_left fun c hmem => ?_).trans (List.map_id _)
  rcases h c hmem with halnum | rfl
  · simp [symbolChar, halnum]
  · rfl

/-- A plain word has no character that could be taken for an overload number. -/
theorem not_overruns_of_isPlainWord {name : String} (h : IsPlainWord name) :
    ¬ Overruns as m xs name.toList n ys := by
  rintro ⟨c, rest, happend, hescaped, hcode, -⟩
  have hmem : c ∈ name.toList := by
    rw [happend]
    exact List.mem_append_right as List.mem_cons_self
  obtain rfl := (h c hmem).resolve_left hescaped
  exact Nat.toDigits_ne_nil hcode.symm

/-- Units that are called by plain words and export plain words never share a symbol. -/
theorem symbol_injective_of_isPlainWord (hu : IsPlainWord u.name) (hv : IsPlainWord v.name)
    (hslot : IsPlainWord slot) (hother : IsPlainWord other)
    (heq : u.symbol slot = v.symbol other) :
    u.name = v.name ∧ u.overload = v.overload ∧ slot = other := by
  rw [← String.toList_inj, toList_symbol, toList_symbol, List.append_cancel_left_eq] at heq
  obtain ⟨hname, hoverload, hspelling⟩ := (spell_eq_iff.1 heq).resolve_right fun hover =>
    hover.elim (not_overruns_of_isPlainWord hv) (not_overruns_of_isPlainWord hu)
  rw [spelling_of_isPlainWord hslot, spelling_of_isPlainWord hother] at hspelling
  exact ⟨String.toList_injective hname, hoverload, String.toList_injective hspelling⟩

end BuildUnit

end ScriptBuild
