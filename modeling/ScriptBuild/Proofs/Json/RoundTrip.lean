import Mathlib.Data.List.Basic
import Mathlib.Data.List.TakeDrop
import Mathlib.Tactic.Common
import ScriptBuild.Json.Printer
import ScriptBuild.Json.Reader

namespace ScriptBuild.Json

namespace Text

variable {c : Char} {s rest : List Char} {n : Nat}

/-- Hexadecimal digits are read back. -/
theorem hexValue?_hexDigit : ∀ n < 16, hexValue? (hexDigit n) = some n := by decide

/-- So is the number of a control character. -/
theorem codeUnit?_control (hlt : n < 32) :
    codeUnit? '0' '0' (hexDigit (n / 16)) (hexDigit (n % 16)) = some n := by
  have hzero : hexValue? '0' = some 0 := by decide
  have hhigh := hexValue?_hexDigit (n / 16) (by omega)
  have hlow := hexValue?_hexDigit (n % 16) (by omega)
  simp only [codeUnit?, hzero, hhigh, hlow, Option.bind_eq_bind, Option.bind_some]
  congr 1
  omega

/-- A character is written as a one-letter escape, as a control character, or as it is. -/
theorem encodeChar_cases (c : Char) :
    (∃ e, encodeChar c = ['\\', e] ∧ e ≠ 'u' ∧ shortEscape? e = some c) ∨
    (c.toNat < 32 ∧ encodeChar c =
      ['\\', 'u', '0', '0', hexDigit (c.toNat / 16), hexDigit (c.toNat % 16)]) ∨
    (encodeChar c = [c] ∧ c ≠ '"' ∧ c ≠ '\\' ∧ ¬ c.toNat < 32) := by
  have hnumber (k : Nat) (h : c.toNat = k) : some (Char.ofNat k) = some c := by
    rw [← h, Char.ofNat_toNat]
  simp only [encodeChar, beq_iff_eq]
  by_cases hquote : c = '"'
  · exact .inl ⟨'"', if_pos hquote, by decide, by rw [hquote]; rfl⟩
  rw [if_neg hquote]
  by_cases hslash : c = '\\'
  · exact .inl ⟨'\\', if_pos hslash, by decide, by rw [hslash]; rfl⟩
  rw [if_neg hslash]
  by_cases hfeed : c = '\n'
  · exact .inl ⟨'n', if_pos hfeed, by decide, by rw [hfeed]; rfl⟩
  rw [if_neg hfeed]
  by_cases hreturn : c = '\r'
  · exact .inl ⟨'r', if_pos hreturn, by decide, by rw [hreturn]; rfl⟩
  rw [if_neg hreturn]
  by_cases htab : c = '\t'
  · exact .inl ⟨'t', if_pos htab, by decide, by rw [htab]; rfl⟩
  rw [if_neg htab]
  by_cases hback : c.toNat = 8
  · exact .inl ⟨'b', if_pos hback, by decide, hnumber 8 hback⟩
  rw [if_neg hback]
  by_cases hform : c.toNat = 12
  · exact .inl ⟨'f', if_pos hform, by decide, hnumber 12 hform⟩
  rw [if_neg hform]
  by_cases hlt : c.toNat < 32
  · exact .inr (.inl ⟨hlt, if_pos hlt⟩)
  · exact .inr (.inr ⟨if_neg hlt, hquote, hslash, hlt⟩)

theorem decode_cons (hne : c ≠ '\\') : decode (c :: rest) = (decode rest).map (c :: ·) := by
  rw [decode.eq_4 _ _ (by simp [hne]) (by simp [hne]), Option.map_eq_bind]
  rfl

/-- An escape of one letter stands for what it was written for. -/
theorem decode_escape {e : Char} (hne : e ≠ 'u') (hescape : shortEscape? e = some c) :
    decode ('\\' :: e :: rest) = (decode rest).map (c :: ·) := by
  rw [decode.eq_3 _ _ (by simp [hne]), hescape, Option.map_eq_bind]
  rfl

/-- An escape of a number stands for the control character with that number. -/
theorem decode_control (hlt : n < 32) :
    decode ('\\' :: 'u' :: '0' :: '0' :: hexDigit (n / 16) :: hexDigit (n % 16) :: rest) =
      (decode rest).map (Char.ofNat n :: ·) := by
  have hsurrogate (bound other : Nat) (hle : 0xd800 ≤ bound) :
      ¬ (decide (bound ≤ n) && decide (n < other)) = true := by
    simp only [Bool.and_eq_true, decide_eq_true_eq]
    omega
  rw [decode.eq_2, codeUnit?_control hlt, Option.bind_eq_bind, Option.bind_some,
    if_neg (hsurrogate _ _ (by decide)), if_neg (hsurrogate _ _ (by decide)), Option.map_eq_bind]
  rfl

/-- Every character is read back as it was written, whatever follows. -/
theorem decode_encodeChar : decode (encodeChar c ++ rest) = (decode rest).map (c :: ·) := by
  rcases encodeChar_cases c with ⟨e, heq, hne, hescape⟩ | ⟨hlt, heq⟩ | ⟨heq, _, hne, _⟩
  · exact heq ▸ decode_escape hne hescape
  · have hcontrol : decode ('\\' :: 'u' :: '0' :: '0' :: hexDigit (c.toNat / 16) ::
        hexDigit (c.toNat % 16) :: rest) = _ := decode_control hlt
    rw [Char.ofNat_toNat] at hcontrol
    exact heq ▸ hcontrol
  · exact heq ▸ decode_cons hne

/-- Escaping can be undone. -/
@[simp] theorem decode_encode (s : List Char) : decode (encode s) = some s := by
  induction s with
  | nil => rfl
  | cons c s ih => rw [encode, List.flatMap_cons, decode_encodeChar, ← encode, ih, Option.map_some]

end Text

namespace Reader

open Text (encode encodeChar encodeChar_cases codeUnit?_control)

variable {c close : Char} {s cs rest : List Char} {n level fuel : Nat}

/-- What is written for a character does not end the text. -/
theorem written_encodeChar : written (encodeChar c ++ rest) =
    (written rest).map fun (cs, rest) => (encodeChar c ++ cs, rest) := by
  rcases encodeChar_cases c with ⟨e, heq, hne, hescape⟩ | ⟨hlt, heq⟩ | ⟨heq, hquote, hslash, hlt⟩
  · simp only [heq, List.cons_append, List.nil_append]
    rw [written.eq_4 _ _ (by simp [hne]), hescape]
    rfl
  · simp only [heq, List.cons_append, List.nil_append]
    rw [written.eq_3, codeUnit?_control hlt]
    rfl
  · simp only [heq, List.cons_append, List.nil_append]
    rw [written.eq_5 _ _ hquote (by simp [hslash]) (by simp [hslash]),
      if_neg (by simp [hslash, hlt])]

/-- A text is read up to its closing quote. -/
theorem written_encode (s rest : List Char) :
    written (encode s ++ '"' :: rest) = some (encode s, rest) := by
  induction s with
  | nil => rfl
  | cons c s ih =>
    rw [encode, List.flatMap_cons, List.append_assoc, written_encodeChar, ← encode, ih,
      Option.map_some]

/-- What may follow a value in a document: a comma, a line feed, or nothing. -/
def Ends (rest : List Char) : Prop := ∀ c ∈ rest.head?, c = ',' ∨ c = '\n'

/-- A positive number does not start with a zero. -/
theorem head?_toDigits_ne (hpos : 0 < n) : (Nat.toDigits 10 n).head? ≠ some '0' := by
  induction n using Nat.strongRecOn with
  | ind n ih =>
    rw [Nat.toDigits_eq_if (by decide)]
    split
    · next hlt =>
      have hdigit : ∀ n < 10, 0 < n → n.digitChar ≠ '0' := by decide
      simpa using hdigit n hlt hpos
    · rw [List.head?_append_of_ne_nil _ Nat.toDigits_ne_nil]
      exact ih (n / 10) (by omega) (by omega)

/-- What may follow a value is no digit. -/
theorem not_isDigit_of_ends (hends : Ends rest) : ∀ c ∈ rest.head?, ¬ c.isDigit := by
  intro c hc
  rcases hends c hc with rfl | rfl <;> decide

/-- The digits of a number are read up to its end. -/
theorem digits_toDigits (hends : Ends rest) :
    digits (Nat.toDigits 10 n ++ rest) = (Nat.toDigits 10 n, rest) := by
  have hdigit : ∀ c ∈ Nat.toDigits 10 n, c.isDigit := fun c hmem =>
    Nat.isDigit_of_mem_toDigits (by decide) (by decide) hmem
  have hrest := not_isDigit_of_ends hends
  rw [digits, List.span_eq_takeWhile_dropWhile, List.takeWhile_append_of_pos hdigit,
    List.dropWhile_append_of_pos hdigit]
  cases rest with
  | nil => simp
  | cons c rest => simp [hrest c rfl]

theorem whole_toDigits (hends : Ends rest) :
    whole (Nat.toDigits 10 n ++ rest) = some (Nat.toDigits 10 n, rest) := by
  unfold whole
  split
  · next later heq =>
    -- Only zero starts with the digit zero.
    have hzero : n = 0 := by
      by_contra hne
      refine head?_toDigits_ne (Nat.pos_of_ne_zero hne) ?_
      rw [← List.head?_append_of_ne_nil _ Nat.toDigits_ne_nil, heq]
      rfl
    subst hzero
    obtain rfl : rest = later := List.cons.inj heq |>.2
    rfl
  · simp [someDigits, digits_toDigits hends]

/-- What may follow a value is no fraction. -/
theorem fraction_of_ends (hends : Ends rest) : fraction rest = some ([], rest) := by
  unfold fraction
  split
  · simpa using hends '.' rfl
  · rfl

theorem power_of_ends (hends : Ends rest) : power rest = some ([], rest) := by
  cases rest with
  | nil => rfl
  | cons c rest => rcases hends c rfl with rfl | rfl <;> rfl

theorem head?_toDigits (n : Nat) : ∃ c cs, Nat.toDigits 10 n = c :: cs ∧ c.isDigit := by
  obtain ⟨c, cs, heq⟩ := List.exists_cons_of_ne_nil (Nat.toDigits_ne_nil (n := n) (b := 10))
  exact ⟨c, cs, heq, Nat.isDigit_of_mem_toDigits (by decide) (by decide)
    (heq ▸ List.mem_cons_self)⟩

/-- A natural number is read up to where its digits end. -/
theorem number_toDigits (hends : Ends rest) :
    number (Nat.toDigits 10 n ++ rest) = some (Nat.toDigits 10 n, rest) := by
  obtain ⟨c, cs, heq, hdigit⟩ := head?_toDigits n
  have hsign : c ≠ '-' := by rintro rfl; exact absurd hdigit (by decide)
  unfold number
  split
  · next sign rest' heq' =>
    split at heq'
    · next later hminus =>
      rw [heq] at hminus
      exact absurd (List.cons.inj hminus).1 hsign
    · obtain ⟨rfl, rfl⟩ := Prod.mk.inj heq'
      simp [whole_toDigits hends, fraction_of_ends hends, power_of_ends hends]

end Reader

/-- A value whose numbers are natural and whose texts are escaped. -/
inductive Value.Plain : Value → Prop where
  | null : Plain .null
  | bool (b : Bool) : Plain (.bool b)
  | number (n : Nat) : Plain (.ofNat n)
  | text (s : List Char) : Plain (.text (Text.encode s))
  | array (items : List Value) (h : ∀ v ∈ items, Plain v) : Plain (.array items)
  | object (members : List (List Char × Value)) (hkeys : ∀ m ∈ members, ∃ s, m.1 = Text.encode s)
      (h : ∀ m ∈ members, Plain m.2) : Plain (.object members)

namespace Reader

open Value (newline render renderItems renderMembers)

variable {c : Char} {cs rest key : List Char} {v : Value} {vs : List Value}
  {ms : List (List Char × Value)} {level outer fuel : Nat}

/-- A value is taken off the front of what is written for it, at any level. -/
def TakesOff (v : Value) : Prop :=
  ∀ level fuel rest, (v.render level).length ≤ fuel → Ends rest →
    value fuel (v.render level ++ rest) = some (v, rest)

/-- A line feed and the indent after it are blanks. -/
theorem skipBlanks_newline : skipBlanks (newline level ++ cs) = skipBlanks cs := by
  refine List.dropWhile_append_of_pos fun c hmem => ?_
  rcases List.mem_cons.1 hmem with rfl | hblank
  · decide
  · rw [List.eq_of_mem_replicate hblank]; decide

theorem skipBlanks_cons (hblank : isBlank c = false) : skipBlanks (c :: cs) = c :: cs :=
  List.dropWhile_cons_of_neg (by simp [hblank])

/-- A value may stand on a line of its own. -/
theorem value_newline : value fuel (newline level ++ cs) = value fuel cs := by
  cases fuel with
  | zero => rfl
  | succ fuel => rw [value, value, skipBlanks_newline]

theorem items_newline : items fuel (newline level ++ cs) = items fuel cs := by
  cases fuel with
  | zero => rfl
  | succ fuel => rw [items, items, value_newline]

theorem members_newline : members fuel (newline level ++ cs) = members fuel cs := by
  cases fuel with
  | zero => rfl
  | succ fuel => rw [members, members, skipBlanks_newline]

theorem isBlank_of_isDigit (hdigit : c.isDigit) : isBlank c = false := by
  by_contra hblank
  simp only [isBlank, Bool.not_eq_false, Bool.or_eq_true, beq_iff_eq] at hblank
  rcases hblank with ((rfl | rfl) | rfl) | rfl <;> exact absurd hdigit (by decide)

/-- What starts with a digit is a number. -/
theorem value_digit (hdigit : c.isDigit) : value (fuel + 1) (c :: rest) =
    (number (c :: rest)).map fun (n, rest) => (.number n, rest) := by
  rw [value, skipBlanks_cons (isBlank_of_isDigit hdigit)]
  dsimp only
  have hne (d : Char) (hd : d.isDigit = false) : ¬ (c == d) = true := by
    rw [beq_iff_eq]
    rintro rfl
    rw [hd] at hdigit
    cases hdigit
  rw [if_neg (hne '"' rfl), if_neg (hne '[' rfl), if_neg (hne '\x7b' rfl), if_neg (hne 'n' rfl),
    if_neg (hne 't' rfl), if_neg (hne 'f' rfl)]

/-- What starts with a bracket is an array, which is not empty unless it is closed at once. -/
theorem value_bracket (hskip : skipBlanks rest = c :: cs) (hclose : c ≠ ']') :
    value (fuel + 1) ('[' :: rest) =
      (items fuel (c :: cs)).map fun (vs, rest) => (.array vs, rest) := by
  rw [value, skipBlanks_cons (by decide)]
  simp only [hskip]
  rw [if_neg (by decide), if_pos (by decide)]
  split
  · simp_all
  · rfl

/-- What starts with a brace is an object, which is not empty unless it is closed at once. -/
theorem value_brace (hskip : skipBlanks rest = c :: cs) (hclose : c ≠ '\x7d') :
    value (fuel + 1) ('\x7b' :: rest) =
      (members fuel (c :: cs)).map fun (ms, rest) => (.object ms, rest) := by
  rw [value, skipBlanks_cons (by decide)]
  simp only [hskip]
  rw [if_neg (by decide), if_neg (by decide), if_pos (by decide)]
  split
  · simp_all
  · rfl

/-- What is written for a value starts with no blank, and does not look like the end of an array. -/
theorem exists_render_eq_cons (hplain : v.Plain) (level : Nat) :
    ∃ c cs, v.render level = c :: cs ∧ isBlank c = false ∧ c ≠ ']' := by
  cases hplain with
  | null => exact ⟨'n', _, rfl, by decide, by decide⟩
  | bool b =>
    cases b
    · exact ⟨'f', _, rfl, by decide, by decide⟩
    · exact ⟨'t', _, rfl, by decide, by decide⟩
  | number n =>
    obtain ⟨c, cs, heq, hdigit⟩ := head?_toDigits n
    refine ⟨c, cs, heq, isBlank_of_isDigit hdigit, ?_⟩
    rintro rfl
    exact absurd hdigit (by decide)
  | text s => exact ⟨'"', _, rfl, by decide, by decide⟩
  | array items h => cases items <;> exact ⟨'[', _, rfl, by decide, by decide⟩
  | object members hkeys h =>
    rcases members with _ | ⟨⟨key, v⟩, ms⟩ <;> exact ⟨'\x7b', _, rfl, by decide, by decide⟩

/-- After an item there is a comma or a line feed. -/
theorem ends_renderItems (level outer : Nat) (vs : List Value) (cs : List Char) :
    Ends (renderItems level vs ++ (newline outer ++ cs)) := by
  cases vs <;> simp [Ends, renderItems, newline]

/-- After a member there is a comma or a line feed. -/
theorem ends_renderMembers (level outer : Nat) (ms : List (List Char × Value)) (cs : List Char) :
    Ends (renderMembers level ms ++ (newline outer ++ cs)) := by
  rcases ms with _ | ⟨⟨key, v⟩, ms⟩ <;> simp [Ends, renderMembers, newline]

/-- The closing mark on the next line ends a list. -/
theorem separator_newline (hblank : isBlank c = false) (hcomma : c ≠ ',') :
    separator c (newline level ++ c :: rest) = some (.done, rest) := by
  rw [separator, skipBlanks_newline, skipBlanks_cons hblank]
  simp [hcomma]

theorem separator_comma : separator c (',' :: rest) = some (.more, rest) := rfl

/-- The items of an array are read up to its closing bracket. -/
theorem items_render (outer : Nat) (rest : List Char) (h : ∀ v' ∈ v :: vs, TakesOff v')
    (hfuel : (v.render level ++ renderItems level vs).length < fuel) :
    items fuel (v.render level ++ (renderItems level vs ++ (newline outer ++ ']' :: rest))) =
      some (v :: vs, rest) := by
  induction vs generalizing v fuel with
  | nil =>
    obtain ⟨fuel, rfl⟩ := Nat.exists_eq_add_one_of_ne_zero (Nat.ne_zero_of_lt hfuel)
    have hread := h v (by simp) level fuel _ (by simp at hfuel; omega)
      (ends_renderItems level outer [] (']' :: rest))
    rw [items, hread]
    simp only [renderItems, List.nil_append, Option.bind_eq_bind, Option.bind_some,
      separator_newline (c := ']') (by decide) (by decide)]
  | cons v' vs ih =>
    obtain ⟨fuel, rfl⟩ := Nat.exists_eq_add_one_of_ne_zero (Nat.ne_zero_of_lt hfuel)
    simp only [renderItems, List.length_append, List.length_cons] at hfuel
    have hlength : (v'.render level ++ renderItems level vs).length < fuel := by
      simp only [List.length_append]
      omega
    have hrest := ih (fun v'' hmem => h v'' (List.mem_cons_of_mem _ hmem)) hlength
    have hread := h v (by simp) level fuel _ (by omega)
      (ends_renderItems level outer (v' :: vs) (']' :: rest))
    rw [items, hread]
    simp only [renderItems, List.cons_append, List.append_assoc, Option.bind_eq_bind,
      Option.bind_some, separator_comma, items_newline, hrest]

/-- The members of an object are read up to its closing brace. -/
theorem members_render (outer : Nat) (rest : List Char) (hkey : ∃ s, key = Text.encode s)
    (hkeys : ∀ m ∈ ms, ∃ s, m.1 = Text.encode s) (hv : TakesOff v) (h : ∀ m ∈ ms, TakesOff m.2)
    (hfuel : (v.render level ++ renderMembers level ms).length < fuel) :
    members fuel ('"' :: (key ++ '"' :: ':' :: ' ' :: (v.render level ++
      (renderMembers level ms ++ (newline outer ++ '\x7d' :: rest))))) =
      some ((key, v) :: ms, rest) := by
  have hvalue {fuel : Nat} {cs : List Char} : value fuel (' ' :: cs) = value fuel cs := by
    cases fuel with
    | zero => rfl
    | succ fuel => rw [value, value]; rfl
  obtain ⟨s, rfl⟩ := hkey
  induction ms generalizing s v fuel with
  | nil =>
    obtain ⟨fuel, rfl⟩ := Nat.exists_eq_add_one_of_ne_zero (Nat.ne_zero_of_lt hfuel)
    have hread := hv level fuel _ (by simp at hfuel; omega)
      (ends_renderMembers level outer [] ('\x7d' :: rest))
    rw [members, skipBlanks_cons (by decide)]
    simp only [written_encode, Option.bind_eq_bind, Option.bind_some,
      skipBlanks_cons (c := ':') (by decide), hvalue, hread]
    simp only [renderMembers, List.nil_append, Option.bind_some,
      separator_newline (c := '\x7d') (by decide) (by decide)]
  | cons m ms ih =>
    obtain ⟨fuel, rfl⟩ := Nat.exists_eq_add_one_of_ne_zero (Nat.ne_zero_of_lt hfuel)
    obtain ⟨key', v'⟩ := m
    simp only [renderMembers, List.length_append, List.length_cons] at hfuel
    obtain ⟨s', rfl⟩ := hkeys _ List.mem_cons_self
    have hlength : (v'.render level ++ renderMembers level ms).length < fuel := by
      simp only [List.length_append]
      omega
    have hrest := ih (fun m hmem => hkeys m (List.mem_cons_of_mem _ hmem))
      (h _ List.mem_cons_self) (fun m hmem => h m (List.mem_cons_of_mem _ hmem)) hlength s'
    have hread := hv level fuel _ (by omega)
      (ends_renderMembers level outer ((Text.encode s', v') :: ms) ('\x7d' :: rest))
    rw [members, skipBlanks_cons (by decide)]
    simp only [written_encode, Option.bind_eq_bind, Option.bind_some,
      skipBlanks_cons (c := ':') (by decide), hvalue, hread]
    simp only [renderMembers, List.cons_append, List.append_assoc, List.nil_append,
      Option.bind_some, separator_comma, members_newline, hrest]

/-- Every value is taken off the front of what is written for it. -/
theorem takesOff_of_plain (hplain : v.Plain) : TakesOff v := by
  induction hplain with
  | null =>
    rintro level (_ | fuel) rest hfuel -
    · simp [render] at hfuel
    · rfl
  | bool b =>
    rintro level (_ | fuel) rest hfuel -
    · cases b <;> simp [render] at hfuel
    · cases b <;> rfl
  | number n =>
    obtain ⟨c, cs, heq, hdigit⟩ := head?_toDigits n
    rintro level (_ | fuel) rest hfuel hends
    · simp [render, Value.ofNat, heq] at hfuel
    · have hnumber := number_toDigits (n := n) hends
      rw [heq, List.cons_append] at hnumber
      simp only [render, Value.ofNat, heq, List.cons_append]
      rw [value_digit hdigit, hnumber]
      rfl
  | text s =>
    rintro level (_ | fuel) rest hfuel -
    · simp [render] at hfuel
    · simp only [render, List.cons_append, List.append_assoc, List.nil_append, value,
        skipBlanks_cons (c := '"') (by decide), written_encode]
      rfl
  | array items h ih =>
    rintro level (_ | fuel) rest hfuel -
    · cases items <;> simp [render] at hfuel
    · cases items with
      | nil => rfl
      | cons v vs =>
        simp only [render, List.length_append, List.length_cons] at hfuel
        obtain ⟨c, cs, heq, hblank, hclose⟩ :=
          exists_render_eq_cons (h v List.mem_cons_self) (level + 1)
        have hlength : (v.render (level + 1) ++ renderItems (level + 1) vs).length < fuel := by
          simp only [List.length_append]
          omega
        have hitems := items_render level rest ih hlength
        have hskip : skipBlanks (newline (level + 1) ++ (v.render (level + 1) ++
            (renderItems (level + 1) vs ++ (newline level ++ ']' :: rest)))) =
            c :: (cs ++ (renderItems (level + 1) vs ++ (newline level ++ ']' :: rest))) := by
          rw [skipBlanks_newline, heq, List.cons_append, skipBlanks_cons hblank]
        rw [heq, List.cons_append] at hitems
        simp only [render, List.cons_append, List.append_assoc, List.nil_append]
        rw [value_bracket hskip hclose, hitems]
        rfl
  | object members hkeys h ih =>
    rintro level (_ | fuel) rest hfuel -
    · rcases members with _ | ⟨⟨key, v⟩, ms⟩ <;> simp [render] at hfuel
    · rcases members with _ | ⟨⟨key, v⟩, ms⟩
      · rfl
      · simp only [render, List.length_append, List.length_cons] at hfuel
        have hlength : (v.render (level + 1) ++ renderMembers (level + 1) ms).length < fuel := by
          simp only [List.length_append]
          omega
        have hmembers := members_render level rest (hkeys _ List.mem_cons_self)
          (fun m hmem => hkeys m (List.mem_cons_of_mem _ hmem)) (ih _ List.mem_cons_self)
          (fun m hmem => ih m (List.mem_cons_of_mem _ hmem)) hlength
        simp only [render, List.cons_append, List.append_assoc, List.nil_append]
        rw [value_brace (skipBlanks_newline.trans (skipBlanks_cons (by decide))) (by decide),
          hmembers]
        rfl

end Reader

/-- What is written is read back. -/
theorem Value.parse?_document (hplain : v.Plain) : parse? v.document = some v := by
  have hread := Reader.takesOff_of_plain hplain 0 (v.render 0).length [] (Nat.le_refl _)
    (by simp [Reader.Ends])
  rw [List.append_nil] at hread
  simp [parse?, document, hread, Reader.skipBlanks]

end ScriptBuild.Json
