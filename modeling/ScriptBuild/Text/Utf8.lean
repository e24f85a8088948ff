namespace ScriptBuild.Text.Utf8

/-- What stands for bytes that are no text. -/
def replacement : Char := Char.ofNat 0xFFFD

/-- A range of bytes. -/
structure ByteRange where
  first : UInt8
  last : UInt8
deriving DecidableEq, Repr

/-- Whether a byte lies in a range. -/
def ByteRange.has (r : ByteRange) (b : UInt8) : Bool := r.first ≤ b && b ≤ r.last

/-- The bytes that continue a character. -/
def continuation : ByteRange := ⟨0x80, 0xBF⟩

/-- What the first byte of a character gives to its number, and where the bytes that follow have to
    lie. The second byte is limited so that no character is spelled longer than needed, is half a
    pair, or is beyond the last one. -/
def lead? (b : UInt8) : Option (Nat × List ByteRange) :=
  if b < 0x80 then some (b.toNat, [])
  else if (⟨0xC2, 0xDF⟩ : ByteRange).has b then some (b.toNat - 0xC0, [continuation])
  else if b == 0xE0 then some (0, [⟨0xA0, 0xBF⟩, continuation])
  else if b == 0xED then some (0xD, [⟨0x80, 0x9F⟩, continuation])
  else if (⟨0xE1, 0xEF⟩ : ByteRange).has b then some (b.toNat - 0xE0, [continuation, continuation])
  else if b == 0xF0 then some (0, [⟨0x90, 0xBF⟩, continuation, continuation])
  else if (⟨0xF1, 0xF3⟩ : ByteRange).has b then
    some (b.toNat - 0xF0, [continuation, continuation, continuation])
  else if b == 0xF4 then some (4, [⟨0x80, 0x8F⟩, continuation, continuation])
  else none

/-- Reads the bytes after the first one: the number of the character, unless it breaks off, and the
    bytes that are left. -/
def follow (number : Nat) : List ByteRange → List UInt8 → Option Nat × List UInt8
  | [], bytes => (some number, bytes)
  | _ :: _, [] => (none, [])
  | range :: ranges, b :: bytes =>
    if range.has b then follow (number * 64 + b.toNat % 64) ranges bytes else (none, b :: bytes)

theorem length_follow_le (number : Nat) (ranges : List ByteRange) (bytes : List UInt8) :
    (follow number ranges bytes).2.length ≤ bytes.length := by
  fun_induction follow number ranges bytes with
  | case1 | case2 | case4 => exact Nat.le_refl _
  | case3 _ _ _ _ _ _ ih => exact Nat.le_succ_of_le ih

/-- The text that some bytes spell, with replacements for those that spell none. What begins like a
    character and then breaks off, and every byte that no character begins with, becomes one
    replacement character. -/
def decode : List UInt8 → List Char
  | [] => []
  | b :: bytes =>
    match lead? b with
    | none => replacement :: decode bytes
    | some (number, ranges) =>
      ((follow number ranges bytes).1.elim replacement Char.ofNat) ::
        decode (follow number ranges bytes).2
termination_by bytes => bytes.length
decreasing_by
  · simp
  · have := length_follow_le number ranges bytes
    simp only [List.length_cons]
    omega

end ScriptBuild.Text.Utf8
