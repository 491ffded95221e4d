import PianoRoll.Fault

/-!
Text from bytes. A character is one byte, or a leading byte with one to three bytes behind it; the
first byte that does not fit is reported together with the character it belongs to.
-/

namespace PianoRoll.Text

/-- What a leading byte announces: how many bytes follow, the bounds of the first of them, and
the leading byte's share of the code point. -/
def announced? (b : Nat) : Option (Nat × Nat × Nat × Nat) :=
  if 0xC2 ≤ b ∧ b ≤ 0xDF then some (1, 0x80, 0xBF, b - 0xC0)
  else if b = 0xE0 then some (2, 0xA0, 0xBF, 0)
  else if b = 0xED then some (2, 0x80, 0x9F, 0xD)
  else if 0xE1 ≤ b ∧ b ≤ 0xEF then some (2, 0x80, 0xBF, b - 0xE0)
  else if b = 0xF0 then some (3, 0x90, 0xBF, 0)
  else if 0xF1 ≤ b ∧ b ≤ 0xF3 then some (3, 0x80, 0xBF, b - 0xF0)
  else if b = 0xF4 then some (3, 0x80, 0x8F, 4)
  else none

/-- A character that is not complete: where it began and with which byte, how many bytes are
missing, the bounds of the next one, and the code point so far. -/
structure Unfinished where
  first : Nat
  byte : Nat
  missing : Nat
  low : Nat
  high : Nat
  code : Nat

/-- The characters of bytes from a position on. -/
def decodeFrom (position : Nat) : Option Unfinished → List UInt8 → Except ByteFault (List Char)
  | none, [] => .ok []
  | some u, [] => .error (.endOfText u.byte u.first (position - 1))
  | none, b :: bs =>
    let n := b.toNat
    if n < 0x80 then (decodeFrom (position + 1) none bs).map (Char.ofNat n :: ·)
    else match announced? n with
      | none => .error (.start n position)
      | some (missing, low, high, code) =>
        decodeFrom (position + 1) (some ⟨position, n, missing, low, high, code⟩) bs
  | some u, b :: bs =>
    let n := b.toNat
    if u.low ≤ n ∧ n ≤ u.high then
      let code := u.code * 64 + (n - 0x80)
      if u.missing ≤ 1 then (decodeFrom (position + 1) none bs).map (Char.ofNat code :: ·)
      else decodeFrom (position + 1) (some ⟨u.first, u.byte, u.missing - 1, 0x80, 0xBF, code⟩) bs
    else .error (.continuation u.byte u.first (position - 1))

/-- The bytes of a text. -/
def encode (s : String) : List UInt8 := s.toUTF8.data.toList

/-- The characters of bytes. -/
def decodeBytes (bs : List UInt8) : Except ByteFault (List Char) := decodeFrom 0 none bs

end PianoRoll.Text
