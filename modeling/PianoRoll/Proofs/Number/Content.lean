import PianoRoll.Proofs.Number.Unpacked
import PianoRoll.Number.Whole

/-!
The bits of a double, read in two ways: into a sign, digits and an exponent at once, and by way of
what is unpacked from them. Both come to the same (`content_eq`).
-/

namespace PianoRoll.Number

open Float.Model Float.Model.UnpackedFloat

theorem toNat_unpackExponent (b : BitVec Format.binary64.numBits) :
    (unpackExponent b).toNat = b.toNat / 2 ^ 52 % 2 ^ 11 := by
  change (b.extractLsb 62 52).toNat = _
  rw [BitVec.extractLsb_toNat, Nat.shiftRight_eq_div_pow]

theorem toNat_unpackMantissa (b : BitVec Format.binary64.numBits) :
    (unpackMantissa b).toNat = b.toNat % 2 ^ 52 := by
  change (b.extractLsb 51 0).toNat = _
  rw [BitVec.extractLsb_toNat]
  simp

def isNegative : Sign → Bool
  | .positive => false
  | .negative => true

theorem isNegative_unpackSign (b : BitVec Format.binary64.numBits) :
    isNegative (Sign.ofBitVec (unpackSign b)) = (b.toNat / 2 ^ 63 == 1) := by
  have hb : b.toNat < 2 ^ 64 := b.isLt
  have hsign : (unpackSign b).toNat = b.toNat / 2 ^ 63 := by
    change (b.extractLsb 63 63).toNat = _
    rw [BitVec.extractLsb_toNat, Nat.shiftRight_eq_div_pow]
    omega
  rw [← hsign, Sign.ofBitVec]
  split
  · next h =>
    rw [h]
    rfl
  · next h =>
    have hne : (unpackSign b).toNat ≠ 0 := fun h0 => h (BitVec.eq_of_toNat_eq h0)
    have hone : (unpackSign b).toNat = 1 := by omega
    rw [hone]
    rfl

def contentOf : UnpackedFloat → Content
  | .infinity s => .infinite (isNegative s)
  | .notANumber => .nan
  | .zero s => .finite (isNegative s) 0 (-1074)
  | .finite s m e _ => .finite (isNegative s) m e

theorem content_eq (x : Float) : content x = contentOf x.toModel.unpack := by
  let b : BitVec Format.binary64.numBits := x.toModel.toBits.toBitVec
  have hbits : x.toBits.toNat = b.toNat := rfl
  have hpow : ∀ n, pow 2 n = 2 ^ n := fun _ => rfl
  have hbias : ((Format.binary64.exponentBias : ℕ) : ℤ) = 1023 := rfl
  have hdigits : ((Format.binary64.mantissaBitsWithoutImplicit : ℕ) : ℤ) = 52 := rfl
  have hones : unpackExponent b = -1#11 ↔ (unpackExponent b).toNat = 2047 :=
    ⟨fun h => by rw [h]; rfl, fun h => BitVec.eq_of_toNat_eq h⟩
  have hleast : unpackExponent b = 0#11 ↔ (unpackExponent b).toNat = 0 :=
    ⟨fun h => by rw [h]; rfl, fun h => BitVec.eq_of_toNat_eq h⟩
  have hfraction : unpackMantissa b = 0#52 ↔ (unpackMantissa b).toNat = 0 :=
    ⟨fun h => by rw [h]; rfl, fun h => BitVec.eq_of_toNat_eq h⟩
  rw [show x.toModel.unpack = unpack .binary64 b from rfl, content, hbits]
  simp only [hpow]
  rw [← isNegative_unpackSign b, ← toNat_unpackExponent b, ← toNat_unpackMantissa b]
  unfold UnpackedFloat.unpack
  dsimp only
  by_cases h₁ : (unpackExponent b).toNat = 2047
  · rw [if_pos h₁, if_pos (hones.2 h₁)]
    by_cases h₂ : (unpackMantissa b).toNat = 0
    · rw [if_pos h₂, if_pos (hfraction.2 h₂), contentOf]
    · rw [if_neg h₂, if_neg (mt hfraction.1 h₂), contentOf]
  · rw [if_neg h₁, if_neg (mt hones.1 h₁)]
    by_cases h₂ : (unpackExponent b).toNat = 0
    · rw [if_pos h₂, if_pos (hleast.2 h₂)]
      by_cases h₃ : (unpackMantissa b).toNat = 0
      · rw [dif_pos (hfraction.2 h₃), contentOf, h₃]
      · rw [dif_neg (mt hfraction.1 h₃), contentOf, h₂, hbias, hdigits]
        rfl
    · rw [if_neg h₂, if_neg (mt hleast.1 h₂), contentOf, toNat_one_append, hbias, hdigits,
        Nat.add_comm]
      rfl

end PianoRoll.Number
