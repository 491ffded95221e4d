import PianoRoll.Proofs.Number.Rounding

/-!
What the arithmetic of doubles does with its digits. A mantissa with its two residual bits stands
for a number (`Stands`), and shifting and rounding it is what `nearestEven` does with that number.
So the rounding of a mantissa with an exponent gives the nearest point of the grid
(`roundWithAccuracy_holds`), and packing keeps it (`unpack_pack_finite`) or makes it an infinity
(`unpack_pack_infinite`).
-/

namespace PianoRoll.Number

open Float.Model Float.Model.UnpackedFloat

/-! ## Residual bits -/

/-- The numbers that a mantissa with its residual bits stands for: itself, those that lie nearer to
it than to the next one, the one halfway, and those that lie nearer to the next one. -/
def Stands (em : ExtendedMantissa) (x : ℝ) : Prop :=
  match em.roundBit, em.stickyBit with
  | false, false => x = em.mantissa
  | false, true => em.mantissa < x ∧ x - em.mantissa < em.mantissa + 1 - x
  | true, false => x - em.mantissa = em.mantissa + 1 - x
  | true, true => em.mantissa + 1 - x < x - em.mantissa ∧ x < em.mantissa + 1

theorem Stands.bounds {em : ExtendedMantissa} {x : ℝ} (h : Stands em x) :
    em.mantissa ≤ x ∧ x < em.mantissa + 1 := by
  obtain ⟨m, r, s⟩ := em
  cases r <;> cases s <;> simp only [Stands] at h ⊢ <;> constructor <;> linarith

theorem Stands.floor {em : ExtendedMantissa} {x : ℝ} (h : Stands em x) : ⌊x⌋₊ = em.mantissa := by
  obtain ⟨hlo, hhi⟩ := h.bounds
  exact (Nat.floor_eq_iff ((Nat.cast_nonneg _).trans hlo)).2 ⟨hlo, hhi⟩

/-- Rounding by the residual bits is rounding the number they stand for. -/
theorem Stands.rounded {em : ExtendedMantissa} {x : ℝ} (h : Stands em x) :
    em.roundedMantissa = nearestEven x := by
  rw [nearestEven, h.floor]
  obtain ⟨m, r, s⟩ := em
  cases r <;> cases s <;>
    simp only [Stands, ExtendedMantissa.roundedMantissa, ExtendedMantissa.accuracy,
      Accuracy.roundToNearestEven] at h ⊢ <;>
    split_ifs <;> first | rfl | (exfalso; linarith)

theorem Stands.shiftRightOne {em : ExtendedMantissa} {x : ℝ} (h : Stands em x) :
    Stands em.shiftRightOne (x / 2) := by
  obtain ⟨m, r, s⟩ := em
  have hm : (m : ℝ) = 2 * (m / 2 : ℕ) + (m % 2 : ℕ) := by exact_mod_cast (Nat.div_add_mod m 2).symm
  obtain heven | hodd : m % 2 = 0 ∨ m % 2 = 1 := by omega
  · rw [heven, Nat.cast_zero, add_zero] at hm
    cases r <;> cases s <;>
      simp only [Stands, ExtendedMantissa.shiftRightOne, heven, Bool.or_false, Bool.or_true,
        show ((0 : ℕ) != 0) = false from rfl] at h ⊢ <;>
      first | constructor <;> linarith | linarith
  · rw [hodd, Nat.cast_one] at hm
    cases r <;> cases s <;>
      simp only [Stands, ExtendedMantissa.shiftRightOne, hodd, Bool.or_false, Bool.or_true,
        show ((1 : ℕ) != 0) = true from rfl] at h ⊢ <;>
      first | constructor <;> linarith | linarith

theorem Stands.shiftRight {em : ExtendedMantissa} {x : ℝ} (h : Stands em x) (n : ℕ) :
    Stands (em >>> n) (x / 2 ^ n) := by
  change Stands (n.repeat ExtendedMantissa.shiftRightOne em) _
  induction n with
  | zero => simpa [Nat.repeat] using h
  | succ n ih =>
    rw [pow_succ, ← div_div]
    exact ih.shiftRightOne

theorem stands_exact (m : ℕ) : Stands (.ofMantissaAndAccuracy m .exact) m := rfl

/-- The digits of a quotient with its remainder. -/
theorem stands_fraction (m d : ℕ) (hd : 0 < d) :
    Stands (.ofMantissaAndAccuracy (m / d) (accuracyOfFraction (m % d) d)) ((m : ℝ) / d) := by
  have hd' : (0 : ℝ) < d := Nat.cast_pos.2 hd
  have hm : (m : ℝ) / d = (m / d : ℕ) + ((m % d : ℕ) : ℝ) / d := by
    rw [div_eq_iff hd'.ne', add_mul, div_mul_cancel₀ _ hd'.ne']
    exact_mod_cast (Nat.div_add_mod' m d).symm
  have hlt : ((m % d : ℕ) : ℝ) / d < 1 := by
    rw [div_lt_one hd']
    exact Nat.cast_lt.2 (Nat.mod_lt m hd)
  rw [hm]
  unfold accuracyOfFraction
  split
  · next h0 => simp [h0, Stands, ExtendedMantissa.ofMantissaAndAccuracy]
  · next h0 =>
    have hpos : 0 < ((m % d : ℕ) : ℝ) / d := div_pos (Nat.cast_pos.2 (Nat.pos_of_ne_zero h0)) hd'
    rcases lt_trichotomy (2 * (m % d)) d with h | h | h
    · have hf : ((m % d : ℕ) : ℝ) / d < 1 / 2 := by
        rw [div_lt_iff₀ hd']
        have : (2 : ℝ) * (m % d : ℕ) < d := by exact_mod_cast h
        linarith
      rw [Nat.compare_eq_lt.2 h]
      simp only [Stands, ExtendedMantissa.ofMantissaAndAccuracy]
      constructor <;> linarith
    · have hf : ((m % d : ℕ) : ℝ) / d = 1 / 2 := by
        rw [div_eq_iff hd'.ne']
        have : (2 : ℝ) * (m % d : ℕ) = d := by exact_mod_cast h
        linarith
      rw [Nat.compare_eq_eq.2 h, hf]
      simp only [Stands, ExtendedMantissa.ofMantissaAndAccuracy]
      linarith
    · have hf : 1 / 2 < ((m % d : ℕ) : ℝ) / d := by
        rw [lt_div_iff₀ hd']
        have : (d : ℝ) < 2 * (m % d : ℕ) := by exact_mod_cast h
        linarith
      rw [Nat.compare_eq_gt.2 h]
      simp only [Stands, ExtendedMantissa.ofMantissaAndAccuracy]
      constructor <;> linarith

/-! ## Rounding -/

/-- Digits and exponent of a point of the grid: all fifty-three digits, but for the least place. -/
structure Grid (m : ℕ) (e : ℤ) : Prop where
  digits : m < 2 ^ 53
  least : -1074 ≤ e
  full : 2 ^ 52 ≤ m ∨ e = -1074

/-- Doubles not below zero, or above, by the sign and the distance from zero. -/
inductive Holds : UnpackedFloat → Sign → ℝ → Prop
  | zero (s : Sign) : Holds (.zero s) s 0
  | finite (s : Sign) {m : ℕ} {e : ℤ} (h : 0 < m) (grid : Grid m e) :
      Holds (.finite s m e h) s (m * 2 ^ e)

theorem targetExponent_eq (k : ℤ) : Format.binary64.targetExponent k = max (k - 53) (-1074) := rfl

/-- The exponent of a power of two between a mantissa and the number it stands for. -/
theorem log_eq_of_floor {m : ℕ} {e : ℤ} {x : ℝ} (hm : 0 < m) (hlo : (m : ℝ) ≤ x / 2 ^ e)
    (hhi : x / 2 ^ e < m + 1) : Int.log 2 x = m.log2 + e := by
  have hx : 0 < x := by
    have hq : 0 < x / 2 ^ e := (Nat.cast_pos.2 hm).trans_le hlo
    exact (div_pos_iff_of_pos_right (two_zpow_pos e)).1 hq
  have hlow : (2 : ℝ) ^ ((m.log2 : ℤ) + e) ≤ x := by
    have hpow : ((2 ^ m.log2 : ℕ) : ℝ) ≤ m := Nat.cast_le.2 (Nat.log2_self_le hm.ne')
    rw [zpow_add₀ two_ne_zero, zpow_natCast, ← le_div_iff₀ (two_zpow_pos e)]
    exact_mod_cast hpow.trans hlo
  have hhigh : x < (2 : ℝ) ^ ((m.log2 : ℤ) + e + 1) := by
    have hpow : ((m + 1 : ℕ) : ℝ) ≤ (2 ^ (m.log2 + 1) : ℕ) := Nat.cast_le.2 Nat.lt_log2_self
    have hassoc : (m.log2 : ℤ) + e + 1 = ((m.log2 + 1 : ℕ) : ℤ) + e := by omega
    rw [hassoc, zpow_add₀ two_ne_zero, zpow_natCast, ← div_lt_iff₀ (two_zpow_pos e)]
    rw [Nat.cast_add, Nat.cast_one] at hpow
    exact_mod_cast hhi.trans_le hpow
  refine le_antisymm (Int.lt_add_one_iff.1 ?_) ?_
  · exact (Int.lt_zpow_iff_log_lt (b := 2) one_lt_two hx).1 (by exact_mod_cast hhigh)
  · exact (Int.zpow_le_iff_le_log (b := 2) one_lt_two hx).1 (by exact_mod_cast hlow)

/-- The place that the digits ask for is the last place of the number they stand for. -/
theorem targetExponent_eq_place {m : ℕ} {e : ℤ} {x : ℝ} (hx : 0 < x) (hlo : (m : ℝ) ≤ x / 2 ^ e)
    (hhi : x / 2 ^ e < m + 1) (he : e ≤ place x) :
    Format.binary64.targetExponent (totalExponent m e) = place x := by
  rw [targetExponent_eq, totalExponent]
  rcases Nat.eq_zero_or_pos m with rfl | hm
  · -- fewer than one unit: such a number lies at the least place
    rw [Nat.cast_zero, zero_add, div_lt_one (two_zpow_pos e)] at hhi
    rw [Nat.log2_zero]
    unfold place at he ⊢
    have hlog : Int.log 2 x < e :=
      (Int.lt_zpow_iff_log_lt (b := 2) one_lt_two hx).1 (by exact_mod_cast hhi)
    omega
  · rw [place, log_eq_of_floor hm hlo hhi]
    omega

/-- What is left after the shift to a place stands for the same number. -/
theorem shiftToExponent_stands {m : ℕ} {e : ℤ} {acc : Accuracy} {x : ℝ}
    (h : Stands (.ofMantissaAndAccuracy m acc) (x / 2 ^ e)) {p : ℤ} (hp : e ≤ p) :
    ∃ em, shiftToExponent m e acc p = (em, p) ∧ Stands em (x / 2 ^ p) := by
  have hn : e + ((p - e).toNat : ℤ) = p := by omega
  refine ⟨ExtendedMantissa.ofMantissaAndAccuracy m acc >>> (p - e).toNat, ?_, ?_⟩
  · rw [shiftToExponent]
    exact congrArg _ hn
  · have hs := h.shiftRight (p - e).toNat
    rw [div_div, ← zpow_natCast, ← zpow_add₀ two_ne_zero, hn] at hs
    exact hs

/-- The digits that rounding leaves: at most one more than there is room for. -/
theorem rounded_digits {x : ℝ} (hx : 0 < x) :
    nearestEven (x / 2 ^ place x) ≤ 2 ^ 53 ∧
      (2 ^ 52 ≤ nearestEven (x / 2 ^ place x) ∨ place x = -1074) := by
  have hlt : x < 2 ^ (place x + 53) :=
    (Int.lt_zpow_succ_log_self (b := 2) one_lt_two x).trans_le
      (zpow_le_zpow_right₀ one_le_two (by unfold place; omega))
  constructor
  · have hq : x / 2 ^ place x ≤ ((2 ^ 53 : ℕ) : ℝ) := by
      rw [div_le_iff₀ (two_zpow_pos _)]
      rw [zpow_add₀ two_ne_zero, mul_comm] at hlt
      exact_mod_cast hlt.le
    have hr := nearestEven_mono hq
    rwa [nearestEven_natCast] at hr
  · by_cases hleast : place x = -1074
    · exact Or.inr hleast
    · have hlog : Int.log 2 x = place x + 52 := by
        unfold place at hleast ⊢
        omega
      have hle : (2 : ℝ) ^ (place x + 52) ≤ x := by
        rw [← hlog]
        exact Int.zpow_log_le_self one_lt_two hx
      have hq : ((2 ^ 52 : ℕ) : ℝ) ≤ x / 2 ^ place x := by
        rw [le_div_iff₀ (two_zpow_pos _)]
        rw [zpow_add₀ two_ne_zero, mul_comm] at hle
        exact_mod_cast hle
      have hr := nearestEven_mono hq
      rw [nearestEven_natCast] at hr
      exact Or.inl hr

/-- A second shift only takes back the digit that rounding may have carried. -/
theorem shiftToTargetExponent_rounded {r : ℕ} {p : ℤ} (hr : r ≤ 2 ^ 53) (hp : -1074 ≤ p)
    (full : 2 ^ 52 ≤ r ∨ p = -1074) :
    ∃ em q, shiftToTargetExponent .binary64 r p .exact = (em, q) ∧
      (em.mantissa : ℝ) * 2 ^ q = r * 2 ^ p ∧ Grid em.mantissa q := by
  rw [shiftToTargetExponent, targetExponent_eq, totalExponent]
  rcases hr.lt_or_eq with hlt | rfl
  · have hlog : r.log2 ≤ 52 := by
      by_cases h0 : r = 0
      · rw [h0, Nat.log2_zero]
        omega
      · exact Nat.lt_succ_iff.1 ((Nat.log2_lt h0).2 hlt)
    have htarget : max ((r.log2 : ℤ) + 1 + p - 53) (-1074) - p ≤ 0 := by omega
    refine ⟨.ofMantissaAndAccuracy r .exact, p, ?_, rfl, hlt, hp, full⟩
    rw [shiftToExponent, Int.toNat_of_nonpos htarget]
    simp only [Nat.cast_zero, add_zero]
    rfl
  · have htarget : max (((2 ^ 53 : ℕ).log2 : ℤ) + 1 + p - 53) (-1074) = p + 1 := by
      rw [Nat.log2_two_pow]
      omega
    refine ⟨⟨2 ^ 52, false, false⟩, p + 1, ?_, ?_, by norm_num, by omega, Or.inl le_rfl⟩
    · rw [htarget, shiftToExponent, show p + 1 - p = 1 by omega]
      rfl
    · rw [zpow_add_one₀ two_ne_zero]
      push_cast
      ring

/-- Rounding digits that stand for a number gives the nearest point of the grid. -/
theorem roundWithAccuracy_holds (s : Sign) {m : ℕ} {e : ℤ} {acc : Accuracy} {x : ℝ} (hx : 0 < x)
    (h : Stands (.ofMantissaAndAccuracy m acc) (x / 2 ^ e)) (he : e ≤ place x) :
    Holds (roundWithAccuracy .binary64 s m e acc) s (rounded x) := by
  have hm : (ExtendedMantissa.ofMantissaAndAccuracy m acc).mantissa = m := by
    cases acc with
    | exact => rfl
    | inexact o => cases o <;> rfl
  obtain ⟨hlo, hhi⟩ := h.bounds
  rw [hm] at hlo hhi
  obtain ⟨em, hshift, hem⟩ := shiftToExponent_stands h he
  obtain ⟨hdigits, hfull⟩ := rounded_digits hx
  have hleast : -1074 ≤ place x := le_max_right _ _
  obtain ⟨em', q, hshift', hvalue, hgrid⟩ :=
    shiftToTargetExponent_rounded hdigits hleast hfull
  have hfirst : shiftToTargetExponent .binary64 m e acc = (em, place x) := by
    rw [shiftToTargetExponent, targetExponent_eq_place hx hlo hhi he, hshift]
  unfold roundWithAccuracy
  rw [hfirst]
  dsimp only
  rw [hem.rounded, hshift']
  rw [Number.rounded, ← hvalue]
  split
  · next h0 =>
    rw [h0, Nat.cast_zero, zero_mul]
    exact .zero s
  · exact .finite s _ hgrid

/-- Rounding of digits with any exponent. -/
theorem round_holds (s : Sign) {m : ℕ} (hm : 0 < m) (e : ℤ) :
    Holds (round .binary64 s m e) s (rounded (m * 2 ^ e)) := by
  have hx : (0 : ℝ) < m * 2 ^ e := mul_pos (Nat.cast_pos.2 hm) (two_zpow_pos e)
  let k := (e - Format.binary64.targetExponent (totalExponent m e)).toNat
  have hvalue : ((m <<< k : ℕ) : ℝ) = (m : ℝ) * 2 ^ e / 2 ^ (e - k) := by
    rw [eq_div_iff (two_zpow_pos _).ne', Nat.shiftLeft_eq, Nat.cast_mul, Nat.cast_pow,
      Nat.cast_ofNat, mul_assoc, ← zpow_natCast, ← zpow_add₀ two_ne_zero]
    congr 2
    omega
  have hlog : Int.log 2 ((m : ℝ) * 2 ^ e) = m.log2 + e := by
    refine log_eq_of_floor hm ?_ ?_ <;> rw [mul_div_cancel_right₀ _ (two_zpow_pos e).ne']
    exact lt_add_one _
  have hplace : e - k ≤ place ((m : ℝ) * 2 ^ e) := by
    have hk : (e - Format.binary64.targetExponent (totalExponent m e)) ≤ k := Int.self_le_toNat _
    rw [targetExponent_eq, totalExponent] at hk
    rw [place, hlog]
    omega
  refine roundWithAccuracy_holds s hx ?_ hplace
  rw [← hvalue]
  exact stands_exact _

/-! ## Packing -/

theorem toNat_one_append (b : BitVec 52) : (1#1 ++ b).toNat = 2 ^ 52 + b.toNat := by
  rw [BitVec.toNat_append, ← Nat.shiftLeft_add_eq_or_of_lt b.isLt]
  rfl

/-- What the bits of a double hold is on the grid, and not too large for it. -/
theorem grid_of_unpack {b : BitVec Format.binary64.numBits} {s : Sign} {m : ℕ} {e : ℤ} {h : 0 < m}
    (hu : unpack .binary64 b = .finite s m e h) : Grid m e ∧ e ≤ 971 := by
  have hmantissa : (unpackMantissa b).toNat < 2 ^ 52 := (unpackMantissa b).isLt
  have hexponent : (unpackExponent b).toNat < 2 ^ 11 := (unpackExponent b).isLt
  have hbias : ((Format.binary64.exponentBias : ℕ) : ℤ) = 1023 := rfl
  have hbits : ((Format.binary64.mantissaBitsWithoutImplicit : ℕ) : ℤ) = 52 := rfl
  unfold UnpackedFloat.unpack at hu
  dsimp only at hu
  split at hu
  · split at hu <;> cases hu
  · next hfinite =>
    have hlarge : (unpackExponent b).toNat ≠ 2047 := fun h0 => hfinite (BitVec.eq_of_toNat_eq h0)
    split at hu
    · next hzero =>
      split at hu
      · cases hu
      · cases hu
        rw [hzero, hbias, hbits]
        exact ⟨⟨by omega, by decide, Or.inr rfl⟩, by decide⟩
    · next hnormal =>
      have hsmall : (unpackExponent b).toNat ≠ 0 := fun h0 => hnormal (BitVec.eq_of_toNat_eq h0)
      cases hu
      rw [toNat_one_append, hbias, hbits]
      exact ⟨⟨by omega, by omega, Or.inl (by omega)⟩, by omega⟩

theorem unpackSign_packComponents {spec : Format} (s : Sign) (e : BitVec spec.exponentBits)
    (m : BitVec spec.mantissaBitsWithoutImplicit) :
    Sign.ofBitVec (unpackSign (packComponents spec s e m)) = s := by
  have hbits : unpackSign (packComponents spec s e m) = s.toBitVec := by
    ext i hi
    obtain rfl : i = 0 := by omega
    simp [unpackSign, packComponents, BitVec.getLsbD_append, BitVec.getElem_append]
  rw [hbits]
  cases s <;> rfl

/-- Bits with an exponent field in between stand for fifty-three digits. -/
theorem unpack_packComponents_normal (s : Sign) {m k : ℕ} (h : 0 < m) (hlow : 2 ^ 52 ≤ m)
    (hhigh : m < 2 ^ 53) (hk : 0 < k) (hk' : k < 2047) :
    unpack .binary64 (packComponents .binary64 s (BitVec.ofNat 11 k) (BitVec.ofNat 52 m)) =
      .finite s m (k - 1075) h := by
  have hbias : ((Format.binary64.exponentBias : ℕ) : ℤ) = 1023 := rfl
  have hbits : ((Format.binary64.mantissaBitsWithoutImplicit : ℕ) : ℤ) = 52 := rfl
  have hexp : (BitVec.ofNat 11 k).toNat = k := by
    rw [BitVec.toNat_ofNat]
    omega
  have hman : (BitVec.ofNat 52 m).toNat = m - 2 ^ 52 := by
    rw [BitVec.toNat_ofNat]
    omega
  have hfinite : BitVec.ofNat 11 k ≠ -1#11 := by
    intro h0
    have hones : k = 2047 := hexp.symm.trans (congrArg BitVec.toNat h0)
    omega
  have hnonzero : BitVec.ofNat 11 k ≠ 0#11 := by
    intro h0
    have hzero : k = 0 := hexp.symm.trans (congrArg BitVec.toNat h0)
    omega
  unfold UnpackedFloat.unpack
  simp only [unpackExponent_packComponents, unpackMantissa_packComponents,
    unpackSign_packComponents]
  rw [if_neg hfinite, if_neg hnonzero]
  congr 1
  · rw [toNat_one_append, hman]
    omega
  · rw [hexp, hbias, hbits]
    omega

/-- Bits with an exponent field of zero stand for fewer digits, at the least place. -/
theorem unpack_packComponents_subnormal (s : Sign) {m : ℕ} (h : 0 < m) (hhigh : m < 2 ^ 52) :
    unpack .binary64 (packComponents .binary64 s (BitVec.ofNat 11 0) (BitVec.ofNat 52 m)) =
      .finite s m (-1074) h := by
  have hman : (BitVec.ofNat 52 m).toNat = m := by
    rw [BitVec.toNat_ofNat]
    omega
  have hnonzero : BitVec.ofNat 52 m ≠ 0#52 := by
    intro h0
    have hzero : m = 0 := hman.symm.trans (congrArg BitVec.toNat h0)
    omega
  unfold UnpackedFloat.unpack
  simp only [unpackExponent_packComponents, unpackMantissa_packComponents,
    unpackSign_packComponents]
  rw [if_neg (by decide), if_pos trivial, dif_neg hnonzero]
  congr 1

/-- Packing keeps a point of the grid that is not too large. -/
theorem unpack_pack_finite (s : Sign) {m : ℕ} {e : ℤ} (h : 0 < m) (grid : Grid m e)
    (he : e ≤ 971) : unpack .binary64 (pack .binary64 (.finite s m e h)) = .finite s m e h := by
  obtain ⟨hdigits, hleast, hfull⟩ := grid
  have hbias : ((Format.binary64.exponentBias : ℕ) : ℤ) = 1023 := rfl
  have hbits : ((Format.binary64.mantissaBitsWithoutImplicit : ℕ) : ℤ) = 52 := rfl
  have hmbits : Format.binary64.mantissaBits = 53 := rfl
  unfold UnpackedFloat.pack
  dsimp only
  rw [hbias, hbits, hmbits, if_neg (by omega)]
  by_cases hnormal : 2 ^ 52 ≤ m
  · have hlog : m.log2 = 52 := (Nat.log2_eq_iff h.ne').2 ⟨hnormal, hdigits⟩
    have hfield : (((e + 1023 + 52).toNat : ℕ) : ℤ) - 1075 = e := by omega
    have hnormal' := unpack_packComponents_normal s h hnormal hdigits
      (k := (e + 1023 + 52).toNat) (by omega) (by omega)
    rw [hfield] at hnormal'
    rw [if_pos (by rw [hlog])]
    exact hnormal'
  · obtain rfl : e = -1074 := hfull.resolve_left hnormal
    have hlog : m.log2 < 52 := (Nat.log2_lt h.ne').2 (Nat.lt_of_not_le hnormal)
    rw [if_neg (by omega)]
    exact unpack_packComponents_subnormal s h (Nat.lt_of_not_le hnormal)

/-- Packing what is too large gives an infinity. -/
theorem unpack_pack_infinite (s : Sign) {m : ℕ} {e : ℤ} (h : 0 < m) (he : 972 ≤ e) :
    unpack .binary64 (pack .binary64 (.finite s m e h)) = .infinity s := by
  have hbias : ((Format.binary64.exponentBias : ℕ) : ℤ) = 1023 := rfl
  have hbits : ((Format.binary64.mantissaBitsWithoutImplicit : ℕ) : ℤ) = 52 := rfl
  unfold UnpackedFloat.pack
  dsimp only
  rw [hbias, hbits, if_pos (by omega)]
  cases s <;> rfl

end PianoRoll.Number
