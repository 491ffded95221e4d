import PianoRoll.Proofs.Number.Counting

/-!
The double nearest to a quotient of naturals. Its bits hold the digits and the place that the
quotient is rounded to, so it is worth what the quotient is fitted to (`worth_nearest`). Whole
numbers of fifty-three digits are therefore kept exactly (`worth_ofWhole`), and a quotient by a
number that is no smaller lies between zero and one (`quotient_unit`).
-/

namespace PianoRoll.Number

open Float.Model Float.Model.UnpackedFloat

/-! ## Bits -/

def signOf (negative : Bool) : Sign := if negative then .negative else .positive

theorem signOf_isNegative (s : Sign) : signOf (isNegative s) = s := by
  cases s <;> rfl

/-- What exponent field and fraction stand for, with the hidden digit put back. -/
def magnitude (field fraction : ℕ) : ℚ :=
  if field = 0 then fraction * 2 ^ (-1074 : ℤ) else (fraction + 2 ^ 52 : ℕ) * 2 ^ (field - 1075 : ℤ)

theorem cast_dyadic (m : ℕ) (e : ℤ) : ((m * 2 ^ e : ℚ) : ℝ) = m * 2 ^ e := by
  rw [Rat.cast_mul, Rat.cast_natCast, Rat.cast_zpow, Rat.cast_ofNat]

/-- Digits with a place are read from the sum of the two, wherever rounding may have carried to. -/
theorem magnitude_units {u k : ℕ} (hu : u ≤ 2 ^ 53) (full : 2 ^ 52 ≤ u ∨ k = 0) :
    magnitude ((k * 2 ^ 52 + u) / 2 ^ 52) ((k * 2 ^ 52 + u) % 2 ^ 52) = u * 2 ^ (k - 1074 : ℤ) := by
  rcases Nat.lt_or_ge u (2 ^ 52) with hlow | hlow
  · obtain rfl : k = 0 := full.resolve_left (Nat.not_le.2 hlow)
    rw [show (0 * 2 ^ 52 + u) / 2 ^ 52 = 0 by omega, show (0 * 2 ^ 52 + u) % 2 ^ 52 = u by omega,
      magnitude, if_pos rfl]
    norm_num
  rcases hu.lt_or_eq with hhigh | rfl
  · rw [show (k * 2 ^ 52 + u) / 2 ^ 52 = k + 1 by omega,
      show (k * 2 ^ 52 + u) % 2 ^ 52 = u - 2 ^ 52 by omega, magnitude, if_neg k.succ_ne_zero,
      Nat.sub_add_cancel hlow]
    congr 2
    push_cast
    ring
  · rw [show (k * 2 ^ 52 + 2 ^ 53) / 2 ^ 52 = k + 1 + 1 by omega,
      show (k * 2 ^ 52 + 2 ^ 53) % 2 ^ 52 = 0 by omega, magnitude, if_neg (k + 1).succ_ne_zero]
    have place : ((k + 1 + 1 : ℕ) : ℤ) - 1075 = k - 1074 + 1 := by push_cast; ring
    rw [place, zpow_add_one₀ two_ne_zero]
    push_cast
    ring

/-- Bits without the exponent of infinity stand for their magnitude. -/
theorem value_unpack {b : BitVec Format.binary64.numBits} (h : b.toNat / 2 ^ 52 % 2 ^ 11 ≠ 2047) :
    Valued (unpack .binary64 b) ∧ value (unpack .binary64 b) =
      withSign (signOf (b.toNat / 2 ^ 63 == 1))
        (magnitude (b.toNat / 2 ^ 52 % 2 ^ 11) (b.toNat % 2 ^ 52) : ℝ) := by
  have hbias : ((Format.binary64.exponentBias : ℕ) : ℤ) = 1023 := rfl
  have hdigits : ((Format.binary64.mantissaBitsWithoutImplicit : ℕ) : ℤ) = 52 := rfl
  have finite := (finite_unpack_iff b).2 h
  have valued : Valued (unpack .binary64 b) := by
    generalize hu : unpack .binary64 b = u at finite
    cases u with
    | infinity s => exact finite.elim
    | notANumber => exact finite.elim
    | zero s => exact .zero s
    | finite s m e hm => exact .finite s hm (grid_of_unpack hu).1 (grid_of_unpack hu).2
  refine ⟨valued, ?_⟩
  rw [← isNegative_unpackSign, signOf_isNegative, ← toNat_unpackExponent, ← toNat_unpackMantissa]
  unfold UnpackedFloat.unpack at finite ⊢
  dsimp only at finite ⊢
  split at finite
  · split at finite <;> exact finite.elim
  · next hones =>
    rw [if_neg hones]
    split
    · next hzero =>
      have hfield : (unpackExponent b).toNat = 0 := by rw [hzero]; rfl
      rw [magnitude, if_pos hfield, cast_dyadic]
      split
      · next hfraction =>
        rw [hfraction]
        simp [value, withSign_zero]
      · rw [value, hfield, hbias, hdigits]
        rfl
    · next hnonzero =>
      have hfield : (unpackExponent b).toNat ≠ 0 := fun h0 => hnonzero (BitVec.eq_of_toNat_eq h0)
      rw [magnitude, if_neg hfield, cast_dyadic, value, toNat_one_append, hbias, hdigits,
        Nat.add_comm]
      rfl

/-! ## Rounded quotients -/

/-- The remainder says how to round. -/
theorem roundDiv_eq {n d : ℕ} (hd : 0 < d) : roundDiv n d = nearestEven ((n : ℝ) / d) := by
  have hd' : (0 : ℝ) < d := Nat.cast_pos.2 hd
  have hfloor : ⌊(n : ℝ) / d⌋₊ = n / d := Nat.floor_div_eq_div n d
  have hrest : (n : ℝ) / d - (n / d : ℕ) = (n % d : ℕ) / d := by
    rw [sub_eq_iff_eq_add, div_eq_iff hd'.ne', add_mul, div_mul_cancel₀ _ hd'.ne']
    exact_mod_cast (Nat.mod_add_div' n d).symm
  have hbelow : (n : ℝ) / d - (n / d : ℕ) < 1 / 2 ↔ 2 * (n % d) < d := by
    rw [hrest, div_lt_div_iff₀ hd' two_pos, one_mul, mul_comm]
    exact_mod_cast Iff.rfl
  have habove : 1 / 2 < (n : ℝ) / d - (n / d : ℕ) ↔ 2 * (n % d) > d := by
    rw [hrest, div_lt_div_iff₀ two_pos hd', one_mul, mul_comm]
    exact_mod_cast Iff.rfl
  unfold roundDiv nearestEven
  simp only [hfloor, hbelow, habove]

/-- In units of a power of two. -/
theorem unitsOf_eq {n d : ℕ} (hd : 0 < d) (e : ℤ) :
    unitsOf n d e = nearestEven ((n : ℝ) / d / 2 ^ e) := by
  have hpow (k : ℕ) : pow 2 k = 2 ^ k := rfl
  rw [unitsOf, hpow, hpow, roundDiv_eq (by positivity), two_zpow_eq e]
  congr 1
  push_cast
  field_simp

/-- The last place of a quotient is its place on the grid. -/
theorem lastPlace_eq {n d : ℕ} (hn : 0 < n) (hd : 0 < d) :
    lastPlace n d = place ((n : ℝ) / d) := by
  let l : ℤ := (n.log2 : ℤ) - d.log2
  have hx : (0 : ℝ) < (n : ℝ) / d := div_pos (Nat.cast_pos.2 hn) (Nat.cast_pos.2 hd)
  have hd' : (0 : ℝ) < d := Nat.cast_pos.2 hd
  have hnlow : (2 : ℝ) ^ n.log2 ≤ n := by exact_mod_cast Nat.log2_self_le hn.ne'
  have hnhigh : (n : ℝ) < 2 ^ (n.log2 + 1) := by exact_mod_cast Nat.lt_log2_self
  have hdlow : (2 : ℝ) ^ d.log2 ≤ d := by exact_mod_cast Nat.log2_self_le hd.ne'
  have hdhigh : (d : ℝ) ≤ 2 ^ (d.log2 + 1) := by exact_mod_cast Nat.lt_log2_self.le
  -- the quotient is held between the powers of two on either side of its digits
  have hlow : (2 : ℝ) ^ (l - 1) ≤ (n : ℝ) / d := by
    have hl : l - 1 = (n.log2 : ℤ) - (d.log2 + 1 : ℕ) := by push_cast; ring
    rw [hl, zpow_sub₀ two_ne_zero, zpow_natCast, zpow_natCast]
    exact div_le_div₀ (Nat.cast_nonneg n) hnlow hd' hdhigh
  have hhigh : (n : ℝ) / d < 2 ^ (l + 1) := by
    have hl : l + 1 = (n.log2 + 1 : ℕ) - (d.log2 : ℤ) := by push_cast; ring
    rw [hl, zpow_sub₀ two_ne_zero, zpow_natCast, zpow_natCast]
    exact div_lt_div₀ hnhigh hdlow (by positivity) (by positivity)
  have hlog : l - 1 ≤ Int.log 2 ((n : ℝ) / d) ∧ Int.log 2 ((n : ℝ) / d) < l + 1 :=
    ⟨(Int.zpow_le_iff_le_log (b := 2) one_lt_two hx).1 (by exact_mod_cast hlow),
      (Int.lt_zpow_iff_log_lt (b := 2) one_lt_two hx).1 (by exact_mod_cast hhigh)⟩
  have htest : n * 2 ^ (-l).toNat < d * 2 ^ l.toNat ↔ Int.log 2 ((n : ℝ) / d) < l := by
    have hunits := units_lt_iff n d 0 l
    rw [Nat.pow_zero, Nat.mul_one, Nat.cast_zero, add_zero] at hunits
    rw [hunits, mul_comm, ← div_lt_iff₀ hd']
    exact_mod_cast Int.lt_zpow_iff_log_lt (b := 2) one_lt_two hx
  have hplace : (n.log2 : ℤ) - d.log2 - 52 + 52 = l := by omega
  have hpow (k : ℕ) : pow 2 k = 2 ^ k := rfl
  unfold lastPlace place
  dsimp only
  simp only [hplace, hpow, htest]
  split_ifs <;> omega

/-- A quotient that is not too large is not rounded to infinity. -/
theorem rounded_lt {n d : ℕ} (hn : 0 < n) (hd : 0 < d) (h : n.log2 ≤ d.log2 + 1022) :
    rounded ((n : ℝ) / d) < 2 ^ 1024 := by
  let x : ℝ := (n : ℝ) / d
  have hx : 0 < x := div_pos (Nat.cast_pos.2 hn) (Nat.cast_pos.2 hd)
  have hplace : lastPlace n d = place x := lastPlace_eq hn hd
  have hroom := (lastPlace_room (n := n) hd).1
  rw [hplace] at hroom
  have hzpow : (2 : ℝ) ^ place x ≤ 2 ^ (970 : ℤ) :=
    zpow_le_zpow_right₀ one_le_two (by omega)
  have hcarried : (nearestEven (x / 2 ^ place x) : ℝ) ≤ 2 ^ 53 := by
    exact_mod_cast (rounded_digits hx).1
  calc rounded x ≤ 2 ^ 53 * 2 ^ (970 : ℤ) :=
        mul_le_mul hcarried hzpow (two_zpow_pos _).le (by positivity)
    _ = 2 ^ 1023 := (pow_add 2 53 970).symm
    _ < 2 ^ 1024 := pow_lt_pow_right₀ one_lt_two (by decide)

/-- The bits of a quotient hold its digits and its place. -/
theorem nearestBits_eq {n d : ℕ} (hn : 0 < n) (hd : 0 < d) (h : n.log2 ≤ d.log2 + 1022) :
    nearestBits n d = (place ((n : ℝ) / d) + 1074).toNat * 2 ^ 52 +
      nearestEven ((n : ℝ) / d / 2 ^ place ((n : ℝ) / d)) := by
  have hbits := nearestBits_lt hd h
  have hpow : pow 2 52 = 2 ^ 52 := rfl
  rw [nearestBits, if_neg hn.ne'] at hbits ⊢
  dsimp only at hbits ⊢
  rw [hpow, lastPlace_eq hn hd, unitsOf_eq hd] at hbits ⊢
  -- the bound for infinity is not reached
  exact Nat.min_eq_left (Nat.le_of_not_lt fun hlarge => by
    rw [Nat.min_eq_right hlarge.le] at hbits
    exact absurd hbits (Nat.lt_irrefl _))

/-- The bits of a quotient that is not too large stand for what that is fitted to. -/
theorem magnitude_nearestBits {n d : ℕ} (hd : 0 < d) (h : n.log2 ≤ d.log2 + 1022) :
    ((magnitude (nearestBits n d / 2 ^ 52) (nearestBits n d % 2 ^ 52) : ℝ) : EReal) =
      fitted ((n : ℝ) / d) := by
  rcases Nat.eq_zero_or_pos n with rfl | hn
  · simp [nearestBits, magnitude, fitted_zero]
  have hx : (0 : ℝ) < (n : ℝ) / d := div_pos (Nat.cast_pos.2 hn) (Nat.cast_pos.2 hd)
  obtain ⟨hdigits, hfull⟩ := rounded_digits hx
  have hleast : -1074 ≤ place ((n : ℝ) / d) := le_max_right _ _
  have hexponent : (((place ((n : ℝ) / d) + 1074).toNat : ℕ) : ℤ) - 1074 =
      place ((n : ℝ) / d) := by
    omega
  rw [nearestBits_eq hn hd h, magnitude_units hdigits (hfull.imp_right fun h => by omega),
    cast_dyadic, hexponent, fitted, cap, if_pos (rounded_lt hn hd h), rounded]

/-- The double nearest to a quotient that is not too large is worth what that is fitted to. -/
theorem worth_nearest (negative : Bool) {n d : ℕ} (hd : 0 < d) (h : n.log2 ≤ d.log2 + 1022) :
    Numeric (nearest negative n d) ∧
      worth (nearest negative n d) = withSign (signOf negative) (fit ((n / d : ℝ) : EReal)) := by
  let w : UInt64 := UInt64.ofNat ((if negative then pow 2 63 else 0) + nearestBits n d)
  have hbits := nearestBits_lt hd h
  have hw : w.toNat = (if negative then 2 ^ 63 else 0) + nearestBits n d := by
    have hpow : pow 2 63 = 2 ^ 63 := rfl
    change (UInt64.ofNat _).toNat = _
    rw [UInt64.toNat_ofNat', hpow]
    split <;> omega
  have hsign : (w.toNat / 2 ^ 63 == 1) = negative := by
    rw [hw]
    cases negative
    · simp only [Bool.false_eq_true, if_false, beq_eq_false_iff_ne]
      omega
    · simp only [if_true, beq_iff_eq]
      omega
  have hfield : w.toNat / 2 ^ 52 % 2 ^ 11 = nearestBits n d / 2 ^ 52 := by
    rw [hw]
    split <;> omega
  have hfraction : w.toNat % 2 ^ 52 = nearestBits n d % 2 ^ 52 := by
    rw [hw]
    split <;> omega
  obtain ⟨valued, hvalue⟩ := value_unpack (b := w.toBitVec)
    (show w.toNat / 2 ^ 52 % 2 ^ 11 ≠ 2047 by omega)
  change Valued (repacked (unpack .binary64 w.toBitVec)) ∧
    value (repacked (unpack .binary64 w.toBitVec)) = _
  change _ = withSign (signOf (w.toNat / 2 ^ 63 == 1))
    (magnitude (w.toNat / 2 ^ 52 % 2 ^ 11) (w.toNat % 2 ^ 52) : ℝ) at hvalue
  rw [valued.repacked]
  refine ⟨valued, ?_⟩
  rw [hvalue, hsign, hfield, hfraction, fit_coe (by positivity), magnitude_nearestBits hd h]

/-! ## Whole numbers -/

/-- Whole numbers of fifty-three digits are kept exactly. -/
theorem worth_ofWhole {n : ℤ} (h : n.natAbs ≤ 2 ^ 53) :
    Numeric (ofWhole n) ∧ worth (ofWhole n) = ((n : ℝ) : EReal) := by
  have hlog : n.natAbs.log2 ≤ (1 : ℕ).log2 + 1022 := by
    rcases Nat.eq_zero_or_pos n.natAbs with h0 | h0
    · rw [h0]
      decide
    · have := (Nat.log2_lt h0.ne').2 (h.trans_lt (by decide : 2 ^ 53 < 2 ^ 54))
      omega
  obtain ⟨numeric, hworth⟩ := worth_nearest (n < 0) Nat.one_pos hlog
  refine ⟨numeric, hworth.trans ?_⟩
  have hfit : fit (((n.natAbs : ℕ) / (1 : ℕ) : ℝ) : EReal) = ((n.natAbs : ℝ) : EReal) := by
    rw [Nat.cast_one, div_one]
    exact fit_natCast h
  rw [hfit]
  rcases lt_or_ge n 0 with hn | hn
  · have habs : ((n.natAbs : ℕ) : ℝ) = -n := by rw [Nat.cast_natAbs, abs_of_neg hn, Int.cast_neg]
    rw [decide_eq_true hn, habs, EReal.coe_neg]
    exact neg_neg _
  · have habs : ((n.natAbs : ℕ) : ℝ) = n := by rw [Nat.cast_natAbs, abs_of_nonneg hn]
    rw [decide_eq_false (not_lt.2 hn), habs]
    rfl

/-- What is worth a real number is finite. -/
theorem isFinite_of_worth_coe {x : Float} (h : Numeric x) {r : ℝ} (hr : worth x = r) :
    isFinite x = true := by
  refine isFinite_of_worth h ?_ ?_
  · rw [hr]
    exact EReal.bot_lt_coe r
  · rw [hr]
    exact EReal.coe_lt_top r

theorem isFinite_ofWhole {n : ℤ} (h : n.natAbs ≤ 2 ^ 53) : isFinite (ofWhole n) = true := by
  obtain ⟨numeric, eq⟩ := worth_ofWhole h
  exact isFinite_of_worth_coe numeric eq

/-- Quotients that are found are finite. -/
theorem isFinite_of_quotient {a b : ℤ} {x : Float} (hx : quotient a b = .ok x) :
    isFinite x = true := by
  unfold quotient at hx
  dsimp only at hx
  split at hx
  · cases hx
  · split at hx
    · next finite =>
      cases hx
      exact finite
    · cases hx

/-- A quotient that is not too large is worth what the exact one is fitted to. -/
theorem worth_quotient_of_log2 {a b : ℤ} (ha : 0 ≤ a) (hb : 0 < b)
    (h : a.natAbs.log2 ≤ b.natAbs.log2 + 1022) {x : Float} (hx : quotient a b = .ok x) :
    worth x = fit (((a : ℝ) / b : ℝ) : EReal) := by
  rw [quotient, if_neg hb.ne'] at hx
  dsimp only at hx
  split at hx
  · cases hx
    rw [decide_eq_false (Int.not_lt.2 ha), decide_eq_false (Int.not_lt.2 hb.le)]
    have hworth := (worth_nearest false (Int.natAbs_pos.2 hb.ne') h).2
    rw [Nat.cast_natAbs, Nat.cast_natAbs, abs_of_nonneg ha, abs_of_pos hb] at hworth
    exact hworth
  · cases hx

/-- A quotient by a number that is no smaller is never too large. -/
theorem worth_quotient {a b : ℤ} (ha : 0 ≤ a) (h : a ≤ b) (hb : 0 < b) {x : Float}
    (hx : quotient a b = .ok x) : worth x = fit (((a : ℝ) / b : ℝ) : EReal) := by
  refine worth_quotient_of_log2 ha hb (Nat.le_add_right_of_le ?_) hx
  rw [Nat.log2_eq_log_two, Nat.log2_eq_log_two]
  exact Nat.log_mono_right (by omega)

/-- It lies between zero and one. -/
theorem quotient_unit {a b : ℤ} (ha : 0 ≤ a) (h : a ≤ b) (hb : 0 < b) {x : Float}
    (hx : quotient a b = .ok x) : 0 ≤ x ∧ x ≤ 1 := by
  have hworth := worth_quotient ha h hb hx
  have hlow : (0 : ℝ) ≤ (a : ℝ) / b := div_nonneg (by exact_mod_cast ha) (by exact_mod_cast hb.le)
  have hhigh : (a : ℝ) / b ≤ 1 := div_le_one_of_le₀ (by exact_mod_cast h) (by exact_mod_cast hb.le)
  have hone : Numeric 1 := numeric_of_worth_ne_zero (worth_one ▸ one_ne_zero)
  have numeric := (worth_finite (isFinite_of_quotient hx)).1
  constructor
  · refine (le_iff numeric_zero numeric).2 ?_
    rw [worth_zero, hworth]
    exact fit_nonneg (EReal.coe_nonneg.2 hlow)
  · refine (le_iff numeric hone).2 ?_
    rw [worth_one, hworth, ← fit_one]
    exact fit_mono (EReal.coe_le_coe_iff.2 hhigh)

end PianoRoll.Number
