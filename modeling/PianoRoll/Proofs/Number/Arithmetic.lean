import Mathlib.Algebra.Order.Field.Power
import PianoRoll.Proofs.Number.Worth

/-!
Sums, products and quotients of doubles are worth what the exact results are fitted to. The value
that is no number is worth zero, as are the products and quotients on the extended real line that
it comes from, so that `worth_mul` and `worth_div` hold of it as well; a sum has to be a number.
-/

namespace PianoRoll.Number

open Float.Model Float.Model.UnpackedFloat

/-! ## Signs -/

theorem withSign_zero (s : Sign) : withSign s 0 = 0 := by
  cases s with
  | positive => rfl
  | negative => exact neg_zero

theorem fit_withSign (s : Sign) (w : EReal) : fit (withSign s w) = withSign s (fit w) := by
  cases s with
  | positive => rfl
  | negative => exact fit_neg w

theorem withSign_mul (s t : Sign) (w v : EReal) :
    withSign s w * withSign t v = withSign (s * t) (w * v) := by
  cases s <;> cases t
  · exact neg_mul_neg w v
  · exact neg_mul w v
  · exact mul_neg w v
  · rfl

theorem withSign_coe (s : Sign) (r : ℝ) :
    withSign s (r : EReal) = (((s.apply 1 : ℤ) * r : ℝ) : EReal) := by
  cases s with
  | positive => simp [withSign, Sign.apply]
  | negative => simp [withSign, Sign.apply]

/-! ## Packing -/

/-- What is left of digits and exponent in the bits of a double. -/
def repacked (u : UnpackedFloat) : UnpackedFloat := unpack .binary64 (pack .binary64 u)

/-- Whether packing makes a number of digits and exponent, and the one that a result is fitted
to. -/
structure Fits (u : UnpackedFloat) (w : EReal) : Prop where
  valued : Valued (repacked u)
  value : value (repacked u) = fit w

theorem repacked_infinity (s : Sign) : repacked (.infinity s) = .infinity s := by
  cases s <;> rfl

theorem repacked_zero (s : Sign) : repacked (.zero s) = .zero s := by
  cases s <;> rfl

theorem value_repacked_notANumber : value (repacked .notANumber) = 0 := by
  rw [show repacked .notANumber = .notANumber from rfl, value]

theorem value_repacked_zero (s : Sign) : value (repacked (.zero s)) = 0 := by
  rw [repacked_zero]
  rfl

theorem Valued.repacked {u : UnpackedFloat} (h : Valued u) : repacked u = u := by
  cases h with
  | infinity s => exact repacked_infinity s
  | zero s => exact repacked_zero s
  | finite s h grid he => exact unpack_pack_finite s h grid he

theorem Valued.fit_value {u : UnpackedFloat} (h : Valued u) : fit (value u) = value u := by
  cases h with
  | infinity s => cases s <;> rfl
  | zero s => exact fit_zero
  | finite s h grid he =>
    rw [value, fit_withSign, fit_grid grid.digits grid.least he]

/-- A number that is already one is packed as it is. -/
theorem Valued.fits {u : UnpackedFloat} (h : Valued u) : Fits u (value u) :=
  ⟨by rw [h.repacked]; exact h, by rw [h.repacked, h.fit_value]⟩

/-- The rounded digits of a number are packed as the double it is fitted to. -/
theorem Holds.fits {u : UnpackedFloat} {s : Sign} {r : ℝ} (hr : 0 ≤ r)
    (h : Holds u s (rounded r)) : Fits u (withSign s r) := by
  generalize hq : rounded r = q at h
  have hfit : fit (withSign s r) = withSign s (cap q) := by
    rw [fit_withSign, fit_coe hr, fitted, hq]
  cases h with
  | zero =>
    refine ⟨?_, ?_⟩
    · rw [repacked_zero]
      exact .zero s
    · rw [repacked_zero, hfit, cap_zero, withSign_zero]
      rfl
  | @finite _ m e hm grid =>
    obtain hsmall | hlarge : e ≤ 971 ∨ 972 ≤ e := by omega
    · have hv : Valued (.finite s m e hm) := .finite s hm grid hsmall
      have hcap : fit ((m * 2 ^ e : ℝ) : EReal) = cap (m * 2 ^ e) := by
        rw [fit_coe (Grid.pos hm e).le, fitted, rounded_grid grid.digits grid.least]
      refine ⟨hv.fits.valued, hv.fits.value.trans ?_⟩
      rw [hfit, value, fit_withSign, hcap]
    · have hfull : 2 ^ 52 ≤ m := grid.full.resolve_right (by omega)
      have hcap : cap (m * 2 ^ e) = ⊤ := by
        refine if_neg (not_lt_of_ge ?_)
        have hm' : (2 : ℝ) ^ 52 ≤ m := by exact_mod_cast hfull
        have he' : (2 : ℝ) ^ (972 : ℤ) ≤ 2 ^ e := zpow_le_zpow_right₀ one_le_two hlarge
        calc (2 : ℝ) ^ 1024 = 2 ^ 52 * 2 ^ (972 : ℤ) := pow_add 2 52 972
          _ ≤ m * 2 ^ e := mul_le_mul hm' he' (two_zpow_pos _).le (Nat.cast_nonneg m)
      have hrep : repacked (.finite s m e hm) = .infinity s := unpack_pack_infinite s hm hlarge
      refine ⟨?_, ?_⟩
      · rw [hrep]
        exact .infinity s
      · rw [hrep, hfit, hcap]
        rfl

/-! ## Sums -/

/-- Whole digits of either sign with an exponent. -/
theorem normalize_fits (m : ℤ) (e : ℤ) :
    Fits (UnpackedFloat.normalize .binary64 m e .positive) ((m * 2 ^ e : ℝ) : EReal) := by
  unfold UnpackedFloat.normalize
  rcases lt_trichotomy m 0 with h | rfl | h
  · obtain ⟨n, hn⟩ := Int.eq_ofNat_of_zero_le (neg_nonneg.2 h.le)
    obtain rfl : m = -n := by omega
    have hpos : 0 < n := by omega
    have hholds := round_holds .negative hpos e
    rw [compare_lt_iff_lt.2 h]
    have hfits := hholds.fits (Grid.pos hpos e).le
    simpa [withSign] using hfits
  · have hzero := (Valued.zero .positive).fits
    rw [compare_eq_iff_eq.2 rfl]
    simpa [value] using hzero
  · obtain ⟨n, rfl⟩ := Int.eq_ofNat_of_zero_le h.le
    have hpos : 0 < n := by omega
    have hholds := round_holds .positive hpos e
    rw [compare_gt_iff_gt.2 h]
    have hfits := hholds.fits (Grid.pos hpos e).le
    simpa [withSign] using hfits

/-- Digits with a smaller exponent in place of the one they had. -/
theorem decreaseExponent_value (m : ℕ) {e t : ℤ} (h : t ≤ e) :
    ((decreaseExponent m e t).1 : ℝ) * 2 ^ t = m * 2 ^ e := by
  change ((m <<< (e - t).toNat : ℕ) : ℝ) * 2 ^ t = m * 2 ^ e
  have he : ((e - t).toNat : ℤ) + t = e := by omega
  rw [Nat.shiftLeft_eq, Nat.cast_mul, Nat.cast_pow, Nat.cast_ofNat, mul_assoc, ← zpow_natCast,
    ← zpow_add₀ two_ne_zero, he]

theorem sign_apply_cast (s : Sign) (n : ℕ) : ((s.apply n : ℤ) : ℝ) = (s.apply 1 : ℤ) * n := by
  cases s <;> simp [Sign.apply]

theorem fits_add_finite (s₁ s₂ : Sign) {m₁ m₂ : ℕ} (e₁ e₂ : ℤ) (h₁ : 0 < m₁) (h₂ : 0 < m₂) :
    Fits (add .binary64 (.finite s₁ m₁ e₁ h₁) (.finite s₂ m₂ e₂ h₂))
      (value (.finite s₁ m₁ e₁ h₁) + value (.finite s₂ m₂ e₂ h₂)) := by
  have hfits := normalize_fits
    (s₁.apply (decreaseExponent m₁ e₁ (min e₁ e₂)).1 +
      s₂.apply (decreaseExponent m₂ e₂ (min e₁ e₂)).1) (min e₁ e₂)
  have hsum : (((s₁.apply (decreaseExponent m₁ e₁ (min e₁ e₂)).1 +
      s₂.apply (decreaseExponent m₂ e₂ (min e₁ e₂)).1 : ℤ) : ℝ) * 2 ^ min e₁ e₂) =
        (s₁.apply 1 : ℤ) * (m₁ * 2 ^ e₁) + (s₂.apply 1 : ℤ) * (m₂ * 2 ^ e₂) := by
    rw [Int.cast_add, sign_apply_cast s₁, sign_apply_cast s₂, add_mul, mul_assoc, mul_assoc,
      decreaseExponent_value m₁ (min_le_left e₁ e₂), decreaseExponent_value m₂ (min_le_right e₁ e₂)]
  rw [hsum, EReal.coe_add, ← withSign_coe, ← withSign_coe] at hfits
  exact hfits

/-- Infinities of both signs, which have no sum. -/
def Opposite (w v : EReal) : Prop := w = ⊤ ∧ v = ⊥ ∨ w = ⊥ ∧ v = ⊤

theorem Opposite.symm {w v : EReal} (h : Opposite w v) : Opposite v w := by
  rcases h with ⟨hw, hv⟩ | ⟨hw, hv⟩
  · exact Or.inr ⟨hv, hw⟩
  · exact Or.inl ⟨hv, hw⟩

theorem value_infinity_add (s : Sign) {w : EReal} (h : ¬ Opposite (value (.infinity s)) w) :
    value (.infinity s) + w = value (.infinity s) := by
  cases s with
  | positive => exact EReal.top_add_of_ne_bot fun hw => h (Or.inl ⟨rfl, hw⟩)
  | negative => exact EReal.bot_add w

theorem fits_add {u v : UnpackedFloat} (hu : Valued u) (hv : Valued v)
    (h : ¬ Opposite (value u) (value v)) : Fits (add .binary64 u v) (value u + value v) := by
  cases hu with
  | infinity s =>
    have hfits := (Valued.infinity s).fits
    rw [value_infinity_add s h]
    cases hv with
    | infinity s' =>
      cases s <;> cases s'
      · exact hfits
      · exact absurd (Or.inr ⟨rfl, rfl⟩) h
      · exact absurd (Or.inl ⟨rfl, rfl⟩) h
      · exact hfits
    | zero s' => exact hfits
    | finite s' h' grid' he' => exact hfits
  | zero s =>
    rw [show value (.zero s) = 0 from rfl, zero_add]
    cases hv with
    | infinity s' => exact (Valued.infinity s').fits
    | zero s' => cases s <;> cases s' <;> exact (Valued.zero _).fits
    | finite s' h' grid' he' => exact (Valued.finite s' h' grid' he').fits
  | finite s hm grid he =>
    cases hv with
    | infinity s' =>
      rw [add_comm, value_infinity_add s' fun ho => h ho.symm]
      exact (Valued.infinity s').fits
    | zero s' =>
      rw [show value (.zero s') = 0 from rfl, add_zero]
      exact (Valued.finite s hm grid he).fits
    | finite s' hm' grid' he' => exact fits_add_finite s s' _ _ hm hm'

/-! ## Products -/

/-- The product of the digits leaves room for rounding. -/
theorem Grid.place_mul {m₁ m₂ : ℕ} {e₁ e₂ : ℤ} (h₁ : 0 < m₁) (h₂ : 0 < m₂) (g₁ : Grid m₁ e₁)
    (g₂ : Grid m₂ e₂) : e₁ + e₂ ≤ place (((m₁ * m₂ : ℕ) : ℝ) * 2 ^ (e₁ + e₂)) := by
  have hpos : 0 < m₁ * m₂ := Nat.mul_pos h₁ h₂
  have hlog : Int.log 2 (((m₁ * m₂ : ℕ) : ℝ) * 2 ^ (e₁ + e₂)) = (m₁ * m₂).log2 + (e₁ + e₂) := by
    refine log_eq_of_floor hpos ?_ ?_ <;> rw [mul_div_cancel_right₀ _ (two_zpow_pos _).ne']
    exact lt_add_one _
  rw [place, hlog]
  by_cases hfull : 2 ^ 52 ≤ m₁ * m₂
  · have hbits : 52 ≤ (m₁ * m₂).log2 := (Nat.le_log2 hpos.ne').2 hfull
    omega
  · -- neither factor has all its digits
    have hleast₁ : e₁ = -1074 :=
      g₁.full.resolve_left fun hm => hfull (hm.trans (Nat.le_mul_of_pos_right _ h₂))
    have hleast₂ : e₂ = -1074 :=
      g₂.full.resolve_left fun hm => hfull (hm.trans (Nat.le_mul_of_pos_left _ h₁))
    omega

theorem fits_mul_finite (s₁ s₂ : Sign) {m₁ m₂ : ℕ} {e₁ e₂ : ℤ} (h₁ : 0 < m₁) (h₂ : 0 < m₂)
    (g₁ : Grid m₁ e₁) (g₂ : Grid m₂ e₂) :
    Fits (mul .binary64 (.finite s₁ m₁ e₁ h₁) (.finite s₂ m₂ e₂ h₂))
      (value (.finite s₁ m₁ e₁ h₁) * value (.finite s₂ m₂ e₂ h₂)) := by
  have hx := Grid.pos (Nat.mul_pos h₁ h₂) (e₁ + e₂)
  have hstands : Stands (.ofMantissaAndAccuracy (m₁ * m₂) .exact)
      (((m₁ * m₂ : ℕ) : ℝ) * 2 ^ (e₁ + e₂) / 2 ^ (e₁ + e₂)) := by
    rw [mul_div_cancel_right₀ _ (two_zpow_pos _).ne']
    exact stands_exact _
  have hholds := roundWithAccuracy_holds (s₁ * s₂) hx hstands (g₁.place_mul h₁ h₂ g₂)
  have hprod : ((m₁ * m₂ : ℕ) : ℝ) * 2 ^ (e₁ + e₂) = m₁ * 2 ^ e₁ * (m₂ * 2 ^ e₂) := by
    rw [Nat.cast_mul, zpow_add₀ two_ne_zero]
    ring
  have hfits := hholds.fits hx.le
  rw [hprod, EReal.coe_mul, ← withSign_mul] at hfits
  exact hfits

theorem value_mul {u v : UnpackedFloat} (hu : Valued u) (hv : Valued v) :
    value (repacked (mul .binary64 u v)) = fit (value u * value v) := by
  cases hu with
  | infinity s =>
    cases hv with
    | infinity s' =>
      have hm : mul .binary64 (.infinity s) (.infinity s') = .infinity (s * s') := rfl
      rw [hm, repacked_infinity, value, value, value, withSign_mul, EReal.top_mul_top,
        fit_withSign, fit_top]
    | zero s' =>
      have hm : mul .binary64 (.infinity s) (.zero s') = .notANumber := rfl
      rw [hm, value_repacked_notANumber, show value (.zero s') = 0 from rfl, mul_zero, fit_zero]
    | @finite s' m e h grid he =>
      have hm : mul .binary64 (.infinity s) (.finite s' m e h) = .infinity (s * s') := rfl
      rw [hm, repacked_infinity, value, value, value, withSign_mul,
        EReal.top_mul_coe_of_pos (Grid.pos h e), fit_withSign, fit_top]
  | zero s =>
    rw [show value (.zero s) = 0 from rfl, zero_mul, fit_zero]
    cases hv with
    | infinity s' => exact value_repacked_notANumber
    | zero s' => exact value_repacked_zero (s * s')
    | finite s' h grid he => exact value_repacked_zero (s * s')
  | @finite s m e h grid he =>
    cases hv with
    | infinity s' =>
      have hm : mul .binary64 (.finite s m e h) (.infinity s') = .infinity (s * s') := rfl
      rw [hm, repacked_infinity, value, value, value, withSign_mul,
        EReal.coe_mul_top_of_pos (Grid.pos h e), fit_withSign, fit_top]
    | zero s' =>
      rw [show value (.zero s') = 0 from rfl, mul_zero, fit_zero]
      exact value_repacked_zero (s * s')
    | finite s' h' grid' he' => exact (fits_mul_finite s s' h h' grid grid').value

/-! ## Quotients -/

/-- The quotient of the digits leaves room for rounding. -/
theorem place_div {m₁ m₂ : ℕ} (e₁ e₂ : ℤ) (h₁ : 0 < m₁) (h₂ : 0 < m₂) :
    Format.binary64.targetExponent (totalExponent m₁ e₁ - totalExponent m₂ e₂) ≤
      place ((m₁ * 2 ^ e₁ : ℝ) / (m₂ * 2 ^ e₂)) := by
  have hx : (0 : ℝ) < (m₁ * 2 ^ e₁ : ℝ) / (m₂ * 2 ^ e₂) := div_pos (Grid.pos h₁ e₁) (Grid.pos h₂ e₂)
  have hlog : m₁.log2 + e₁ - (m₂.log2 + 1 + e₂) ≤
      Int.log 2 ((m₁ * 2 ^ e₁ : ℝ) / (m₂ * 2 ^ e₂)) := by
    refine (Int.zpow_le_iff_le_log (b := 2) one_lt_two hx).1 ?_
    have hlow : (2 : ℝ) ^ m₁.log2 ≤ m₁ := by exact_mod_cast Nat.log2_self_le h₁.ne'
    have hhigh : (m₂ : ℝ) ≤ 2 ^ (m₂.log2 + 1) := by exact_mod_cast Nat.lt_log2_self.le
    rw [le_div_iff₀ (Grid.pos h₂ e₂), Nat.cast_ofNat]
    calc (2 : ℝ) ^ ((m₁.log2 : ℤ) + e₁ - (m₂.log2 + 1 + e₂)) * (m₂ * 2 ^ e₂)
        ≤ 2 ^ ((m₁.log2 : ℤ) + e₁ - (m₂.log2 + 1 + e₂)) * (2 ^ (m₂.log2 + 1) * 2 ^ e₂) := by
          gcongr
      _ = 2 ^ m₁.log2 * 2 ^ e₁ := by
          rw [← zpow_natCast, ← zpow_natCast, ← zpow_add₀ two_ne_zero, ← zpow_add₀ two_ne_zero,
            ← zpow_add₀ two_ne_zero]
          congr 1
          push_cast
          ring
      _ ≤ m₁ * 2 ^ e₁ := by gcongr
  rw [targetExponent_eq, totalExponent, totalExponent, place]
  omega

theorem fits_div_finite (s₁ : Sign) {m₁ m₂ : ℕ} (e₁ e₂ : ℤ) (h₁ : 0 < m₁) (h₂ : 0 < m₂) :
    Fits (div .binary64 (.finite s₁ m₁ e₁ h₁) (.finite .positive m₂ e₂ h₂))
      (value (.finite s₁ m₁ e₁ h₁) / value (.finite .positive m₂ e₂ h₂)) := by
  let t := min (e₁ - e₂)
    (Format.binary64.targetExponent (totalExponent m₁ e₁ - totalExponent m₂ e₂))
  let k := (e₁ - e₂ - t).toNat
  have hx : (0 : ℝ) < (m₁ * 2 ^ e₁ : ℝ) / (m₂ * 2 ^ e₂) := div_pos (Grid.pos h₁ e₁) (Grid.pos h₂ e₂)
  have hquot : (m₁ * 2 ^ e₁ : ℝ) / (m₂ * 2 ^ e₂) / 2 ^ t = ((m₁ <<< k : ℕ) : ℝ) / m₂ := by
    have hk : (k : ℤ) + t + e₂ = e₁ := by
      have hle : t ≤ e₁ - e₂ := min_le_left _ _
      omega
    have hm₂ : (m₂ : ℝ) ≠ 0 := Nat.cast_ne_zero.2 h₂.ne'
    rw [Nat.shiftLeft_eq, Nat.cast_mul, Nat.cast_pow, Nat.cast_ofNat, div_div,
      div_eq_div_iff (by positivity) hm₂, ← hk, zpow_add₀ two_ne_zero, zpow_add₀ two_ne_zero,
      zpow_natCast]
    ring
  have hstands : Stands (.ofMantissaAndAccuracy ((m₁ <<< k) / m₂)
      (accuracyOfFraction ((m₁ <<< k) % m₂) m₂)) ((m₁ * 2 ^ e₁ : ℝ) / (m₂ * 2 ^ e₂) / 2 ^ t) := by
    rw [hquot]
    exact stands_fraction _ _ h₂
  have hplace : t ≤ place ((m₁ * 2 ^ e₁ : ℝ) / (m₂ * 2 ^ e₂)) :=
    (min_le_right _ _).trans (place_div e₁ e₂ h₁ h₂)
  have hfits := (roundWithAccuracy_holds (s₁ / .positive) hx hstands hplace).fits hx.le
  have hvalue : withSign (s₁ / .positive) (((m₁ * 2 ^ e₁ : ℝ) / (m₂ * 2 ^ e₂) : ℝ) : EReal) =
      value (.finite s₁ m₁ e₁ h₁) / value (.finite .positive m₂ e₂ h₂) := by
    rw [EReal.coe_div]
    cases s₁ with
    | positive => rfl
    | negative => exact (neg_mul ((m₁ * 2 ^ e₁ : ℝ) : EReal) ((m₂ * 2 ^ e₂ : ℝ) : EReal)⁻¹).symm
  rw [hvalue] at hfits
  exact hfits

/-- A quotient by a positive number is a number. -/
theorem fits_div {u : UnpackedFloat} (hu : Valued u) {m : ℕ} {e : ℤ} (h : 0 < m) :
    Fits (div .binary64 u (.finite .positive m e h))
      (value u / value (.finite .positive m e h)) := by
  have hpos : (0 : EReal) < value (.finite .positive m e h) := value_pos h e
  have htop : value (.finite .positive m e h) ≠ ⊤ := EReal.coe_ne_top _
  cases hu with
  | infinity s =>
    have hfits := (Valued.infinity s).fits
    cases s
    · rw [show value (.infinity .negative) = ⊥ from rfl] at hfits ⊢
      rw [EReal.bot_div_of_pos_ne_top hpos htop]
      exact hfits
    · rw [show value (.infinity .positive) = ⊤ from rfl] at hfits ⊢
      rw [EReal.top_div_of_pos_ne_top hpos htop]
      exact hfits
  | zero s =>
    rw [show value (.zero s) = 0 from rfl, EReal.zero_div]
    exact (Valued.zero (s / .positive)).fits
  | finite s h' grid he => exact fits_div_finite s _ _ h' h

theorem value_div {u v : UnpackedFloat} (hu : Valued u) (hv : Valued v) (hpos : 0 < value v) :
    value (repacked (div .binary64 u v)) = fit (value u / value v) := by
  cases hv with
  | infinity s =>
    cases s with
    | negative => exact absurd hpos (not_lt_of_ge bot_le)
    | positive =>
      rw [show value (.infinity .positive) = ⊤ from rfl, EReal.div_top, fit_zero]
      cases hu with
      | infinity s =>
        have hd : div .binary64 (.infinity s) (.infinity .positive) = .notANumber := rfl
        rw [hd, value_repacked_notANumber]
      | zero s =>
        have hd : div .binary64 (.zero s) (.infinity .positive) = .zero (s / .positive) := rfl
        rw [hd, value_repacked_zero]
      | @finite s m e h grid he =>
        have hd : div .binary64 (.finite s m e h) (.infinity .positive) =
            .zero (s / .positive) := rfl
        rw [hd, value_repacked_zero]
  | zero s => exact absurd hpos (lt_irrefl 0)
  | finite s h grid he =>
    cases s with
    | negative => exact absurd hpos (lt_asymm (neg_value_neg h _))
    | positive => exact (fits_div hu h).value

theorem mul_notANumber (u : UnpackedFloat) : mul .binary64 u .notANumber = .notANumber := by
  cases u <;> rfl

theorem add_notANumber (u : UnpackedFloat) : add .binary64 u .notANumber = .notANumber := by
  cases u <;> rfl

/-! ## Doubles -/

theorem worth_mul (x y : Float) : worth (x * y) = fit (worth x * worth y) := by
  change value (repacked (mul .binary64 x.toModel.unpack y.toModel.unpack)) = _
  rcases numeric_or_not x with hx | hx
  · rcases numeric_or_not y with hy | hy
    · exact value_mul hx hy
    · rw [worth_notANumber hy, mul_zero, fit_zero, hy, mul_notANumber, value_repacked_notANumber]
  · have hm : mul .binary64 .notANumber y.toModel.unpack = .notANumber := rfl
    rw [worth_notANumber hx, zero_mul, fit_zero, hx, hm, value_repacked_notANumber]

theorem worth_div (x : Float) {y : Float} (hy : 0 < worth y) :
    worth (x / y) = fit (worth x / worth y) := by
  change value (repacked (div .binary64 x.toModel.unpack y.toModel.unpack)) = _
  rcases numeric_or_not x with hx | hx
  · exact value_div hx (numeric_of_worth_ne_zero hy.ne') hy
  · have hd : div .binary64 .notANumber y.toModel.unpack = .notANumber := rfl
    rw [worth_notANumber hx, EReal.zero_div, fit_zero, hx, hd, value_repacked_notANumber]

/-- A positive number that is no infinity has digits. -/
theorem unpack_of_pos {x : Float} (hpos : 0 < worth x) (hlt : worth x < ⊤) :
    ∃ m e h, x.toModel.unpack = .finite .positive m e h := by
  have hx : Valued x.toModel.unpack := numeric_of_worth_ne_zero hpos.ne'
  unfold worth at hpos hlt
  generalize x.toModel.unpack = u at hx hpos hlt ⊢
  cases hx with
  | infinity s =>
    cases s with
    | negative => exact absurd hpos (not_lt_of_ge bot_le)
    | positive => exact absurd hlt (lt_irrefl ⊤)
  | zero s => exact absurd hpos (lt_irrefl 0)
  | @finite s m e h grid he =>
    cases s with
    | negative => exact absurd hpos (lt_asymm (neg_value_neg h _))
    | positive => exact ⟨m, e, h, rfl⟩

theorem numeric_div {x y : Float} (hx : Numeric x) (hpos : 0 < worth y) (hlt : worth y < ⊤) :
    Numeric (x / y) := by
  obtain ⟨m, e, h, hy⟩ := unpack_of_pos hpos hlt
  change Valued (repacked (div .binary64 x.toModel.unpack y.toModel.unpack))
  rw [hy]
  exact (fits_div hx h).valued

section Sums

variable {x y : Float} (hx : Numeric x) (hy : Numeric y) (h : ¬ Opposite (worth x) (worth y))
include hx hy h

theorem numeric_add : Numeric (x + y) := (fits_add hx hy h).valued

theorem worth_add : worth (x + y) = fit (worth x + worth y) := (fits_add hx hy h).value

end Sums

theorem not_opposite_of_nonneg {w v : EReal} (hw : 0 ≤ w) (hv : 0 ≤ v) : ¬ Opposite w v := by
  rintro (⟨_, hbot⟩ | ⟨hbot, _⟩)
  · rw [hbot] at hv
    exact not_lt_of_ge hv EReal.bot_lt_zero
  · rw [hbot] at hw
    exact not_lt_of_ge hw EReal.bot_lt_zero

/-- Adding what is not below zero leads to nothing smaller. -/
theorem float_le_add {x y : Float} (hx : 0 ≤ x) (hy : 0 ≤ y) : x ≤ x + y := by
  have hwx := worth_le hx
  have hwy := worth_le hy
  rw [worth_zero] at hwx hwy
  have apart := not_opposite_of_nonneg hwx hwy
  have hnx : Numeric x := (numeric_of_le hx).2
  have hny := (numeric_of_le hy).2
  refine (le_iff hnx (numeric_add hnx hny apart)).2 ?_
  rw [worth_add hnx hny apart]
  calc worth x = fit (worth x) := hnx.fit_value.symm
    _ ≤ fit (worth x + worth y) := fit_mono (le_add_of_nonneg_right hwy)

theorem float_add_pos {x y : Float} (hx : 0 ≤ x) (hy : 0 < y) : 0 < x + y := by
  have hwx := worth_le hx
  have hwy := worth_lt hy
  rw [worth_zero] at hwx hwy
  have apart := not_opposite_of_nonneg hwx hwy.le
  have hnx := (numeric_of_le hx).2
  have hny : Numeric y := (numeric_of_lt hy).2
  refine (lt_iff numeric_zero (numeric_add hnx hny apart)).2 ?_
  rw [worth_add hnx hny apart, worth_zero]
  calc 0 < worth y := hwy
    _ = fit (worth y) := hny.fit_value.symm
    _ ≤ fit (worth x + worth y) := fit_mono (le_add_of_nonneg_left hwx)

theorem not_valued_notANumber : ¬ Valued (repacked .notANumber) := by
  rw [show repacked .notANumber = .notANumber from rfl]
  intro h
  cases h

/-- Only an infinity is worth one. -/
theorem Valued.eq_infinity {u : UnpackedFloat} (h : Valued u) (s : Sign)
    (hu : value u = withSign s ⊤) : u = .infinity s := by
  cases h with
  | infinity s' =>
    cases s <;> cases s'
    · rfl
    · exact absurd hu.symm (ne_of_lt bot_lt_top)
    · exact absurd hu (ne_of_lt bot_lt_top)
    · rfl
  | zero s' =>
    cases s
    · exact absurd hu.symm (ne_of_lt EReal.bot_lt_zero)
    · exact absurd hu (ne_of_lt EReal.zero_lt_top)
  | @finite s' m e hm grid he =>
    obtain ⟨hbot, htop⟩ := withSign_finite_bounds s' (m * 2 ^ e)
    cases s
    · exact absurd hu.symm (ne_of_lt hbot)
    · exact absurd hu (ne_of_lt htop)

/-- A sum that is a number is one of numbers, and not of opposite infinities. -/
theorem addends_of_numeric {x y : Float} (h : Numeric (x + y)) :
    Numeric x ∧ Numeric y ∧ ¬ Opposite (worth x) (worth y) := by
  change Valued (repacked (add .binary64 x.toModel.unpack y.toModel.unpack)) at h
  have hx : Numeric x := (numeric_or_not x).resolve_right fun hx => by
    have ha : add .binary64 .notANumber y.toModel.unpack = .notANumber := rfl
    rw [hx, ha] at h
    exact not_valued_notANumber h
  have hy : Numeric y := (numeric_or_not y).resolve_right fun hy => by
    rw [hy, add_notANumber] at h
    exact not_valued_notANumber h
  refine ⟨hx, hy, ?_⟩
  rintro (⟨hwx, hwy⟩ | ⟨hwx, hwy⟩)
  · rw [hx.eq_infinity .positive hwx, hy.eq_infinity .negative hwy] at h
    exact not_valued_notANumber h
  · rw [hx.eq_infinity .negative hwx, hy.eq_infinity .positive hwy] at h
    exact not_valued_notANumber h

end PianoRoll.Number
