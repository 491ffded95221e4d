import PianoRoll.Proofs.Number.Absorption
import PianoRoll.Proofs.Number.Nearest

/-!
Numbers that stay small. What is no further from zero than a power of two stays so when it is
rounded, and products and sums of such numbers are bounded by the next powers, so none of them gets
infinite and each has a whole part (`Bounded.truncate`). A number that keeps a distance from the
natural number above it keeps it when it is rounded (`fit_le_below`).
-/

namespace PianoRoll.Number

open Float.Model Float.Model.UnpackedFloat

/-! ## Differences -/

/-- Subtraction is addition of the opposite. -/
theorem sub_eq_add_opposite (u v : UnpackedFloat) : sub .binary64 u v = add .binary64 u v.neg := by
  have apply (s : Sign) (n : ℤ) : (-s).apply n = -s.apply n := by
    cases s with
    | negative => exact (Int.neg_neg n).symm
    | positive => rfl
  cases u <;> cases v <;> grind [UnpackedFloat.sub, UnpackedFloat.add, UnpackedFloat.neg]

theorem Valued.neg {u : UnpackedFloat} (h : Valued u) : Valued u.neg ∧ value u.neg = -value u := by
  have opposite (s : Sign) (w : EReal) : withSign (-s) w = -withSign s w := by
    cases s with
    | positive => rfl
    | negative => exact (neg_neg w).symm
  cases h with
  | infinity s => exact ⟨.infinity _, opposite s ⊤⟩
  | zero s => exact ⟨.zero _, neg_zero.symm⟩
  | finite s h grid he => exact ⟨.finite _ h grid he, opposite s _⟩

section Differences

variable {x y : Float} (hx : Numeric x) (hy : Numeric y) (h : ¬ Opposite (worth x) (-worth y))
include hx hy h

theorem fits_sub :
    Fits (sub .binary64 x.toModel.unpack y.toModel.unpack) (worth x - worth y) := by
  obtain ⟨valued, opposite⟩ := Valued.neg hy
  have fits := fits_add hx valued (by rwa [opposite])
  rwa [← sub_eq_add_opposite, opposite, ← sub_eq_add_neg] at fits

theorem numeric_sub : Numeric (x - y) := (fits_sub hx hy h).valued

theorem worth_sub : worth (x - y) = fit (worth x - worth y) := (fits_sub hx hy h).value

end Differences

/-! ## Finite numbers -/

/-- Nothing is opposite to a finite number. -/
theorem not_opposite_of_finite {x : Float} (hx : isFinite x = true) (v : EReal) :
    ¬Opposite (worth x) v := by
  obtain ⟨-, above, below⟩ := worth_finite hx
  rintro (⟨top, -⟩ | ⟨bot, -⟩)
  · exact below.ne top
  · exact above.ne' bot

/-- A product of finite numbers is a number. -/
theorem numeric_mul {x y : Float} (hx : isFinite x = true) (hy : isFinite y = true) :
    Numeric (x * y) := by
  have finite_x := (isFinite_iff x).1 hx
  have finite_y := (isFinite_iff y).1 hy
  have valued_x : Valued x.toModel.unpack := (worth_finite hx).1
  have valued_y : Valued y.toModel.unpack := (worth_finite hy).1
  change Valued (repacked (mul .binary64 x.toModel.unpack y.toModel.unpack))
  generalize x.toModel.unpack = u at finite_x valued_x
  generalize y.toModel.unpack = v at finite_y valued_y
  have zero (s : Sign) : Valued (repacked (.zero s)) := by
    rw [repacked_zero]
    exact .zero s
  cases valued_x with
  | infinity => exact finite_x.elim
  | zero s =>
    cases valued_y with
    | infinity => exact finite_y.elim
    | zero s' => exact zero (s * s')
    | finite s' => exact zero (s * s')
  | finite s h grid =>
    cases valued_y with
    | infinity => exact finite_y.elim
    | zero s' => exact zero (s * s')
    | finite s' h' grid' => exact (fits_mul_finite s s' h h' grid grid').valued

/-! ## Whole parts -/

/-- A finite number has a whole part. -/
theorem truncate_ok {x : Float} (h : isFinite x = true) : ∃ n, truncate x = .ok n := by
  unfold isFinite at h
  unfold truncate wholeBy
  cases hc : content x with
  | nan => simp [hc] at h
  | infinite negative => simp [hc] at h
  | finite negative m e => exact ⟨_, rfl⟩

/-- The whole part of a number that is not below zero is the natural number next below it. -/
theorem truncate_of_nonneg {x : Float} (hx : 0 ≤ x) (h : isFinite x = true) :
    ∃ n : ℕ, truncate x = .ok n ∧ n ≤ worth x ∧ worth x < (n + 1 : ℕ) := by
  have nonneg := worth_le hx
  rw [worth_zero] at nonneg
  rcases nonneg.lt_or_eq with pos | zero
  · exact truncate_of_pos pos (worth_finite h).2.2
  · obtain ⟨negative, m, e, hcontent, -, -, hworth⟩ := exists_content hx h
    have hm : m = 0 := by
      rw [hworth] at zero
      have hzero : (m * 2 ^ e : ℝ) = 0 := (EReal.coe_eq_zero.1 zero.symm)
      exact_mod_cast (mul_eq_zero.1 hzero).resolve_right (two_zpow_pos e).ne'
    subst hm
    refine ⟨0, ?_, ?_, ?_⟩
    · rw [truncate, wholeBy, hcontent]
      cases negative <;> simp [signed]
    · rw [← zero, Nat.cast_zero]
    · rw [← zero]
      exact_mod_cast Nat.one_pos

theorem truncate_of_worth_natCast {x : Float} (hx : Numeric x) {n : ℕ} (h : worth x = n) :
    truncate x = .ok n := by
  have nonneg : 0 ≤ x := (le_iff numeric_zero hx).2 (by rw [h, worth_zero]; exact n.cast_nonneg')
  obtain ⟨m, hm, low, high⟩ := truncate_of_nonneg nonneg (isFinite_of_worth_coe hx h)
  rw [h] at low high
  have least : m ≤ n := Nat.cast_le.1 low
  have most : n < m + 1 := Nat.cast_lt.1 high
  rw [hm, show m = n by omega]

/-- A finite number does not reach beyond some whole number. -/
theorem exists_not_reaches {x : Float} (h : isFinite x = true) :
    ∃ n₀ : Int, ∀ n, n₀ ≤ n → reaches x n = false := by
  unfold isFinite at h
  cases hc : content x with
  | nan => simp [hc] at h
  | infinite negative => simp [hc] at h
  | finite negative m e =>
    refine ⟨m * 2 ^ e.toNat + 1, fun n hn => ?_⟩
    have hpow (k : ℕ) : pow 2 k = 2 ^ k := rfl
    have most : signed negative (m * 2 ^ e.toNat) ≤ m * 2 ^ e.toNat := by
      cases negative <;> simp [signed]
    have positive : 0 ≤ n := le_trans (by positivity) hn
    have scale : n ≤ n * 2 ^ (-e).toNat := le_mul_of_one_le_right positive (one_le_pow₀ one_le_two)
    have below : signed negative (m * 2 ^ e.toNat) < n * (2 ^ (-e).toNat : ℕ) := by
      push_cast
      omega
    rw [reaches, compareWhole?, hc]
    simp only [hpow, compare_lt_iff_lt.2 below]
    rfl

/-! ## Bounds -/

/-- A number no further from zero than a power of two. -/
structure Bounded (k : ℕ) (x : Float) : Prop where
  numeric : Numeric x
  near : ∃ r : ℝ, worth x = r ∧ |r| ≤ 2 ^ k

theorem exists_near {k : ℕ} {w : EReal} (low : ((-2 ^ k : ℝ) : EReal) ≤ w)
    (high : w ≤ ((2 ^ k : ℝ) : EReal)) : ∃ r : ℝ, w = r ∧ |r| ≤ 2 ^ k := by
  induction w with
  | bot => exact absurd low (not_le_of_gt (EReal.bot_lt_coe _))
  | top => exact absurd high (not_le_of_gt (EReal.coe_lt_top _))
  | coe r => exact ⟨r, rfl, abs_le.2 ⟨EReal.coe_le_coe_iff.1 low, EReal.coe_le_coe_iff.1 high⟩⟩

theorem fit_two_pow {k : ℕ} (hk : k ≤ 971) : fit ((2 ^ k : ℝ) : EReal) = ((2 ^ k : ℝ) : EReal) := by
  have grid := fit_grid (m := 1) (e := k) (by decide) (by omega) (by omega)
  rwa [Nat.cast_one, one_mul, zpow_natCast] at grid

/-- Rounding leads beyond no power of two. -/
theorem fit_near {k : ℕ} (hk : k ≤ 971) {r : ℝ} (h : |r| ≤ 2 ^ k) :
    ∃ q : ℝ, fit r = q ∧ |q| ≤ 2 ^ k := by
  obtain ⟨low, high⟩ := abs_le.1 h
  refine exists_near ?_ ?_
  · rw [EReal.coe_neg, ← fit_two_pow hk, ← fit_neg]
    exact fit_mono (by exact_mod_cast low)
  · rw [← fit_two_pow hk]
    exact fit_mono (EReal.coe_le_coe_iff.2 high)

/-- A share of one. -/
theorem bounded_unit {x : Float} (low : 0 ≤ x) (high : x ≤ 1) : Bounded 0 x := by
  have nonneg := worth_le low
  have most := worth_le high
  rw [worth_zero] at nonneg
  rw [worth_one] at most
  refine ⟨(numeric_of_le low).2, exists_near (le_trans ?_ nonneg) ?_⟩
  · exact EReal.coe_nonpos.2 (by norm_num)
  · rw [pow_zero]
    exact most

theorem bounded_ofWhole {n : ℤ} {k : ℕ} (hk : k ≤ 53) (h : n.natAbs ≤ 2 ^ k) :
    Bounded k (ofWhole n) := by
  obtain ⟨numeric, eq⟩ := worth_ofWhole (h.trans (Nat.pow_le_pow_right two_pos hk))
  refine ⟨numeric, n, eq, ?_⟩
  rw [← Int.cast_abs, Int.abs_eq_natAbs]
  exact_mod_cast h

namespace Bounded

variable {j k : ℕ} {x y : Float}

theorem isFinite (h : Bounded k x) : isFinite x = true := by
  obtain ⟨r, eq, -⟩ := h.near
  exact isFinite_of_worth_coe h.numeric eq

theorem truncate (h : Bounded k x) : ∃ n, truncate x = .ok n := truncate_ok h.isFinite

theorem mono (h : Bounded j x) (hjk : j ≤ k) : Bounded k x := by
  obtain ⟨r, eq, near⟩ := h.near
  exact ⟨h.numeric, r, eq, near.trans (pow_le_pow_right₀ one_le_two hjk)⟩

theorem mul (hx : Bounded j x) (hy : Bounded k y) (hjk : j + k ≤ 971) :
    Bounded (j + k) (x * y) := by
  obtain ⟨r, eq_x, near_x⟩ := hx.near
  obtain ⟨q, eq_y, near_y⟩ := hy.near
  refine ⟨numeric_mul hx.isFinite hy.isFinite, ?_⟩
  rw [worth_mul, eq_x, eq_y, ← EReal.coe_mul]
  refine fit_near hjk ?_
  rw [abs_mul, pow_add]
  exact mul_le_mul near_x near_y (abs_nonneg q) (by positivity)

theorem add (hx : Bounded k x) (hy : Bounded k y) (hk : k < 971) : Bounded (k + 1) (x + y) := by
  have apart := not_opposite_of_finite hx.isFinite (worth y)
  obtain ⟨r, eq_x, near_x⟩ := hx.near
  obtain ⟨q, eq_y, near_y⟩ := hy.near
  refine ⟨numeric_add hx.numeric hy.numeric apart, ?_⟩
  rw [worth_add hx.numeric hy.numeric apart, eq_x, eq_y, ← EReal.coe_add]
  refine fit_near hk ((abs_add_le r q).trans ?_)
  rw [pow_succ]
  linarith

theorem sub (hx : Bounded k x) (hy : Bounded k y) (hk : k < 971) : Bounded (k + 1) (x - y) := by
  have apart := not_opposite_of_finite hx.isFinite (-worth y)
  obtain ⟨r, eq_x, near_x⟩ := hx.near
  obtain ⟨q, eq_y, near_y⟩ := hy.near
  refine ⟨numeric_sub hx.numeric hy.numeric apart, ?_⟩
  rw [worth_sub hx.numeric hy.numeric apart, eq_x, eq_y, ← EReal.coe_sub]
  refine fit_near hk ((abs_sub r q).trans ?_)
  rw [pow_succ]
  linarith

end Bounded

/-! ## Distances -/

/-- What lies below a natural number by a part of it that doubles can tell stays so when it is
rounded. -/
theorem fit_le_below {m j : ℕ} (hm : m * 2 ^ j ≤ 2 ^ 53) (hpos : 0 < m) {x : ℝ}
    (h : x ≤ m - (2 ^ j)⁻¹) : fit x ≤ ((m - (2 ^ j)⁻¹ : ℝ) : EReal) := by
  have hpow : 0 < m * 2 ^ j := by positivity
  have hj : j ≤ 53 := (Nat.pow_le_pow_iff_right (by decide : 1 < 2)).1
    ((Nat.le_mul_of_pos_left _ hpos).trans hm)
  have grid : (m - (2 ^ j)⁻¹ : ℝ) = (m * 2 ^ j - 1 : ℕ) * 2 ^ (-j : ℤ) := by
    rw [Nat.cast_sub hpow, zpow_neg, zpow_natCast]
    push_cast
    field_simp
  rw [grid] at h ⊢
  rw [← fit_grid (m := m * 2 ^ j - 1) (e := -j) (by omega) (by omega) (by omega)]
  exact fit_mono (EReal.coe_le_coe_iff.2 h)

end PianoRoll.Number
