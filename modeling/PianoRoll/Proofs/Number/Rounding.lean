import Mathlib

/-!
Doubles and real numbers. Digits with an exponent are worth a number on the extended real line
(`value`). A real number that is not below zero is rounded to the nearest point of the grid, which
has fifty-three digits but none behind the least place, a half to the even one. An exact result is
fitted to the point that it is rounded to, or to an infinity beyond the largest double (`fit`).
Rounding and fitting keep the order and leave the grid alone (`rounded_mono`, `fit_mono`,
`fit_grid`).
-/

namespace PianoRoll.Number

open Float.Model Float.Model.UnpackedFloat

noncomputable def withSign : Sign → EReal → EReal
  | .positive, w => w
  | .negative, w => -w

noncomputable def value : UnpackedFloat → EReal
  | .infinity s => withSign s ⊤
  | .notANumber => 0
  | .zero _ => 0
  | .finite s m e _ => withSign s ((m * 2 ^ e : ℝ) : EReal)

/-! ## Rounding -/

/-- The nearest natural, a half to the even one. -/
noncomputable def nearestEven (x : ℝ) : ℕ :=
  if x - ⌊x⌋₊ < 1 / 2 then ⌊x⌋₊
  else if 1 / 2 < x - ⌊x⌋₊ then ⌊x⌋₊ + 1
  else ⌊x⌋₊ + ⌊x⌋₊ % 2

theorem floor_le_nearestEven (x : ℝ) : ⌊x⌋₊ ≤ nearestEven x := by
  unfold nearestEven
  split_ifs <;> omega

theorem nearestEven_le_floor (x : ℝ) : nearestEven x ≤ ⌊x⌋₊ + 1 := by
  unfold nearestEven
  split_ifs <;> omega

@[simp] theorem nearestEven_natCast (n : ℕ) : nearestEven n = n := by
  simp [nearestEven]

theorem nearestEven_mono {x y : ℝ} (h : x ≤ y) : nearestEven x ≤ nearestEven y := by
  rcases (Nat.floor_mono h).lt_or_eq with hlt | heq
  · calc nearestEven x ≤ ⌊x⌋₊ + 1 := nearestEven_le_floor x
      _ ≤ ⌊y⌋₊ := hlt
      _ ≤ nearestEven y := floor_le_nearestEven y
  · -- on the same floor the fractions decide
    unfold nearestEven
    rw [heq]
    split_ifs <;> first | omega | (exfalso; linarith)

/-- The exponent of the last place of the grid at a number. -/
noncomputable def place (x : ℝ) : ℤ := max (Int.log 2 x - 52) (-1074)

noncomputable def rounded (x : ℝ) : ℝ := nearestEven (x / 2 ^ place x) * 2 ^ place x

theorem two_zpow_pos (e : ℤ) : (0 : ℝ) < 2 ^ e := zpow_pos two_pos e

theorem place_mono {x y : ℝ} (hx : 0 < x) (h : x ≤ y) : place x ≤ place y :=
  max_le_max (sub_le_sub_right (Int.log_mono_right hx h) _) le_rfl

theorem rounded_zero : rounded 0 = 0 := by
  have h := nearestEven_natCast 0
  rw [Nat.cast_zero] at h
  simp [rounded, h]

theorem rounded_nonneg (x : ℝ) : 0 ≤ rounded x :=
  mul_nonneg (Nat.cast_nonneg _) (two_zpow_pos _).le

theorem zpow_on_grid {p k : ℤ} (h : p ≤ k) : ∃ n : ℕ, (2 : ℝ) ^ k = n * 2 ^ p := by
  obtain ⟨n, hn⟩ := Int.eq_ofNat_of_zero_le (sub_nonneg.2 h)
  refine ⟨2 ^ n, ?_⟩
  rw [Nat.cast_pow, Nat.cast_ofNat, ← zpow_natCast, ← zpow_add₀ two_ne_zero]
  congr 1
  omega

/-- A power of two on the grid of a smaller number bounds what the number is rounded to. -/
theorem rounded_le_zpow {x : ℝ} {k : ℤ} (h : x ≤ 2 ^ k) (hk : place x ≤ k) : rounded x ≤ 2 ^ k := by
  obtain ⟨n, hgrid⟩ := zpow_on_grid hk
  have hq : x / 2 ^ place x ≤ n := by
    rw [div_le_iff₀ (two_zpow_pos _), ← hgrid]
    exact h
  have hr := nearestEven_mono hq
  rw [nearestEven_natCast] at hr
  rw [rounded, hgrid]
  exact mul_le_mul_of_nonneg_right (Nat.cast_le.2 hr) (two_zpow_pos _).le

/-- A power of two on the grid of a larger number is a bound as well. -/
theorem zpow_le_rounded {x : ℝ} {k : ℤ} (h : 2 ^ k ≤ x) (hk : place x ≤ k) : 2 ^ k ≤ rounded x := by
  obtain ⟨n, hgrid⟩ := zpow_on_grid hk
  have hq : n ≤ x / 2 ^ place x := by
    rw [le_div_iff₀ (two_zpow_pos _), ← hgrid]
    exact h
  have hr := nearestEven_mono hq
  rw [nearestEven_natCast] at hr
  rw [rounded, hgrid]
  exact mul_le_mul_of_nonneg_right (Nat.cast_le.2 hr) (two_zpow_pos _).le

theorem rounded_mono {x y : ℝ} (hx : 0 ≤ x) (h : x ≤ y) : rounded x ≤ rounded y := by
  rcases hx.eq_or_lt with rfl | hpos
  · rw [rounded_zero]
    exact rounded_nonneg y
  have hy : 0 < y := hpos.trans_le h
  rcases (place_mono hpos h).eq_or_lt with heq | hlt
  · rw [rounded, rounded, heq]
    have hq : x / 2 ^ place y ≤ y / 2 ^ place y := div_le_div_of_nonneg_right h (two_zpow_pos _).le
    exact mul_le_mul_of_nonneg_right (Nat.cast_le.2 (nearestEven_mono hq)) (two_zpow_pos _).le
  · -- on the way from one grid to the next lies a power of two
    have hlog : place y = Int.log 2 y - 52 := by
      unfold place at hlt ⊢
      omega
    have hbelow : Int.log 2 x + 1 ≤ Int.log 2 y := by
      unfold place at hlt
      omega
    have hx' : x ≤ 2 ^ Int.log 2 y :=
      (Int.lt_zpow_succ_log_self (b := 2) one_lt_two x).le.trans
        (zpow_le_zpow_right₀ one_le_two hbelow)
    have hy' : (2 : ℝ) ^ Int.log 2 y ≤ y := Int.zpow_log_le_self one_lt_two hy
    exact (rounded_le_zpow hx' (by omega)).trans (zpow_le_rounded hy' (by omega))

/-- Numbers with no more than fifty-three digits in front of the least place stay. -/
theorem rounded_grid {m : ℕ} {e : ℤ} (hm : m < 2 ^ 53) (he : -1074 ≤ e) :
    rounded (m * 2 ^ e) = m * 2 ^ e := by
  rcases Nat.eq_zero_or_pos m with rfl | hpos
  · simp [rounded_zero]
  have hx : (0 : ℝ) < m * 2 ^ e := mul_pos (Nat.cast_pos.2 hpos) (two_zpow_pos e)
  have hlog : Int.log 2 ((m : ℝ) * 2 ^ e) < 53 + e := by
    refine (Int.lt_zpow_iff_log_lt one_lt_two hx).1 ?_
    rw [Nat.cast_ofNat, zpow_add₀ two_ne_zero]
    exact mul_lt_mul_of_pos_right (by exact_mod_cast hm) (two_zpow_pos e)
  have hplace : place ((m : ℝ) * 2 ^ e) ≤ e := by
    unfold place
    omega
  obtain ⟨n, hn⟩ := zpow_on_grid hplace
  have hgrid : (m : ℝ) * 2 ^ e = ((m * n : ℕ) : ℝ) * 2 ^ place ((m : ℝ) * 2 ^ e) := by
    rw [Nat.cast_mul, mul_assoc, ← hn]
  rw [rounded]
  nth_rewrite 1 [hgrid]
  rw [mul_div_cancel_right₀ _ (two_zpow_pos _).ne', nearestEven_natCast, ← hgrid]

/-! ## Fitting -/

/-- A point of the grid, if it is no larger than the largest double. -/
noncomputable def cap (r : ℝ) : EReal := if r < 2 ^ 1024 then r else ⊤

/-- What a real number that is not below zero is fitted to. -/
noncomputable def fitted (r : ℝ) : EReal := cap (rounded r)

/-- What an exact result is fitted to. -/
noncomputable def fit : EReal → EReal
  | ⊥ => ⊥
  | ⊤ => ⊤
  | (r : ℝ) => if 0 ≤ r then fitted r else -fitted (-r)

theorem cap_mono {r q : ℝ} (h : r ≤ q) : cap r ≤ cap q := by
  unfold cap
  split_ifs with hr hq
  · exact EReal.coe_le_coe_iff.2 h
  · exact le_top
  · exact absurd (h.trans_lt ‹_›) hr
  · exact le_rfl

theorem cap_nonneg {r : ℝ} (h : 0 ≤ r) : 0 ≤ cap r := by
  unfold cap
  split_ifs
  · exact EReal.coe_nonneg.2 h
  · exact le_top

theorem cap_zero : cap 0 = 0 := if_pos (by positivity)

theorem fitted_mono {r q : ℝ} (hr : 0 ≤ r) (h : r ≤ q) : fitted r ≤ fitted q :=
  cap_mono (rounded_mono hr h)

theorem fitted_nonneg (r : ℝ) : 0 ≤ fitted r := cap_nonneg (rounded_nonneg r)

theorem fitted_zero : fitted 0 = 0 := by rw [fitted, rounded_zero, cap_zero]

theorem fit_top : fit ⊤ = ⊤ := rfl

theorem fit_coe {r : ℝ} (h : 0 ≤ r) : fit r = fitted r := if_pos h

theorem fit_zero : fit 0 = 0 := (fit_coe le_rfl).trans fitted_zero

theorem fit_neg (w : EReal) : fit (-w) = -fit w := by
  induction w with
  | bot => rfl
  | top => rfl
  | coe r =>
    rw [← EReal.coe_neg]
    change (if 0 ≤ -r then fitted (-r) else -fitted (- -r)) = -(if 0 ≤ r then fitted r else _)
    rcases lt_trichotomy r 0 with h | rfl | h
    · rw [if_pos (by linarith), if_neg (by linarith), neg_neg]
    · rw [neg_zero, if_pos le_rfl, if_pos le_rfl, fitted_zero, neg_zero]
    · rw [if_neg (by linarith), if_pos h.le, neg_neg]

theorem fit_nonneg {w : EReal} (h : 0 ≤ w) : 0 ≤ fit w := by
  induction w with
  | bot => exact h
  | top => exact le_top
  | coe r =>
    rw [fit_coe (EReal.coe_nonneg.1 h)]
    exact fitted_nonneg r

theorem fit_nonpos {w : EReal} (h : w ≤ 0) : fit w ≤ 0 := by
  have hn := fit_nonneg (EReal.neg_nonneg.2 h)
  rw [fit_neg] at hn
  exact EReal.neg_nonneg.1 hn

/-- Fitting keeps the order above zero. -/
theorem fit_mono_of_nonneg {w v : EReal} (hw : 0 ≤ w) (h : w ≤ v) : fit w ≤ fit v := by
  induction v with
  | bot => exact absurd (hw.trans h) (by simp)
  | top => exact le_top
  | coe q =>
    induction w with
    | bot => exact absurd hw (by simp)
    | top => exact absurd h (by simp)
    | coe r =>
      have hr := EReal.coe_nonneg.1 hw
      have hrq := EReal.coe_le_coe_iff.1 h
      rw [fit_coe hr, fit_coe (hr.trans hrq)]
      exact fitted_mono hr hrq

/-- Fitting keeps the order. -/
theorem fit_mono : Monotone fit := by
  intro w v h
  rcases le_total 0 w with hw | hw
  · exact fit_mono_of_nonneg hw h
  rcases le_total 0 v with hv | hv
  · exact (fit_nonpos hw).trans (fit_nonneg hv)
  · have hneg := fit_mono_of_nonneg (EReal.neg_nonneg.2 hv) (EReal.neg_le_neg_iff.2 h)
    rw [fit_neg, fit_neg] at hneg
    exact EReal.neg_le_neg_iff.1 hneg

/-- Fifty-three digits in front of the last place of the largest double are not too large. -/
theorem digits_lt {m : ℕ} {e : ℤ} (hm : m < 2 ^ 53) (hhigh : e ≤ 971) :
    (m : ℝ) * 2 ^ e < 2 ^ 1024 := by
  have hm' : (m : ℝ) < 2 ^ 53 := by exact_mod_cast hm
  have he : (2 : ℝ) ^ e ≤ 2 ^ (971 : ℤ) := zpow_le_zpow_right₀ one_le_two hhigh
  calc (m : ℝ) * 2 ^ e < 2 ^ 53 * 2 ^ e := mul_lt_mul_of_pos_right hm' (two_zpow_pos e)
    _ ≤ 2 ^ 53 * 2 ^ (971 : ℤ) := mul_le_mul_of_nonneg_left he (by positivity)
    _ = 2 ^ 1024 := (pow_add 2 53 971).symm

/-- What a double can hold is fitted to itself. -/
theorem fit_grid {m : ℕ} {e : ℤ} (hm : m < 2 ^ 53) (hlow : -1074 ≤ e) (hhigh : e ≤ 971) :
    fit ((m * 2 ^ e : ℝ) : EReal) = ((m * 2 ^ e : ℝ) : EReal) := by
  rw [fit_coe (mul_nonneg (Nat.cast_nonneg m) (two_zpow_pos e).le), fitted, rounded_grid hm hlow]
  exact if_pos (digits_lt hm hhigh)

end PianoRoll.Number
