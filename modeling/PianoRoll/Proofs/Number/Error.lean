import PianoRoll.Proofs.Number.Bounds

/-!
How far rounding leads. A number is moved by no more than half of the last place, which is a small
part of it (`fit_close`), so a formula comes close to what it would be without rounding (`Near`).
What is rounded up to a whole number stays there when whole numbers are added
(`natCast_add_le_fit`).
-/

namespace PianoRoll.Number

/-! ## One rounding -/

theorem nearestEven_close {x : ℝ} (hx : 0 ≤ x) : |(nearestEven x : ℝ) - x| ≤ 1 / 2 := by
  have low := Nat.floor_le hx
  have high := Nat.lt_floor_add_one x
  unfold nearestEven
  split_ifs with below above
  · rw [abs_le]
    constructor <;> linarith
  · push_cast
    rw [abs_le]
    constructor <;> linarith
  · have half : x = ⌊x⌋₊ + 1 / 2 := by linarith
    rcases Nat.mod_two_eq_zero_or_one ⌊x⌋₊ with h | h <;>
      · rw [h]
        push_cast
        rw [abs_le]
        constructor <;> linarith

theorem rounded_close {x : ℝ} (hx : 0 ≤ x) : |rounded x - x| ≤ 2 ^ place x / 2 := by
  have unit := two_zpow_pos (place x)
  have near := nearestEven_close (div_nonneg hx unit.le)
  have scaled : rounded x - x =
      (nearestEven (x / 2 ^ place x) - x / 2 ^ place x) * 2 ^ place x := by
    rw [rounded, sub_mul, div_mul_cancel₀ _ unit.ne']
  rw [scaled, abs_mul, abs_of_pos unit]
  calc _ ≤ 1 / 2 * 2 ^ place x := mul_le_mul_of_nonneg_right near unit.le
    _ = 2 ^ place x / 2 := by ring

/-- The last place of a number is a small part of it, or of one. -/
theorem two_zpow_place_le {x : ℝ} (hx : 0 < x) : (2 : ℝ) ^ place x ≤ (x + 1) / 2 ^ 52 := by
  rcases le_total (Int.log 2 x - 52) (-1074) with tiny | large
  · have least : (2 : ℝ) ^ (-1074 : ℤ) ≤ 1 / 2 ^ 52 := by
      rw [one_div, ← zpow_natCast, ← zpow_neg]
      exact zpow_le_zpow_right₀ one_le_two (by decide)
    rw [place, max_eq_right tiny]
    refine least.trans ?_
    gcongr
    linarith
  · have part : (2 : ℝ) ^ Int.log 2 x ≤ x := by
      exact_mod_cast Int.zpow_log_le_self one_lt_two hx
    rw [place, max_eq_left large, zpow_sub₀ two_ne_zero]
    have unit : (2 : ℝ) ^ (52 : ℤ) = 2 ^ 52 := by norm_cast
    rw [unit]
    gcongr
    linarith

theorem le_cap_iff {a r : ℝ} (ha : a < 2 ^ 1024) : (a : EReal) ≤ cap r ↔ a ≤ r := by
  unfold cap
  split_ifs with h
  · exact EReal.coe_le_coe_iff
  · exact iff_of_true le_top (ha.le.trans (not_lt.1 h))

/-- Rounding moves a number by a small part of it. -/
theorem fit_close {k : ℕ} (hk : k ≤ 971) {r : ℝ} (h : |r| ≤ 2 ^ k) :
    ∃ q : ℝ, fit r = q ∧ |q - r| ≤ (|r| + 1) / 2 ^ 53 := by
  -- the case below zero is that of the opposite number
  wlog nonneg : 0 ≤ r with positive
  · obtain ⟨q, hq, close⟩ := positive hk (r := -r) (by rwa [abs_neg]) (by linarith)
    refine ⟨-q, ?_, ?_⟩
    · rw [EReal.coe_neg, ← hq, EReal.coe_neg, fit_neg, neg_neg]
    · rw [abs_neg] at close
      calc |-q - r| = |q - -r| := by rw [← abs_neg]; congr 1; ring
        _ ≤ (|r| + 1) / 2 ^ 53 := close
  obtain ⟨q, hq, -⟩ := fit_near hk h
  refine ⟨q, hq, ?_⟩
  rcases nonneg.eq_or_lt with rfl | pos
  · rw [EReal.coe_zero, fit_zero] at hq
    rw [EReal.coe_eq_zero.1 hq.symm, sub_zero, abs_zero]
    positivity
  have found : rounded r = q := by
    rw [fit_coe nonneg, fitted, cap] at hq
    split_ifs at hq with finite
    · exact EReal.coe_injective hq
    · exact absurd hq.symm (EReal.coe_ne_top q)
  rw [← found, abs_of_pos pos]
  calc |rounded r - r| ≤ 2 ^ place r / 2 := rounded_close nonneg
    _ ≤ (r + 1) / 2 ^ 52 / 2 := by gcongr; exact two_zpow_place_le pos
    _ = (r + 1) / 2 ^ 53 := by ring

/-! ## Steps by whole numbers -/

theorem nearestEven_add_even {x : ℝ} (hx : 0 ≤ x) (k : ℕ) :
    nearestEven (x + (2 * k : ℕ)) = nearestEven x + 2 * k := by
  unfold nearestEven
  rw [Nat.floor_add_natCast hx, Nat.add_mul_mod_self_left]
  push_cast
  rw [add_sub_add_right_eq_sub]
  split_ifs <;> omega

/-- Where the last place is a part of one, one is an even number of last places. -/
theorem exists_even_places {p : ℤ} (hp : p ≤ -1) : ∃ a : ℕ, (1 : ℝ) = (2 * a : ℕ) * 2 ^ p := by
  obtain ⟨a, ha⟩ := zpow_on_grid hp
  refine ⟨a, ?_⟩
  push_cast
  rw [mul_assoc, ← ha]
  norm_num

/-- On one grid a sum with a whole number is rounded as its first part is. -/
theorem rounded_add_natCast {r : ℝ} (hr : 0 ≤ r) {d : ℕ} (fine : place r ≤ -1)
    (same : place (r + d) = place r) : rounded (r + d) = rounded r + d := by
  obtain ⟨a, ha⟩ := exists_even_places fine
  have unit := two_zpow_pos (place r)
  have quotient : (r + d) / 2 ^ place r = r / 2 ^ place r + (2 * (a * d) : ℕ) := by
    rw [add_div]
    congr 1
    rw [div_eq_iff unit.ne']
    push_cast at ha ⊢
    linear_combination (d : ℝ) * ha
  rw [rounded, rounded, same, quotient, nearestEven_add_even (div_nonneg hr unit.le)]
  push_cast at ha ⊢
  linear_combination -(d : ℝ) * ha

/-- No whole number is missed that is nearer than half of the last place. -/
theorem natCast_le_rounded {s : ℝ} (hs : 0 ≤ s) {n : ℕ} (fine : place s ≤ -1)
    (short : n - s < 2 ^ place s / 2) : n ≤ rounded s := by
  obtain ⟨a, ha⟩ := exists_even_places fine
  have unit := two_zpow_pos (place s)
  have scaled : (n : ℝ) = (n * (2 * a) : ℕ) * 2 ^ place s := by
    push_cast at ha ⊢
    linear_combination (n : ℝ) * ha
  have far : (n * (2 * a) : ℕ) - 1 / 2 < s / 2 ^ place s := by
    rw [lt_div_iff₀ unit, sub_mul, ← scaled]
    linarith
  have near := (abs_le.1 (nearestEven_close (div_nonneg hs unit.le))).1
  have digits : n * (2 * a) < nearestEven (s / 2 ^ place s) + 1 := by
    have : ((n * (2 * a) : ℕ) : ℝ) < (nearestEven (s / 2 ^ place s) + 1 : ℕ) := by
      rw [Nat.cast_succ]
      linarith
    exact_mod_cast this
  rw [rounded, scaled]
  gcongr
  omega

/-- What is rounded up to a whole number stays there when whole numbers are added. -/
theorem natCast_add_le_rounded {r : ℝ} (hr : 0 ≤ r) {m d : ℕ} (h : m ≤ rounded r)
    (hmd : m + d ≤ 2 ^ 52) : (m + d : ℕ) ≤ rounded (r + d) := by
  have sum_nonneg : 0 ≤ r + d := by positivity
  rcases le_or_gt (m : ℝ) r with above | below
  · have grid := rounded_grid (m := m + d) (e := 0) (by omega) (by decide)
    rw [zpow_zero, mul_one] at grid
    rw [← grid]
    refine rounded_mono (Nat.cast_nonneg _) ?_
    push_cast
    linarith
  have pos : 0 < r := by
    refine hr.lt_of_ne fun zero => ?_
    rw [← zero, rounded_zero] at h
    linarith
  have fine : place (r + d) ≤ -1 := by
    have bound : r + d < ((2 : ℕ) : ℝ) ^ (52 : ℤ) := by
      have most : (m + d : ℝ) ≤ 2 ^ 52 := by exact_mod_cast hmd
      calc r + d < m + d := by linarith
        _ ≤ 2 ^ 52 := most
        _ = ((2 : ℕ) : ℝ) ^ (52 : ℤ) := by norm_cast
    have log := (Int.lt_zpow_iff_log_lt one_lt_two (by positivity)).1 bound
    unfold place
    omega
  have places : place r ≤ place (r + d) :=
    place_mono pos (le_add_of_nonneg_right (Nat.cast_nonneg d))
  rcases places.eq_or_lt with same | coarser
  · rw [rounded_add_natCast hr (places.trans fine) same.symm]
    push_cast
    linarith
  · -- it was rounded over half of a last place, which on the coarser grid is a quarter of one
    have gap : (2 : ℝ) ^ place r ≤ 2 ^ place (r + d) / 2 := by
      rw [le_div_iff₀ two_pos, ← zpow_add_one₀ two_ne_zero]
      exact zpow_le_zpow_right₀ one_le_two (by omega)
    have up := (abs_le.1 (rounded_close hr)).2
    have unit := two_zpow_pos (place (r + d))
    refine natCast_le_rounded sum_nonneg fine ?_
    push_cast
    linarith

theorem natCast_add_le_fit {r s : ℝ} (hr : 0 ≤ r) {m d : ℕ} (h : (m : EReal) ≤ fit r) (hs : d ≤ s)
    (hmd : m + d ≤ 2 ^ 52) : ((m + d : ℕ) : EReal) ≤ fit ((r + s : ℝ) : EReal) := by
  have small {n : ℕ} (hn : n ≤ 2 ^ 52) : (n : ℝ) < 2 ^ 1024 := by
    have most : (n : ℝ) ≤ 2 ^ 52 := by exact_mod_cast hn
    exact most.trans_lt (pow_lt_pow_right₀ one_lt_two (by decide))
  rw [fit_coe hr, fitted] at h
  have least := (le_cap_iff (small (by omega))).1 h
  have sum := (le_cap_iff (small hmd)).2 (natCast_add_le_rounded hr least hmd)
  calc ((m + d : ℕ) : EReal) ≤ fitted (r + d) := sum
    _ = fit ((r + d : ℝ) : EReal) := (fit_coe (by positivity)).symm
    _ ≤ fit ((r + s : ℝ) : EReal) := fit_mono (EReal.coe_le_coe_iff.2 (by linarith))

/-! ## Formulas -/

/-- A double that is worth a number but for an error. -/
structure Near (error : ℝ) (x : Float) (r : ℝ) : Prop where
  numeric : Numeric x
  close : ∃ q : ℝ, worth x = q ∧ |q - r| ≤ error

namespace Near

variable {x y : Float} {r s ε δ : ℝ}

theorem of_worth (hx : Numeric x) (h : worth x = r) : Near 0 x r := ⟨hx, r, h, by simp⟩

theorem isFinite (h : Near ε x r) : isFinite x = true := by
  obtain ⟨q, eq, -⟩ := h.close
  exact isFinite_of_worth_coe h.numeric eq

/-- The error of one rounding, up to `2 ^ 33`. -/
theorem fit_close_of_le {q : ℝ} (h : |q| ≤ 2 ^ 33) :
    ∃ t : ℝ, fit q = t ∧ |t - q| ≤ 1 / 2 ^ 19 := by
  obtain ⟨t, fits, close⟩ := fit_close (by decide) h
  refine ⟨t, fits, close.trans ?_⟩
  rw [div_le_div_iff₀ (by positivity) (by positivity)]
  linarith

theorem mul (hx : Near 0 x r) (hy : Near 0 y s) (small : |r * s| ≤ 2 ^ 33) :
    Near (1 / 2 ^ 19) (x * y) (r * s) := by
  obtain ⟨q, eq_x, close_x⟩ := hx.close
  obtain ⟨p, eq_y, close_y⟩ := hy.close
  obtain rfl : q = r := by linarith [abs_nonpos_iff.1 close_x]
  obtain rfl : p = s := by linarith [abs_nonpos_iff.1 close_y]
  obtain ⟨t, fits, close⟩ := fit_close_of_le small
  refine ⟨numeric_mul hx.isFinite hy.isFinite, t, ?_, close⟩
  rw [worth_mul, eq_x, eq_y, ← EReal.coe_mul, fits]

theorem add (hx : Near ε x r) (hy : Near δ y s) (small : |r + s| + ε + δ ≤ 2 ^ 33) :
    Near (ε + δ + 1 / 2 ^ 19) (x + y) (r + s) := by
  obtain ⟨q, eq_x, close_x⟩ := hx.close
  obtain ⟨p, eq_y, close_y⟩ := hy.close
  have apart := not_opposite_of_finite hx.isFinite (worth y)
  have exact_close : |q + p - (r + s)| ≤ ε + δ := by
    calc |q + p - (r + s)| = |(q - r) + (p - s)| := by ring_nf
      _ ≤ ε + δ := (abs_add_le _ _).trans (add_le_add close_x close_y)
  have bound : |q + p| ≤ 2 ^ 33 := by
    have := abs_sub_abs_le_abs_sub (q + p) (r + s)
    linarith
  obtain ⟨t, fits, close⟩ := fit_close_of_le bound
  refine ⟨numeric_add hx.numeric hy.numeric apart, t, ?_, ?_⟩
  · rw [worth_add hx.numeric hy.numeric apart, eq_x, eq_y, ← EReal.coe_add, fits]
  · have := abs_sub_le t (q + p) (r + s)
    linarith

/-- The whole part of a number that is above zero by more than its error. -/
theorem truncate (h : Near ε x r) (pos : ε ≤ r) :
    ∃ n : ℕ, truncate x = .ok n ∧ n ≤ r + ε ∧ r < n + 1 + ε := by
  obtain ⟨q, eq, close⟩ := h.close
  obtain ⟨low, high⟩ := abs_le.1 close
  have nonneg : 0 ≤ x := by
    rw [le_iff numeric_zero h.numeric, worth_zero, eq]
    exact EReal.coe_nonneg.2 (by linarith)
  obtain ⟨n, hn, least, most⟩ := truncate_of_nonneg nonneg h.isFinite
  rw [eq] at least most
  have least' : (n : ℝ) ≤ q := by exact_mod_cast least
  have most' : q < (n + 1 : ℕ) := by exact_mod_cast most
  push_cast at most'
  exact ⟨n, hn, by linarith, by linarith⟩

end Near

/-! ## Reach -/

/-- A finite double reaches the whole numbers that are no larger. -/
theorem reaches_iff {x : Float} (h : isFinite x = true) {n : ℤ} :
    reaches x n = true ↔ ((n : ℝ) : EReal) ≤ worth x := by
  unfold isFinite at h
  cases hc : content x with
  | nan => simp [hc] at h
  | infinite negative => simp [hc] at h
  | finite negative m e =>
    have hpow (k : ℕ) : pow 2 k = 2 ^ k := rfl
    have unit : (0 : ℝ) < 2 ^ (-e).toNat := by positivity
    have scaled : signed negative (m * 2 ^ e.toNat) = signed negative m * 2 ^ e.toNat := by
      cases negative <;> simp [signed]
    rw [reaches, compareWhole?, hc, worth_of_content hc, EReal.coe_le_coe_iff, two_zpow_eq,
      ← mul_div_assoc, le_div_iff₀ unit]
    simp only [hpow, Option.any_some, scaled, Nat.cast_pow, Nat.cast_ofNat]
    rw [Ordering.isGE_iff_ne_lt, compare_lt_iff_lt, not_lt]
    exact_mod_cast Iff.rfl

end PianoRoll.Number
