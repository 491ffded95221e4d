import PianoRoll.Proofs.Number.Quotient

/-!
Counting with doubles. A positive double has a whole part unless it is infinite. Adding one leads
from zero through all natural numbers up to `2 ^ 53` (`Counts.succ`) and no further: there the sum
is rounded back to where it came from (`Counts.stuck`).
-/

namespace PianoRoll.Number

open Float.Model Float.Model.UnpackedFloat

/-! ## Whole parts -/

/-- A positive number has a whole part, unless it is infinite. -/
theorem truncate_of_pos {x : Float} (hpos : 0 < worth x) (hlt : worth x < ⊤) :
    ∃ n : ℕ, truncate x = .ok n ∧ n ≤ worth x ∧ worth x < (n + 1 : ℕ) := by
  obtain ⟨m, e, h, hunpack⟩ := unpack_of_pos hpos hlt
  have hworth : worth x = ((m * 2 ^ e : ℝ) : EReal) := by rw [worth, hunpack]; rfl
  have hfloor : m * 2 ^ e.toNat / 2 ^ (-e).toNat = ⌊(m * 2 ^ e : ℝ)⌋₊ := by
    rw [two_zpow_eq, ← mul_div_assoc]
    exact_mod_cast (Nat.floor_div_eq_div (K := ℝ) (m * 2 ^ e.toNat) (2 ^ (-e).toNat)).symm
  refine ⟨⌊(m * 2 ^ e : ℝ)⌋₊, ?_, ?_, ?_⟩
  · rw [truncate, wholeBy, content_eq, hunpack, ← hfloor]
    rfl
  · rw [hworth]
    exact EReal.coe_le_coe_iff.2 (Nat.floor_le (Grid.pos h e).le)
  · rw [hworth]
    have := Nat.lt_floor_add_one (m * 2 ^ e : ℝ)
    exact_mod_cast EReal.coe_lt_coe_iff.2 this

theorem truncate_of_top {x : Float} (h : worth x = ⊤) :
    truncate x = .error .wholeOfInfinity := by
  have hx : Numeric x := numeric_of_worth_ne_zero (h ▸ EReal.top_ne_zero)
  rw [truncate, wholeBy, content_eq, hx.eq_infinity .positive h]
  rfl

/-! ## Counting -/

theorem worth_one : worth 1 = 1 := by
  have hunpack : (1 : Float).toModel.unpack = .finite .positive (2 ^ 52) (-52) (by decide) := rfl
  have hvalue : ((2 ^ 52 : ℕ) : ℝ) * 2 ^ (-52 : ℤ) = 1 := by norm_num
  rw [worth, hunpack, value, hvalue]
  rfl

/-- Whole numbers of fifty-three digits, and the next one, are points of the grid. -/
theorem fit_natCast {n : ℕ} (h : n ≤ 2 ^ 53) : fit n = n := by
  rcases h.lt_or_eq with hlt | rfl
  · simpa using fit_grid (m := n) (e := 0) hlt (by decide) (by decide)
  · have hvalue : ((2 ^ 52 : ℕ) : ℝ) * 2 ^ (1 : ℤ) = ((2 ^ 53 : ℕ) : ℝ) := by norm_num
    have hfit := fit_grid (m := 2 ^ 52) (e := 1) (by decide) (by decide) (by decide)
    rw [hvalue] at hfit
    exact hfit

theorem fit_one : fit 1 = 1 := by simpa using fit_natCast (n := 1) (by decide)

/-- Behind them every other one lies half way between two points, and is rounded back to the even
one. -/
theorem fit_absorbs : fit (2 ^ 53 + 1 : ℕ) = (2 ^ 53 : ℕ) := by
  have hlog : Int.log 2 (((2 ^ 53 + 1 : ℕ) : ℝ)) = 53 := by
    rw [Int.log_natCast]
    decide +kernel
  have hplace : place ((2 ^ 53 + 1 : ℕ) : ℝ) = 1 := by
    rw [place, hlog]
    rfl
  have hfloor : ⌊((2 ^ 53 + 1 : ℕ) : ℝ) / 2 ^ (1 : ℤ)⌋₊ = 2 ^ 52 := by
    rw [zpow_one]
    exact_mod_cast Nat.floor_div_eq_div (K := ℝ) (2 ^ 53 + 1) 2
  have hsmall : ((2 ^ 53 : ℕ) : ℝ) < 2 ^ 1024 := by
    rw [Nat.cast_pow, Nat.cast_ofNat]
    exact pow_lt_pow_right₀ one_lt_two (by decide)
  have hround : rounded ((2 ^ 53 + 1 : ℕ) : ℝ) = ((2 ^ 53 : ℕ) : ℝ) := by
    rw [rounded, hplace, nearestEven, hfloor]
    norm_num
  rw [show ((2 ^ 53 + 1 : ℕ) : EReal) = (((2 ^ 53 + 1 : ℕ) : ℝ) : EReal) from rfl,
    fit_coe (Nat.cast_nonneg _), fitted, hround, cap, if_pos hsmall]
  rfl

structure Counts (x : Float) (n : ℕ) : Prop where
  numeric : Numeric x
  worth : worth x = n

theorem counts_zero : Counts 0 0 := ⟨numeric_zero, worth_zero.trans Nat.cast_zero.symm⟩

/-- The last number that can be counted to. -/
theorem counts_last : Counts 9007199254740992 (2 ^ 53) := by
  have hunpack : (9007199254740992 : Float).toModel.unpack =
      .finite .positive (2 ^ 52) 1 (by decide) := rfl
  have hvalue : ((2 ^ 52 : ℕ) : ℝ) * 2 ^ (1 : ℤ) = ((2 ^ 53 : ℕ) : ℝ) := by norm_num
  have hworth : worth 9007199254740992 = (2 ^ 53 : ℕ) := by
    rw [worth, hunpack, value, hvalue]
    rfl
  exact ⟨numeric_of_worth_ne_zero (hworth ▸ Nat.cast_ne_zero.2 (by decide)), hworth⟩

theorem Counts.add_one {x : Float} {n : ℕ} (h : Counts x n) :
    Numeric (x + 1) ∧ Number.worth (x + 1) = fit (n + 1 : ℕ) := by
  have hone : Numeric 1 := numeric_of_worth_ne_zero (worth_one ▸ one_ne_zero)
  have apart : ¬ Opposite (Number.worth x) (Number.worth 1) := by
    rw [h.worth, worth_one]
    exact not_opposite_of_nonneg (by exact_mod_cast Nat.zero_le n) zero_le_one
  refine ⟨numeric_add h.numeric hone apart, ?_⟩
  rw [worth_add h.numeric hone apart, h.worth, worth_one, Nat.cast_succ]

/-- Counting on leads from one number of fifty-three digits to the next. -/
theorem Counts.succ {x : Float} {n : ℕ} (h : Counts x n) (hn : n < 2 ^ 53) :
    Counts (x + 1) (n + 1) :=
  ⟨h.add_one.1, h.add_one.2.trans (fit_natCast hn)⟩

/-- Behind them it leads nowhere. -/
theorem Counts.stuck {x : Float} (h : Counts x (2 ^ 53)) : Counts (x + 1) (2 ^ 53) :=
  ⟨h.add_one.1, h.add_one.2.trans fit_absorbs⟩

end PianoRoll.Number
