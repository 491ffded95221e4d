import PianoRoll.Proofs.Number.Bounds
import PianoRoll.Layout

/-!
The share of a white key. All white keys get the same share of a width, as a double, and each leaves
a pixel of it free. The whole part of what is left is never too large for the keys to stand side by
side (`Shared.white_width`), and if there is no remainder they do so with just that pixel between
neighbours (`Shared.width_exact`, `Shared.edge_exact`).
-/

namespace PianoRoll.Layout

open Number

/-- A width in pixels that white keys share, at least a pixel for each. -/
structure Shared (width : Int) (n : ℕ) (x : Float) : Prop where
  some : 0 < n
  le : n ≤ width
  lt : width < 2 ^ 31
  found : quotient width n = .ok x

namespace Shared

variable {width : Int} {n : ℕ} {x : Float} (h : Shared width n x)
include h

theorem worth : worth x = fit (((width : ℝ) / n : ℝ) : EReal) := by
  obtain ⟨some, le, lt, found⟩ := h
  have small : width.natAbs.log2 < 31 := (Nat.log2_lt (by omega)).2 (by omega)
  exact worth_quotient_of_log2 (by omega) (by omega) (by omega) found

theorem numeric : Numeric x := (worth_finite (isFinite_of_quotient h.found)).1

theorem bounded : Bounded 31 x := by
  refine ⟨h.numeric, ?_⟩
  rw [h.worth]
  have some : (1 : ℝ) ≤ n := by exact_mod_cast h.some
  have nonneg : (0 : ℝ) ≤ width := by exact_mod_cast le_trans (Nat.cast_nonneg n) h.le
  have lt : (width : ℝ) ≤ 2 ^ 31 := by exact_mod_cast h.lt.le
  refine fit_near (by decide) ?_
  rw [abs_of_nonneg (by positivity)]
  exact (div_le_self nonneg some).trans lt

theorem one_le_worth : 1 ≤ Number.worth x := by
  rw [h.worth, ← fit_one]
  refine fit_mono (EReal.coe_le_coe_iff.2 ((one_le_div (by exact_mod_cast h.some)).2 ?_))
  exact_mod_cast h.le

/-- The share of a white key without the pixel that is left free. -/
theorem sub_one : Bounded 32 (x - 1) ∧ 0 ≤ x - 1 ∧
    Number.worth (x - 1) = fit (Number.worth x - 1) := by
  have one : Bounded 0 1 := bounded_unit (by decide +kernel) (by decide +kernel)
  have bounded := h.bounded.sub (one.mono (by decide)) (by decide)
  have apart := not_opposite_of_finite h.bounded.isFinite (-Number.worth 1)
  have worth_eq := worth_sub h.numeric one.numeric apart
  rw [worth_one] at worth_eq
  refine ⟨bounded, (le_iff numeric_zero bounded.numeric).2 ?_, worth_eq⟩
  rw [worth_zero, worth_eq]
  exact fit_nonneg ((EReal.sub_nonneg (.inr (EReal.coe_ne_top 1)) (.inr (EReal.coe_ne_bot 1))).2
    h.one_le_worth)

/-- A share is below the next whole number by a part that doubles can tell: at least a pixel is
missing, and all keys have their part of it. -/
theorem worth_le_below {q : ℕ} (low : n * q ≤ width) (high : width < n * (q + 1)) :
    ∃ j, (q + 1) * 2 ^ j ≤ 2 ^ 53 ∧
      Number.worth x ≤ (((q + 1 : ℕ) - (2 ^ j)⁻¹ : ℝ) : EReal) := by
  have some : n ≠ 0 := h.some.ne'
  have digits : (q + 1) * 2 ^ (n.log2 + 1) ≤ 2 ^ 53 := by
    have le := h.le
    have lt := h.lt
    calc (q + 1) * 2 ^ (n.log2 + 1) = 2 * ((q + 1) * 2 ^ n.log2) := by ring
      _ ≤ 2 * ((q + 1) * n) := by gcongr; exact Nat.log2_self_le some
      _ = 2 * (n * q + n) := by ring
      _ ≤ 2 ^ 53 := by omega
  have place : (n : ℝ) ≤ 2 ^ (n.log2 + 1) := by exact_mod_cast Nat.lt_log2_self.le
  have pos : (0 : ℝ) < n := by exact_mod_cast h.some
  have rest : (width : ℝ) ≤ n * (q + 1 : ℕ) - 1 := by
    have le : width ≤ n * (q + 1 : ℕ) - 1 := by push_cast; omega
    exact_mod_cast le
  have exact_le : (width : ℝ) / n ≤ (q + 1 : ℕ) - (2 ^ (n.log2 + 1))⁻¹ := by
    calc (width : ℝ) / n ≤ (n * (q + 1 : ℕ) - 1) / n := by gcongr
      _ = (q + 1 : ℕ) - (n : ℝ)⁻¹ := by field_simp
      _ ≤ (q + 1 : ℕ) - (2 ^ (n.log2 + 1))⁻¹ := by gcongr
  exact ⟨n.log2 + 1, digits, h.worth ▸ fit_le_below digits q.succ_pos exact_le⟩

/-- The whole pixels of a share. -/
theorem exists_pixels : ∃ q : ℕ, 0 < q ∧ n * q ≤ width ∧ width < n * (q + 1) := by
  have some : (0 : Int) < n := by exact_mod_cast h.some
  obtain ⟨q, hq⟩ := Int.eq_ofNat_of_zero_le (Int.ediv_nonneg (some.le.trans h.le) some.le)
  have least : 1 ≤ width / n := (Int.le_ediv_iff_mul_le some).2 (by rw [one_mul]; exact h.le)
  refine ⟨q, by omega, ?_, ?_⟩
  · rw [← hq]
    exact Int.mul_ediv_self_le some.ne'
  · rw [← hq, mul_add, mul_one]
    exact Int.lt_mul_ediv_self_add some

/-- White keys are so narrow that they fit beside each other with a free pixel behind each. -/
theorem white_width : ∃ w : ℕ, truncate (x - 1) = .ok w ∧ n * (w + 1) ≤ width := by
  obtain ⟨bounded, nonneg, worth_eq⟩ := h.sub_one
  obtain ⟨w, hw, le, -⟩ := truncate_of_nonneg nonneg bounded.isFinite
  obtain ⟨q, pos, low, high⟩ := h.exists_pixels
  obtain ⟨j, digits, below⟩ := h.worth_le_below low high
  have short : Number.worth x - 1 ≤ ((q - (2 ^ j)⁻¹ : ℝ) : EReal) := by
    have less : ((q + 1 : ℕ) - (2 ^ j)⁻¹ : ℝ) - 1 = q - (2 ^ j)⁻¹ := by
      push_cast
      ring
    rw [← less, EReal.coe_sub, EReal.coe_one]
    exact EReal.sub_le_sub below le_rfl
  -- the share and what is left of it are both rounded, and both keep their distance
  have narrow : (w : EReal) < (q : ℕ) := by
    calc (w : EReal) ≤ Number.worth (x - 1) := le
      _ = fit (Number.worth x - 1) := worth_eq
      _ ≤ fit ((q - (2 ^ j)⁻¹ : ℝ) : EReal) := fit_mono short
      _ ≤ ((q - (2 ^ j)⁻¹ : ℝ) : EReal) := fit_le_below (by nlinarith) pos le_rfl
      _ < (q : ℕ) := EReal.coe_lt_coe_iff.2 (by simp)
  have fits : w + 1 ≤ q := Nat.cast_lt.1 narrow
  exact ⟨w, hw, le_trans (mul_le_mul_of_nonneg_left (by exact_mod_cast fits) n.cast_nonneg) low⟩

/-- The left edge of a white key is the rounded sum of the shares to its left. -/
theorem worth_edge {j : ℕ} (hj : j ≤ n) : Numeric (0 + ofWhole j * x) ∧
    Number.worth (0 + ofWhole j * x) = fit ((j : EReal) * Number.worth x) := by
  have small : (j : Int).natAbs ≤ 2 ^ 53 := by
    have le := h.le
    have lt := h.lt
    omega
  have count : Number.worth (ofWhole j) = (j : ℕ) := (worth_ofWhole small).2
  have numeric := numeric_mul (isFinite_ofWhole small) h.bounded.isFinite
  have product : Number.worth (ofWhole j * x) = fit ((j : EReal) * Number.worth x) := by
    rw [worth_mul, count]
  have apart := not_opposite_of_finite (by decide +kernel : isFinite 0 = true)
    (Number.worth (ofWhole j * x))
  refine ⟨numeric_add numeric_zero numeric apart, ?_⟩
  rw [worth_add numeric_zero numeric apart, worth_zero, zero_add, ← product]
  exact Valued.fit_value numeric

/-! ## Shares without a remainder -/

section Exact

variable {q : ℕ} (hq : width = n * q)
include hq

theorem pixels_bounds : 0 < q ∧ q ≤ n * q ∧ n * q < 2 ^ 31 := by
  have some := h.some
  have le := h.le
  have lt := h.lt
  rw [hq] at le lt
  exact ⟨Nat.pos_of_mul_pos_left (some.trans_le (by exact_mod_cast le)),
    Nat.le_mul_of_pos_left q some, by exact_mod_cast lt⟩

theorem worth_exact : Number.worth x = (q : ℕ) := by
  obtain ⟨-, le, lt⟩ := h.pixels_bounds hq
  have some := h.some
  have quotient : (width : ℝ) / n = q := by
    rw [hq]
    push_cast
    field_simp
  rw [h.worth, quotient]
  exact fit_natCast (by omega)

/-- A white key is one pixel narrower than its share. -/
theorem width_exact : truncate (x - 1) = .ok (q - 1 : ℕ) := by
  obtain ⟨bounded, -, worth_eq⟩ := h.sub_one
  obtain ⟨pos, le, lt⟩ := h.pixels_bounds hq
  obtain ⟨k, rfl⟩ : ∃ k, q = k + 1 := Nat.exists_eq_succ_of_ne_zero pos.ne'
  have less : ((k + 1 : ℕ) : EReal) - 1 = (k : ℕ) := by
    rw [Nat.cast_succ]
    exact EReal.add_sub_cancel_right (b := 1)
  refine truncate_of_worth_natCast bounded.numeric ?_
  rw [worth_eq, h.worth_exact hq, less, Nat.add_sub_cancel]
  exact fit_natCast (by omega)

/-- A white key begins behind the shares of the keys to its left. -/
theorem edge_exact {j : ℕ} (hj : j < n) : truncate (0 + ofWhole j * x) = .ok (j * q : ℕ) := by
  have near : j * q ≤ 2 ^ 53 := by
    have le : j * q ≤ n * q := Nat.mul_le_mul_right q hj.le
    have lt := (h.pixels_bounds hq).2.2
    omega
  obtain ⟨numeric, edge⟩ := h.worth_edge hj.le
  refine truncate_of_worth_natCast numeric ?_
  rw [edge, h.worth_exact hq, ← EReal.natCast_mul]
  exact fit_natCast near

end Exact

end Shared

end PianoRoll.Layout
