import PianoRoll.Proofs.Number.Error
import PianoRoll.Proofs.Piano.Keys
import PianoRoll.Proofs.Piano.Shares

/-!
The gaps between keys. If each white key gets four pixels, a key ends before the next one of its
colour begins, both edges counted in. White keys leave no more than their one pixel to the next
(`Shared.white_gap`): they stand apart because what is rounded up to a whole number stays there when
whole numbers are added. Black keys leave more than a pixel, and rounding moves them by less
(`Shared.black_gap`). All keys begin inside the width.
-/

namespace PianoRoll.Layout

open Number

/-- A black key on the white key with so many white keys to its left. -/
structure BlackAt (left whiteWidth : Float) (index : ℕ) (k : PianoKey) : Prop where
  black : k.black = true
  x : truncate (left + ofWhole index * whiteWidth + whiteWidth * 0.7) = .ok k.x
  w : truncate (whiteWidth * 0.6) = .ok k.w

theorem blackAt_of_keyAt {left whiteWidth : Float} {index : ℕ} {p : Int} {k : PianoKey}
    (h : isBlack p = true) (hk : keyAt left whiteWidth index p = .ok k) :
    BlackAt left whiteWidth (index - 1) k := by
  have black := keyAt_black h hk
  rw [keyAt, if_pos h] at hk
  obtain ⟨x, hx, hk⟩ := ok_of_bind hk
  obtain ⟨w, hw, hk⟩ := ok_of_bind hk
  cases hk
  exact ⟨black, hx, hw⟩

/-- The shares by which black keys are moved and narrowed. -/
theorem near_black_shares : ∃ inset narrow : ℝ, Near 0 0.7 inset ∧ Near 0 0.6 narrow ∧
    0.69 ≤ inset ∧ inset ≤ 0.71 ∧ 0.59 ≤ narrow ∧ narrow ≤ 0.61 := by
  have inset : content 0.7 = .finite false 6305039478318694 (-53) := by decide +kernel
  have narrow : content 0.6 = .finite false 5404319552844595 (-53) := by decide +kernel
  have numeric {x : Float} (h : isFinite x = true) : Numeric x := (worth_finite h).1
  refine ⟨_, _, .of_worth (numeric (by decide +kernel)) (worth_of_content inset),
    .of_worth (numeric (by decide +kernel)) (worth_of_content narrow), ?_⟩
  simp only [signed]
  norm_num

/-- White keys that get four pixels each at least, and the share of each as a real number. -/
structure Roomy (width : Int) (n : ℕ) (x : Float) (w : ℝ) : Prop where
  shared : Shared width n x
  worth : worth x = w
  four_le : 4 ≤ w
  total : n * w ≤ width + 1 / 2 ^ 19

namespace Shared

variable {width : Int} {n : ℕ} {x : Float} (h : Shared width n x)
include h

theorem exists_roomy (wide : 4 * n ≤ width) : ∃ w, Roomy width n x w := by
  have pos : (0 : ℝ) < n := by exact_mod_cast h.some
  have wide' : (4 * n : ℝ) ≤ width := by exact_mod_cast wide
  have lt : (width : ℝ) ≤ 2 ^ 31 := by exact_mod_cast h.lt.le
  have four : 4 ≤ (width : ℝ) / n := (le_div_iff₀ pos).2 wide'
  have most : (width : ℝ) / n ≤ 2 ^ 31 := by
    have one : (1 : ℝ) ≤ n := by exact_mod_cast h.some
    exact (div_le_self (by linarith) one).trans lt
  obtain ⟨w, fits, close⟩ := fit_close (k := 31) (by decide) (r := (width : ℝ) / n)
    (by rwa [abs_of_nonneg (by linarith)])
  refine ⟨w, h, h.worth.trans fits, ?_, ?_⟩
  · have low : ((4 : ℕ) : EReal) ≤ fit ((width / n : ℝ) : EReal) := by
      rw [← fit_natCast (n := 4) (by decide)]
      exact fit_mono (EReal.coe_le_coe_iff.2 four)
    exact EReal.coe_le_coe_iff.1 (low.trans_eq fits)
  · rw [abs_of_nonneg (by linarith : 0 ≤ (width : ℝ) / n)] at close
    have up := (abs_le.1 close).2
    have scaled : n * (w - width / n) ≤ n * ((width / n + 1) / 2 ^ 53) := by gcongr
    have shares : n * (width / n : ℝ) = width := mul_div_cancel₀ _ pos.ne'
    have error : n * ((width / n + 1) / 2 ^ 53 : ℝ) = (width + n) / 2 ^ 53 := by
      rw [← mul_div_assoc, mul_add, shares, mul_one]
    have tiny : ((width : ℝ) + n) / 2 ^ 53 ≤ 1 / 2 ^ 19 := by
      rw [div_le_div_iff₀ (by positivity) (by positivity)]
      linarith
    linarith

end Shared

namespace Roomy

variable {width : Int} {n : ℕ} {x : Float} {w : ℝ} (h : Roomy width n x w)
include h

/-- No key begins further to the right than all shares together reach. -/
theorem shares_le {j : ℕ} (hj : j ≤ n) : 0 ≤ j * w ∧ j * w ≤ 2 ^ 31 + 1 := by
  have four := h.four_le
  have total := h.total
  have lt : (width : ℝ) ≤ 2 ^ 31 := by exact_mod_cast h.shared.lt.le
  have most : j * w ≤ n * w := by gcongr
  exact ⟨by positivity, by linarith⟩

theorem edge {j : ℕ} (hj : j ≤ n) : Near (1 / 2 ^ 19) (0 + ofWhole j * x) (j * w) ∧
    Number.worth (0 + ofWhole j * x) = fit ((j * w : ℝ) : EReal) := by
  obtain ⟨numeric, edge⟩ := h.shared.worth_edge hj
  obtain ⟨nonneg, small⟩ := h.shares_le hj
  have product : (j : EReal) * Number.worth x = ((j * w : ℝ) : EReal) := by
    rw [h.worth, EReal.coe_mul]
    rfl
  rw [product] at edge
  obtain ⟨e, fits, close⟩ := Near.fit_close_of_le (q := j * w)
    (by rw [abs_of_nonneg nonneg]; linarith)
  exact ⟨⟨numeric, e, edge.trans fits, close⟩, edge⟩

/-! ## White keys -/

/-- A white key begins with the whole part of its rounded edge. -/
theorem white_place {j : ℕ} (hj : j ≤ n) {k : PianoKey} (hk : WhiteAt 0 x j k) :
    ∃ m : ℕ, k.x = m ∧ m ≤ fit ((j * w : ℝ) : EReal) ∧
      fit ((j * w : ℝ) : EReal) < (m + 1 : ℕ) ∧ m ≤ j * w + 1 / 2 ^ 19 := by
  obtain ⟨near, edge⟩ := h.edge hj
  obtain ⟨nonneg, -⟩ := h.shares_le hj
  have positive : 0 ≤ 0 + ofWhole j * x := by
    rw [le_iff numeric_zero near.numeric, worth_zero, edge]
    exact fit_nonneg (EReal.coe_nonneg.2 nonneg)
  obtain ⟨m, hm, low, high⟩ := truncate_of_nonneg positive near.isFinite
  obtain ⟨e, eq, close⟩ := near.close
  have most : (m : ℝ) ≤ e := EReal.coe_le_coe_iff.1 (low.trans_eq eq)
  rw [edge] at low high
  refine ⟨m, Except.ok.inj (hk.x.symm.trans hm), low, high, ?_⟩
  linarith [(abs_le.1 close).2]

/-- With the pixel behind it a white key is no wider than its share. -/
theorem white_width_le {j : ℕ} {k : PianoKey} (hk : WhiteAt 0 x j k) :
    ∃ d : ℕ, k.w = d ∧ d + 1 ≤ 2 ^ 31 ∧ ((d + 1 : ℕ) : ℝ) ≤ w := by
  obtain ⟨d, narrow, fits⟩ := h.shared.white_width
  have some : (1 : Int) ≤ n := by exact_mod_cast h.shared.some
  have few : d + 1 ≤ 2 ^ 31 := by
    have alone : ((d : Int) + 1) ≤ n * (d + 1) := le_mul_of_one_le_left (by positivity) some
    have lt := h.shared.lt
    omega
  refine ⟨d, Except.ok.inj (hk.w.symm.trans narrow), few, ?_⟩
  have pos : (0 : ℝ) < n := by exact_mod_cast h.shared.some
  have fits' : ((n * (d + 1) : Int) : ℝ) ≤ width := by exact_mod_cast fits
  have quotient : ((d + 1 : ℕ) : ℝ) ≤ width / n := by
    rw [le_div_iff₀ pos]
    push_cast at fits' ⊢
    linarith
  have rounded := fit_mono (EReal.coe_le_coe_iff.2 quotient)
  rw [← h.shared.worth, h.worth] at rounded
  exact EReal.coe_le_coe_iff.1 ((fit_natCast (n := d + 1) (by omega)).symm.trans_le rounded)

/-- A white key begins behind the last column of the ones before. -/
theorem white_gap {j j' : ℕ} (lt : j < j') (hj : j' ≤ n) {k k' : PianoKey} (hk : WhiteAt 0 x j k)
    (hk' : WhiteAt 0 x j' k') : k.x + k.w < k'.x := by
  obtain ⟨m, place, low, -, most⟩ := h.white_place (by omega) hk
  obtain ⟨m', place', -, high, -⟩ := h.white_place hj hk'
  obtain ⟨d, width_eq, few, share⟩ := h.white_width_le hk
  obtain ⟨nonneg, small⟩ := h.shares_le (lt.le.trans hj)
  have between : ((d + 1 : ℕ) : ℝ) ≤ (j' - j : ℝ) * w := by
    have one : (1 : ℝ) ≤ j' - j := by
      have : ((j + 1 : ℕ) : ℝ) ≤ j' := by exact_mod_cast lt
      push_cast at this
      linarith
    have four := h.four_le
    nlinarith
  have sum : m + (d + 1) ≤ 2 ^ 52 := by
    have : (m : ℝ) ≤ (2 ^ 33 : ℕ) := by
      push_cast
      linarith
    have : m ≤ 2 ^ 33 := by exact_mod_cast this
    omega
  have step := natCast_add_le_fit nonneg low between sum
  rw [show j * w + (j' - j) * w = j' * w by ring] at step
  have behind : m + (d + 1) < m' + 1 := Nat.cast_lt.1 (step.trans_lt high)
  omega

/-! ## Black keys -/

/-- The place and the width of a black key, but for the errors of rounding. -/
theorem exists_black_places : ∃ inset narrow : ℝ, 0.69 * w ≤ inset ∧ inset ≤ 0.71 * w ∧
    0.59 * w ≤ narrow ∧ narrow ≤ 0.61 * w ∧ ∀ i ≤ n, ∀ k, BlackAt 0 x i k →
      ∃ a b : ℕ, k.x = a ∧ k.w = b ∧ a ≤ i * w + inset + 1 / 2 ^ 17 ∧
        i * w + inset < a + 1 + 1 / 2 ^ 17 ∧ b ≤ narrow + 1 / 2 ^ 17 := by
  obtain ⟨c, c', near, near', low, high, low', high'⟩ := near_black_shares
  have four := h.four_le
  have share : Near 0 x w := .of_worth h.shared.numeric h.worth
  have one : w ≤ 2 ^ 31 + 1 := by
    have := (h.shares_le h.shared.some).2
    rwa [Nat.cast_one, one_mul] at this
  have part {c : ℝ} (pos : 0 ≤ c) (le : c ≤ 1) : |w * c| ≤ 2 ^ 31 + 1 := by
    rw [abs_of_nonneg (by positivity)]
    nlinarith
  have inset := share.mul near ((part (by linarith) (by linarith)).trans (by norm_num))
  have narrow := share.mul near' ((part (by linarith) (by linarith)).trans (by norm_num))
  refine ⟨w * c, w * c', by nlinarith, by nlinarith, by nlinarith, by nlinarith,
    fun i hi k hk => ?_⟩
  obtain ⟨nonneg, most⟩ := h.shares_le hi
  have inset_le := (abs_le.1 (part (c := c) (by linarith) (by linarith))).2
  have sum := (h.edge hi).1.add inset (by
    rw [abs_of_nonneg (by positivity)]
    linarith)
  obtain ⟨a, ha, left, right⟩ := sum.truncate (by nlinarith)
  obtain ⟨b, hb, least, -⟩ := narrow.truncate (by nlinarith)
  exact ⟨a, b, Except.ok.inj (hk.x.symm.trans ha), Except.ok.inj (hk.w.symm.trans hb),
    by linarith, by linarith, by linarith⟩

/-- A black key begins behind the last column of the ones before. -/
theorem black_gap {i i' : ℕ} (lt : i < i') (hi : i' ≤ n) {k k' : PianoKey} (hk : BlackAt 0 x i k)
    (hk' : BlackAt 0 x i' k') : k.x + k.w < k'.x := by
  obtain ⟨inset, narrow, -, -, -, slim, places⟩ := h.exists_black_places
  obtain ⟨a, b, place, width_eq, high, -, wide⟩ := places i (by omega) k hk
  obtain ⟨a', -, place', -, -, low, -⟩ := places i' hi k' hk'
  have four := h.four_le
  have next : i * w + w ≤ i' * w := by
    have : ((i + 1 : ℕ) : ℝ) ≤ i' := by exact_mod_cast lt
    push_cast at this
    nlinarith
  have behind : ((a + b : ℕ) : ℝ) < a' := by
    push_cast
    linarith
  have : a + b < a' := by exact_mod_cast behind
  omega

/-! ## The window -/

/-- Behind the edge of a white key there is room for its share. -/
theorem share_left {j : ℕ} (hj : j < n) : j * w + w ≤ width + 1 / 2 ^ 19 := by
  have four := h.four_le
  have next : ((j + 1 : ℕ) : ℝ) ≤ n := by exact_mod_cast hj
  have total := h.total
  push_cast at next
  nlinarith

theorem white_inside {j : ℕ} (hj : j < n) {k : PianoKey} (hk : WhiteAt 0 x j k) :
    0 ≤ k.x ∧ k.x < width ∧ 0 ≤ k.w := by
  obtain ⟨m, place, -, -, most⟩ := h.white_place hj.le hk
  obtain ⟨d, width_eq, -⟩ := h.white_width_le hk
  have room := h.share_left hj
  have inside : (m : ℝ) < width := by linarith [h.four_le]
  have : (m : Int) < width := by exact_mod_cast inside
  omega

theorem black_inside {i : ℕ} (hi : i < n) {k : PianoKey} (hk : BlackAt 0 x i k) :
    0 ≤ k.x ∧ k.x < width ∧ 0 ≤ k.w := by
  obtain ⟨inset, narrow, -, inset_le, -, -, places⟩ := h.exists_black_places
  obtain ⟨a, b, place, width_eq, high, -⟩ := places i hi.le k hk
  have room := h.share_left hi
  have inside : (a : ℝ) < width := by linarith [h.four_le]
  have : (a : Int) < width := by exact_mod_cast inside
  omega

end Roomy

end PianoRoll.Layout
