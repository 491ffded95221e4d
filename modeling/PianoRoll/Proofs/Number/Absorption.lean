import PianoRoll.Proofs.Number.Quotient

/-!
Sums that get lost. What is added to a double leads on to a larger one if it is longer than half of
the gap behind it, or just half of it where the last digit is odd (`lt_add_iff`); a shorter step is
absorbed. A sum is finite unless it reaches the point halfway between the largest double and the
next power of two (`isFinite_add_iff`).
-/

namespace PianoRoll.Number

open Float.Model Float.Model.UnpackedFloat

/-! ## Between two points of the grid -/

/-- From a point of the grid to the next one the last place stays. -/
theorem Grid.place_eq {m : ℕ} {e : ℤ} (grid : Grid m e) {x : ℝ} (hx : 0 < x)
    (hlo : m ≤ x / 2 ^ e) (hhi : x / 2 ^ e < m + 1) : place x = e := by
  rcases grid.full with hfull | rfl
  · have hlog := log_eq_of_floor (Nat.zero_lt_of_lt hfull) hlo hhi
    have hbits : m.log2 = 52 := (Nat.log2_eq_iff (by omega)).2 ⟨hfull, grid.digits⟩
    have := grid.least
    unfold place
    omega
  · have hsmall : x < 2 ^ (-1021 : ℤ) := by
      have hm : (m : ℝ) + 1 ≤ 2 ^ 53 := by exact_mod_cast grid.digits
      calc x < (m + 1) * 2 ^ (-1074 : ℤ) := (div_lt_iff₀ (two_zpow_pos _)).1 hhi
        _ ≤ 2 ^ 53 * 2 ^ (-1074 : ℤ) := mul_le_mul_of_nonneg_right hm (two_zpow_pos _).le
        _ = 2 ^ (-1021 : ℤ) := by
          rw [← zpow_natCast, ← zpow_add₀ two_ne_zero]
          rfl
    have hlog : Int.log 2 x < -1021 := (Int.lt_zpow_iff_log_lt one_lt_two hx).1 hsmall
    unfold place
    omega

/-- A part of the way from a natural number to the next one is rounded by its length. -/
theorem nearestEven_add (m : ℕ) {f : ℝ} (hf : 0 ≤ f) (hf' : f < 1) :
    nearestEven (m + f) = if f < 1 / 2 then m else if 1 / 2 < f then m + 1 else m + m % 2 := by
  have hfloor : ⌊(m : ℝ) + f⌋₊ = m :=
    (Nat.floor_eq_iff (add_nonneg (Nat.cast_nonneg m) hf)).2 ⟨by linarith, by linarith⟩
  rw [nearestEven, hfloor, add_sub_cancel_left]

theorem Grid.rounded_add {m : ℕ} {e : ℤ} (grid : Grid m e) {s : ℝ} (hs : 0 < s)
    (hs' : s < 2 ^ e) : rounded (m * 2 ^ e + s) = nearestEven (m + s / 2 ^ e) * 2 ^ e := by
  have hu := two_zpow_pos e
  have hquot : (m * 2 ^ e + s) / 2 ^ e = m + s / 2 ^ e := by
    rw [add_div, mul_div_cancel_right₀ _ hu.ne']
  have hpos : (0 : ℝ) < m * 2 ^ e + s := add_pos_of_nonneg_of_pos (by positivity) hs
  have hplace : place (m * 2 ^ e + s) = e := by
    refine grid.place_eq hpos ?_ ?_ <;> rw [hquot]
    · exact le_add_of_nonneg_right (div_nonneg hs.le hu.le)
    · exact add_lt_add_right ((div_lt_one hu).2 hs') _
  rw [rounded, hplace, hquot]

/-- The next point of the grid stays as it is. -/
theorem Grid.rounded_succ {m : ℕ} {e : ℤ} (grid : Grid m e) :
    rounded ((m + 1 : ℕ) * 2 ^ e) = (m + 1 : ℕ) * 2 ^ e := by
  rcases Nat.lt_or_eq_of_le (Nat.succ_le_of_lt grid.digits) with hlt | heq
  · exact rounded_grid hlt grid.least
  · have hcarry : ((m + 1 : ℕ) : ℝ) * 2 ^ e = (2 ^ 52 : ℕ) * 2 ^ (e + 1) := by
      rw [show m + 1 = 2 ^ 53 from heq, zpow_add_one₀ two_ne_zero]
      push_cast
      ring
    rw [hcarry]
    exact rounded_grid (by decide) (grid.least.trans (by omega))

/-- What is added to a point of the grid leads behind it if it is longer than half of the way to the
next one; just half of it leads to the even one of both. -/
theorem Grid.lt_rounded_add_iff {m : ℕ} {e : ℤ} (grid : Grid m e) {s : ℝ} (hs : 0 < s) :
    m * 2 ^ e < rounded (m * 2 ^ e + s) ↔ 2 ^ (e - 1) < s ∨ 2 ^ (e - 1) = s ∧ m % 2 = 1 := by
  have hu := two_zpow_pos e
  have hhalf : (2 : ℝ) ^ (e - 1) = 1 / 2 * 2 ^ e := by
    rw [zpow_sub_one₀ two_ne_zero]
    ring
  rcases lt_or_ge s (2 ^ e) with hlt | hge
  · rw [grid.rounded_add hs hlt, mul_lt_mul_iff_of_pos_right hu, Nat.cast_lt,
      nearestEven_add m (div_nonneg hs.le hu.le) ((div_lt_one hu).2 hlt), hhalf]
    rcases lt_trichotomy (1 / 2 * 2 ^ e) s with h | h | h
    · have hf : 1 / 2 < s / 2 ^ e := (lt_div_iff₀ hu).2 h
      rw [if_neg hf.not_gt, if_pos hf]
      exact iff_of_true (Nat.lt_succ_self m) (.inl h)
    · have hf : s / 2 ^ e = 1 / 2 := by rw [← h, mul_div_cancel_right₀ _ hu.ne']
      rw [hf, if_neg (lt_irrefl _), if_neg (lt_irrefl _)]
      refine ⟨fun hm => .inr ⟨h, by omega⟩, ?_⟩
      rintro (h' | ⟨-, hodd⟩)
      · exact absurd h h'.ne
      · omega
    · have hf : s / 2 ^ e < 1 / 2 := (div_lt_iff₀ hu).2 h
      rw [if_pos hf]
      refine iff_of_false (Nat.lt_irrefl m) ?_
      rintro (h' | ⟨h', -⟩)
      · exact h'.not_gt h
      · exact h.ne' h'
  · -- the next point of the grid lies on the way
    have hnext : ((m + 1 : ℕ) : ℝ) * 2 ^ e ≤ rounded (m * 2 ^ e + s) := by
      rw [← grid.rounded_succ]
      refine rounded_mono (by positivity) ?_
      rw [Nat.cast_succ, add_one_mul]
      exact add_le_add_right hge _
    have hstep : (m : ℝ) * 2 ^ e < (m + 1 : ℕ) * 2 ^ e :=
      mul_lt_mul_of_pos_right (Nat.cast_lt.2 (Nat.lt_succ_self m)) hu
    refine iff_of_true (hstep.trans_le hnext) (.inl (lt_of_lt_of_le ?_ hge))
    rw [hhalf]
    linarith

/-! ## Beyond the largest double -/

/-- The largest double, in units of its last place. -/
theorem grid_largest : Grid (2 ^ 53 - 1) 971 := ⟨by decide, by decide, .inl (by decide)⟩

theorem cap_lt_top_iff {r : ℝ} : cap r < ⊤ ↔ r < 2 ^ 1024 := by
  unfold cap
  split_ifs with h
  · exact iff_of_true (EReal.coe_lt_top _) h
  · exact iff_of_false (lt_irrefl _) h

/-- Half a place behind the largest double numbers begin to be too large. -/
theorem fitted_lt_top_iff {x : ℝ} (hx : 0 ≤ x) : fitted x < ⊤ ↔ x < 2 ^ 1024 - 2 ^ 970 := by
  -- all numbers of the proof in units of the last place
  obtain ⟨u, hu⟩ : ∃ u : ℝ, u = 2 ^ (971 : ℤ) := ⟨_, rfl⟩
  have hpos : 0 < u := hu ▸ two_zpow_pos 971
  have hpower : (2 : ℝ) ^ 1024 = 2 ^ 53 * u := by
    rw [hu]
    exact pow_add 2 53 971
  have hhalf : (2 : ℝ) ^ 970 = u / 2 := by
    rw [hu, eq_div_iff two_ne_zero]
    exact (pow_succ 2 970).symm
  have hdigits : ((2 ^ 53 - 1 : ℕ) : ℝ) = 2 ^ 53 - 1 := by norm_num
  have largest : rounded ((2 ^ 53 - 1) * u) = (2 ^ 53 - 1) * u := by
    rw [hu, ← hdigits]
    exact rounded_grid grid_largest.digits grid_largest.least
  have add {s : ℝ} (hs : 0 < s) (hs' : s < u) :
      rounded ((2 ^ 53 - 1) * u + s) = nearestEven ((2 ^ 53 - 1 : ℕ) + s / u) * u := by
    rw [hu, ← hdigits]
    exact grid_largest.rounded_add hs (hu ▸ hs')
  have even {f : ℝ} (hf : 0 ≤ f) (hf' : f < 1) := nearestEven_add (2 ^ 53 - 1) hf hf'
  rw [fitted, cap_lt_top_iff, hpower, hhalf]
  clear hpower hhalf hu
  constructor
  · intro hsmall
    by_contra hge
    have halfway : rounded ((2 ^ 53 - 1) * u + u / 2) = 2 ^ 53 * u := by
      have hf : u / 2 / u = 1 / 2 := by rw [div_right_comm, div_self hpos.ne']
      rw [add (by linarith) (by linarith), hf, even (by norm_num) (by norm_num),
        if_neg (lt_irrefl _), if_neg (lt_irrefl _)]
      norm_num
    have hle : rounded ((2 ^ 53 - 1) * u + u / 2) ≤ rounded x :=
      rounded_mono (by linarith) (by linarith)
    linarith
  · intro hlt
    rcases le_or_gt x ((2 ^ 53 - 1) * u) with hle | hgt
    · have := rounded_mono hx hle
      linarith
    · obtain ⟨s, rfl⟩ : ∃ s, x = (2 ^ 53 - 1) * u + s := ⟨x - (2 ^ 53 - 1) * u, by ring⟩
      have hf : s / u < 1 / 2 := (div_lt_iff₀ hpos).2 (by linarith)
      rw [add (by linarith) (by linarith), even (div_nonneg (by linarith) hpos.le) (by linarith),
        if_pos hf, hdigits]
      linarith

/-! ## Doubles -/

/-- A step is felt by what it is added to: it is longer than half of the gap behind it, or just half
of it where the last digit is odd. -/
inductive Felt (x step : Float) : Prop
  | longer {negative : Bool} {m : Nat} {e : Int} (holds : content x = .finite negative m e)
    (more : ((2 ^ (e - 1) : ℝ) : EReal) < worth step)
  | even {negative : Bool} {m : Nat} {e : Int} (holds : content x = .finite negative m e)
    (half : ((2 ^ (e - 1) : ℝ) : EReal) = worth step) (odd : m % 2 = 1)

/-- The exact sum is nearer to a double than to the first power of two that is too large. -/
structure InReach (x step : Float) : Prop where
  lt : worth x + worth step < ((2 ^ 1024 - 2 ^ 970 : ℝ) : EReal)

theorem Felt.isFinite {x step : Float} (h : Felt x step) : isFinite x = true := by
  cases h with
  | longer holds => rw [Number.isFinite, holds]
  | even holds => rw [Number.isFinite, holds]

/-- What a finite double that is not below zero holds. -/
theorem exists_content {x : Float} (hx : 0 ≤ x) (hfin : isFinite x = true) :
    ∃ negative m e, content x = .finite negative m e ∧ Grid m e ∧ e ≤ 971 ∧
      worth x = ((m * 2 ^ e : ℝ) : EReal) := by
  have hnum := (numeric_of_le hx).2
  have hpos := worth_le hx
  have hfinite := (isFinite_iff x).1 hfin
  rw [content_eq]
  unfold worth at hpos ⊢
  unfold Numeric at hnum
  generalize x.toModel.unpack = u at hnum hpos hfinite ⊢
  cases hnum with
  | infinity s => exact hfinite.elim
  | zero s =>
    exact ⟨isNegative s, 0, -1074, rfl, ⟨by decide, le_rfl, .inr rfl⟩, by decide, by simp [value]⟩
  | @finite s m e hm grid he =>
    cases s with
    | positive => exact ⟨false, m, e, rfl, grid, he, rfl⟩
    | negative => exact absurd hpos (not_le_of_gt (neg_value_neg hm e))

section Sums

variable {x y : Float} (hx : 0 ≤ x) (hy : 0 < y) (hy' : isFinite y = true)
include hx hy

theorem worth_sum : Numeric (x + y) ∧ worth (x + y) = fit (worth x + worth y) := by
  have hwx := worth_le hx
  have hwy := worth_lt hy
  have apart := not_opposite_of_nonneg hwx hwy.le
  have hnx := (numeric_of_le hx).2
  have hny := (numeric_of_lt hy).2
  exact ⟨numeric_add hnx hny apart, worth_add hnx hny apart⟩

include hy'

/-- The exact sum of a finite double and a finite step, and the double it is fitted to. -/
theorem exists_sum (hx' : isFinite x = true) : ∃ negative m e, ∃ s : ℝ,
    content x = .finite negative m e ∧ Grid m e ∧ e ≤ 971 ∧ 0 < s ∧
      worth x = ((m * 2 ^ e : ℝ) : EReal) ∧ worth y = (s : EReal) ∧
        worth (x + y) = fitted (m * 2 ^ e + s) := by
  obtain ⟨negative, m, e, hcontent, grid, he, hworth⟩ := exists_content hx hx'
  obtain ⟨-, k, f, -, -, -, hstep⟩ := exists_content (float_le_of_lt hy) hy'
  have hpos : 0 < (k * 2 ^ f : ℝ) := by
    have hlt := worth_lt hy
    rw [hstep] at hlt
    exact EReal.coe_pos.1 hlt
  refine ⟨negative, m, e, k * 2 ^ f, hcontent, grid, he, hpos, hworth, hstep, ?_⟩
  rw [(worth_sum hx hy).2, hworth, hstep, ← EReal.coe_add, fit_coe (by positivity)]

/-- A sum is larger than what the step was added to if the step is felt, and only then. -/
theorem lt_add_iff (hx' : isFinite x = true) : x < x + y ↔ Felt x y := by
  obtain ⟨negative, m, e, s, hcontent, grid, he, hs, hworth, hstep, hsum⟩ :=
    exists_sum hx hy hy' hx'
  have above : ((m * 2 ^ e : ℝ) : EReal) < fitted (m * 2 ^ e + s) ↔
      m * 2 ^ e < rounded (m * 2 ^ e + s) := by
    unfold fitted cap
    split_ifs with h
    · exact EReal.coe_lt_coe_iff
    · exact iff_of_true (EReal.coe_lt_top _) ((digits_lt grid.digits he).trans_le (not_lt.1 h))
  rw [lt_iff (numeric_of_le hx).2 (worth_sum hx hy).1, hsum, hworth, above,
    grid.lt_rounded_add_iff hs]
  constructor
  · rintro (more | ⟨half, odd⟩)
    · exact .longer hcontent (hstep ▸ EReal.coe_lt_coe_iff.2 more)
    · exact .even hcontent (hstep ▸ congrArg _ half) odd
  · intro h
    cases h with
    | longer hcontent' more =>
      rw [hcontent] at hcontent'
      cases hcontent'
      exact .inl (EReal.coe_lt_coe_iff.1 (hstep ▸ more))
    | even hcontent' half odd =>
      rw [hcontent] at hcontent'
      cases hcontent'
      exact .inr ⟨EReal.coe_eq_coe_iff.1 (hstep ▸ half), odd⟩

/-- A sum is finite if the exact one is in reach, and only then. -/
theorem isFinite_add_iff (hx' : isFinite x = true) : isFinite (x + y) = true ↔ InReach x y := by
  obtain ⟨-, m, e, s, -, -, -, hs, hworth, hstep, hsum⟩ := exists_sum hx hy hy' hx'
  have hnonneg : 0 ≤ m * 2 ^ e + s := by positivity
  have hbot : ⊥ < worth (x + y) := by
    rw [hsum]
    exact EReal.bot_lt_zero.trans_le (fitted_nonneg _)
  have finite_iff : isFinite (x + y) = true ↔ worth (x + y) < ⊤ :=
    ⟨fun h => (worth_finite h).2.2, isFinite_of_worth (worth_sum hx hy).1 hbot⟩
  have inReach : InReach x y ↔ worth x + worth y < ((2 ^ 1024 - 2 ^ 970 : ℝ) : EReal) :=
    ⟨InReach.lt, InReach.mk⟩
  rw [finite_iff, hsum, fitted_lt_top_iff hnonneg, inReach, hworth, hstep, ← EReal.coe_add,
    EReal.coe_lt_coe_iff]

end Sums

end PianoRoll.Number
