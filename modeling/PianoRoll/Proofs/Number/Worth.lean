import PianoRoll.Proofs.Number.Unpacked
import PianoRoll.Number.Order

/-!
What a double is worth: a number on the extended real line, zero for the value that is no number.
Doubles compare as what they are worth (`le_iff`, `lt_iff`).
-/

namespace PianoRoll.Number

open Float.Model Float.Model.UnpackedFloat

/-- Infinities, zeros, and finite numbers on the grid that are not too large. -/
inductive Valued : UnpackedFloat → Prop
  | infinity (s : Sign) : Valued (.infinity s)
  | zero (s : Sign) : Valued (.zero s)
  | finite (s : Sign) {m : ℕ} {e : ℤ} (h : 0 < m) (grid : Grid m e) (he : e ≤ 971) :
      Valued (.finite s m e h)

noncomputable def worth (x : Float) : EReal := value x.toModel.unpack

/-- A double that is worth something: a number or an infinity. -/
def Numeric (x : Float) : Prop := Valued x.toModel.unpack

/-- Numbers are all but the one value that is none. -/
theorem numeric_or_not (x : Float) : Numeric x ∨ x.toModel.unpack = .notANumber := by
  unfold Numeric
  cases h : x.toModel.unpack with
  | infinity s => exact Or.inl (.infinity s)
  | notANumber => exact Or.inr rfl
  | zero s => exact Or.inl (.zero s)
  | finite s m e hm => exact Or.inl (.finite s hm (grid_of_unpack h).1 (grid_of_unpack h).2)

theorem Grid.pos {m : ℕ} (h : 0 < m) (e : ℤ) : (0 : ℝ) < m * 2 ^ e :=
  mul_pos (Nat.cast_pos.2 h) (two_zpow_pos e)

theorem value_pos {m : ℕ} (h : 0 < m) (e : ℤ) : (0 : EReal) < ((m * 2 ^ e : ℝ) : EReal) :=
  EReal.coe_pos.2 (Grid.pos h e)

theorem neg_value_neg {m : ℕ} (h : 0 < m) (e : ℤ) : -((m * 2 ^ e : ℝ) : EReal) < 0 :=
  EReal.neg_lt_zero.2 (value_pos h e)

/-! ## Order -/

/-- On the grid the larger exponent goes with the larger number. -/
theorem Grid.lt_of_exponent_lt {m₁ m₂ : ℕ} {e₁ e₂ : ℤ} (h₁ : Grid m₁ e₁) (h₂ : Grid m₂ e₂)
    (h : e₁ < e₂) : (m₁ * 2 ^ e₁ : ℝ) < m₂ * 2 ^ e₂ := by
  have hleast := h₁.least
  have hfull : 2 ^ 52 ≤ m₂ := h₂.full.resolve_right (by omega)
  have hm₁ : (m₁ : ℝ) < 2 ^ 53 := by exact_mod_cast h₁.digits
  have hm₂ : (2 : ℝ) ^ 52 ≤ m₂ := by exact_mod_cast hfull
  have he : (2 : ℝ) ^ (e₁ + 1) ≤ 2 ^ e₂ := zpow_le_zpow_right₀ one_le_two h
  calc (m₁ : ℝ) * 2 ^ e₁ < 2 ^ 53 * 2 ^ e₁ := mul_lt_mul_of_pos_right hm₁ (two_zpow_pos _)
    _ = 2 ^ 52 * 2 ^ (e₁ + 1) := by rw [zpow_add_one₀ two_ne_zero]; ring
    _ ≤ m₂ * 2 ^ e₂ := mul_le_mul hm₂ he (two_zpow_pos _).le (Nat.cast_nonneg _)

/-- Points of the grid compare by exponent, then by digits. -/
theorem Grid.compares {m₁ m₂ : ℕ} {e₁ e₂ : ℤ} (h₁ : Grid m₁ e₁) (h₂ : Grid m₂ e₂) :
    ((compare e₁ e₂).then (compare m₁ m₂)).Compares (m₁ * 2 ^ e₁ : ℝ) (m₂ * 2 ^ e₂) := by
  rcases lt_trichotomy e₁ e₂ with h | rfl | h
  · rw [compare_lt_iff_lt.2 h]
    exact h₁.lt_of_exponent_lt h₂ h
  · rw [compare_eq_iff_eq.2 rfl, Ordering.eq_then]
    rcases lt_trichotomy m₁ m₂ with hm | rfl | hm
    · rw [compare_lt_iff_lt.2 hm]
      exact mul_lt_mul_of_pos_right (Nat.cast_lt.2 hm) (two_zpow_pos _)
    · rw [compare_eq_iff_eq.2 rfl]
      rfl
    · rw [compare_gt_iff_gt.2 hm]
      exact mul_lt_mul_of_pos_right (Nat.cast_lt.2 hm) (two_zpow_pos _)
  · rw [compare_gt_iff_gt.2 h]
    exact h₂.lt_of_exponent_lt h₁ h

theorem compares_coe {o : Ordering} {r q : ℝ} (h : o.Compares r q) :
    o.Compares (r : EReal) (q : EReal) := by
  cases o with
  | lt => exact EReal.coe_lt_coe_iff.2 h
  | eq => exact congrArg _ h
  | gt => exact EReal.coe_lt_coe_iff.2 h

theorem compares_neg {o : Ordering} {w v : EReal} (h : o.Compares w v) :
    o.swap.Compares (-w) (-v) := by
  cases o with
  | lt => exact EReal.neg_lt_neg_iff.2 h
  | eq => exact congrArg _ h
  | gt => exact EReal.neg_lt_neg_iff.2 h

theorem withSign_finite_bounds (s : Sign) (r : ℝ) : ⊥ < withSign s r ∧ withSign s r < ⊤ := by
  cases s with
  | positive => exact ⟨EReal.bot_lt_coe r, EReal.coe_lt_top r⟩
  | negative => exact ⟨EReal.bot_lt_coe (-r), EReal.coe_lt_top (-r)⟩

/-- Comparison is comparison of what the operands are worth. -/
theorem compare_compares {u v : UnpackedFloat} (hu : Valued u) (hv : Valued v) :
    ∃ o, u.compare v = some o ∧ o.Compares (value u) (value v) := by
  cases hu with
  | infinity s =>
    cases hv with
    | infinity s' =>
      cases s <;> cases s'
      · exact ⟨.eq, rfl, rfl⟩
      · exact ⟨.lt, rfl, bot_lt_top⟩
      · exact ⟨.gt, rfl, bot_lt_top⟩
      · exact ⟨.eq, rfl, rfl⟩
    | zero s' =>
      cases s
      · exact ⟨.lt, rfl, EReal.bot_lt_zero⟩
      · exact ⟨.gt, rfl, EReal.zero_lt_top⟩
    | finite s' h' grid' he' =>
      cases s
      · exact ⟨.lt, rfl, (withSign_finite_bounds s' _).1⟩
      · exact ⟨.gt, rfl, (withSign_finite_bounds s' _).2⟩
  | zero s =>
    cases hv with
    | infinity s' =>
      cases s'
      · exact ⟨.gt, rfl, EReal.bot_lt_zero⟩
      · exact ⟨.lt, rfl, EReal.zero_lt_top⟩
    | zero s' => exact ⟨.eq, rfl, rfl⟩
    | finite s' h' grid' he' =>
      cases s'
      · exact ⟨.gt, rfl, neg_value_neg h' _⟩
      · exact ⟨.lt, rfl, value_pos h' _⟩
  | finite s h grid he =>
    cases hv with
    | infinity s' =>
      cases s'
      · exact ⟨.gt, by cases s <;> rfl, (withSign_finite_bounds s _).1⟩
      · exact ⟨.lt, by cases s <;> rfl, (withSign_finite_bounds s _).2⟩
    | zero s' =>
      cases s
      · exact ⟨.lt, rfl, neg_value_neg h _⟩
      · exact ⟨.gt, rfl, value_pos h _⟩
    | finite s' h' grid' he' =>
      cases s <;> cases s'
      · exact ⟨_, rfl, compares_neg (compares_coe (grid.compares grid'))⟩
      · exact ⟨.lt, rfl, (neg_value_neg h _).trans (value_pos h' _)⟩
      · exact ⟨.gt, rfl, (neg_value_neg h' _).trans (value_pos h _)⟩
      · exact ⟨_, rfl, compares_coe (grid.compares grid')⟩

theorem compare_notANumber_left (v : UnpackedFloat) : UnpackedFloat.notANumber.compare v = none :=
  rfl

theorem compare_notANumber_right (u : UnpackedFloat) :
    u.compare .notANumber = none := by
  cases u <;> rfl

theorem le_def {x y : Float} :
    x ≤ y ↔ (x.toModel.unpack.compare y.toModel.unpack).any Ordering.isLE = true :=
  decide_eq_true_iff

theorem lt_def {x y : Float} :
    x < y ↔ (x.toModel.unpack.compare y.toModel.unpack == some .lt) = true :=
  decide_eq_true_iff

theorem beq_def {x y : Float} :
    (x == y) = (x.toModel.unpack.compare y.toModel.unpack == some .eq) := rfl

/-- Only numbers compare. -/
theorem numeric_of_compare {x y : Float} {o : Ordering}
    (h : x.toModel.unpack.compare y.toModel.unpack = some o) : Numeric x ∧ Numeric y := by
  refine ⟨(numeric_or_not x).resolve_right fun hx => ?_,
    (numeric_or_not y).resolve_right fun hy => ?_⟩
  · rw [hx, compare_notANumber_left] at h
    cases h
  · rw [hy, compare_notANumber_right] at h
    cases h

theorem numeric_of_le {x y : Float} (h : x ≤ y) : Numeric x ∧ Numeric y := by
  obtain ⟨o, ho, _⟩ := (Option.any_eq_true _ _).1 (le_def.1 h)
  exact numeric_of_compare ho

theorem numeric_of_lt {x y : Float} (h : x < y) : Numeric x ∧ Numeric y :=
  numeric_of_compare (eq_of_beq (lt_def.1 h))

section Compared

variable {x y : Float} (hx : Numeric x) (hy : Numeric y)
include hx hy

theorem le_iff : x ≤ y ↔ worth x ≤ worth y := by
  obtain ⟨o, ho, hc⟩ := compare_compares hx hy
  rw [le_def, ho, Option.any_some]
  cases o with
  | lt => exact iff_of_true rfl (le_of_lt hc)
  | eq => exact iff_of_true rfl (le_of_eq hc)
  | gt => exact iff_of_false Bool.false_ne_true (not_le_of_gt hc)

theorem lt_iff : x < y ↔ worth x < worth y := by
  obtain ⟨o, ho, hc⟩ := compare_compares hx hy
  rw [lt_def, ho]
  cases o with
  | lt => exact iff_of_true rfl hc
  | eq => exact iff_of_false Bool.false_ne_true (not_lt_of_ge (ge_of_eq hc))
  | gt => exact iff_of_false Bool.false_ne_true (lt_asymm hc)

theorem beq_iff : (x == y) = true ↔ worth x = worth y := by
  obtain ⟨o, ho, hc⟩ := compare_compares hx hy
  rw [beq_def, ho]
  cases o with
  | lt => exact iff_of_false Bool.false_ne_true (ne_of_lt hc)
  | eq => exact iff_of_true rfl hc
  | gt => exact iff_of_false Bool.false_ne_true (ne_of_gt hc)

end Compared

theorem worth_le {x y : Float} (h : x ≤ y) : worth x ≤ worth y :=
  (le_iff (numeric_of_le h).1 (numeric_of_le h).2).1 h

theorem float_le_trans {x y z : Float} (h : x ≤ y) (h' : y ≤ z) : x ≤ z :=
  (le_iff (numeric_of_le h).1 (numeric_of_le h').2).2 ((worth_le h).trans (worth_le h'))

theorem worth_lt {x y : Float} (h : x < y) : worth x < worth y :=
  (lt_iff (numeric_of_lt h).1 (numeric_of_lt h).2).1 h

theorem worth_notANumber {x : Float} (h : x.toModel.unpack = .notANumber) : worth x = 0 := by
  rw [worth, h, value]

/-- What is worth something, if only an infinity, is a number. -/
theorem numeric_of_worth_ne_zero {x : Float} (h : worth x ≠ 0) : Numeric x :=
  (numeric_or_not x).resolve_right fun hx => h (worth_notANumber hx)

theorem float_le_of_lt {x y : Float} (h : x < y) : x ≤ y :=
  (le_iff (numeric_of_lt h).1 (numeric_of_lt h).2).2 (worth_lt h).le

theorem float_le_refl {x : Float} (h : Numeric x) : x ≤ x := (le_iff h h).2 le_rfl

/-! ## Numerals -/

theorem worth_zero : worth 0 = 0 := rfl

theorem numeric_zero : Numeric 0 := .zero .positive

theorem worth_thousand : 0 < worth 1000 ∧ worth 1000 < ⊤ := by
  have hpos : (0 : Float) < 1000 := by decide +kernel
  have hsmall : (1000 : Float) < 2000 := by decide +kernel
  exact ⟨worth_lt hpos, (worth_lt hsmall).trans_le le_top⟩

/-! ## The larger of two -/

theorem numeric_larger {a : Float} (ha : Numeric a) (b : Float) : Numeric (larger a b) := by
  unfold larger
  split
  · next h => exact (numeric_of_lt h).2
  · exact ha

theorem worth_larger {a b : Float} (ha : Numeric a) (hb : Numeric b) :
    worth (larger a b) = max (worth a) (worth b) := by
  unfold larger
  split
  · next h => exact (max_eq_right (worth_lt h).le).symm
  · next h => exact (max_eq_left (not_lt.1 fun hw => h ((lt_iff ha hb).2 hw))).symm

/-- What is held between two bounds is between them, whatever it was before. -/
theorem clamp_bounds {lo hi : Float} (h : lo ≤ hi) (x : Float) :
    lo ≤ clamp lo hi x ∧ clamp lo hi x ≤ hi := by
  have upper : smaller hi x ≤ hi := by
    unfold smaller
    split
    · next hx => exact float_le_of_lt hx
    · exact float_le_refl (numeric_of_le h).2
  unfold clamp larger
  split
  · next hlo => exact ⟨float_le_of_lt hlo, upper⟩
  · exact ⟨float_le_refl (numeric_of_le h).1, h⟩

/-- A delay that is not below zero stays; the one that is no number is worth none. -/
theorem worth_larger_zero {x : Float} (h : 0 ≤ worth x) : worth (larger 0 x) = worth x := by
  rcases numeric_or_not x with hx | hx
  · rw [worth_larger numeric_zero hx, worth_zero, max_eq_right h]
  · have hnot : ¬ (0 : Float) < x := fun hlt => by
      have hv : Valued x.toModel.unpack := (numeric_of_lt hlt).2
      rw [hx] at hv
      cases hv
    rw [larger, if_neg hnot, worth_zero, worth_notANumber hx]

theorem numeric_largest {a : Float} (ha : Numeric a) (rest : List Float) :
    Numeric (largest a rest) := by
  induction rest generalizing a with
  | nil => exact ha
  | cons b rest ih => exact ih (numeric_larger ha b)

/-- The largest of a list is worth as much as any of them. -/
theorem worth_le_largest {a x : Float} {rest : List Float} (ha : Numeric a)
    (hr : ∀ b ∈ rest, Numeric b) (hx : x ∈ a :: rest) : worth x ≤ worth (largest a rest) := by
  induction rest generalizing a x with
  | nil =>
    rw [List.mem_singleton] at hx
    rw [hx]
    exact le_rfl
  | cons b rest ih =>
    have hlarger := numeric_larger ha b
    have hmax := worth_larger ha (hr b List.mem_cons_self)
    have hrest : ∀ c ∈ rest, Numeric c := fun c hc => hr c (List.mem_cons_of_mem b hc)
    have htop := ih hlarger hrest List.mem_cons_self
    rcases List.mem_cons.1 hx with rfl | hx
    · exact ((le_max_left _ _).trans_eq hmax.symm).trans htop
    rcases List.mem_cons.1 hx with rfl | hx
    · exact ((le_max_right _ _).trans_eq hmax.symm).trans htop
    · exact ih hlarger hrest (List.mem_cons_of_mem _ hx)

end PianoRoll.Number
