import PianoRoll.Proofs.Number.Arithmetic
import PianoRoll.Proofs.Number.Content

/-!
Finite doubles: they are the numbers that are worth no infinity, so between two of them lie only
others (`isFinite_of_bounds`). The double nearest to a quotient is one unless the dividend has a
thousand more binary digits than the divisor, so whole numbers of fewer digits have their doubles
(`ofWhole?_ok`), and a quotient by a larger number is always found (`quotient_of_lt`).
-/

namespace PianoRoll.Number

open Float.Model Float.Model.UnpackedFloat

/-! ## Finite bits -/

def Finite : UnpackedFloat → Prop
  | .zero _ | .finite .. => True
  | .infinity _ | .notANumber => False

theorem finite_unpack_iff (b : BitVec Format.binary64.numBits) :
    Finite (unpack .binary64 b) ↔ b.toNat / 2 ^ 52 % 2 ^ 11 ≠ 2047 := by
  have hones : unpackExponent b = -1#11 ↔ (unpackExponent b).toNat = 2047 :=
    ⟨fun h => by rw [h]; rfl, fun h => BitVec.eq_of_toNat_eq h⟩
  rw [← toNat_unpackExponent, Ne, ← hones]
  unfold UnpackedFloat.unpack
  dsimp only
  split
  · next h =>
    split
    · exact iff_of_false id fun hn => hn h
    · exact iff_of_false id fun hn => hn h
  · next h =>
    refine iff_of_true ?_ h
    split
    · split
      · trivial
      · trivial
    · trivial

theorem isFinite_iff (x : Float) : isFinite x = true ↔ Finite x.toModel.unpack := by
  rw [isFinite, content_eq]
  cases x.toModel.unpack with
  | infinity s => exact iff_of_false Bool.false_ne_true id
  | notANumber => exact iff_of_false Bool.false_ne_true id
  | zero s => exact iff_of_true rfl trivial
  | finite s m e hm => exact iff_of_true rfl trivial

/-- What a finite double is worth stands in its content. -/
theorem worth_of_content {x : Float} {negative : Bool} {m : ℕ} {e : ℤ}
    (h : content x = .finite negative m e) :
    worth x = ((signed negative m * 2 ^ e : ℝ) : EReal) := by
  rw [content_eq] at h
  rw [worth]
  generalize x.toModel.unpack = u at h
  cases u with
  | infinity s => cases h
  | notANumber => cases h
  | zero s =>
    cases h
    cases s <;> simp [signed, value]
  | finite s m e hm =>
    cases h
    cases s <;> simp [isNegative, signed, value, withSign]

theorem value_bounds_of_finite {u : UnpackedFloat} (h : Valued u) (hfin : Finite u) :
    ⊥ < value u ∧ value u < ⊤ := by
  cases h with
  | infinity s => exact hfin.elim
  | zero s => exact ⟨EReal.bot_lt_zero, EReal.zero_lt_top⟩
  | finite s hm grid he => exact withSign_finite_bounds s _

theorem worth_finite {x : Float} (h : isFinite x = true) :
    Numeric x ∧ ⊥ < worth x ∧ worth x < ⊤ := by
  have hfin := (isFinite_iff x).1 h
  rcases numeric_or_not x with hnum | hnot
  · exact ⟨hnum, value_bounds_of_finite hnum hfin⟩
  · rw [hnot] at hfin
    exact hfin.elim

theorem isFinite_of_worth {x : Float} (h : Numeric x) (hbot : ⊥ < worth x) (htop : worth x < ⊤) :
    isFinite x = true := by
  rw [isFinite_iff]
  unfold worth at hbot htop
  unfold Numeric at h
  generalize x.toModel.unpack = u at h hbot htop
  cases h with
  | infinity s =>
    cases s with
    | positive => exact absurd htop (lt_irrefl _)
    | negative => exact absurd hbot (lt_irrefl _)
  | zero s => trivial
  | finite s hm grid he => trivial

/-- Between finite doubles lie only finite ones. -/
theorem isFinite_of_bounds {lo x hi : Float} (hlo : isFinite lo = true) (hhi : isFinite hi = true)
    (h : lo ≤ x) (h' : x ≤ hi) : isFinite x = true :=
  isFinite_of_worth (numeric_of_le h).2 ((worth_finite hlo).2.1.trans_le (worth_le h))
    ((worth_le h').trans_lt (worth_finite hhi).2.2)

/-- Digits that are read from bits and finite are packed as they are. -/
theorem finite_repacked {b : BitVec Format.binary64.numBits} (h : Finite (unpack .binary64 b)) :
    Finite (repacked (unpack .binary64 b)) := by
  generalize hu : unpack .binary64 b = u at h
  cases u with
  | infinity s => exact h.elim
  | notANumber => exact h.elim
  | zero s =>
    rw [repacked_zero]
    exact h
  | finite s m e hm =>
    obtain ⟨grid, he⟩ := grid_of_unpack hu
    rw [(Valued.finite s hm grid he).repacked]
    exact h

/-- Bits without the exponent of infinity are those of a finite double. -/
theorem isFinite_ofBits {w : UInt64} (h : w.toNat / 2 ^ 52 % 2 ^ 11 ≠ 2047) :
    isFinite (Float.ofBits w) = true := by
  rw [isFinite_iff]
  exact finite_repacked ((finite_unpack_iff w.toBitVec).2 h)

/-! ## Quotients -/

theorem roundDiv_le (n d : Nat) : roundDiv n d ≤ n / d + 1 := by
  unfold roundDiv
  dsimp only
  split_ifs <;> omega

/-- A power of two as the quotient of the two natural ones that stand for it. -/
theorem two_zpow_eq (e : ℤ) : (2 : ℝ) ^ e = 2 ^ e.toNat / 2 ^ (-e).toNat := by
  rw [eq_div_iff (by positivity), ← zpow_natCast, ← zpow_natCast, ← zpow_add₀ two_ne_zero]
  congr 1
  omega

/-- A bound on a quotient in units of a power of two. -/
theorem units_lt_iff (n d k : Nat) (e : ℤ) :
    n * 2 ^ (-e).toNat < d * 2 ^ e.toNat * 2 ^ k ↔ (n : ℝ) < d * 2 ^ (e + k) := by
  rw [zpow_add₀ two_ne_zero, two_zpow_eq e, zpow_natCast, ← mul_assoc, ← mul_div_assoc,
    div_mul_eq_mul_div, lt_div_iff₀ (by positivity)]
  exact_mod_cast Iff.rfl

/-- The last place of a quotient leaves room for its digits. -/
theorem lastPlace_room {n d : Nat} (hd : 0 < d) :
    lastPlace n d ≤ max ((n.log2 : Int) - d.log2 - 52) (-1074) ∧
      n * 2 ^ (-lastPlace n d).toNat < d * 2 ^ (lastPlace n d).toNat * 2 ^ 53 := by
  let l : Int := (n.log2 : Int) - d.log2
  let e : Int := if n * 2 ^ (-l).toNat < d * 2 ^ l.toNat then l - 53 else l - 52
  have hlast : lastPlace n d = if e < -1074 then -1074 else e := by
    have hplace : (n.log2 : Int) - d.log2 - 52 + 52 = l := by omega
    unfold lastPlace pow
    dsimp only
    rw [hplace]
    simp only [Nat.pow_eq, e, l]
    split_ifs <;> omega
  -- what the digits before the place is held within its bounds leave room for
  have hroom : (n : ℝ) < d * 2 ^ (e + 53) := by
    by_cases hlt : n * 2 ^ (-l).toNat < d * 2 ^ l.toNat
    · have he : e + 53 = l + (0 : ℕ) := by simp only [e, if_pos hlt]; omega
      rw [he, ← units_lt_iff, Nat.pow_zero, Nat.mul_one]
      exact hlt
    · have he : e + 53 = (n.log2 + 1 : ℕ) - (d.log2 : ℤ) := by
        simp only [e, if_neg hlt, l]
        omega
      have hhigh : (n : ℝ) < 2 ^ (n.log2 + 1) := by exact_mod_cast Nat.lt_log2_self
      have hlow : (2 : ℝ) ^ d.log2 ≤ d := by exact_mod_cast Nat.log2_self_le hd.ne'
      rw [he, zpow_sub₀ two_ne_zero, zpow_natCast, zpow_natCast, mul_div_left_comm]
      exact hhigh.trans_le (le_mul_of_one_le_right (by positivity)
        ((one_le_div₀ (by positivity)).2 hlow))
  rw [units_lt_iff, hlast]
  split_ifs with hleast
  · refine ⟨le_max_right _ _, hroom.trans_le ?_⟩
    have hle : (2 : ℝ) ^ (e + 53) ≤ 2 ^ ((-1074 : ℤ) + (53 : ℕ)) :=
      zpow_le_zpow_right₀ one_le_two (by push_cast; omega)
    exact mul_le_mul_of_nonneg_left hle (Nat.cast_nonneg d)
  · refine ⟨(le_max_left _ _).trans' ?_, hroom⟩
    simp only [e]
    split_ifs <;> omega

theorem nearestBits_lt {n d : Nat} (hd : 0 < d) (h : n.log2 ≤ d.log2 + 1022) :
    nearestBits n d < 2047 * 2 ^ 52 := by
  unfold nearestBits
  split
  · decide
  · obtain ⟨hplace, hdigits⟩ := lastPlace_room (n := n) hd
    have hunits : unitsOf n d (lastPlace n d) ≤ 2 ^ 53 := by
      have hpow : ∀ k, pow 2 k = 2 ^ k := fun _ => rfl
      have hquot : n * 2 ^ (-lastPlace n d).toNat / (d * 2 ^ (lastPlace n d).toNat) < 2 ^ 53 :=
        Nat.div_lt_of_lt_mul hdigits
      have hround := roundDiv_le (n * 2 ^ (-lastPlace n d).toNat) (d * 2 ^ (lastPlace n d).toNat)
      rw [unitsOf, hpow, hpow]
      omega
    have hexponent : (lastPlace n d + 1074).toNat ≤ 2044 := by omega
    have hfield : (lastPlace n d + 1074).toNat * 2 ^ 52 ≤ 2044 * 2 ^ 52 :=
      Nat.mul_le_mul_right (2 ^ 52) hexponent
    have hsum : 2044 * 2 ^ 52 + 2 ^ 53 < 2047 * 2 ^ 52 := by decide
    exact (min_le_left _ _).trans_lt ((Nat.add_le_add hfield hunits).trans_lt hsum)

/-- The double nearest to a quotient that is not too large is finite. -/
theorem isFinite_nearest (negative : Bool) {n d : Nat} (hd : 0 < d)
    (h : n.log2 ≤ d.log2 + 1022) : isFinite (nearest negative n d) = true := by
  have hbits := nearestBits_lt hd h
  have hpow : pow 2 63 = 2 ^ 63 := rfl
  refine isFinite_ofBits ?_
  rw [UInt64.toNat_ofNat', hpow]
  split <;> omega

/-- A quotient that is not too large is found. -/
theorem quotient_ok {a b : Int} (hb : b ≠ 0) (h : a.natAbs.log2 ≤ b.natAbs.log2 + 1022) :
    ∃ x, quotient a b = .ok x := by
  refine ⟨nearest ((a < 0) != (b < 0)) a.natAbs b.natAbs, ?_⟩
  rw [quotient, if_neg hb]
  exact if_pos (isFinite_nearest _ (Int.natAbs_pos.2 hb) h)

/-- A quotient by a larger number is found. -/
theorem quotient_of_lt {a b : Int} (ha : 0 ≤ a) (h : a < b) : ∃ x, quotient a b = .ok x := by
  refine quotient_ok (by omega) ?_
  have hlog : a.natAbs.log2 ≤ b.natAbs.log2 := by
    rw [Nat.log2_eq_log_two, Nat.log2_eq_log_two]
    exact Nat.log_mono_right (by omega)
  omega

/-- Whole numbers that are not too large have their doubles. -/
theorem ofWhole?_ok {n : Int} (h : n.natAbs.log2 ≤ 1022) : ofWhole? n = .ok (ofWhole n) :=
  if_pos (isFinite_nearest _ Nat.one_pos (h.trans (Nat.le_add_left _ _)))

end PianoRoll.Number
