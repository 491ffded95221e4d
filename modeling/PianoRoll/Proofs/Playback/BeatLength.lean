import PianoRoll.Proofs.Number.Counting
import PianoRoll.Proofs.Playback.Deadlines

/-!
The tempos at which a beat lasts. The beats of a run can be counted if neither its tempo nor the
milliseconds of a beat are zero. At the reference that sessions have, that leaves out the tempo zero
and the two infinite ones, and no others (`lasts_iff`).
-/

namespace PianoRoll

open Number Float.Model Float.Model.UnpackedFloat

/-- A tempo at which a beat lasts, so that beats can be counted. -/
structure Lasts (reference bpm : Float) : Prop where
  moves : (bpm == 0) = false
  beat : (millisecondsOf reference bpm 1 == 0) = false

theorem Transport.elapsedBeats_of_lasts {reference : Float} {t : Transport}
    (h : Lasts reference t.bpm) (now : Float) : ∃ x, t.elapsedBeats reference now = .ok x := by
  refine ⟨beatsOf (millisecondsOf reference t.bpm 1) (t.elapsed now), ?_⟩
  rw [elapsedBeats, beatsToMs, h.moves]
  change (if _ then _ else _) = _
  rw [h.beat]
  rfl

theorem Transport.elapsedBeats_of_not_lasts {reference : Float} {t : Transport}
    (h : ¬Lasts reference t.bpm) (now : Float) :
    t.elapsedBeats reference now = .error .realDivision := by
  rw [elapsedBeats, beatsToMs]
  cases moves : (t.bpm == 0) with
  | true => rfl
  | false =>
    change (if _ then _ else _) = _
    rw [if_pos]
    by_contra beat
    exact h ⟨moves, Bool.eq_false_iff.2 beat⟩

theorem orTempo_of_moves {bpm : Float} (moves : (bpm == 0) = false) (other : Float) :
    orTempo (some bpm) other = bpm := by
  rw [orTempo, moves]
  rfl

/-! ## The tempos of sessions -/

/-- Zero is what is unpacked as such, with either sign. -/
theorem beq_zero_iff (x : Float) : (x == 0) = true ↔ ∃ s, x.toModel.unpack = .zero s := by
  have zero : (0 : Float).toModel.unpack = .zero .positive := rfl
  rw [beq_def, zero]
  cases x.toModel.unpack with
  | infinity s => cases s <;> exact iff_of_false nofun nofun
  | notANumber => exact iff_of_false nofun nofun
  | zero s => cases s <;> exact iff_of_true rfl ⟨_, rfl⟩
  | finite s m e hm => cases s <;> exact iff_of_false nofun nofun

theorem beq_zero_of_unpack {x : Float} (h : ∀ s, x.toModel.unpack ≠ .zero s) :
    (x == 0) = false := by
  rw [Bool.eq_false_iff]
  intro zero
  obtain ⟨s, hs⟩ := (beq_zero_iff x).1 zero
  exact h s hs

theorem beq_zero_of_notANumber {x : Float} (h : x.toModel.unpack = .notANumber) :
    (x == 0) = false :=
  beq_zero_of_unpack fun s hs => by cases h.symm.trans hs

theorem beq_zero_of_worth {x : Float} (h : worth x ≠ 0) : (x == 0) = false :=
  beq_zero_of_unpack fun s hs => h (by rw [worth, hs]; rfl)

abbrev referenceDigits : UnpackedFloat := .finite .positive (120 * 2 ^ 46) (-46) (by decide)

theorem unpack_reference_div (bpm : Float) :
    (120 / bpm).toModel.unpack = repacked (div .binary64 referenceDigits bpm.toModel.unpack) := rfl

/-- The milliseconds of a beat as they are unpacked: from the quotient of the reference. -/
theorem unpack_beat (bpm : Float) : ∃ m e, ∃ h : 0 < m, (millisecondsOf 120 bpm 1).toModel.unpack =
    repacked (mul .binary64 (.finite .positive m e h) (120 / bpm).toModel.unpack) :=
  ⟨_, _, _, rfl⟩

/-- A quotient of the reference has the sign of its divisor. -/
theorem worth_reference_div {bpm : Float} {s : Sign} {m : ℕ} {e : ℤ} {h : 0 < m}
    (hu : bpm.toModel.unpack = .finite s m e h) :
    worth (120 / bpm) = withSign s (fit ((120 / (m * 2 ^ e) : ℝ) : EReal)) := by
  have hreference : ((120 * 2 ^ 46 : ℕ) : ℝ) * 2 ^ (-46 : ℤ) = 120 := by norm_num
  have hswap : div .binary64 referenceDigits (.finite s m e h) = div .binary64
      (.finite s (120 * 2 ^ 46) (-46) (by decide)) (.finite .positive m e h) := by
    cases s <;> rfl
  rw [worth, unpack_reference_div, hu, hswap, (fits_div_finite ..).value, value, value, hreference,
    EReal.coe_div, ← fit_withSign]
  congr 1
  cases s with
  | positive => rfl
  | negative => exact neg_mul ((120 : ℝ) : EReal) ((m * 2 ^ e : ℝ) : EReal)⁻¹

/-- How far away from zero every quotient of the reference is. -/
theorem fit_nearest : fit ((2 ^ (-1018 : ℤ) : ℝ) : EReal) = ((2 ^ (-1018 : ℤ) : ℝ) : EReal) := by
  have hfit := fit_grid (m := 1) (e := -1018) (by decide) (by decide) (by decide)
  rwa [Nat.cast_one, one_mul] at hfit

theorem le_fit_reference_div {m : ℕ} {e : ℤ} (h : 0 < m) (hm : m < 2 ^ 53) (he : e ≤ 971) :
    ((2 ^ (-1018 : ℤ) : ℝ) : EReal) ≤ fit ((120 / (m * 2 ^ e) : ℝ) : EReal) := by
  have hle : (2 : ℝ) ^ (-1018 : ℤ) ≤ 120 / (m * 2 ^ e) := by
    rw [le_div_iff₀ (Grid.pos h e)]
    calc (2 : ℝ) ^ (-1018 : ℤ) * (m * 2 ^ e) ≤ 2 ^ (-1018 : ℤ) * 2 ^ (1024 : ℤ) :=
          mul_le_mul_of_nonneg_left (digits_lt hm he).le (two_zpow_pos _).le
      _ = 2 ^ (6 : ℤ) := (zpow_add₀ two_ne_zero _ _).symm
      _ ≤ 120 := by norm_num
  exact fit_nearest.ge.trans (fit_mono (EReal.coe_le_coe_iff.2 hle))

/-- A thousand of what is that far away from zero is not zero either. -/
theorem worth_beat_ne_zero {bpm : Float} {s : Sign} {m : ℕ} {e : ℤ} {h : 0 < m}
    (hu : bpm.toModel.unpack = .finite s m e h) : worth (millisecondsOf 120 bpm 1) ≠ 0 := by
  obtain ⟨grid, he⟩ := grid_of_unpack hu
  have hquot := le_fit_reference_div h grid.digits he
  have hpos : (0 : EReal) < ((2 ^ (-1018 : ℤ) : ℝ) : EReal) := EReal.coe_pos.2 (two_zpow_pos _)
  have hthousand : 1 ≤ fit (worth 1 * worth 1000) := by
    have hle : worth 1 ≤ worth 1000 := worth_le (by decide +kernel)
    rw [worth_one] at hle ⊢
    rw [one_mul]
    exact fit_one.ge.trans (fit_mono hle)
  rw [worth_millisecondsOf, worth_reference_div hu]
  generalize fit (worth 1 * worth 1000) = thousand at hthousand
  generalize fit ((120 / (m * 2 ^ e) : ℝ) : EReal) = quot at hquot
  have hprod : 0 < fit (thousand * quot) := by
    have hle : quot ≤ thousand * quot := le_mul_of_one_le_left (hpos.le.trans hquot) hthousand
    exact hpos.trans_le (fit_nearest.ge.trans (fit_mono (hquot.trans hle)))
  cases s with
  | positive => exact hprod.ne'
  | negative =>
    rw [withSign, mul_neg, fit_neg]
    exact fun h => hprod.ne' (EReal.neg_eq_zero_iff.1 h)

theorem lasts_of_finite {bpm : Float} {s : Sign} {m : ℕ} {e : ℤ} {h : 0 < m}
    (hu : bpm.toModel.unpack = .finite s m e h) : Lasts 120 bpm where
  moves := beq_zero_of_unpack fun s' hs => by cases hu.symm.trans hs
  beat := beq_zero_of_worth (worth_beat_ne_zero hu)

/-- A beat lasts at every tempo that is neither zero nor infinite, and at no other one. -/
theorem lasts_iff (bpm : Float) :
    Lasts 120 bpm ↔ (bpm == 0) = false ∧ ∀ negative, content bpm ≠ .infinite negative := by
  obtain ⟨m, e, h, hbeat⟩ := unpack_beat bpm
  rw [unpack_reference_div] at hbeat
  rw [content_eq]
  cases hu : bpm.toModel.unpack with
  | infinity s =>
    refine iff_of_false (fun lasts => ?_) fun h => h.2 (isNegative s) rfl
    have hdiv : div .binary64 referenceDigits (.infinity s) = .zero (.positive / s) := rfl
    have hmul (t : Sign) : mul .binary64 (.finite .positive m e h) (.zero t) =
      .zero (.positive * t) := rfl
    rw [hu, hdiv, repacked_zero, hmul, repacked_zero] at hbeat
    cases ((beq_zero_iff _).2 ⟨_, hbeat⟩).symm.trans lasts.beat
  | notANumber =>
    have hdiv : div .binary64 referenceDigits .notANumber = .notANumber := rfl
    have hpack : repacked .notANumber = .notANumber := rfl
    rw [hu, hdiv, hpack, mul_notANumber, hpack] at hbeat
    exact iff_of_true ⟨beq_zero_of_notANumber hu, beq_zero_of_notANumber hbeat⟩
      ⟨beq_zero_of_notANumber hu, nofun⟩
  | zero s =>
    have hzero := (beq_zero_iff bpm).2 ⟨s, hu⟩
    exact iff_of_false (fun lasts => by cases hzero.symm.trans lasts.moves)
      fun h => by cases hzero.symm.trans h.1
  | finite s m e h => exact iff_of_true (lasts_of_finite hu) ⟨(lasts_of_finite hu).moves, nofun⟩

end PianoRoll
