import PianoRoll.Proofs.Number.Arithmetic
import PianoRoll.Studio.Playback

/-!
When the beats of a run are due. Deadlines keep the order of the beats, weakly: rounding may make
equal moments of different beats, but a later beat is never due earlier (`dueAt_mono`).
-/

namespace PianoRoll

open Number

/-! ## Milliseconds and moments -/

theorem worth_millisecondsOf (reference bpm beats : Float) :
    worth (millisecondsOf reference bpm beats) =
      fit (fit (worth beats * worth 1000) * worth (reference / bpm)) := by
  have h : millisecondsOf reference bpm beats = beats * 1000 * (reference / bpm) := rfl
  rw [h, worth_mul, worth_mul]

theorem worth_tempo_nonneg {reference bpm : Float} (hr : 0 < reference) (hb : 0 < bpm) :
    0 ≤ worth (reference / bpm) := by
  have hr' := worth_lt hr
  have hb' := worth_lt hb
  rw [worth_zero] at hr' hb'
  rw [worth_div _ hb']
  exact fit_nonneg (EReal.div_nonneg hr'.le hb'.le)

/-- More beats last no shorter. -/
theorem millisecondsOf_mono {reference bpm x y : Float} (hr : 0 < reference) (hb : 0 < bpm)
    (hx : 0 ≤ worth x) (h : worth x ≤ worth y) :
    0 ≤ worth (millisecondsOf reference bpm x) ∧
      worth (millisecondsOf reference bpm x) ≤ worth (millisecondsOf reference bpm y) := by
  have htempo := worth_tempo_nonneg hr hb
  have hthousand := worth_thousand.1.le
  have hbeats : 0 ≤ fit (worth x * worth 1000) := fit_nonneg (mul_nonneg hx hthousand)
  have hle : fit (worth x * worth 1000) ≤ fit (worth y * worth 1000) :=
    fit_mono (mul_le_mul_of_nonneg_right h hthousand)
  rw [worth_millisecondsOf, worth_millisecondsOf]
  exact ⟨fit_nonneg (mul_nonneg hbeats htempo), fit_mono (mul_le_mul_of_nonneg_right hle htempo)⟩

/-- At a faster tempo beats last no longer. -/
theorem millisecondsOf_anti {reference bpm bpm' beats : Float} (hr : 0 < reference) (hb : 0 < bpm)
    (h : bpm ≤ bpm') (hbeats : 0 ≤ worth beats) :
    worth (millisecondsOf reference bpm' beats) ≤ worth (millisecondsOf reference bpm beats) := by
  have hr' := worth_lt hr
  have hb' := worth_lt hb
  rw [worth_zero] at hr' hb'
  have hle := worth_le h
  have hinv : (worth bpm')⁻¹ ≤ (worth bpm)⁻¹ :=
    EReal.inv_strictAntiOn.antitoneOn hb' (hb'.trans_le hle) hle
  have hquot : worth (reference / bpm') ≤ worth (reference / bpm) := by
    rw [worth_div _ hb', worth_div _ (hb'.trans_le hle)]
    exact fit_mono (mul_le_mul_of_nonneg_left hinv hr'.le)
  rw [worth_millisecondsOf, worth_millisecondsOf]
  exact fit_mono (mul_le_mul_of_nonneg_left hquot
    (fit_nonneg (mul_nonneg hbeats worth_thousand.1.le)))

theorem Timers.numeric_pause (delay : Float) : Numeric (larger 0 delay / 1000) :=
  numeric_div (numeric_larger numeric_zero delay) worth_thousand.1 worth_thousand.2

/-- A longer delay never leads to an earlier moment. -/
theorem Timers.deadline_mono {base x y : Float} (hx : 0 ≤ worth x) (h : worth x ≤ worth y)
    (hy : Numeric (deadline base y)) :
    Numeric (deadline base x) ∧ worth (deadline base x) ≤ worth (deadline base y) := by
  obtain ⟨hbase, hpause, apart⟩ := addends_of_numeric hy
  have hpos := worth_thousand.1
  have hxq : worth (larger 0 x / 1000) = fit (worth x / worth 1000) := by
    rw [worth_div _ hpos, worth_larger_zero hx]
  have hyq : worth (larger 0 y / 1000) = fit (worth y / worth 1000) := by
    rw [worth_div _ hpos, worth_larger_zero (hx.trans h)]
  have hle : worth (larger 0 x / 1000) ≤ worth (larger 0 y / 1000) := by
    rw [hxq, hyq]
    exact fit_mono (EReal.div_le_div_right_of_nonneg hpos.le h)
  have hnonneg : 0 ≤ worth (larger 0 x / 1000) := by
    rw [hxq]
    exact fit_nonneg (EReal.div_nonneg hx hpos.le)
  have apart' : ¬ Opposite (worth base) (worth (larger 0 x / 1000)) := by
    rintro (⟨_, hbot⟩ | ⟨hbot, htop⟩)
    · rw [hbot] at hnonneg
      exact not_lt_of_ge hnonneg EReal.bot_lt_zero
    · rw [htop] at hle
      exact apart (Or.inr ⟨hbot, top_le_iff.1 hle⟩)
  refine ⟨numeric_add hbase (numeric_pause x) apart', ?_⟩
  change worth (base + larger 0 x / 1000) ≤ worth (base + larger 0 y / 1000)
  rw [worth_add hbase (numeric_pause x) apart', worth_add hbase hpause apart]
  exact fit_mono (add_le_add le_rfl hle)

/-! ## Beats -/

/-- A lead-in keeps the order of beats. -/
theorem worth_led {x y lead : Float} (hlead : 0 ≤ lead) (hx : 0 ≤ x) (hxy : x ≤ y) :
    0 ≤ worth (x + lead) ∧ worth (x + lead) ≤ worth (y + lead) := by
  have hl := worth_le hlead
  have hx' := worth_le hx
  have hxy' := worth_le hxy
  rw [worth_zero] at hl hx'
  have hnum := (numeric_of_le hlead).2
  rw [worth_add (numeric_of_le hx).2 hnum (not_opposite_of_nonneg hx' hl),
    worth_add (numeric_of_le hxy).2 hnum (not_opposite_of_nonneg (hx'.trans hxy') hl)]
  exact ⟨fit_nonneg (add_nonneg hx' hl), fit_mono (add_le_add hxy' le_rfl)⟩

/-! ## Deadlines -/

def Studio.dueAt (s : Studio) (bpm beat : Float) : Float :=
  Timers.deadline s.clock
    (millisecondsOf s.settings.referenceBpm bpm (beat + s.settings.startDelay))

/-- A later beat is due no earlier. -/
theorem Studio.dueAt_mono {s : Studio} {bpm x y : Float} (hr : 0 < s.settings.referenceBpm)
    (hb : 0 < bpm) (hlead : 0 ≤ s.settings.startDelay) (hx : 0 ≤ x) (hxy : x ≤ y)
    (hy : Numeric (s.dueAt bpm y)) :
    Numeric (s.dueAt bpm x) ∧ worth (s.dueAt bpm x) ≤ worth (s.dueAt bpm y) := by
  obtain ⟨hbeat, hbeats⟩ := worth_led hlead hx hxy
  obtain ⟨hms, hmss⟩ := millisecondsOf_mono hr hb hbeat hbeats
  exact Timers.deadline_mono hms hmss hy

end PianoRoll
