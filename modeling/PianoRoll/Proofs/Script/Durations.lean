import PianoRoll.Proofs.Melody.InTime
import PianoRoll.Proofs.Number.Absorption

/-!
How long the notes of a script are. A note lasts if its times are finite and it ends behind its
beginning. It does so if the step is felt where the pen stands and the sum is in reach, and only
then (`notes_last_iff`): the pen goes on by sums of doubles, so behind long steps a short one can be
lost, and many long ones lead to infinity. Both need steps that are further apart than those of an
ordinary script, or very many of them.
-/

namespace PianoRoll

open Number

structure Note.Lasts (n : Note) : Prop where
  start : isFinite n.start = true
  finish : isFinite n.finish = true
  forward : n.start < n.finish

namespace Script

/-- The pens with which the notes of lines are played. -/
def pens (pen : Pen) : List (List Char) → List Pen
  | [] => []
  | raw :: rest =>
    let d := Directive.ofLine (Text.trim raw)
    (pen.notes d).map (fun _ => pen) ++ pens (pen.after d) rest

/-- The pens with which the notes of a script are played; a rejected one plays none. -/
def pensOf (text : String) : List Pen :=
  match (compile text).notes with
  | .ok _ => pens {} (Text.lines text.toList)
  | .error _ => []

def stepsIn (lines : List (List Char)) : List Float :=
  lines.filterMap fun raw =>
    match Directive.ofLine (Text.trim raw) with
    | .step arg => stepOf? arg
    | _ => none

structure Pen.Paced (pen : Pen) : Prop extends pen.Forward where
  finite : isFinite pen.step = true

/-- The end of a note that is played now can be told from its beginning and from infinity. -/
structure Pen.Clear (pen : Pen) : Prop where
  felt : Felt pen.cursor pen.step
  inReach : InReach pen.cursor pen.step

theorem stepOf?_isFinite {arg : List Char} {x : Float} (h : stepOf? arg = some x) :
    isFinite x = true := by
  unfold stepOf? at h
  split at h
  · split at h
    · next hx =>
      cases h
      exact (Bool.and_eq_true_iff.1 hx).1
    · cases h
  · cases h

theorem paced_start : Pen.Paced {} := ⟨forward_start, by decide +kernel⟩

namespace Pen.Paced

variable {pen : Pen} (h : pen.Paced)
include h

theorem after (d : Directive) : (pen.after d).Paced := by
  refine ⟨(h.toForward.after d).1, ?_⟩
  cases d with
  | step arg =>
    change isFinite ((stepOf? arg).getD pen.step) = true
    cases hs : stepOf? arg with
    | none => exact h.finite
    | some x => exact stepOf?_isFinite hs
  | _ => exact h.finite

/-- A note that is played now lasts if the pen is clear, and only then. -/
theorem lasts_iff (pitch : Int) (label : String) :
    Note.Lasts ⟨pitch, label, pen.cursor, pen.cursor + pen.step⟩ ↔ pen.Clear := by
  constructor
  · rintro ⟨start, finish, forward⟩
    exact ⟨(lt_add_iff h.cursor h.step h.finite start).1 forward,
      (isFinite_add_iff h.cursor h.step h.finite start).1 finish⟩
  · rintro ⟨felt, inReach⟩
    have start := felt.isFinite
    exact ⟨start, (isFinite_add_iff h.cursor h.step h.finite start).2 inReach,
      (lt_add_iff h.cursor h.step h.finite start).2 felt⟩

/-- What a directive plays lasts if the pen that plays it is clear, and only then. -/
theorem played_last_iff (d : Directive) :
    (∀ n ∈ pen.notes d, n.Lasts) ↔ ∀ p ∈ (pen.notes d).map (fun _ => pen), p.Clear := by
  cases d with
  | pitch p =>
    simp only [Pen.notes, List.map_cons, List.map_nil, List.forall_mem_singleton]
    exact h.lasts_iff _ _
  | _ => simp [Pen.notes]

theorem read_last_iff (number : Nat) (lines : List (List Char)) {notes : List Note}
    (hread : (read pen number lines).notes = .ok notes) :
    (∀ n ∈ notes, n.Lasts) ↔ ∀ p ∈ pens pen lines, p.Clear := by
  induction lines generalizing pen number notes with
  | nil =>
    cases hread
    simp [pens]
  | cons raw rest ih =>
    obtain ⟨later, hlater, rfl⟩ := read_cons_ok hread
    rw [pens, List.forall_mem_append, List.forall_mem_append, h.played_last_iff,
      ih (h.after _) (number + 1) hlater]

end Pen.Paced

theorem pensOf_eq (text : String) : (notesOf text = [] ∧ pensOf text = []) ∨
    (read {} 1 (Text.lines text.toList)).notes = .ok (notesOf text) ∧
      pensOf text = pens {} (Text.lines text.toList) := by
  unfold notesOf pensOf
  cases hnotes : (compile text).notes with
  | ok notes => exact .inr ⟨hnotes, rfl⟩
  | error f => exact .inl ⟨rfl, rfl⟩

/-! ## Ordinary scripts -/

theorem worth_quarter : worth 0.25 = ((1 / 4 : ℝ) : EReal) := by
  have hunpack : (0.25 : Float).toModel.unpack =
      .finite .positive (2 ^ 52) (-54) (by decide) := rfl
  have hvalue : ((2 ^ 52 : ℕ) : ℝ) * 2 ^ (-54 : ℤ) = 1 / 4 := by norm_num
  rw [worth, hunpack, value, hvalue]
  rfl

/-- Lines whose steps are not too far apart for their number: the longest is at most as many times
the shortest as `2 ^ 52` is the number of lines. A quarter counts, with which every script
begins. -/
structure Moderate (lo hi : ℝ) (lines : List (List Char)) : Prop where
  least : lo ≤ 1 / 4
  largest : 1 / 4 ≤ hi
  steps : ∀ x ∈ stepsIn lines, (lo : EReal) ≤ worth x ∧ worth x ≤ hi
  apart : lines.length * hi ≤ 2 ^ 52 * lo

/-- A pen that has gone no further than so many steps, each of them between two bounds, the upper
one of which is a power of two. -/
structure Pen.Near (lo : ℝ) (j : ℤ) (k : ℕ) (pen : Pen) : Prop extends pen.Paced where
  gone : worth pen.cursor ≤ ((k * 2 ^ j : ℝ) : EReal)
  least : (lo : EReal) ≤ worth pen.step
  largest : worth pen.step ≤ ((2 ^ j : ℝ) : EReal)

namespace Pen.Near

variable {lo : ℝ} {j : ℤ} {k : ℕ} {pen : Pen} (h : pen.Near lo j k)
include h

theorem mono {k' : ℕ} (hk : k ≤ k') : pen.Near lo j k' := by
  refine { h with gone := h.gone.trans (EReal.coe_le_coe_iff.2 ?_) }
  exact mul_le_mul_of_nonneg_right (Nat.cast_le.2 hk) (two_zpow_pos j).le

/-- The exact end of a note that is played now. -/
theorem sum_le : worth pen.cursor + worth pen.step ≤ (((k + 1 : ℕ) * 2 ^ j : ℝ) : EReal) := by
  refine (add_le_add h.gone h.largest).trans_eq ?_
  rw [← EReal.coe_add, Nat.cast_succ, add_one_mul]

/-- Each step leads no further than the power of two, for all sums of these are doubles. -/
theorem moved (hk : k + 1 < 2 ^ 53) (hj : -1074 ≤ j) (hj' : j ≤ 971) :
    worth (pen.cursor + pen.step) ≤ (((k + 1 : ℕ) * 2 ^ j : ℝ) : EReal) := by
  rw [(worth_sum h.cursor h.step).2, ← fit_grid hk hj hj']
  exact fit_mono h.sum_le

theorem after (hk : k + 1 < 2 ^ 53) (hj : -1074 ≤ j) (hj' : j ≤ 971) (d : Directive)
    (hd : ∀ arg x, d = .step arg → stepOf? arg = some x →
      (lo : EReal) ≤ worth x ∧ worth x ≤ ((2 ^ j : ℝ) : EReal)) :
    (pen.after d).Near lo j (k + 1) := by
  have stays := h.mono (Nat.le_succ k)
  have paced := h.toPaced.after d
  cases d with
  | step arg =>
    have step : (lo : EReal) ≤ worth ((stepOf? arg).getD pen.step) ∧
        worth ((stepOf? arg).getD pen.step) ≤ ((2 ^ j : ℝ) : EReal) := by
      cases hs : stepOf? arg with
      | none => exact ⟨h.least, h.largest⟩
      | some x => exact hd arg x rfl hs
    exact ⟨paced, stays.gone, step.1, step.2⟩
  | rest => exact ⟨paced, h.moved hk hj hj', h.least, h.largest⟩
  | pitch p => exact ⟨paced, h.moved hk hj hj', h.least, h.largest⟩
  | _ => exact ⟨paced, stays.gone, h.least, h.largest⟩

/-- A pen is clear if all the steps that it has gone are not too many for the shortest one. -/
theorem clear {n : ℕ} (hk : k < n) (hj : -1021 ≤ j) (apart : n * 2 ^ j ≤ 2 ^ 53 * lo)
    (small : lo ≤ 1 / 4) : pen.Clear := by
  have room : (k : ℝ) * 2 ^ j < 2 ^ 53 * lo :=
    (mul_lt_mul_of_pos_right (Nat.cast_lt.2 hk) (two_zpow_pos j)).trans_le apart
  constructor
  · have hfin : isFinite pen.cursor = true :=
      isFinite_of_worth (numeric_of_le h.cursor).2
        (EReal.bot_lt_zero.trans_le (worth_le h.cursor)) (h.gone.trans_lt (EReal.coe_lt_top _))
    obtain ⟨negative, m, e, hcontent, grid, -, hworth⟩ := exists_content h.cursor hfin
    have gone := h.gone
    rw [hworth, EReal.coe_le_coe_iff] at gone
    have half : (2 : ℝ) ^ (e - 1) < lo := by
      rw [zpow_sub_one₀ two_ne_zero]
      rcases grid.full with full | rfl
      · have digits : (2 : ℝ) ^ 52 * 2 ^ e ≤ m * 2 ^ e :=
          mul_le_mul_of_nonneg_right (by exact_mod_cast full) (two_zpow_pos e).le
        linarith
      · have once : (1 : ℝ) * 2 ^ (-1021 : ℤ) ≤ n * 2 ^ j :=
          mul_le_mul (by exact_mod_cast Nat.one_le_of_lt hk) (zpow_le_zpow_right₀ one_le_two hj)
            (two_zpow_pos _).le (Nat.cast_nonneg n)
        have place : (2 : ℝ) ^ (-1021 : ℤ) = 2 ^ 53 * 2 ^ (-1074 : ℤ) := by
          rw [← zpow_natCast, ← zpow_add₀ two_ne_zero]
          rfl
        have pos := two_zpow_pos (-1074)
        linarith
    exact .longer hcontent ((EReal.coe_lt_coe_iff.2 half).trans_le h.least)
  · have last : (n : ℝ) * 2 ^ j < 2 ^ 1024 - 2 ^ 970 :=
      calc (n : ℝ) * 2 ^ j ≤ 2 ^ 53 * lo := apart
        _ ≤ 2 ^ 51 := by linarith
        _ < 2 ^ 970 := pow_lt_pow_right₀ one_lt_two (by decide)
        _ = 2 ^ 971 - 2 ^ 970 := by rw [eq_sub_iff_add_eq, ← mul_two, ← pow_succ]
        _ ≤ 2 ^ 1024 - 2 ^ 970 := sub_le_sub_right (pow_le_pow_right₀ one_le_two (by decide)) _
    refine ⟨(h.sum_le.trans (EReal.coe_le_coe_iff.2 ?_)).trans_lt (EReal.coe_lt_coe_iff.2 last)⟩
    exact mul_le_mul_of_nonneg_right (Nat.cast_le.2 hk) (two_zpow_pos j).le

end Pen.Near

theorem near_pens {lo : ℝ} {j : ℤ} (hj : -1074 ≤ j) (hj' : j ≤ 971) {lines : List (List Char)}
    (hsteps : ∀ x ∈ stepsIn lines, (lo : EReal) ≤ worth x ∧ worth x ≤ ((2 ^ j : ℝ) : EReal))
    {pen : Pen} {k : ℕ} (h : pen.Near lo j k) (hk : k + lines.length < 2 ^ 53) :
    ∀ p ∈ pens pen lines, ∃ i, i < k + lines.length ∧ p.Near lo j i := by
  induction lines generalizing pen k with
  | nil => simp [pens]
  | cons raw rest ih =>
    rw [List.length_cons] at hk ⊢
    have hd : ∀ arg x, Directive.ofLine (Text.trim raw) = .step arg → stepOf? arg = some x →
        (lo : EReal) ≤ worth x ∧ worth x ≤ ((2 ^ j : ℝ) : EReal) := by
      intro arg x hline hx
      refine hsteps x (List.mem_filterMap.2 ⟨raw, List.mem_cons_self, ?_⟩)
      rw [hline]
      exact hx
    have later : ∀ x ∈ stepsIn rest, (lo : EReal) ≤ worth x ∧ worth x ≤ ((2 ^ j : ℝ) : EReal) := by
      intro x hx
      obtain ⟨raw', hraw, hx⟩ := List.mem_filterMap.1 hx
      exact hsteps x (List.mem_filterMap.2 ⟨raw', List.mem_cons_of_mem _ hraw, hx⟩)
    intro p hp
    rcases List.mem_append.1 hp with hp | hp
    · obtain ⟨n, -, rfl⟩ := List.mem_map.1 hp
      exact ⟨k, by omega, h⟩
    · obtain ⟨i, hi, hnear⟩ := ih later (h.after (by omega) hj hj' _ hd) (by omega) p hp
      exact ⟨i, by omega, hnear⟩

/-- A power of two that is less than twice a number of at least a quarter. -/
theorem exists_power {x : ℝ} (hx : 1 / 4 ≤ x) : ∃ j : ℤ, -2 ≤ j ∧ x ≤ 2 ^ j ∧ 2 ^ j ≤ 2 * x := by
  have hpos : 0 < x := by linarith
  have above := Int.self_le_zpow_clog (b := 2) one_lt_two x
  have below := Int.zpow_pred_clog_lt_self (b := 2) one_lt_two hpos
  rw [Nat.cast_ofNat] at above below
  rw [zpow_sub_one₀ two_ne_zero] at below
  refine ⟨Int.clog 2 x, ?_, above, by linarith⟩
  have quarter : (2 : ℝ) ^ (-2 : ℤ) = 1 / 4 := by norm_num
  exact (zpow_le_zpow_iff_right₀ one_lt_two).1 (quarter.trans_le (hx.trans above))

namespace Moderate

variable {lo hi : ℝ} {lines : List (List Char)} (h : Moderate lo hi lines)
include h

theorem few : lines.length ≤ 2 ^ 52 := by
  have quarters : (lines.length : ℝ) * (1 / 4) ≤ 2 ^ 52 * (1 / 4) :=
    calc (lines.length : ℝ) * (1 / 4) ≤ lines.length * hi :=
          mul_le_mul_of_nonneg_left h.largest (Nat.cast_nonneg _)
      _ ≤ 2 ^ 52 * lo := h.apart
      _ ≤ 2 ^ 52 * (1 / 4) := mul_le_mul_of_nonneg_left h.least (by positivity)
  exact_mod_cast le_of_mul_le_mul_right quarters (by norm_num)

/-- A power of two in the place of the longest step. -/
theorem apart_power {j : ℤ} (hj : 2 ^ j ≤ 2 * hi) : lines.length * (2 : ℝ) ^ j ≤ 2 ^ 53 * lo :=
  calc lines.length * (2 : ℝ) ^ j ≤ lines.length * (2 * hi) :=
        mul_le_mul_of_nonneg_left hj (Nat.cast_nonneg _)
    _ = 2 * (lines.length * hi) := by ring
    _ ≤ 2 * (2 ^ 52 * lo) := mul_le_mul_of_nonneg_left h.apart zero_le_two
    _ = 2 ^ 53 * lo := by ring

theorem power_le {j : ℤ} (hj : 2 ^ j ≤ 2 * hi) (some_line : 0 < lines.length) : j ≤ 51 := by
  have one : (1 : ℝ) ≤ lines.length := by exact_mod_cast some_line
  have small : (2 : ℝ) ^ j ≤ 2 ^ (51 : ℤ) :=
    calc (2 : ℝ) ^ j ≤ lines.length * 2 ^ j := le_mul_of_one_le_left (two_zpow_pos j).le one
      _ ≤ 2 ^ 53 * lo := h.apart_power hj
      _ ≤ 2 ^ 53 * (1 / 4) := mul_le_mul_of_nonneg_left h.least (by positivity)
      _ = 2 ^ (51 : ℤ) := by norm_num
  exact (zpow_le_zpow_iff_right₀ one_lt_two).1 small

/-- No pen of moderate lines loses its step. -/
theorem clear : ∀ p ∈ pens {} lines, p.Clear := by
  rcases Nat.eq_zero_or_pos lines.length with none | some_line
  · simp [List.length_eq_zero_iff.1 none, pens]
  obtain ⟨j, hj, above, below⟩ := exists_power h.largest
  have start : Pen.Near lo j 0 {} :=
    ⟨paced_start, by simp [worth_zero], worth_quarter ▸ EReal.coe_le_coe_iff.2 h.least,
      worth_quarter ▸ EReal.coe_le_coe_iff.2 (h.largest.trans above)⟩
  have steps : ∀ x ∈ stepsIn lines, (lo : EReal) ≤ worth x ∧ worth x ≤ ((2 ^ j : ℝ) : EReal) :=
    fun x hx => ⟨(h.steps x hx).1, (h.steps x hx).2.trans (EReal.coe_le_coe_iff.2 above)⟩
  have few := h.few
  have high := h.power_le below some_line
  intro p hp
  obtain ⟨k, hk, near⟩ := near_pens (by omega) (by omega) steps start (by omega) p hp
  rw [Nat.zero_add] at hk
  exact near.clear hk (by omega) (h.apart_power below) h.least

end Moderate

/-- Every note of a script lasts if the pen is clear wherever it plays one, and only then; and so it
is if the steps are not too far apart for the number of lines. -/
theorem notes_last_iff (text : String) :
    ((∀ n ∈ notesOf text, n.Lasts) ↔ ∀ pen ∈ pensOf text, pen.Clear) ∧
    ∀ lo hi, Moderate lo hi (Text.lines text.toList) → ∀ n ∈ notesOf text, n.Lasts := by
  have exact : (∀ n ∈ notesOf text, n.Lasts) ↔ ∀ pen ∈ pensOf text, pen.Clear := by
    rcases pensOf_eq text with ⟨hnotes, hpens⟩ | ⟨hread, hpens⟩
    · simp [hnotes, hpens]
    · rw [hpens]
      exact paced_start.read_last_iff 1 _ hread
  refine ⟨exact, fun lo hi moderate => exact.2 ?_⟩
  rcases pensOf_eq text with ⟨-, hpens⟩ | ⟨-, hpens⟩
  · simp [hpens]
  · rw [hpens]
    exact moderate.clear

/-- A script whose steps are mixed, and moderate. -/
theorem mixed_notes_last : Moderate (1 / 4) 8
      (Text.lines "step 1/3\nC\nrest\nstep 8\nD".toList) ∧
    ∀ n ∈ notesOf "step 1/3\nC\nrest\nstep 8\nD", n.Lasts := by
  have moderate : Moderate (1 / 4) 8 (Text.lines "step 1/3\nC\nrest\nstep 8\nD".toList) := by
    have eight : worth 8 = ((8 : ℝ) : EReal) := by
      have hunpack : (8 : Float).toModel.unpack =
          .finite .positive (2 ^ 52) (-49) (by decide) := rfl
      have hvalue : ((2 ^ 52 : ℕ) : ℝ) * 2 ^ (-49 : ℤ) = 8 := by norm_num
      rw [worth, hunpack, value, hvalue]
      rfl
    have between : ∀ x ∈ stepsIn (Text.lines "step 1/3\nC\nrest\nstep 8\nD".toList),
        0.25 ≤ x ∧ x ≤ 8 := by decide +kernel
    have five : (Text.lines "step 1/3\nC\nrest\nstep 8\nD".toList).length = 5 := by
      decide +kernel
    refine ⟨le_rfl, by norm_num, fun x hx => ?_, by rw [five]; norm_num⟩
    rw [← worth_quarter, ← eight]
    exact ⟨worth_le (between x hx).1, worth_le (between x hx).2⟩
  exact ⟨moderate, (notes_last_iff _).2 _ _ moderate⟩

/-- Behind a long rest a short step is lost, and two long notes lead to infinity. -/
theorem steps_lost_and_endless :
    ((notesOf "step 1e16\nrest\nstep 0.25\nC").map fun n =>
      (isFinite n.finish, decide (n.start < n.finish))) = [(true, false)] ∧
    ((notesOf "step 1e308\nC\nC").map fun n =>
      (isFinite n.finish, decide (n.start < n.finish))) = [(true, true), (false, true)] ∧
    ¬ (∀ text, ∀ n ∈ notesOf text, n.Lasts) := by
  have lost : ((notesOf "step 1e16\nrest\nstep 0.25\nC").map fun n =>
      (isFinite n.finish, decide (n.start < n.finish))) = [(true, false)] := by decide +kernel
  refine ⟨lost, by decide +kernel, fun all => ?_⟩
  obtain ⟨n, hn, held⟩ := List.mem_map.1 (lost ▸ List.mem_singleton_self (true, false))
  exact of_decide_eq_false (congrArg Prod.snd held) (all _ n hn).forward

end Script

end PianoRoll
