import PianoRoll.Proofs.Number.Counting
import PianoRoll.Proofs.Session.Scripted
import PianoRoll.Renderer

/-!
The lines that a standing roll has at the whole beats in view. The loop that draws them counts
beats from zero. If the view ends before `2 ^ 53`, it draws one line for each and goes no further
(`on_drawBeats`); behind that the beats cannot be counted, and no number of steps is enough
(`drawBeats_stuck`).
-/

namespace PianoRoll

open Number Work

/-- How many whole beats there are up to the end of a view that begins with zero. -/
def Frame.HasBeats (f : Frame) (m : ℕ) : Prop := ∀ k : ℕ, k < m ↔ (k : EReal) ≤ worth f.viewEnd

theorem Frame.InView.exists_hasBeats {f : Frame} (h : f.InView) (hfin : worth f.viewEnd < ⊤) :
    ∃ n : ℕ, truncate f.viewEnd = .ok n ∧ f.HasBeats (n + 1) := by
  obtain ⟨n, htrunc, hle, hlt⟩ := truncate_of_pos h.pos hfin
  refine ⟨n, htrunc, fun k => ⟨fun hk => ?_, fun hk => ?_⟩⟩
  · exact (Nat.cast_le.2 (Nat.lt_succ_iff.1 hk)).trans hle
  · exact Nat.cast_lt.1 (hk.trans_lt hlt)

namespace Renderer

def gridLine (f : Frame) (box : Box) (beat : Float) : Spot × Spot :=
  let x := Layout.beatX f.viewStart f.viewEnd (ofWhole box.x) (ofWhole box.w) beat
  (⟨x, ofWhole box.y⟩, ⟨x, ofWhole box.bottom⟩)

def gridEntry (f : Frame) (box : Box) (beat : Float) : Entry :=
  .drawn (.line ⟨44, 44, 52⟩ (gridLine f box beat).1 (gridLine f box beat).2 1)

section Loop

variable {f : Frame} {box : Box} {beat : Float} {k m : ℕ}
  (hf : f.InView) (hy : ofWhole? box.y = .ok (ofWhole box.y))
  (hb : ofWhole? box.bottom = .ok (ofWhole box.bottom))

include hf in
/-- The test of the loop. -/
theorem inView_iff (hbeat : Counts beat k) :
    (f.viewStart < f.viewEnd && beat ≤ f.viewEnd) = true ↔ (k : EReal) ≤ worth f.viewEnd := by
  have hend : Numeric f.viewEnd := (numeric_of_lt hf.finish).2
  rw [Bool.and_eq_true, decide_eq_true_iff, decide_eq_true_iff, hf.start,
    le_iff hbeat.numeric hend, hbeat.worth]
  exact and_iff_right hf.finish

include hf in
theorem on_drawBeats_beyond (hbeat : Counts beat k) (hk : ¬ (k : EReal) ≤ worth f.viewEnd) (n : ℕ)
    (b : Bench Renderer) : (drawBeats f box (n + 1) beat).on b = some (.ok (), b) := by
  have htest := mt (inView_iff hf hbeat).1 hk
  rw [drawBeats, if_neg htest]
  rfl

include hf hy hb in
/-- One step of the loop draws one line and goes to the next beat. -/
theorem on_drawBeats_within (hbeat : Counts beat k) (hk : (k : EReal) ≤ worth f.viewEnd) (n : ℕ)
    (b : Bench Renderer) : (drawBeats f box (n + 1) beat).on b =
      (drawBeats f box n (beat + 1)).on ⟨b.part, gridEntry f box beat :: b.journal⟩ := by
  have htest := (inView_iff hf hbeat).2 hk
  rw [drawBeats, if_pos htest]
  dsimp only
  rw [coordinate, coordinate, hy, hb, on_bind_ok (on_orFail _ b), on_bind_ok (on_orFail _ b)]
  exact on_bind_ok rfl

include hf hy hb in
/-- From beat `k` on the loop draws a line at each of the beats that are left and comes to an end,
if it may take one step more than there are beats. -/
theorem on_drawBeats (hm : f.HasBeats m) (hsmall : m ≤ 2 ^ 53) (hbeat : Counts beat k) {n : ℕ}
    (hk : k ≤ m) (hn : m < k + n) (b : Bench Renderer) :
    (drawBeats f box n beat).on b = some (.ok (), ⟨b.part,
      ((List.iterate (· + 1) beat (m - k)).map (gridEntry f box)).reverse ++ b.journal⟩) := by
  -- on the steps: each of them but the last leaves one beat fewer and one step fewer
  induction n generalizing beat k b with
  | zero => omega
  | succ n ih =>
    rcases hk.lt_or_eq with hlt | rfl
    · obtain ⟨j, hj⟩ : ∃ j, m - k = j + 1 := ⟨m - k - 1, by omega⟩
      have hrest : m - (k + 1) = j := by omega
      rw [on_drawBeats_within hf hy hb hbeat ((hm k).1 hlt),
        ih (hbeat.succ (hlt.trans_le hsmall)) hlt (by omega), hj, hrest, List.iterate,
        List.map_cons, List.reverse_cons, List.append_assoc]
      rfl
    · rw [on_drawBeats_beyond hf hbeat (mt (hm k).2 (lt_irrefl k)), Nat.sub_self]
      rfl

include hf hy hb in
/-- Fewer steps are not enough. -/
theorem on_drawBeats_short (hm : f.HasBeats m) (hsmall : m ≤ 2 ^ 53) (hbeat : Counts beat k)
    {n : ℕ} (hn : k + n ≤ m) (b : Bench Renderer) : (drawBeats f box n beat).on b = none := by
  induction n generalizing beat k b with
  | zero => rfl
  | succ n ih =>
    have hlt : k < m := by omega
    rw [on_drawBeats_within hf hy hb hbeat ((hm k).1 hlt)]
    exact ih (hbeat.succ (hlt.trans_le hsmall)) (by omega) _

include hf hy hb in
/-- In a view that ends behind the numbers that can be counted, the loop does not come to an end. -/
theorem drawBeats_stuck (hfar : ((2 ^ 53 : ℕ) : EReal) ≤ worth f.viewEnd) (hbeat : Counts beat k)
    (hk : k ≤ 2 ^ 53) (n : ℕ) (b : Bench Renderer) : (drawBeats f box n beat).on b = none := by
  induction n generalizing beat k b with
  | zero => rfl
  | succ n ih =>
    -- the beat is in view whatever it is, for it never gets beyond the last one that is counted
    rw [on_drawBeats_within hf hy hb hbeat ((Nat.cast_le.2 hk).trans hfar)]
    rcases hk.lt_or_eq with hlt | rfl
    · exact ih (hbeat.succ hlt) hlt _
    · exact ih hbeat.stuck le_rfl _

end Loop

/-- The beats of the loop are the natural numbers, as far as they can be counted. -/
theorem counts_iterate {beat : Float} {k j : ℕ} (hbeat : Counts beat k) (h : k + j ≤ 2 ^ 53) :
    List.Forall₂ Counts (List.iterate (· + 1) beat j) (List.range' k j) := by
  induction j generalizing beat k with
  | zero => exact .nil
  | succ j ih => exact .cons hbeat (ih (hbeat.succ (by omega)) (by omega))

/-! ## The steps that are allowed -/

theorem beatsToPass_of_near {f : Frame} (hf : f.InView) {n : ℕ}
    (htrunc : truncate f.viewEnd = .ok n) (hsmall : n < 2 ^ 53) :
    beatsToPass f.viewStart f.viewEnd = n + 2 := by
  have hpow : pow 2 53 = 2 ^ 53 := rfl
  rw [beatsToPass, hf.start, if_pos hf.finish, htrunc, hpow]
  exact if_pos hsmall

/-- Behind the numbers that can be counted no number of steps is allowed. -/
theorem beatsToPass_of_far {f : Frame} (hf : f.InView)
    (hfar : ((2 ^ 53 : ℕ) : EReal) ≤ worth f.viewEnd) :
    beatsToPass f.viewStart f.viewEnd = 0 := by
  have hpow : pow 2 53 = 2 ^ 53 := rfl
  have hnot : ¬ f.viewEnd < 0 := fun hlt => lt_asymm (worth_lt hf.finish) (worth_lt hlt)
  rw [beatsToPass, hf.start, if_pos hf.finish]
  rcases (le_top : worth f.viewEnd ≤ ⊤).lt_or_eq with hfin | htop
  · obtain ⟨n, htrunc, hle, hlt⟩ := truncate_of_pos hf.pos hfin
    have hlarge : 2 ^ 53 ≤ n := Nat.lt_succ_iff.1 (Nat.cast_lt.1 (hfar.trans_lt hlt))
    rw [htrunc, hpow]
    exact if_neg (by simpa using hlarge)
  · rw [truncate_of_top htop]
    exact if_neg hnot

end Renderer

end PianoRoll
