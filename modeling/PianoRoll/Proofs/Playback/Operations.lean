import PianoRoll.Proofs.Work
import PianoRoll.Studio.Budget

/-!
Operations carried out in turn, each of which may fail on its own.
-/

namespace PianoRoll.Studio

open Work

/-- Carries out commands in turn; a fault ends its own command only. -/
def inTurn (h : Hooks) : List Command → Studio → Option (List Step)
  | [], _ => some []
  | c :: cs, s => do
    let (outcome, s, entries) ← runAct (carryOut h c) s
    return ⟨outcome, s, entries⟩ :: (← inTurn h cs s)

variable {h : Hooks} {c : Command} {cs : List Command} {s : Studio} {steps : List Step}

theorem inTurn_cons {s' : Studio} {r : Except Fault Answer} {es : List Entry}
    (h₁ : runAct (carryOut h c) s = some (r, s', es)) (h₂ : inTurn h cs s' = some steps) :
    inTurn h (c :: cs) s = some (⟨r, s', es⟩ :: steps) := by
  rw [inTurn, h₁]
  change (inTurn h cs s').bind _ = _
  rw [h₂]
  rfl

/-- The first of some commands is carried out, and then the others. -/
theorem inTurn_cons_inv (hrun : inTurn h (c :: cs) s = some steps) :
    ∃ step rest, steps = step :: rest ∧ inTurn h cs step.studio = some rest ∧
      (carryOut h c).on ⟨s, []⟩ = some (step.outcome, ⟨step.studio, step.entries.reverse⟩) := by
  obtain ⟨⟨r, s₁, es⟩, h₁, hrun⟩ := Option.bind_eq_some_iff.1 hrun
  obtain ⟨rest, h₂, hrun⟩ := Option.bind_eq_some_iff.1 hrun
  obtain ⟨⟨r', b⟩, hon, e⟩ := Option.map_eq_some_iff.1 h₁
  cases e
  exact ⟨_, rest, (Option.some.inj hrun).symm, h₂, hon.trans (by rw [List.reverse_reverse])⟩

def after (s : Studio) (steps : List Step) : Studio := steps.getLast?.elim s Step.studio

theorem after_cons (s : Studio) (step : Step) (steps : List Step) :
    s.after (step :: steps) = step.studio.after steps := by
  cases h : steps.getLast? <;> simp [Studio.after, List.getLast?_cons, h]

/-- What each of some operations leads to, they lead to when carried out in turn. -/
theorem leads_inTurn {R : Studio → Studio → Prop} (hR : Chains R)
    (hcs : ∀ c ∈ cs, Leads R (carryOut h c)) (hrun : inTurn h cs s = some steps) :
    R s (s.after steps) := by
  induction cs generalizing s steps with
  | nil =>
    cases hrun
    exact hR.refl s
  | cons c cs ih =>
    obtain ⟨step, rest, rfl, h₂, hon⟩ := inTurn_cons_inv hrun
    rw [after_cons]
    exact hR.trans (hcs c List.mem_cons_self hon)
      (ih (fun c hc => hcs c (List.mem_cons_of_mem _ hc)) h₂)

end PianoRoll.Studio
