import PianoRoll.Proofs.Playback.Lanes
import PianoRoll.Proofs.Session.Stages

/-!
Runs on schedule. The timers of a run are those of its triggers, each at the moment of its trigger
measured from the beginning, and none is lost before it has fired. Whatever a session is asked for
while the run is under way, this stays so (`Punctual.stage`).
-/

namespace PianoRoll.Studio

open Timers

def plan (s : Studio) : List (Float × Trigger) :=
  triggers s.settings.startDelay s.transport.notes

/-- The timers from the first one of a run on are those of its plan, measured from its beginning:
each of them waits or has fired, and no other one is still to come. -/
structure OnSchedule (start : Float) (first : Nat) (s : Studio) : Prop where
  begins : s.transport.start = some start
  own : ∀ serial ∈ s.transport.pending, ∃ i < s.plan.length, serial = first + i
  timer : ∀ i m, s.plan[i]? = some m → ∃ t, s.timers.get? (first + i) = some t ∧
    (t.deadline, t.task) = s.placed start m ∧
      (first + i ∈ s.transport.pending ∨ t.fired = true)

structure Punctual (s : Studio) : Prop where
  steady : ∃ run, Steady run s
  schedule : s.transport.playing = true → ∃ start first, OnSchedule start first s

structure SamePlan (s s' : Studio) : Prop where
  settings : s'.settings = s.settings
  run : SameRun s s'
  bpm : s'.transport.bpm = s.transport.bpm
  notes : s'.transport.notes = s.transport.notes

theorem Calm.samePlan {s s' : Studio} (h : Calm s s') : SamePlan s s' :=
  ⟨h.settings, h.run, h.bpm, h.notes⟩

theorem Struck.samePlan {pitch : Int} {s s' : Studio} (h : Struck pitch s s') : SamePlan s s' := by
  cases h with
  | marked => exact ⟨rfl, ⟨rfl, rfl, rfl, rfl⟩, rfl, rfl⟩
  | nowhere => exact ⟨rfl, .refl s, rfl, rfl⟩

namespace OnSchedule

variable {start : Float} {first : Nat} {s s' : Studio} (h : OnSchedule start first s)
include h

theorem aside (same : SamePlan s s') : OnSchedule start first s' := by
  have plan : s'.plan = s.plan := by rw [Studio.plan, Studio.plan, same.settings, same.notes]
  have placed : s'.placed = s.placed := by
    funext start m
    rw [Studio.placed, Studio.placed, same.settings, same.bpm]
  refine ⟨same.run.start.trans h.begins, ?_, ?_⟩
  · rw [same.run.pending, plan]
    exact h.own
  · rw [same.run.pending, same.run.timers, plan, placed]
    exact h.timer

/-- What leaves the queue stays a timer. -/
theorem passed {now : Float} {serial : Nat} {ts : Timers Task}
    (due : s.timers.takeDue? now = some (serial, ts)) :
    OnSchedule start first { s with timers := ts } := by
  refine ⟨h.begins, h.own, fun i m hm => ?_⟩
  have same : ts.get? (first + i) = s.timers.get? (first + i) :=
    get?_congr (takeDue?_inv due).1 _
  obtain ⟨t, ht, rest⟩ := h.timer i m hm
  exact ⟨t, same.trans ht, rest⟩

/-- A timer that executes its trigger has fired from then on. -/
theorem fires {serial : Nat} {t : Trigger} (fires : Fires s serial t s') :
    OnSchedule start first s' := by
  obtain ⟨now, ts, due, rfl⟩ := fires.due
  refine ⟨h.begins, fun n hn => h.own n (List.mem_of_mem_erase hn), fun i m hm => ?_⟩
  obtain ⟨timer, ht, placed, waits⟩ := (h.passed due).timer i m hm
  change ts.get? (first + i) = some timer at ht
  change ∃ timer', (ts.markFired serial).get? (first + i) = some timer' ∧ _
  rw [get?_markFired, ht]
  split
  · exact ⟨{ timer with fired := true }, rfl, placed, .inr rfl⟩
  · next other =>
    exact ⟨timer, rfl, placed, waits.imp_left (List.mem_erase_of_ne (Ne.symm other)).2⟩

/-- A timer that is still to come is that of a trigger of the plan. -/
theorem trigger {serial : Nat} (waits : serial ∈ s.transport.pending) :
    ∃ m ∈ s.plan, ∃ t, s.timers.get? serial = some t ∧ (t.deadline, t.task) = s.placed start m := by
  obtain ⟨i, hi, rfl⟩ := h.own serial waits
  obtain ⟨t, ht, placed, -⟩ := h.timer i _ (List.getElem?_eq_getElem hi)
  exact ⟨_, List.getElem_mem hi, t, ht, placed⟩

end OnSchedule

/-- A run that begins is on schedule. -/
theorem onSchedule_begun (notes : List Note) (bpm : Float) (extent : Option Extent) (s : Studio) :
    OnSchedule s.clock s.timers.timers.size (s.begun notes bpm extent) := by
  let plan := triggers s.settings.startDelay notes
  let tasks := plan.map ((s.prepared notes bpm extent).placed s.clock)
  have pending (i : Nat) (hi : i < plan.length) :
      s.timers.timers.size + i ∈ List.range' s.timers.timers.size plan.length :=
    List.mem_range'_1.2 ⟨Nat.le_add_right _ _, Nat.add_lt_add_left hi _⟩
  refine ⟨rfl, fun serial waits => ?_, fun i m hm => ?_⟩
  · obtain ⟨low, high⟩ := List.mem_range'_1.1 waits
    obtain ⟨i, rfl⟩ := Nat.exists_eq_add_of_le low
    exact ⟨i, Nat.lt_of_add_lt_add_left high, rfl⟩
  · change plan[i]? = some m at hm
    have here : tasks[i]? = some ((s.prepared notes bpm extent).placed s.clock m) := by
      rw [List.getElem?_map, hm]
      rfl
    refine ⟨⟨_, _, false, false⟩, ?_, rfl, .inl (pending i (List.getElem?_eq_some_iff.1 hm).1)⟩
    change (s.timers.enter tasks).get? (s.timers.timers.size + i) = _
    rw [get?_enter, here]
    rfl

namespace Punctual

variable {may : Command → Bool} {s s' : Studio}

theorem fresh (h : Fresh s) : Punctual s :=
  ⟨⟨none, h.steady⟩, fun plays => absurd plays (by simp [h.playing])⟩

/-- The timer that fires is that of a trigger of the plan. -/
theorem mem_plan_of_fires (hs : Punctual s) {serial : Nat} {t : Trigger}
    (fires : Fires s serial t s') : s.transport.playing = true ∧ ∃ beat, (beat, t) ∈ s.plan := by
  obtain ⟨run, steady⟩ := hs.steady
  have waits := steady.mem_of_fires fires
  have plays := steady.pending.2 (List.ne_nil_of_mem waits)
  obtain ⟨start, first, schedule⟩ := hs.schedule plays
  obtain ⟨m, hm, timer, ht, placed⟩ := schedule.trigger waits
  obtain ⟨timer', ht', -, task⟩ := fires.alive
  obtain rfl : timer = timer' := Option.some.inj (ht.symm.trans ht')
  have same : Task.playback m.2 = .playback t := (Prod.mk.inj placed).2.symm.trans task
  exact ⟨plays, m.1, Task.playback.inj same ▸ hm⟩

/-- A note that fires is one of those that are played. -/
theorem mem_notes_of_fires (hs : Punctual s) {serial : Nat} {n : Note}
    (fires : Fires s serial (.noteOn n) s') :
    s.transport.playing = true ∧ n ∈ s.transport.notes := by
  obtain ⟨plays, beat, hm⟩ := hs.mem_plan_of_fires fires
  exact ⟨plays, mem_of_mem_triggers hm⟩

theorem schedule_stage {es : List Entry} (h : Stage may s es s') (hs : Punctual s)
    (plays : s'.transport.playing = true) : ∃ start first, OnSchedule start first s' := by
  cases h with
  | calm same =>
    obtain ⟨start, first, schedule⟩ := hs.schedule (same.run.playing.symm.trans plays)
    exact ⟨start, first, schedule.aside same.samePlan⟩
  | begin => exact ⟨_, _, onSchedule_begun _ _ _ _⟩
  | fail chosen rests =>
    exact absurd (rests.symm.trans (chosen.sameRun.playing.symm.trans plays)) nofun
  | stop => cases plays
  | pass due =>
    obtain ⟨start, first, schedule⟩ := hs.schedule plays
    exact ⟨start, first, schedule.passed due⟩
  | play _ fires same =>
    obtain ⟨start, first, schedule⟩ := hs.schedule (hs.mem_plan_of_fires fires).1
    exact ⟨start, first, (schedule.fires fires).aside same.samePlan⟩
  | strike fires same struck =>
    obtain ⟨start, first, schedule⟩ := hs.schedule (hs.mem_plan_of_fires fires).1
    exact ⟨start, first, ((schedule.fires fires).aside same.samePlan).aside struck.samePlan⟩
  | finish => cases plays

/-- Whatever happens at a stage, runs stay on schedule. -/
theorem stage {es : List Entry} (h : Stage may s es s') (hs : Punctual s) : Punctual s' := by
  obtain ⟨ds, course⟩ := h.course
  obtain ⟨run, steady⟩ := hs.steady
  exact ⟨⟨_, (course.steady steady).1⟩, hs.schedule_stage h⟩

theorem preserved : Preserved may fun _ => Punctual := fun hs stage => hs.stage stage

end Punctual

end PianoRoll.Studio
