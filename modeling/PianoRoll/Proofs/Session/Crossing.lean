import PianoRoll.Proofs.Number.Quotient
import PianoRoll.Proofs.Session.Frames
import PianoRoll.Proofs.Session.Punctual
import PianoRoll.Renderer

/-!
Notes cross the line when they are due. When a note begins is computed from its beat, in
milliseconds, as its run begins, and where it is on the screen from the seconds that have gone by,
in beats. The formulas are the same for any numbers (`Timing`), and over exact ones each undoes the
other (`Timing.place_eq`). So in a run a note is on the right of the line, on it or on
the left of it before, at or after the deadline of its timer (`notes_cross_when_due`).
-/

namespace PianoRoll

structure Timing (α : Type) where
  reference : α
  bpm : α
  /-- The beats that go by before the first one. -/
  lead : α
  /-- The moment when the run began. -/
  start : α

namespace Timing

/-! ## Formulas -/

section Formulas

variable {α : Type} [Add α] [Sub α] [Mul α] [Div α] [LT α] [DecidableLT α] [OfNat α 0] [OfNat α 1]
  [OfNat α 1000] (t : Timing α)

def positivePart (x : α) : α := if 0 < x then x else 0

def deadline (beat : α) : α :=
  t.start + positivePart (millisecondsOf t.reference t.bpm (beat + t.lead)) / 1000

def beats (now : α) : α :=
  beatsOf (millisecondsOf t.reference t.bpm 1) (positivePart (now - t.start))

/-- The place of a beat at a moment, when a beat is so wide. -/
def place (hitX pace beat now : α) : α := Layout.movingXOf (t.beats now) t.lead hitX pace beat

end Formulas

/-- Formulas over doubles are those that playing goes by. -/
theorem deadline_eq (t : Timing Float) (beat : Float) :
    t.deadline beat =
      Timers.deadline t.start (millisecondsOf t.reference t.bpm (beat + t.lead)) := rfl

theorem beats_eq (t : Timing Float) (now : Float) :
    t.beats now = beatsOf (millisecondsOf t.reference t.bpm 1) (secondsSince t.start now) := rfl

/-! ## Exact numbers -/

/-- A beat lasts, and the run does not begin before its beginning. -/
structure Sound (t : Timing ℚ) : Prop where
  reference : 0 < t.reference
  bpm : 0 < t.bpm
  lead : 0 ≤ t.lead

theorem positivePart_of_nonneg {x : ℚ} (h : 0 ≤ x) : positivePart x = x := by
  unfold positivePart
  split
  · rfl
  · next not_pos => exact le_antisymm h (not_lt.1 not_pos)

section Exact

variable {t : Timing ℚ} (h : t.Sound) {beat : ℚ} (later : 0 ≤ beat)
include h

include later in
/-- A beat is due as many seconds after the beginning as it lasts with what comes before it. -/
theorem deadline_exact : t.deadline beat = t.start + (beat + t.lead) * (t.reference / t.bpm) := by
  have ratio : 0 < t.reference / t.bpm := div_pos h.reference h.bpm
  have delay : 0 ≤ millisecondsOf t.reference t.bpm (beat + t.lead) :=
    mul_nonneg (mul_nonneg (add_nonneg later h.lead) (by norm_num)) ratio.le
  rw [deadline, positivePart_of_nonneg delay, millisecondsOf]
  ring

/-- So many beats have gone by as the seconds last. -/
theorem beats_exact {now : ℚ} (begun : t.start ≤ now) :
    t.beats now = (now - t.start) * (t.bpm / t.reference) := by
  have reference := h.reference.ne'
  have bpm := h.bpm.ne'
  rw [beats, positivePart_of_nonneg (sub_nonneg.2 begun), beatsOf, millisecondsOf]
  field_simp

include later in
/-- A beat is as far from the line as its deadline from now, in beats. -/
theorem place_eq (hitX pace : ℚ) {now : ℚ} (begun : t.start ≤ now) :
    t.place hitX pace beat now =
      hitX + (t.deadline beat - now) * (t.bpm / t.reference * pace) := by
  have reference := h.reference.ne'
  have bpm := h.bpm.ne'
  rw [place, Layout.movingXOf, beats_exact h begun, deadline_exact h later]
  field_simp
  ring

end Exact

/-- A beat is before the line, on it or behind it as its time has yet to come, comes or has come. -/
structure Crosses (t : Timing ℚ) (hitX pace beat now : ℚ) : Prop where
  before : hitX < t.place hitX pace beat now ↔ now < t.deadline beat
  at_line : t.place hitX pace beat now = hitX ↔ now = t.deadline beat
  behind : t.place hitX pace beat now < hitX ↔ t.deadline beat < now

theorem Sound.crosses {t : Timing ℚ} (h : t.Sound) {hitX pace beat now : ℚ} (moves : 0 < pace)
    (later : 0 ≤ beat) (begun : t.start ≤ now) : t.Crosses hitX pace beat now := by
  have speed : 0 < t.bpm / t.reference * pace := mul_pos (div_pos h.bpm h.reference) moves
  have place := place_eq h later hitX pace begun
  constructor
  · rw [place, lt_add_iff_pos_right, mul_pos_iff_of_pos_right speed, sub_pos]
  · rw [place, add_eq_left, mul_eq_zero_iff_right speed.ne', sub_eq_zero, eq_comm]
  · rw [place, add_lt_iff_neg_left, ← zero_mul (t.bpm / t.reference * pace),
      mul_lt_mul_iff_left₀ speed, sub_neg]

end Timing

/-! ## The exact numbers of a run -/

def Number.exactly (x : Float) : ℚ :=
  match content x with
  | .finite negative digits exponent => (signed negative digits : ℚ) * 2 ^ exponent
  | _ => 0

theorem Number.worth_exactly {x : Float} (h : isFinite x = true) :
    worth x = ((exactly x : ℝ) : EReal) := by
  unfold isFinite at h
  cases hc : content x with
  | nan => simp [hc] at h
  | infinite negative => simp [hc] at h
  | finite negative digits exponent =>
    rw [worth_of_content hc, exactly, hc]
    push_cast
    rfl

theorem Number.exactly_nonneg {x : Float} (h : isFinite x = true) (nonneg : 0 ≤ x) :
    0 ≤ exactly x := by
  have le := worth_le nonneg
  rw [worth_zero, worth_exactly h] at le
  exact_mod_cast EReal.coe_nonneg.1 le

theorem Number.exactly_pos {x : Float} (h : isFinite x = true) (pos : 0 < x) :
    0 < exactly x := by
  have lt := worth_lt pos
  rw [worth_zero, worth_exactly h] at lt
  exact_mod_cast EReal.coe_pos.1 lt

def Timing.exactly (t : Timing Float) : Timing ℚ :=
  ⟨Number.exactly t.reference, Number.exactly t.bpm, Number.exactly t.lead, Number.exactly t.start⟩

namespace Studio

open Number

def timing (s : Studio) (start : Float) : Timing Float :=
  ⟨s.settings.referenceBpm, s.transport.bpm, s.settings.startDelay, start⟩

/-- Picture and sound of a run go by the same numbers: each note that is played has a timer, which
waits or has fired, the deadline of such a timer is that of the beat of its note, and each moment
that is shown has the notes at the places of their beats. -/
structure InTime (t : Timing Float) (s : Studio) : Prop where
  timed : ∀ n ∈ s.transport.notes, ∃ serial timer, s.timers.get? serial = some timer ∧
    timer.task = .playback (.noteOn n) ∧ timer.deadline = t.deadline n.start ∧
      (serial ∈ s.transport.pending ∨ timer.fired = true)
  waiting : ∀ serial ∈ s.transport.pending, ∀ timer n, s.timers.get? serial = some timer →
    timer.task = .playback (.noteOn n) → timer.deadline = t.deadline n.start
  shown : ∀ now f, s.session.frame? s.transport s.settings now = .ok (some f) →
    f.notes = s.transport.notes ∧ ∀ hitX pace n,
      Renderer.movingX f hitX pace n = t.place (ofWhole hitX) pace n.start now

theorem mem_triggers_of_mem (lead : Float) {notes : List Note} {n : Note} (hn : n ∈ notes) :
    (n.start + lead, .noteOn n) ∈ triggers lead notes :=
  List.mem_append_left _ (List.mem_flatMap.2 ⟨n, hn, List.mem_cons_self⟩)

theorem beat_of_mem_triggers {lead beat : Float} {notes : List Note} {n : Note}
    (h : (beat, .noteOn n) ∈ triggers lead notes) : beat = n.start + lead := by
  simp only [triggers, List.mem_append, List.mem_flatMap, List.mem_cons, Prod.mk.injEq,
    Trigger.noteOn.injEq, reduceCtorEq, and_false, List.not_mem_nil, or_false] at h
  obtain ⟨m, -, beat, rfl⟩ := h
  exact beat

/-- What is shown of a run counts its beats. -/
theorem beats_of_frame {s : Studio} {start now : Float} {f : Frame}
    (plays : s.transport.playing = true) (begins : s.transport.start = some start)
    (tells : f.Tells s.session s.transport s.settings now) :
    f.elapsedBeats = (s.timing start).beats now := by
  have counted := tells.counted
  have elapsed : s.transport.elapsed now = secondsSince start now := by
    rw [Transport.elapsed, plays, begins]
  rw [Transport.elapsedBeats, beatsToMs, elapsed] at counted
  split at counted
  · cases counted
  · change (if _ then _ else _) = _ at counted
    split at counted
    · cases counted
    · rw [Timing.beats_eq]
      exact (Except.ok.inj counted).symm

/-- A run on schedule is in time. -/
theorem OnSchedule.inTime {start : Float} {first : Nat} {s : Studio}
    (h : OnSchedule start first s) (plays : s.transport.playing = true) :
    InTime (s.timing start) s where
  timed n hn := by
    have mem := mem_triggers_of_mem s.settings.startDelay hn
    obtain ⟨i, hi⟩ := List.mem_iff_getElem?.1 mem
    obtain ⟨timer, here, placed, waits⟩ := h.timer i _ hi
    obtain ⟨deadline, task⟩ := Prod.mk.inj placed
    refine ⟨first + i, timer, here, task, ?_, waits⟩
    rw [Timing.deadline_eq]
    exact deadline
  waiting serial waits timer n here task := by
    obtain ⟨⟨beat, trigger⟩, hm, timer', here', placed⟩ := h.trigger waits
    obtain rfl := Option.some.inj (here.symm.trans here')
    obtain ⟨deadline, task'⟩ := Prod.mk.inj placed
    obtain rfl : trigger = .noteOn n := Task.playback.inj (task'.symm.trans task)
    rw [deadline, beat_of_mem_triggers hm, Timing.deadline_eq]
    rfl
  shown now f hf := by
    have tells := Session.tells_of_frame? hf
    refine ⟨(tells.run plays).1, fun hitX pace n => ?_⟩
    rw [Renderer.movingX, beats_of_frame plays h.begins tells, tells.startDelay]
    rfl

/-- A run that began at a moment is in time, and by the formulas that sound and picture go by, read
over exact numbers, each of its notes is on the right of the line, on it or on the left of it
before, at or after the deadline of its timer. -/
structure OnTime (start : Float) (s : Studio) : Prop where
  begins : s.transport.start = some start
  inTime : InTime (s.timing start) s
  crosses : (s.timing start).exactly.Sound → ∀ n ∈ s.transport.notes, 0 ≤ exactly n.start →
    ∀ hitX pace now : ℚ, 0 < pace → exactly start ≤ now →
      (s.timing start).exactly.Crosses hitX pace (exactly n.start) now

/-- If a run is under way, picture and sound of it are in step. -/
def RunsOnTime (s : Studio) : Prop := s.transport.playing = true → ∃ start, OnTime start s

theorem Punctual.runsOnTime {s : Studio} (hs : Punctual s) : RunsOnTime s := by
  intro plays
  obtain ⟨start, first, schedule⟩ := hs.schedule plays
  refine ⟨start, schedule.begins, schedule.inTime plays, ?_⟩
  intro sound n _ later hitX pace now moves begun
  exact sound.crosses moves later begun

/-- Whatever a session is asked for, in a run each note crosses the line when it is due. Those who
look at it in the middle of something else may expect the same. -/
theorem notes_cross_when_due {h : Hooks}
    (hears : ∀ l e, Callback (.consulting Command.ofSession RunsOnTime) (h.hear l e))
    {cs : List Command} (hcs : ∀ c ∈ cs, c.ofSession = true) {s : Studio} (fresh : Fresh s)
    {steps : List Step} (hrun : inTurn h cs s = some steps) : RunsOnTime (s.after steps) := by
  have punctual : Punctual (s.after steps) :=
    Punctual.preserved.inTurn id Punctual.runsOnTime hears hcs [] fresh.onlyPlayback
      (.fresh fresh) hrun
  exact punctual.runsOnTime

/-- Whether a run is under way in which a beat lasts, with a note that does not begin before it. -/
def soundRun (s : Studio) : Bool :=
  s.transport.playing && (isFinite s.settings.referenceBpm && 0 < s.settings.referenceBpm) &&
    (isFinite s.transport.bpm && 0 < s.transport.bpm) &&
    (isFinite s.settings.startDelay && 0 ≤ s.settings.startDelay) &&
    s.transport.notes.any fun n => isFinite n.start && 0 ≤ n.start

theorem notes_cross_when_due_revision : ∃ steps start,
    inTurn revising revision revisedStudio = some steps ∧
    (revisedStudio.after steps).transport.start = some start ∧
    InTime ((revisedStudio.after steps).timing start) (revisedStudio.after steps) ∧
    ∃ n ∈ (revisedStudio.after steps).transport.notes, ∀ now : ℚ, exactly start ≤ now →
      ((revisedStudio.after steps).timing start).exactly.Crosses 80 100 (exactly n.start) now := by
  have sound : ((inTurn revising revision revisedStudio).map fun steps =>
      soundRun (revisedStudio.after steps)) = some true := by decide +kernel
  obtain ⟨steps, hrun, sound⟩ := Option.map_eq_some_iff.1 sound
  simp only [soundRun, Bool.and_eq_true, decide_eq_true_eq, List.any_eq_true] at sound
  obtain ⟨⟨⟨⟨plays, reference⟩, bpm⟩, lead⟩, n, hn, later⟩ := sound
  obtain ⟨start, onTime⟩ :=
    notes_cross_when_due (consulting_revising fun _ => Command.ofSession_of_playsOwn) (by decide)
      fresh_revisedStudio hrun plays
  refine ⟨steps, start, hrun, onTime.begins, onTime.inTime, n, hn, fun now begun => ?_⟩
  have beat := exactly_nonneg later.1 later.2
  refine onTime.crosses ⟨?_, ?_, ?_⟩ n hn beat 80 100 now (by norm_num) begun
  · exact exactly_pos reference.1 reference.2
  · exact exactly_pos bpm.1 bpm.2
  · exact exactly_nonneg lead.1 lead.2

end Studio

end PianoRoll
