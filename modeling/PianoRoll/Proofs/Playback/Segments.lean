import PianoRoll.Proofs.Playback.Sounding
import PianoRoll.Studio.Rehearsal

/-!
The stretches of playback between two events, each as a function on studios: preparing and
beginning a run (`prepared`, `begun`), taking a timer out of the queue (`taken`), calling off what
is left of a run (`calledOff`) and ending it (`ended`). The equations say which stretch an
operation goes through before it publishes.
-/

namespace PianoRoll

namespace Timers

variable {τ : Type}

def enter (ts : Timers τ) (tasks : List (Float × τ)) : Timers τ :=
  tasks.foldl (fun ts m => (ts.schedule m.1 m.2).2) ts

theorem enter_cons (ts : Timers τ) (m : Float × τ) (tasks : List (Float × τ)) :
    ts.enter (m :: tasks) = (ts.schedule m.1 m.2).2.enter tasks := rfl

def cancelAll (ts : Timers τ) (serials : List Nat) : Timers τ :=
  serials.foldl (fun ts n => ts.cancel n) ts

end Timers

namespace Studio

open Work

/-- A transport that has taken over what it is to play. -/
def prepared (notes : List Note) (bpm : Float) (extent : Option Extent) (s : Studio) : Studio :=
  { s with transport := { s.transport with bpm, notes, extent := extent.or (Extent.of? notes) } }

/-- A trigger as a task with its moment, some beats after the beginning of the run. -/
def placed (s : Studio) (start : Float) (m : Float × Trigger) : Float × Task :=
  (Timers.deadline start (millisecondsOf s.settings.referenceBpm s.transport.bpm m.1),
    .playback m.2)

def begun (notes : List Note) (bpm : Float) (extent : Option Extent) (s : Studio) : Studio :=
  let p := s.prepared notes bpm extent
  let plan := triggers s.settings.startDelay notes
  { p with
    timers := s.timers.enter (plan.map (p.placed s.clock))
    transport := { p.transport with
      pending := List.range' s.timers.timers.size plan.length
      start := some s.clock
      playing := true } }

def calledOff (s : Studio) : Studio :=
  { s with
    timers := s.timers.cancelAll s.transport.pending
    transport := { s.transport with pending := [] } }

def ended (s : Studio) : Studio :=
  { s with transport := { s.transport with playing := false, start := none } }

/-- A studio that starts the task of a timer of its run. -/
def taken (serial : Nat) (s : Studio) : Studio :=
  { s with
    timers := s.timers.markFired serial
    transport := { s.transport with pending := s.transport.pending.erase serial } }

theorem on_changeTransport (f : Transport → Transport) (b : Bench Studio) :
    (changeTransport f).on b =
      some (.ok (), ⟨{ b.part with transport := f b.part.transport }, b.journal⟩) := rfl

/-! ## Beginning a run -/

theorem scheduleAll_on (start : Float) (plan : List (Float × Trigger)) (b : Bench Studio)
    (hb : (b.part.transport.bpm == 0) = false) :
    (scheduleAll start plan).on b =
      some (.ok (List.range' b.part.timers.timers.size plan.length),
        ⟨{ b.part with timers := b.part.timers.enter (plan.map (b.part.placed start)) },
          b.journal⟩) := by
  induction plan generalizing b with
  | nil => rfl
  | cons m plan ih =>
    obtain ⟨beats, t⟩ := m
    let b₁ : Bench Studio :=
      ⟨{ b.part with timers :=
          (b.part.timers.schedule (b.part.placed start (beats, t)).1 (.playback t)).2 }, b.journal⟩
    have hfirst : (scheduleTrigger start beats t).on b =
        some (.ok b.part.timers.timers.size, b₁) := by
      unfold scheduleTrigger
      rw [on_bind_ok (on_look b), beatsToMs, hb]
      rfl
    have hsize : b₁.part.timers.timers.size = b.part.timers.timers.size + 1 :=
      Array.size_push ..
    rw [scheduleAll, on_bind_ok hfirst, on_bind_ok (ih b₁ hb), hsize]
    rfl

/-- Without a tempo the first trigger already fails, and no timer is set. -/
theorem scheduleAll_on_fault (start : Float) (m : Float × Trigger) (plan : List (Float × Trigger))
    (b : Bench Studio) (hb : (b.part.transport.bpm == 0) = true) :
    (scheduleAll start (m :: plan)).on b = some (.error .realDivision, b) := by
  have hfirst : (scheduleTrigger start m.1 m.2).on b = some (.error .realDivision, b) := by
    unfold scheduleTrigger
    rw [on_bind_ok (on_look b), beatsToMs, hb]
    rfl
  rw [scheduleAll, on_bind_error hfirst]

/-- A run does not begin while another one is under way, or without notes. -/
theorem startPlayback_on_refused (h : Hooks) {notes : List Note} (bpm : Option Float)
    (extent : Option Extent) {b : Bench Studio}
    (hb : (b.part.transport.playing || notes.isEmpty) = true) :
    (startPlayback h notes bpm extent).on b = some (.ok false, b) := by
  unfold startPlayback
  rw [on_bind_ok (on_look b), if_pos hb]
  rfl

theorem triggers_eq_cons (lead : Float) (n : Note) (notes : List Note) :
    ∃ m plan, triggers lead (n :: notes) = m :: plan := ⟨_, _, rfl⟩

/-- A run that fails to begin has taken over what it was to play, and nothing else. -/
theorem startPlayback_on_fault (h : Hooks) {notes : List Note} {bpm : Option Float}
    (extent : Option Extent) {b : Bench Studio}
    (hb : (b.part.transport.playing || notes.isEmpty) = false)
    (ht : (orTempo bpm b.part.settings.tempo == 0) = true) :
    (startPlayback h notes bpm extent).on b = some (.error .realDivision,
      ⟨b.part.prepared notes (orTempo bpm b.part.settings.tempo) extent, b.journal⟩) := by
  cases notes with
  | nil => simp at hb
  | cons n notes =>
    obtain ⟨m, plan, hplan⟩ := triggers_eq_cons b.part.settings.startDelay n notes
    unfold startPlayback
    rw [on_bind_ok (on_look b), if_neg (by rw [hb]; exact Bool.false_ne_true), hplan]
    refine (on_bind_ok (on_changeTransport _ b)).trans ?_
    exact on_bind_error (scheduleAll_on_fault _ m plan _ ht)

def startedLine (notes : List Note) (bpm : Float) : Entry :=
  .log ⟨.info, s!"playback started: {notes.length} notes, bpm={Number.fixed 1 bpm}"⟩

/-- A run that begins sets all its timers before anybody hears of it. -/
theorem startPlayback_on (h : Hooks) {notes : List Note} {bpm : Option Float}
    (extent : Option Extent) {b : Bench Studio}
    (hb : (b.part.transport.playing || notes.isEmpty) = false)
    (ht : (orTempo bpm b.part.settings.tempo == 0) = false) :
    (startPlayback h notes bpm extent).on b =
      (do publish h (.transport true); return true : Act Bool).on
        ⟨b.part.begun notes (orTempo bpm b.part.settings.tempo) extent,
          startedLine notes (orTempo bpm b.part.settings.tempo) :: b.journal⟩ := by
  unfold startPlayback
  rw [on_bind_ok (on_look b), if_neg (by rw [hb]; exact Bool.false_ne_true)]
  refine (on_bind_ok (on_changeTransport _ b)).trans ?_
  let b₁ : Bench Studio :=
    ⟨b.part.prepared notes (orTempo bpm b.part.settings.tempo) extent, b.journal⟩
  have h₁ := scheduleAll_on b.part.clock (triggers b.part.settings.startDelay notes) b₁ ht
  refine (on_bind_ok h₁).trans ?_
  refine (on_bind_ok (on_changeTransport _ _)).trans ?_
  exact on_bind_ok (on_write _ _)

/-! ## Ending a run -/

def publishEnd (h : Hooks) (playing : Bool) : Act Unit := do
  if playing then
    log .info "playback stopped"
    publish h (.transport false)

/-- Ending a run calls its timers off, silences, comes to rest, and only then publishes. -/
theorem stopPlayback_on (h : Hooks) (b : Bench Studio) :
    ∃ a es, (stopPlayback h).on b = (publishEnd h b.part.transport.playing).on
        ⟨{ b.part.calledOff.ended with audio := a }, es ++ b.journal⟩ ∧
      a.isTape = b.part.audio.isTape ∧
      es.filter Entry.audible = b.part.audio.heard .silence ∧
      (sound .silence).on b = some (.ok (), ⟨{ b.part with audio := a }, es ++ b.journal⟩) := by
  obtain ⟨_, b₁, h₁⟩ := succeeds_sound (c := .silence) Synth.succeeds_stopAll
    ⟨b.part.calledOff, b.journal⟩
  obtain ⟨a, es, rfl, tape, hes, any⟩ := sound_inv h₁
  refine ⟨a, es, ?_, tape, hes, any b rfl⟩
  unfold stopPlayback
  rw [on_bind_ok (on_look b)]
  refine (on_bind_ok (on_change _ b)).trans ?_
  refine (on_bind_ok (on_changeTransport _ _)).trans ?_
  exact (on_bind_ok h₁).trans (on_bind_ok (on_changeTransport _ _))

end Studio

end PianoRoll
