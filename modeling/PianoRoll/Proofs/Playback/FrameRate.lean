import PianoRoll.Proofs.Playback.Lanes

/-!
Playback at any frame rate. A pump that takes what is due and comes to an end can be written down
without its bounds and counters (`Drains`). What is due at one moment is due later, so a pump may be
cut in two at any earlier moment (`Drains.resume`). In a studio whose triggers cannot fail every
pump comes to an end (`Ready.drains`), and with listeners that only record, many ticks are as good
as the last of them (`frame_rate_irrelevant`).
-/

namespace PianoRoll

namespace Timers

variable {τ : Type} {ts ts' : Timers τ} {now : Float} {n : Nat}

/-- What is due at a moment is due later. -/
theorem takeDue?_mono {later : Float} (le : now ≤ later) (h : ts.takeDue? now = some (n, ts')) :
    ts.takeDue? later = some (n, ts') := by
  unfold takeDue? at h ⊢
  split at h
  · cases h
  · split at h
    · next due => rwa [if_pos (Number.float_le_trans due le)]
    · cases h

theorem size_takeDue? (h : ts.takeDue? now = some (n, ts')) :
    ts'.queue.size + 1 = ts.queue.size := by
  obtain ⟨d, -, -, -, perm⟩ := takeDue?_top h
  simpa using perm.length_eq.symm

end Timers

/-- Whether an output takes notes of a loudness: a tape takes all of them, a synthesizer those that
it has a key velocity for. -/
def Audio.Takes (velocity : Float) : Audio → Prop
  | .tape => True
  | .synth _ => ∃ v, Synth.keyVelocity velocity = .ok v

theorem Audio.Takes.of_isTape {velocity : Float} {a a' : Audio} (h : a.Takes velocity)
    (same : a'.isTape = a.isTape) : a'.Takes velocity := by
  cases a with
  | tape => cases a' with
    | tape => exact h
    | synth => cases same
  | synth => cases a' with
    | tape => cases same
    | synth => exact h

/-- An output that takes notes never fails in playback. -/
theorem Audio.Takes.call_on {velocity : Float} {b : Bench Audio} (h : b.part.Takes velocity)
    (t : Trigger) : ∃ b', (Audio.call (t.call velocity)).on b = some (.ok (), b') := by
  obtain ⟨a, j⟩ := b
  cases a with
  | tape => exact ⟨_, rfl⟩
  | synth s =>
    obtain ⟨v, takes⟩ := h
    have succeeds : Work.Succeeds (Audio.toSynth (t.call velocity)) := by
      cases t with
      | noteOn n => exact Synth.succeeds_playNote n.pitch takes
      | noteOff n => exact Synth.succeeds_stopNote n.pitch
      | finish => exact Synth.succeeds_stopAll
    obtain ⟨_, b, on⟩ := succeeds ⟨s, j⟩
    refine ⟨⟨.synth b.part, b.journal⟩, ?_⟩
    change ((Audio.toSynth (t.call velocity)).on ⟨s, j⟩).map _ = _
    rw [on]
    rfl

namespace Studio

open Work Timers

/-! ## Listeners that only record -/

/-- Acts that write on, whatever stands in the journal. -/
abbrev WritesOn {α : Type} (p : Act α) : Prop := Writes (fun _ => True) p

/-- Listeners that only record: they take note of what they hear, and make nothing of what was noted
before. -/
structure Recording (h : Hooks) : Prop where
  discreet : Discreet h
  writes : ∀ l e, WritesOn (h.hear l e)

theorem writesOn_write (e : Entry) : WritesOn (write e) := writes_write e trivial

theorem writesOn_sound (c : SoundCall) : WritesOn (sound c) :=
  writes_sound ⟨fun _ => trivial, fun _ => trivial, trivial⟩ trivial

theorem hereditary_writesOn : Hereditary WritesOn where
  pure := writes_pure
  bind := .bind
  fail e := writes_orFail (.error e)
  rescue := .rescue
  look := writes_look
  write e _ := writesOn_write e
  aside f _ := writes_change f

namespace Recording

variable {h : Hooks} (recording : Recording h)
include recording

theorem keeps (l : Listener) (e : Event) : Keeps (h.hear l e) := by
  intro b r b' hp hb
  obtain ⟨r₁, b₁, h₁, beside⟩ := recording.discreet l e b
  rw [h₁] at hp
  cases hp
  have transport := beside.transport
  exact hb.aside ⟨by rw [transport], by rw [transport], by rw [transport], beside.timers⟩
    (by rw [transport])

theorem performs : Performs WritesOn h where
  sound := writesOn_sound
  publish e _ := hereditary_writesOn.publish (writesOn_write _) fun l => recording.writes l e

theorem writesOn_trigger (t : Trigger) : WritesOn (trigger h t) := by
  by_cases ht : t = .finish
  · subst ht
    exact (writesOn_write _).bind fun _ => writes_look.bind fun _ => (writes_change _).bind fun _ =>
      (writes_change _).bind fun _ => (writesOn_sound _).bind fun _ =>
        (writes_change _).bind fun _ =>
          hereditary_writesOn.allowsNeutral.publishEnd recording.performs _
  · exact hereditary_writesOn.allowsNeutral.note recording.performs ht

end Recording

/-! ## Triggers that cannot fail -/

/-- A playable studio whose audio output takes what it plays. -/
structure Ready (s : Studio) : Prop extends Playable s where
  takes : s.audio.Takes s.transport.velocity

/-- What a trigger leaves as it was. -/
structure Spares (s s' : Studio) : Prop where
  queue : s'.timers.queue = s.timers.queue
  velocity : s'.transport.velocity = s.transport.velocity
  isTape : s'.audio.isTape = s.audio.isTape

theorem Spares.trans {s s' s'' : Studio} (h : Spares s s') (h' : Spares s' s'') : Spares s s'' :=
  ⟨h'.queue.trans h.queue, h'.velocity.trans h.velocity, h'.isTape.trans h.isTape⟩

theorem GoesOn.spares {b b' : Bench Studio} {cs : List SoundCall} (h : GoesOn b cs b') :
    Spares b.part b'.part :=
  ⟨by rw [h.timers], h.velocity, by rw [h.audio]⟩

/-- A sound of playback ends well and changes the output alone. -/
theorem sound_on_takes {b : Bench Studio} (t : Trigger)
    (takes : b.part.audio.Takes b.part.transport.velocity) :
    ∃ a es, (sound (t.call b.part.transport.velocity)).on b =
        some (.ok (), ⟨{ b.part with audio := a }, es ++ b.journal⟩) ∧
      a.isTape = b.part.audio.isTape := by
  obtain ⟨b₁, h₁⟩ := takes.call_on (b := ⟨b.part.audio, b.journal⟩) t
  have on : (sound (t.call b.part.transport.velocity)).on b =
      some (.ok (), ⟨{ b.part with audio := b₁.part }, b₁.journal⟩) := by
    unfold sound
    rw [on_within, h₁]
    rfl
  obtain ⟨a, es, e, isTape, -⟩ := sound_inv on
  exact ⟨a, es, on.trans (by rw [e]), isTape⟩

/-- A trigger ends well if the output takes its sound and the striker reaches its pitch. -/
theorem trigger_ends {h : Hooks} (discreet : Discreet h) {b : Bench Studio} {t : Trigger}
    (takes : b.part.audio.Takes b.part.transport.velocity)
    (reaches : ∀ n, t = .noteOn n → Reaches b.part.transport.extent n.pitch) :
    ∃ b', (trigger h t).on b = some (.ok (), b') ∧ Spares b.part b'.part := by
  cases t with
  | noteOn n =>
    obtain ⟨a, es, h₁, isTape⟩ := sound_on_takes (.noteOn n) takes
    let b₁ : Bench Studio := ⟨{ b.part with audio := a }, es ++ b.journal⟩
    have sounded : Spares b.part b₁.part := ⟨rfl, rfl, isTape⟩
    have reach : Reaches b₁.part.transport.extent n.pitch := reaches n rfl
    obtain ⟨b₂, h₂, struck⟩ := strike_goesOn reach
    obtain ⟨b₃, h₃, beside⟩ := publish_on discreet (.noteOn n.pitch .playback none) b₂
    refine ⟨b₃, ?_, (sounded.trans struck.spares).trans beside.goesOn.spares⟩
    rw [trigger, on_bind_ok (on_look b)]
    exact (on_bind_ok h₁).trans ((on_bind_ok h₂).trans h₃)
  | noteOff n =>
    obtain ⟨a, es, h₁, isTape⟩ := sound_on_takes (.noteOff n) takes
    let b₁ : Bench Studio := ⟨{ b.part with audio := a }, es ++ b.journal⟩
    have sounded : Spares b.part b₁.part := ⟨rfl, rfl, isTape⟩
    obtain ⟨b₂, h₂, beside⟩ := publish_on discreet (.noteOff n.pitch .playback) b₁
    exact ⟨b₂, (on_bind_ok h₁).trans h₂, sounded.trans beside.goesOn.spares⟩
  | finish =>
    let b₁ : Bench Studio := ⟨b.part, .log ⟨.debug, "playback reached the end"⟩ :: b.journal⟩
    obtain ⟨a, es, h₁, isTape, -⟩ := stopPlayback_on h b₁
    have ended : Spares b.part (b.part.stopped a) := ⟨queue_cancelAll _, rfl, isTape⟩
    obtain ⟨b₂, h₂, beside⟩ := publishEnd_on discreet b.part.transport.playing
      ⟨b.part.stopped a, es ++ b₁.journal⟩
    refine ⟨b₂, ?_, ended.trans beside.goesOn.spares⟩
    rw [trigger, log, on_bind_ok (on_write _ b)]
    exact h₁.trans h₂

section Ready

variable {h : Hooks} (recording : Recording h) {s : Studio} (ready : Ready s) {now : Float}
include recording ready

/-- A timer that is due does its task, and leaves a studio that is ready for the next one. -/
theorem Ready.starts {serial : Nat} {t : Timer Task} {ts : Timers Task}
    (due : s.timers.takeDue? now = some (serial, ts))
    (here : s.timers.get? serial = some t) (alive : t.cancelled = false) :
    ∃ s₁ es, (∀ j, (runTask h serial t.task).on
        ⟨{ s with timers := ts.markFired serial }, j⟩ = some (.ok (), ⟨s₁, es ++ j⟩)) ∧
      s₁.timers.queue = ts.queue ∧ Ready s₁ := by
  obtain ⟨x, hx⟩ := ready.onlyPlayback t (Array.mem_of_getElem? here)
  have reaches : ∀ n, x = .noteOn n → Reaches s.transport.extent n.pitch := by
    rintro n rfl
    exact ready.toPlayable.reaches_due due here alive hx
  let b : Bench Studio := ⟨taken serial { s with timers := ts }, []⟩
  have takes : b.part.audio.Takes b.part.transport.velocity := ready.takes
  obtain ⟨b₁, h₁, spares⟩ := trigger_ends recording.discreet takes reaches
  obtain ⟨es, -, -, any⟩ := recording.writesOn_trigger x h₁
  have does : ∀ j, (runTask h serial t.task).on ⟨{ s with timers := ts.markFired serial }, j⟩ =
      some (.ok (), ⟨b₁.part, es ++ j⟩) := by
    intro j
    rw [hx]
    exact any j
  have still : Playable (Bench.mk b₁.part (es ++ [])).part :=
    Keeps.runTask recording.keeps (b := ⟨s, []⟩) ready.toPlayable due here alive (does [])
  have taking : b₁.part.audio.Takes b₁.part.transport.velocity := by
    rw [spares.velocity]
    exact takes.of_isTape spares.isTape
  exact ⟨b₁.part, es, does, spares.queue, still, taking⟩

end Ready

/-! ## Pumps that come to an end -/

/-- A pump comes to an end: how many timers it starts, and what is written on the way. -/
inductive Drains (h : Hooks) (now : Float) : Studio → Nat → List Entry → Studio → Prop
  | rest {s : Studio} (idle : s.timers.takeDue? now = none) : Drains h now s 0 [] s
  | pass {s s' : Studio} {serial k : Nat} {ts : Timers Task} {es : List Entry}
      (due : s.timers.takeDue? now = some (serial, ts))
      (dead : ∀ t, s.timers.get? serial = some t → t.cancelled = true) :
      Drains h now { s with timers := ts } k es s' → Drains h now s k es s'
  | start {s s₁ s' : Studio} {serial k : Nat} {t : Timer Task} {ts : Timers Task}
      {es es₁ : List Entry} (due : s.timers.takeDue? now = some (serial, ts))
      (here : s.timers.get? serial = some t) (alive : t.cancelled = false)
      (does : ∀ j, (runTask h serial t.task).on ⟨{ s with timers := ts.markFired serial }, j⟩ =
        some (.ok (), ⟨s₁, es₁ ++ j⟩))
      (queue : s₁.timers.queue = ts.queue) :
      Drains h now s₁ k es s' → Drains h now s (k + 1) (es ++ es₁) s'

namespace Drains

variable {h : Hooks} {now : Float} {s s' : Studio} {k : Nat} {es : List Entry}

/-- Whoever has patience for the whole queue sees the end of the pump. -/
theorem on (d : Drains h now s k es s') {n : Nat} (patient : s.timers.queue.size < n)
    (fired : Nat) (j : List Entry) :
    (drain h now n fired).on ⟨s, j⟩ = some (.ok (fired + k), ⟨s', es ++ j⟩) := by
  induction d generalizing n fired j with
  | rest idle =>
    obtain ⟨n, rfl⟩ := Nat.exists_eq_add_of_lt patient
    exact drain_rest idle
  | @pass s s' serial k ts es due dead _ ih =>
    obtain ⟨n, rfl⟩ : ∃ m, n = m + 1 := ⟨n - 1, by omega⟩
    have fewer := size_takeDue? due
    have patient : ts.queue.size < n := by omega
    rw [drain_pass due dead]
    exact ih patient fired j
  | @start s s₁ s' serial k t ts es es₁ due here alive does queue _ ih =>
    obtain ⟨n, rfl⟩ : ∃ m, n = m + 1 := ⟨n - 1, by omega⟩
    have fewer := size_takeDue? due
    have patient : s₁.timers.queue.size < n := by rw [queue]; omega
    rw [drain_start due here alive, List.append_assoc, Nat.add_comm k 1, ← Nat.add_assoc]
    exact (on_bind_ok (does j)).trans (ih patient (fired + 1) _)

theorem idle (d : Drains h now s k es s') : s'.timers.takeDue? now = none := by
  induction d with
  | rest idle => exact idle
  | pass _ _ _ ih => exact ih
  | start _ _ _ _ _ _ ih => exact ih

/-- A pump may be cut in two at an earlier moment. -/
theorem resume {later : Float} {s'' : Studio} {k' : Nat} {es' : List Entry}
    (d : Drains h now s k es s') (le : now ≤ later) (d' : Drains h later s' k' es' s'') :
    Drains h later s (k + k') (es' ++ es) s'' := by
  induction d with
  | rest idle => simpa using d'
  | pass due dead _ ih => exact .pass (takeDue?_mono le due) dead (ih d')
  | start due here alive does queue _ ih =>
    rw [← List.append_assoc, Nat.add_right_comm]
    exact .start (takeDue?_mono le due) here alive does queue (ih d')

/-- A tick is a pump. -/
theorem tick_on (d : Drains h now s k es s') (patient : s.timers.queue.size < h.patience) :
    runAct (carryOut h (.tick (some now))) s = some (.ok (.count k), s', es.reverse) := by
  have pumped : (pump h (some now)).on ⟨s, []⟩ = some (.ok k, ⟨s', es⟩) := by
    refine (on_bind_ok (moment_on (some now) _)).trans ?_
    simpa using d.on patient 0 []
  have carried : (carryOut h (.tick (some now))).on ⟨s, []⟩ =
      some (.ok (.count k), ⟨s', es⟩) := on_bind_ok pumped
  rw [runAct, carried]
  rfl

/-- A tick, and then what else there is to do. -/
theorem inTurn_tick (d : Drains h now s k es s') (patient : s.timers.queue.size < h.patience)
    {cs : List Command} {steps : List Step} (hrest : inTurn h cs s' = some steps) :
    inTurn h (.tick (some now) :: cs) s =
      some (⟨.ok (.count k), s', es.reverse⟩ :: steps) :=
  inTurn_cons (d.tick_on patient) hrest

end Drains

section Ticks

variable {h : Hooks} (recording : Recording h)
include recording

/-- In a studio that is ready every pump comes to an end. -/
theorem Ready.drains (now : Float) {s : Studio} (ready : Ready s) :
    ∃ k es s', Drains h now s k es s' ∧ Ready s' ∧
      s'.timers.queue.size ≤ s.timers.queue.size := by
  induction hsize : s.timers.queue.size generalizing s with
  | zero =>
    refine ⟨0, [], s, .rest ?_, ready, hsize.le⟩
    refine Option.eq_none_iff_forall_ne_some.2 fun q hd => ?_
    have fewer := size_takeDue? hd
    omega
  | succ size ih =>
    cases hd : s.timers.takeDue? now with
    | none => exact ⟨0, [], s, .rest hd, ready, hsize.le⟩
    | some q =>
      obtain ⟨serial, ts⟩ := q
      have fewer := size_takeDue? hd
      by_cases alive : ∃ t, s.timers.get? serial = some t ∧ t.cancelled = false
      · obtain ⟨t, here, alive⟩ := alive
        obtain ⟨s₁, es₁, does, queue, ready₁⟩ := ready.starts recording hd here alive
        obtain ⟨k, es, s', d, ready', le⟩ := ih ready₁ (by rw [queue]; omega)
        exact ⟨k + 1, es ++ es₁, s', .start hd here alive does queue d, ready', by omega⟩
      · have dead : ∀ t, s.timers.get? serial = some t → t.cancelled = true := by
          simpa using alive
        have passed : Ready { s with timers := ts } := ⟨ready.passed hd dead, ready.takes⟩
        obtain ⟨k, es, s', d, ready', le⟩ := ih passed (by change ts.queue.size = _; omega)
        exact ⟨k, es, s', .pass hd dead d, ready', by omega⟩

/-- Ticks one after the other fire what the last of them would have fired alone. -/
theorem inTurn_ticks {s : Studio} (ready : Ready s) (patient : s.timers.queue.size < h.patience)
    (times : List Float) (last : Float) (ordered : (times ++ [last]).Pairwise (· ≤ ·)) :
    ∃ (steps : List Step) (counts : List Nat) (es : List Entry),
      inTurn h ((times ++ [last]).map fun t => .tick (some t)) s = some steps ∧
      Drains h last s counts.sum es (s.after steps) ∧
      steps.map Step.outcome = counts.map (fun n => .ok (.count n)) ∧
      steps.flatMap Step.entries = es.reverse := by
  induction times generalizing s with
  | nil =>
    obtain ⟨k, es, s', d, -, -⟩ := ready.drains recording last
    exact ⟨_, [k], es, d.inTurn_tick patient rfl, by simpa [Studio.after] using d, rfl, by simp⟩
  | cons t times ih =>
    obtain ⟨first, ordered⟩ := List.pairwise_cons.1 ordered
    obtain ⟨k, es, s₁, d, ready₁, fewer⟩ := ready.drains recording t
    obtain ⟨steps, counts, es', hrun, d', outcomes, entries⟩ := ih ready₁ (by omega) ordered
    refine ⟨_, k :: counts, es' ++ es, d.inTurn_tick patient hrun, ?_, ?_, ?_⟩
    · rw [after_cons, List.sum_cons]
      exact d.resume (first last (by simp)) d'
    · rw [List.map_cons, List.map_cons, outcomes]
    · rw [List.flatMap_cons, entries, List.reverse_append]

end Ticks

end Studio

open Studio Work

/-- Playback does not depend on the frame rate: whatever a session was asked for before, ticks at
times that do not decrease leave the same studio as the last of them alone, with the same entries in
the journal, and fire as many timers in all. Both leave nothing that is due. -/
theorem frame_rate_irrelevant {s : Studio} (reached : Reached s)
    (takes : s.audio.Takes s.transport.velocity) {h : Hooks} (recording : Recording h)
    (patient : s.timers.queue.size < h.patience) {times : List Float} {last : Float}
    (ordered : (times ++ [last]).IsChain (· ≤ ·)) :
    ∃ (steps : List Step) (step : Step) (counts : List Nat),
      inTurn h ((times ++ [last]).map fun t => .tick (some t)) s = some steps ∧
      inTurn h [.tick (some last)] s = some [step] ∧
      s.after steps = step.studio ∧
      steps.flatMap Step.entries = step.entries ∧
      steps.map Step.outcome = counts.map (fun n => .ok (.count n)) ∧
      step.outcome = .ok (.count counts.sum) ∧
      step.studio.timers.takeDue? last = none := by
  have : IsTrans Float (· ≤ ·) := ⟨fun _ _ _ => Number.float_le_trans⟩
  have apart := List.isChain_iff_pairwise.1 ordered
  obtain ⟨steps, counts, es, hrun, d, outcomes, entries⟩ :=
    inTurn_ticks recording ⟨reached.playable, takes⟩ patient times last apart
  exact ⟨steps, _, counts, hrun, d.inTurn_tick patient rfl, rfl, entries, outcomes, rfl,
    d.idle⟩

def noting : Hooks := ⟨fun _ e => write (.heard "score" e), fun _ _ => return, 100⟩

def lanes_noting (_ : Listener) (e : Event) : Callback .lanes (write (.heard "score" e)) :=
  .act (alters_write Scope.lanes.chains _ trivial)

theorem recording_noting : Recording noting where
  discreet := fun _ e b => ⟨.ok (), _, on_write (.heard "score" e) b, beside_entry b rfl⟩
  writes := fun _ e => writesOn_write (.heard "score" e)

def attended : Studio :=
  { bus := [("note_on", .scripted "score"), ("note_off", .scripted "score"),
      ("transport", .scripted "score")] }

/-- A melody is played, and played again before it has ended. -/
def playedAgain : List Command := [.setNotes (.notes repeated), .play, .replay]

theorem frame_rate_irrelevant_replayed : ∃ before,
    inTurn noting playedAgain attended = some before ∧
      ∃ (steps : List Step) (step : Step) (counts : List Nat),
        inTurn noting ([100, 101.6, 103].map fun t => .tick (some t)) (attended.after before) =
          some steps ∧
        inTurn noting [.tick (some 103)] (attended.after before) = some [step] ∧
        (attended.after before).after steps = step.studio ∧
        steps.flatMap Step.entries = step.entries ∧
        steps.map Step.outcome = counts.map (fun n => .ok (.count n)) ∧
        step.outcome = .ok (.count counts.sum) ∧
        step.studio.timers.takeDue? 103 = none := by
  have ends : (inTurn noting playedAgain attended).isSome = true := by decide +kernel
  obtain ⟨before, h⟩ := Option.isSome_iff_exists.1 ends
  have stands : (inTurn noting playedAgain attended).all (fun steps =>
      (attended.after steps).audio.isTape &&
        decide ((attended.after steps).timers.queue.size < 100)) = true := by decide +kernel
  rw [h, Option.all_some, Bool.and_eq_true, decide_eq_true_eq] at stands
  have fresh : Fresh attended := ⟨rfl, rfl, rfl, rfl⟩
  let s := attended.after before
  have takes : s.audio.Takes s.transport.velocity := .of_isTape (a := .tape) trivial stands.1
  have ordered : ([100, 101.6] ++ [103] : List Float).IsChain (· ≤ ·) := by decide +kernel
  exact ⟨before, h, frame_rate_irrelevant (.after lanes_noting (by decide) fresh h) takes
    recording_noting stands.2 ordered⟩

end PianoRoll
