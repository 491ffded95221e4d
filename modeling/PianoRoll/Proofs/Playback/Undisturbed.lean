import PianoRoll.Proofs.Playback.Course
import PianoRoll.Proofs.Playback.Ranks

/-!
Runs that nobody disturbs: the audio output is a tape, and those who listen only take note
(`Discreet`). Then the trigger of a note asks for its sound and lets the run go on
(`trigger_note`), and the end of the run silences and stops it (`trigger_finish`).
-/

namespace PianoRoll

open Studio Work

def Entry.call? : Entry → Option SoundCall
  | .sound c => some c
  | _ => none

def soundsOf (es : List Entry) : List SoundCall := es.filterMap Entry.call?

def Bench.sounds (b : Bench Studio) : List SoundCall := soundsOf b.journal.reverse

theorem sounds_cons (s : Studio) (e : Entry) (j : List Entry) :
    Bench.sounds ⟨s, e :: j⟩ = Bench.sounds ⟨s, j⟩ ++ e.call?.toList := by
  unfold Bench.sounds soundsOf
  rw [List.reverse_cons, List.filterMap_append]
  cases h : e.call? <;> simp [h]

namespace Studio

/-- What leaves transport, timers and audio output alone, and asks for no sound. -/
structure Beside (b b' : Bench Studio) : Prop where
  transport : b'.part.transport = b.part.transport
  timers : b'.part.timers = b.part.timers
  audio : b'.part.audio = b.part.audio
  sounds : b'.sounds = b.sounds

theorem Beside.refl (b : Bench Studio) : Beside b b := ⟨rfl, rfl, rfl, rfl⟩

theorem Beside.trans {b b' b'' : Bench Studio} (h : Beside b b') (h' : Beside b' b'') :
    Beside b b'' :=
  ⟨h'.transport.trans h.transport, h'.timers.trans h.timers, h'.audio.trans h.audio,
    h'.sounds.trans h.sounds⟩

theorem beside_entry (b : Bench Studio) {e : Entry} (h : e.call? = none) :
    Beside b ⟨b.part, e :: b.journal⟩ :=
  ⟨rfl, rfl, rfl, by rw [sounds_cons, h]; exact List.append_nil _⟩

/-- Listeners that only take note of what they hear. -/
def Discreet (h : Hooks) : Prop :=
  ∀ l e b, ∃ r b', (h.hear l e).on b = some (r, b') ∧ Beside b b'

theorem beside_shown (b : Bench Studio) (e : Event) :
    Beside b ⟨b.part, shown b.part.recorded e ++ b.journal⟩ := by
  unfold shown
  generalize b.part.recorded.count e.kind = n
  induction n with
  | zero => exact .refl b
  | succ n ih => exact ih.trans (beside_entry _ rfl)

section Publishing

variable {h : Hooks} (discreet : Discreet h)
include discreet

theorem deliver_on (e : Event) (l : Listener) (b : Bench Studio) :
    ∃ b', (deliver h e l).on b = some (.ok (), b') ∧ Beside b b' := by
  obtain ⟨r, b₁, h₁, beside⟩ := discreet l e b
  unfold deliver
  rw [on_tryCatch, h₁]
  cases r with
  | ok u => exact ⟨b₁, rfl, beside⟩
  | error f => exact ⟨_, rfl, beside.trans (beside_entry b₁ rfl)⟩

theorem publish_on (e : Event) (b : Bench Studio) :
    ∃ b', (publish h e).on b = some (.ok (), b') ∧ Beside b b' := by
  have each : ∀ (ls : List Listener) (b : Bench Studio),
      ∃ b', (ls.forM (deliver h e)).on b = some (.ok (), b') ∧ Beside b b' := by
    intro ls
    induction ls with
    | nil => exact fun b => ⟨b, rfl, .refl b⟩
    | cons l ls ih =>
      intro b
      obtain ⟨b₁, h₁, beside₁⟩ := deliver_on discreet e l b
      obtain ⟨b₂, h₂, beside₂⟩ := ih b₁
      exact ⟨b₂, by rw [forM_cons, on_bind_ok h₁, h₂], beside₁.trans beside₂⟩
  unfold publish
  rw [on_bind_ok (record_on e b), on_bind_ok (on_look _)]
  obtain ⟨b', h', beside⟩ := each (b.part.bus.listeners e.kind) _
  exact ⟨b', h', (beside_shown b e).trans beside⟩

theorem publishEnd_on (playing : Bool) (b : Bench Studio) :
    ∃ b', (publishEnd h playing).on b = some (.ok (), b') ∧ Beside b b' := by
  cases playing with
  | false => exact ⟨b, rfl, .refl b⟩
  | true =>
    obtain ⟨b', h', beside⟩ := publish_on discreet (.transport false)
      ⟨b.part, .log ⟨.info, "playback stopped"⟩ :: b.journal⟩
    exact ⟨b', (on_bind_ok (on_write _ b)).trans h', (beside_entry b rfl).trans beside⟩

end Publishing

/-! ## Triggers -/

/-- Whether the striker has a place for a pitch. -/
def Reaches (extent : Option Extent) (pitch : Int) : Prop :=
  ∀ r, extent = some r → ∃ x, markerOf r pitch = .ok x

/-- What goes on in a run and asks for some sounds. -/
structure GoesOn (b : Bench Studio) (cs : List SoundCall) (b' : Bench Studio) : Prop where
  timers : b'.part.timers = b.part.timers
  audio : b'.part.audio = b.part.audio
  velocity : b'.part.transport.velocity = b.part.transport.velocity
  extent : b'.part.transport.extent = b.part.transport.extent
  sounds : b'.sounds = b.sounds ++ cs

theorem Beside.goesOn {b b' : Bench Studio} (h : Beside b b') : GoesOn b [] b' where
  timers := h.timers
  audio := h.audio
  velocity := by rw [h.transport]
  extent := by rw [h.transport]
  sounds := by rw [h.sounds, List.append_nil]

theorem GoesOn.trans {b b' b'' : Bench Studio} {cs cs' : List SoundCall} (h : GoesOn b cs b')
    (h' : GoesOn b' cs' b'') : GoesOn b (cs ++ cs') b'' where
  timers := h'.timers.trans h.timers
  audio := h'.audio.trans h.audio
  velocity := h'.velocity.trans h.velocity
  extent := h'.extent.trans h.extent
  sounds := by rw [h'.sounds, h.sounds, List.append_assoc]

theorem sound_goesOn {b : Bench Studio} (h : b.part.audio = .tape) (c : SoundCall) :
    ∃ b', (sound c).on b = some (.ok (), b') ∧ GoesOn b [c] b' :=
  ⟨_, sound_on_tape h c, rfl, rfl, rfl, rfl, sounds_cons _ _ _⟩

theorem strike_goesOn {b : Bench Studio} {p : Int} (h : Reaches b.part.transport.extent p) :
    ∃ b', (strike p).on b = some (.ok (), b') ∧ GoesOn b [] b' := by
  unfold strike
  rw [on_bind_ok (on_changeTransport _ b), on_bind_ok (on_look _)]
  dsimp only
  cases hr : b.part.transport.extent with
  | none => exact ⟨_, rfl, rfl, rfl, rfl, hr.symm, (List.append_nil _).symm⟩
  | some r =>
    obtain ⟨x, hx⟩ := h r hr
    dsimp only
    rw [hx]
    exact ⟨_, rfl, rfl, rfl, rfl, hr.symm, (List.append_nil _).symm⟩

section Triggers

variable {h : Hooks} (discreet : Discreet h) {b : Bench Studio} (tape : b.part.audio = .tape)
include discreet tape

/-- The trigger of a note asks for its sound, and lets the run go on. -/
theorem trigger_note {t : Trigger} (ht : t ≠ .finish)
    (reaches : ∀ n, t = .noteOn n → Reaches b.part.transport.extent n.pitch) :
    ∃ b', (trigger h t).on b = some (.ok (), b') ∧
      GoesOn b [t.call b.part.transport.velocity] b' := by
  obtain ⟨b₁, h₁, goes₁⟩ := sound_goesOn tape (t.call b.part.transport.velocity)
  cases t with
  | noteOn n =>
    have hreach : Reaches b₁.part.transport.extent n.pitch := by
      rw [goes₁.extent]
      exact reaches n rfl
    obtain ⟨b₂, h₂, goes₂⟩ := strike_goesOn hreach
    obtain ⟨b₃, h₃, beside⟩ := publish_on discreet (.noteOn n.pitch .playback none) b₂
    refine ⟨b₃, ?_, (goes₁.trans goes₂).trans beside.goesOn⟩
    rw [trigger, on_bind_ok (on_look b)]
    exact (on_bind_ok h₁).trans ((on_bind_ok h₂).trans h₃)
  | noteOff n =>
    obtain ⟨b₂, h₂, beside⟩ := publish_on discreet (.noteOff n.pitch .playback) b₁
    exact ⟨b₂, (on_bind_ok h₁).trans h₂, goes₁.trans beside.goesOn⟩
  | finish => exact absurd rfl ht

/-- The end of a run calls off what is left of it, silences, and comes to rest. -/
theorem trigger_finish :
    ∃ b', (trigger h .finish).on b = some (.ok (), b') ∧
      b'.part.timers = b.part.timers.cancelAll b.part.transport.pending ∧
      b'.part.transport = b.part.calledOff.ended.transport ∧ b'.part.audio = .tape ∧
      b'.sounds = b.sounds ++ [.silence] := by
  let line : Entry := .log ⟨.debug, "playback reached the end"⟩
  let b₁ : Bench Studio := ⟨b.part.calledOff, line :: b.journal⟩
  let b₂ : Bench Studio := ⟨b.part.calledOff.ended, .sound .silence :: line :: b.journal⟩
  have tape₁ : b₁.part.audio = .tape := tape
  obtain ⟨b₃, h₃, beside⟩ := publishEnd_on discreet b.part.transport.playing b₂
  have hsounds : b₂.sounds = b.sounds ++ [.silence] := by
    have hcons : b₂.sounds = Bench.sounds ⟨b₂.part, line :: b.journal⟩ ++ [.silence] :=
      sounds_cons b₂.part (.sound .silence) (line :: b.journal)
    rw [hcons, sounds_cons]
    exact congrArg (· ++ [SoundCall.silence]) (List.append_nil _)
  refine ⟨b₃, ?_, beside.timers, beside.transport, beside.audio.trans tape,
    beside.sounds.trans hsounds⟩
  rw [trigger, log, on_bind_ok (on_write line b)]
  unfold stopPlayback
  rw [on_bind_ok (on_look _)]
  refine (on_bind_ok (on_change _ _)).trans ?_
  refine (on_bind_ok (on_changeTransport _ _)).trans ?_
  refine (on_bind_ok (sound_on_tape tape₁ .silence)).trans ?_
  exact (on_bind_ok (on_changeTransport _ _)).trans h₃

end Triggers

end Studio

end PianoRoll
