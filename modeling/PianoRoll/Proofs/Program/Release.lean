import PianoRoll.Proofs.Inputs.Ports
import PianoRoll.Proofs.Program.Keys
import PianoRoll.Proofs.Program.Lit

/-!
However a run ends, the instrument is left silent and released. Closing is four pieces of work, none
of which can fail: playback is stopped, every key is let go, every MIDI input is closed and then the
synthesizer. Each is told by what it leaves alone, so that what one of them has put to rest stays so
(`close_releases`). The fault that ended a run, if one did, is the fault of the run.
-/

namespace PianoRoll

namespace Studio

open Work

/-! ## Stopping and letting go -/

variable (desk : Studio)

theorem publishEnd_atDesk (playing : Bool) : Leads AtDesk (publishEnd (deskHooks desk) playing) :=
  leads_ite
    (chains_atDesk.bind (chains_atDesk.write _) fun _ =>
      leads_publish desk chains_atDesk react_atDesk)
    (chains_atDesk.pure _)

theorem succeeds_publishEnd (playing : Bool) : Succeeds (publishEnd (deskHooks desk) playing) :=
  succeeds_ite ((succeeds_write _).bind fun _ => succeeds_publish desk _) (succeeds_pure _)

structure Rests (s : Studio) : Prop where
  playing : s.transport.playing = false
  start : s.transport.start = none
  pending : s.transport.pending = []

/-- Stopping cannot fail and leaves the inputs alone. -/
theorem stopPlayback_rests (b : Bench Studio) :
    ∃ b', (stopPlayback (deskHooks desk)).on b = some (.ok (), b') ∧ Rests b'.part ∧
      b'.part.inputs = b.part.inputs := by
  obtain ⟨a, es, hon, -⟩ := stopPlayback_on (deskHooks desk) b
  obtain ⟨_, b', h⟩ := succeeds_publishEnd desk b.part.transport.playing
    ⟨{ b.part.calledOff.ended with audio := a }, es ++ b.journal⟩
  obtain ⟨d, part⟩ := publishEnd_atDesk desk _ h
  refine ⟨b', hon.trans h, ?_, by rw [part]; rfl⟩
  rw [part]
  exact ⟨rfl, rfl, rfl⟩

/-- Two studios that differ in held keys, sounds and at the desk alone. -/
def AtHands (s s' : Studio) : Prop := ∃ held audio desk, s' = { s with held, audio, desk }

theorem chains_atHands : Chains AtHands where
  refl s := ⟨s.held, s.audio, s.desk, rfl⟩
  trans := by
    rintro s _ _ ⟨_, _, _, rfl⟩ ⟨held, audio, d, rfl⟩
    exact ⟨held, audio, d, rfl⟩

theorem release_atHands (p : Int) : Leads AtHands (release (deskHooks desk) p) := by
  have told : Leads AtHands (publish (deskHooks desk) (.noteOff p .live)) :=
    (leads_publish desk chains_atDesk react_atDesk).mono fun s _ ⟨d, part⟩ =>
      ⟨s.held, s.audio, d, part⟩
  have sounds : Leads AtHands (sound (.off (.whole p))) := fun b _ _ h => by
    obtain ⟨a, es, rfl, -⟩ := sound_inv h
    exact ⟨b.part.held, a, b.part.desk, rfl⟩
  refine chains_atHands.bind chains_atHands.look fun _ => leads_ite ?_ (chains_atHands.pure _)
  exact chains_atHands.bind (leads_change _ fun s => ⟨_, s.audio, s.desk, rfl⟩) fun _ =>
    chains_atHands.bind sounds fun _ => told

/-- Letting go of all keys cannot fail and leaves playback and the inputs alone. -/
theorem releaseAll_rests (b : Bench Studio) :
    ∃ b', (releaseAll (deskHooks desk)).on b = some (.ok (), b') ∧ b'.part.held = .empty ∧
      b'.part.transport = b.part.transport ∧ b'.part.inputs = b.part.inputs := by
  obtain ⟨b', h, holds⟩ := releaseAll_holds desk b
  have hands : Leads AtHands (releaseAll (deskHooks desk)) :=
    (compositional_leads chains_atHands).bind chains_atHands.look fun _ =>
      chains_atHands.forM (release_atHands desk) _
  obtain ⟨held, audio, d, part⟩ := hands h
  exact ⟨b', h, PitchSet.eq_empty holds.held, by rw [part], by rw [part]⟩

/-! ## Closing what is open -/

/-- Closing the output cannot fail, and leaves no device and no sound. -/
theorem sound_close_on {b : Bench Studio} (hushed : b.part.audio.Hushed) :
    ∃ (audio : Audio) (es : List Entry), (sound .close).on b =
      some (.ok (), ⟨{ b.part with audio }, es ++ b.journal⟩) ∧
        audio.ready = false ∧ audio.sounding = .empty := by
  obtain ⟨_, b', h⟩ := succeeds_sound (c := .close) Synth.succeeds_close b
  obtain ⟨a, es, rfl, -⟩ := sound_inv h
  obtain ⟨_, part, leaves⟩ := sound_leaves hushed h
  obtain rfl := congrArg Studio.audio part
  refine ⟨a, es, h, leaves.device rfl, PitchSet.eq_empty fun p hp => ?_⟩
  rcases leaves.among p hp with ⟨-, ends⟩ | ⟨-, begins⟩
  · exact ends trivial
  · exact begins

end Studio

namespace Program

open Work Studio

/-- What closing makes of a studio: no run is under way and no timer waits, no key is held, every
port that was held was asked to close and none is held, nothing sounds and there is no device. -/
structure Released (s s' : Studio) (es : List Entry) : Prop where
  rests : Rests s'
  timers : s'.timers.waiting = []
  held : s'.held = .empty
  closed : ∀ name port, (name, port) ∈ s.inputs.ports → .portClosed port ∈ es
  ports : s'.inputs.ports = []
  silent : s'.audio.sounding = .empty
  device : s'.audio.ready = false

/-- Whatever state the studio is in, closing cannot fail. -/
theorem close_releases {s : Studio} (hs : Bright s) :
    ∃ s' es, runAct close s = some (.ok (), s', es) ∧ Released s s' es := by
  let b : Bench Studio := ⟨s, []⟩
  obtain ⟨b₁, stopped, rests, inputs₁⟩ := stopPlayback_rests s b
  obtain ⟨b₂, released, held, transport, inputs₂⟩ := releaseAll_rests b₁.part b₁
  have hP := respectsNeutral_bright.allowsNeutral
  have bright₂ : Bright b₂.part := hP.releaseAll (bright_handles b₁.part).release
    released ((bright_handles s).stop stopped hs)
  have rests₂ : Rests b₂.part :=
    ⟨by rw [transport, rests.playing], by rw [transport, rests.start],
      by rw [transport, rests.pending]⟩
  have waiting : b₂.part.timers.waiting = [] := bright₂.playable.waiting_eq_nil rests₂.playing
  obtain ⟨es, closedInputs, reports⟩ := closeInputs_on b₂
  let b₃ : Bench Studio := ⟨{ b₂.part.rewired b₂.part.inputs.ports.length 0 [] with
    inputs := { b₂.part.inputs with ports := [], connected := false } }, es ++ b₂.journal⟩
  obtain ⟨audio, es', closedAudio, device, silent⟩ :=
    sound_close_on (b := b₃) bright₂.glows.hushed
  have done : close.on b = some (.ok (), ⟨{ b₃.part with audio },
      .log ⟨.info, "main loop finished"⟩ :: (es' ++ b₃.journal)⟩) := by
    rw [close, on_bind_ok (on_look b), on_bind_ok stopped, on_bind_ok (on_look b₁),
      on_bind_ok released, on_bind_ok closedInputs, on_bind_ok closedAudio]
    rfl
  refine ⟨{ b₃.part with audio }, _, by rw [runAct, done]; rfl, ?_⟩
  refine ⟨⟨rests₂.playing, rests₂.start, rests₂.pending⟩, waiting, held, fun name port hp => ?_,
    rfl, silent, device⟩
  rw [← show b₂.part.inputs = s.inputs from inputs₂.trans inputs₁] at hp
  have entry : .portClosed port ∈ es :=
    (reports.mem_iff (.closed port)).2 (List.mem_reverse.2 (List.mem_map.2 ⟨(name, port), hp, rfl⟩))
  simp [b₃, entry]

/-- However a run ends, the instrument is left silent and released. From wherever the program has
come to once its window was open, closing ends well and releases everything; so every main loop that
ends, because someone leaves or because something fails at any point of any turn, is followed by
that, and its fault is the fault of the run. -/
theorem left_silent_and_released {device : DeviceSetup} {disk : Disk} {s s₁ : Studio}
    (opened : Opened device disk s s₁) {s₂ : Studio} (later : Later s₁ s₂) :
    (∃ s' es, runAct close s₂ = some (.ok (), s', es) ∧ Released s₂ s' es) ∧
    ∀ passes looped, loop [.log ⟨.info, "main loop started"⟩] passes s₂ = some looped →
      ∃ run es, mainLoop passes s₂ = some run ∧ run.shots = looped.shots ∧
        run.fault = looped.fault ∧ run.last.entries = looped.last.entries ++ es ∧
          Released looped.last.studio run.last.studio es := by
  have bright : Bright s₂ := later.bright opened.bright
  refine ⟨close_releases bright, fun passes looped h => ?_⟩
  have last : Bright looped.last.studio :=
    kept_loop (leads_turn handled_bright) bright h _ List.mem_cons_self
  obtain ⟨s', es, closes, released⟩ := close_releases last
  refine ⟨{ looped with last := ⟨s', looped.last.entries ++ es⟩ }, es, ?_, rfl, rfl, rfl, released⟩
  rw [mainLoop, h]
  show (runAct close looped.last.studio).bind _ = _
  rw [closes]
  rfl

/-- A studio with two MIDI inputs that do not close. -/
def wired : Studio :=
  { plain with system := {
      available := fun _ => ["A", "B"], closing := fun _ _ => some "stuck" } }

/-- The inputs are connected, a key is pressed, and playback starts. -/
def playing : List Doing :=
  [.button "MIDI", .input (.key (.character 'a')), .button "PLAY/STOP"]

/-- In the second turn the inputs cannot be read any more. -/
def unplugged : List Pass :=
  [{ milliseconds := 700 }, { change := { reading := some fun _ _ _ => some "gone" } }]

/-- What is seen of a studio that is to be closed: what sounds, the inputs and the keys that are
held, and whether a run is under way. -/
def seen (s : Studio) : List Int × List String × List Int × Bool :=
  (s.audio.sounding.toList, s.inputs.ports.map (·.1), s.held.toList, s.transport.playing)

theorem left_silent_and_released_unplugged : ∃ s₁ s₂ looped run es,
    Opened stubborn noDisk wired s₁ ∧ Later s₁ s₂ ∧
      loop [.log ⟨.info, "main loop started"⟩] unplugged s₂ = some looped ∧
        seen looped.last.studio = ([60], ["A", "B"], [60], true) ∧
          mainLoop unplugged s₂ = some run ∧ run.fault = some (.device "gone") ∧
            Released looped.last.studio run.last.studio es := by
  have ends : ((opening stubborn noDisk wired).bind fun s₁ => (enact playing s₁).bind fun s₂ =>
      (loop [.log ⟨.info, "main loop started"⟩] unplugged s₂).map fun looped =>
        (seen looped.last.studio, looped.fault)) =
          some (([60], ["A", "B"], [60], true), some (.device "gone")) := by decide +kernel
  obtain ⟨s₁, opens, ends⟩ := Option.bind_eq_some_iff.1 ends
  obtain ⟨s₂, enacted, ends⟩ := Option.bind_eq_some_iff.1 ends
  obtain ⟨looped, turns, ends⟩ := Option.map_eq_some_iff.1 ends
  obtain ⟨sees, fails⟩ := Prod.mk.inj ends
  have opened : Opened stubborn noDisk wired s₁ :=
    ⟨⟨rfl, rfl, rfl, rfl⟩, lights_studio {} {}, opens⟩
  have later : Later s₁ s₂ := later_enact .still enacted
  obtain ⟨run, es, runs, -, fault, -, released⟩ :=
    (left_silent_and_released opened later).2 unplugged looped turns
  exact ⟨s₁, s₂, looped, run, es, opened, later, turns, sees, runs, fault.trans fails, released⟩

end Program

end PianoRoll
