import PianoRoll.Proofs.Playback.BeatLength
import PianoRoll.Proofs.Playback.Onward
import PianoRoll.Proofs.Playback.Runs
import PianoRoll.Proofs.Program.Keys
import PianoRoll.Proofs.Queue.Order

/-!
The tempo in force. Every tempo that a session is asked for is held between the limits, so a session
whose first tempo is within them keeps to them, whatever it is asked for (`InTempo`), and within
them a beat lasts: neither playing nor counting beats nor showing a frame can fail. The first tempo
is the one of the command line, which nothing holds between the limits. So it decides
(`tempo_in_force`).
-/

namespace PianoRoll

open Number

/-! ## Limits -/

namespace PlaybackSettings

def Allows (p : PlaybackSettings) (bpm : Float) : Prop := p.minBpm ≤ bpm ∧ bpm ≤ p.maxBpm

instance (p : PlaybackSettings) (bpm : Float) : Decidable (p.Allows bpm) :=
  inferInstanceAs (Decidable (_ ∧ _))

structure Sensible (p : PlaybackSettings) : Prop where
  reference : 0 < p.referenceBpm
  moves : 0 < p.minBpm
  ordered : p.minBpm ≤ p.maxBpm
  finite : isFinite p.minBpm = true ∧ isFinite p.maxBpm = true
  lasts : 0 < millisecondsOf p.referenceBpm p.maxBpm 1

theorem sensible_default (bpm : Given Float) : Sensible { bpm } := by
  have limits : Sensible {} :=
    ⟨by decide +kernel, by decide +kernel, by decide +kernel, by decide +kernel, by decide +kernel⟩
  exact ⟨limits.reference, limits.moves, limits.ordered, limits.finite, limits.lasts⟩

namespace Sensible

variable {p : PlaybackSettings} (hp : p.Sensible) {bpm : Float}
include hp

theorem allows_clamp (bpm : Float) : p.Allows (clamp p.minBpm p.maxBpm bpm) :=
  clamp_bounds hp.ordered bpm

section Allowed

variable (allowed : p.Allows bpm)
include allowed

theorem isFinite : isFinite bpm = true :=
  isFinite_of_bounds hp.finite.1 hp.finite.2 allowed.1 allowed.2

theorem bpm_pos : 0 < bpm := by
  have hw := (worth_lt hp.moves).trans_le (worth_le allowed.1)
  exact (lt_iff numeric_zero (numeric_of_le allowed.2).1).2 hw

/-- Within the limits a beat lasts no shorter than at the upper one. -/
theorem beat_pos : 0 < millisecondsOf p.referenceBpm bpm 1 := by
  have hone : 0 ≤ worth 1 := by
    rw [← worth_zero]
    exact worth_le (by decide +kernel)
  have hanti := millisecondsOf_anti hp.reference (hp.bpm_pos allowed) allowed.2 hone
  have hpos := (worth_lt hp.lasts).trans_le hanti
  rw [worth_zero] at hpos
  exact (lt_iff numeric_zero (numeric_of_worth_ne_zero hpos.ne')).2 (worth_zero ▸ hpos)

end Allowed

end Sensible

end PlaybackSettings

/-- What is above zero is not zero. -/
theorem beq_zero_of_pos {x : Float} (h : 0 < x) : (x == 0) = false := by
  rw [Bool.eq_false_iff]
  intro heq
  have hw := (beq_iff (numeric_of_lt h).2 numeric_zero).1 heq
  exact (worth_lt h).ne' hw

theorem PlaybackSettings.Sensible.beat_lasts {p : PlaybackSettings} (hp : p.Sensible) {bpm : Float}
    (allowed : p.Allows bpm) : Lasts p.referenceBpm bpm :=
  ⟨beq_zero_of_pos (hp.bpm_pos allowed), beq_zero_of_pos (hp.beat_pos allowed)⟩

/-- Within the limits beats can always be counted. -/
theorem Transport.elapsedBeats_ok {p : PlaybackSettings} (hp : p.Sensible) {t : Transport}
    (allowed : p.Allows t.bpm) (now : Float) : ∃ x, t.elapsedBeats p.referenceBpm now = .ok x :=
  elapsedBeats_of_lasts (hp.beat_lasts allowed) now

/-! ## The command line -/

namespace CommandLine

/-- Settings that differ in the first tempo at most, as far as playback goes. -/
def SameLimits (s s' : Settings) : Prop :=
  s'.playback = { s.playback with bpm := s'.playback.bpm }

theorem SameLimits.trans {s s' s'' : Settings} (h : SameLimits s s') (h' : SameLimits s' s'') :
    SameLimits s s'' := by
  unfold SameLimits at *
  rw [h', h]

theorem apply_limits {f : Flag} {v : List Char} {s s' : Settings} (h : apply f v s = .ok s') :
    SameLimits s s' := by
  unfold apply at h
  cases f with
  | help => cases h
  | script | midiIn | logDir =>
    cases h
    rfl
  | bpm | volume | pixelsPerBeat =>
    obtain ⟨x, -, h⟩ := ok_of_bind h
    cases h
    rfl
  | ghost | waveform | logLevel =>
    -- one of the choices was made
    dsimp only [Flag.choices?] at h
    split at h
    · cases h
    · cases h
      rfl

theorem applyGlued_limits {f : Flag} {v : List Char} {s s' : Settings}
    (h : applyGlued f v s = .ok s') : SameLimits s s' := by
  unfold applyGlued at h
  split at h
  · cases h
    cases f <;> rfl
  · exact apply_limits h

theorem gather_limits {words : List (List Char × Word)} {s s' : Settings} {left : List String}
    (h : gather s words = .ok (s', left)) : SameLimits s s' := by
  induction s, words using gather.induct generalizing s' left with
  | case1 s =>
    cases h
    rfl
  | case2 => cases h
  | case3 s w f v rest other ih | case4 s w f v rest other ih =>
    simp only [gather] at h
    obtain ⟨s₁, applied, h⟩ := ok_of_bind h
    exact (applyGlued_limits applied).trans (ih s₁ h)
  | case5 s w f v rest other ih =>
    simp only [gather] at h
    obtain ⟨s₁, applied, h⟩ := ok_of_bind h
    exact (apply_limits applied).trans (ih s₁ h)
  | case6 s w f rest other noValue =>
    simp only [gather] at h
    cases h
  | case7 s w kind rest _ _ _ _ _ ih =>
    simp only [gather] at h
    obtain ⟨⟨s₁, left₁⟩, gathered, h⟩ := ok_of_bind h
    cases h
    exact ih gathered

/-- No word of a command line moves the limits. -/
theorem read_playback {words : List String} {settings : Settings}
    (h : read words = .ok settings) :
    settings.playback = { bpm := settings.playback.bpm } := by
  obtain ⟨kinds, -, h⟩ := ok_of_bind h
  obtain ⟨⟨s, left⟩, gathered, h⟩ := ok_of_bind h
  cases left with
  | nil =>
    cases h
    exact gather_limits gathered
  | cons w left => cases h

end CommandLine

/-! ## Sessions -/

def Command.inTempo : Command → Bool
  | .startPlayback _ (some _) _ | .togglePlayback _ (some _) => false
  | c => c.ofSession

namespace Studio

open Work

/-- A studio whose tempo, that of the run and that of the runs to come, is within the limits. -/
structure InTempo (p : PlaybackSettings) (s : Studio) : Prop where
  settings : s.settings = p
  session : p.Allows s.session.bpm
  transport : p.Allows s.transport.bpm

theorem InTempo.onward {p : PlaybackSettings} {s s' : Studio} (hs : InTempo p s)
    (on : Onward s s') : InTempo p s' where
  settings := on.settings.trans hs.settings
  session := by rw [on.session]; exact hs.session
  transport := by rw [on.bpm]; exact hs.transport

abbrev KeepsTempo {α : Type} (p : PlaybackSettings) (act : Act α) : Prop :=
  Leads (fun s s' => InTempo p s → InTempo p s') act

/-- Callbacks that keep the tempo, and listeners that come to an end. -/
structure Considerate (p : PlaybackSettings) (h : Hooks) : Prop where
  hears (l : Listener) (e : Event) : KeepsTempo p (h.hear l e)
  runs (name : String) (program : List Command) : KeepsTempo p (h.run name program)
  ends (l : Listener) (e : Event) : Ends (h.hear l e)

namespace KeepsTempo

variable {p : PlaybackSettings}

theorem onward : RespectsOnward fun s s' => InTempo p s → InTempo p s' :=
  respectsOnward_of_onward InTempo.onward

theorem changeSession (f : Session → Session) (hf : ∀ s, (f s).bpm = s.bpm) :
    KeepsTempo p (changeSession f) :=
  leads_change _ fun s hs => ⟨hs.settings, hf s.session ▸ hs.session, hs.transport⟩

theorem setScript (text : String) : KeepsTempo p (setScript text) :=
  onward.bind (onward.compositional.readScript text) fun _ =>
    onward.bind (changeSession _ fun _ => rfl) fun _ => onward.pure _

theorem loadSong (name : Option String) : KeepsTempo p (loadSong name) :=
  onward.bind (changeSession _ fun _ => rfl) fun _ =>
    onward.bind (onward.compositional.songNotes name) fun _ =>
      onward.bind (changeSession _ fun _ => rfl) fun _ => onward.write _

/-- Whatever tempo is asked for, the one that is set is within the limits. -/
theorem setBpm (hp : p.Sensible) (bpm : TempoText) : KeepsTempo p (setBpm bpm) := by
  refine onward.bind (onward.orFail _) fun x => leads_look_bind fun s hs => ?_
  rw [hs.settings]
  have held : KeepsTempo p (Studio.changeSession (·.setBpm p x)) :=
    leads_change _ fun s hs => ⟨hs.settings, hp.allows_clamp x, hs.transport⟩
  exact onward.bind held fun _ => onward.bind onward.look fun _ => onward.pure _

section Listeners

variable {h : Hooks} (kind : Considerate p h)
include kind

theorem callsAlong : CallsAlong (fun s s' => InTempo p s → InTempo p s') h :=
  ⟨kind.hears, kind.runs⟩

variable (tempo : p.Allows p.tempo)
include tempo

/-- A run that begins takes a tempo that is within the limits, or the first one if it is given
none. -/
theorem startPlayback (notes : List Note) {bpm : Option Float} (given : ∀ x ∈ bpm, p.Allows x)
    (extent : Option Extent) : KeepsTempo p (startPlayback h notes bpm extent) := by
  intro b r b' hon hb
  have taken : p.Allows (orTempo bpm b.part.settings.tempo) := by
    rw [hb.settings]
    cases bpm with
    | none => exact tempo
    | some x =>
      rw [orTempo]
      split
      · exact tempo
      · exact given x rfl
  cases hr : (b.part.transport.playing || notes.isEmpty)
  · cases ht : (orTempo bpm b.part.settings.tempo == 0)
    · rw [startPlayback_on h extent hr ht] at hon
      exact onward.bind (onward.publish (callsAlong kind) _) (fun _ => onward.pure _) hon
        ⟨hb.settings, hb.session, taken⟩
    · rw [startPlayback_on_fault h extent hr ht] at hon
      cases hon
      exact ⟨hb.settings, hb.session, taken⟩
  · rw [startPlayback_on_refused h bpm extent hr] at hon
    cases hon
    exact hb

theorem play : KeepsTempo p (play h) := by
  refine leads_look_bind fun s hs => leads_ite (onward.pure _) ?_
  have given : ∀ x ∈ some s.session.bpm, p.Allows x := by simpa using hs.session
  exact onward.bind (onward.compositional.discard onward.shuffle) fun _ =>
    onward.bind (changeSession _ fun _ => rfl) fun _ => startPlayback kind tempo _ given _

/-- Whatever a session is asked for, its tempo stays within the limits. -/
theorem carryOut (hp : p.Sensible) {c : Command} (hc : c.inTempo = true) :
    KeepsTempo p (carryOut h c) := by
  cases c with
  | startPlayback melody bpm extent =>
    cases bpm with
    | some x => cases hc
    | none =>
      exact onward.bind (onward.compositional.readMelody melody) fun _ =>
        onward.bind (startPlayback kind tempo _ (by simp) _) fun _ => onward.pure _
  | togglePlayback melody bpm =>
    cases bpm with
    | some x => cases hc
    | none =>
      have starts (notes : List Note) : KeepsTempo p (Studio.startPlayback h notes none none) :=
        startPlayback kind tempo notes (by simp) none
      exact onward.bind (onward.compositional.readMelody melody) fun notes => onward.bind
        (onward.bind onward.look fun _ => leads_ite (onward.stopPlayback (callsAlong kind))
          (onward.compositional.discard (starts notes))) fun _ => onward.pure _
  | setNotes melody =>
    exact onward.bind (onward.compositional.readMelody melody) fun _ =>
      onward.bind (changeSession _ fun _ => rfl) fun _ => onward.pure _
  | setGhosts melody =>
    exact onward.bind (onward.compositional.readMelody melody) fun _ =>
      onward.bind (changeSession _ fun _ => rfl) fun _ => onward.pure _
  | setScript text => exact onward.bind (setScript text) fun _ => onward.pure _
  | loadSong name => exact onward.bind (loadSong name) fun _ => onward.pure _
  | setBpm bpm => exact onward.bind (setBpm hp bpm) fun _ => onward.pure _
  | play => exact onward.bind (play kind tempo) fun _ => onward.pure _
  | playStop =>
    exact onward.bind (onward.bind onward.look fun _ =>
      leads_ite (onward.stopPlayback (callsAlong kind))
        (onward.compositional.discard (play kind tempo))) fun _ => onward.pure _
  | replay =>
    exact onward.bind (onward.bind (onward.stopPlayback (callsAlong kind)) fun _ =>
      play kind tempo) fun _ => onward.pure _
  | _ => exact onward.carryOut (callsAlong kind) hc

end Listeners

end KeepsTempo

/-- The desk keeps the tempo. -/
theorem considerate_deskHooks (p : PlaybackSettings) (s : Studio) :
    Considerate p (deskHooks s) where
  hears l e := by
    have atDesk (f : Desk → Desk) : KeepsTempo p (changeDesk f) :=
      KeepsTempo.onward.change _ fun _ => ⟨rfl, rfl, rfl⟩
    refine leads_hear s KeepsTempo.onward.toChains (fun r => ?_) l
    unfold react
    split
    · exact atDesk _
    · exact atDesk _
    · exact KeepsTempo.onward.change _ fun _ => ⟨rfl, rfl, rfl⟩
    · exact atDesk _
    · exact KeepsTempo.onward.bind (KeepsTempo.onward.compositional.checkScript _) fun _ =>
        KeepsTempo.onward.bind (atDesk _) fun _ => KeepsTempo.changeSession _ fun _ => rfl
    · exact KeepsTempo.onward.pure _
  runs _ _ := KeepsTempo.onward.pure _
  ends l e := (succeeds_hear s l e).ends

/-! ## What needs the tempo -/

/-- Within the limits there is a frame, or nothing to be shown. -/
theorem frame?_ok {p : PlaybackSettings} (hp : p.Sensible) (session : Session) {t : Transport}
    (allowed : p.Allows t.bpm) (now : Float) : ∃ f, session.frame? t p now = .ok f := by
  obtain ⟨x, counted⟩ := t.elapsedBeats_ok hp allowed now
  unfold Session.frame?
  split
  · exact ⟨none, rfl⟩
  · rw [counted]
    exact ⟨_, rfl⟩

/-- Playing at a tempo within the limits ends well. -/
theorem succeeds_startPlayback {p : PlaybackSettings} (hp : p.Sensible) {h : Hooks}
    (kind : Considerate p h) (notes : List Note) {bpm : Float} (given : p.Allows bpm)
    (extent : Option Extent) : Succeeds (startPlayback h notes bpm extent) := by
  intro b
  have moves := beq_zero_of_pos (hp.bpm_pos given)
  have tempo := orTempo_of_moves moves b.part.settings.tempo
  cases hr : (b.part.transport.playing || notes.isEmpty)
  · rw [startPlayback_on h extent hr (by rw [tempo, moves])]
    exact (succeeds_publish_of_ends (kind.ends · _)).bind (fun _ => succeeds_pure true) _
  · exact ⟨false, b, startPlayback_on_refused h bpm extent hr⟩

namespace InTempo

variable {p : PlaybackSettings} (hp : p.Sensible) {b : Bench Studio} (hb : InTempo p b.part)
include hp hb

theorem counts (h : Hooks) (now : Option Float) :
    ∃ x, (carryOut h (.elapsedBeats now)).on b = some (.ok (.real x), b) := by
  obtain ⟨x, counted⟩ := b.part.transport.elapsedBeats_ok hp hb.transport (now.getD b.part.clock)
  refine ⟨x, ?_⟩
  unfold carryOut
  rw [on_bind_ok (on_look b), on_bind_ok (moment_on now b), hb.settings, counted]
  rfl

theorem shows (now : Option Float) : ∃ f, (frame now).on b = some (.ok f, b) := by
  obtain ⟨f, framed⟩ := frame?_ok hp b.part.session hb.transport (now.getD b.part.clock)
  refine ⟨f, ?_⟩
  rw [frame, on_bind_ok (on_look b), on_bind_ok (moment_on now b), hb.settings, framed]
  rfl

theorem plays {h : Hooks} (kind : Considerate p h) :
    ∃ began b', (play h).on b = some (.ok began, b') := by
  rw [play, on_bind_ok (on_look b)]
  have shuffles : Succeeds shuffle := succeeds_look.bind fun _ => (succeeds_change _).bind fun _ =>
    (succeeds_change _).bind fun _ => succeeds_pure _
  have discarded : Succeeds (discard shuffle) := shuffles.bind fun _ => succeeds_pure ()
  have starts := succeeds_startPlayback hp kind b.part.session.notes hb.session
    (Extent.of? (b.part.session.notes ++ b.part.session.ghosts))
  exact succeeds_ite (succeeds_pure _)
    (discarded.bind fun _ => (succeeds_change _).bind fun _ => starts) b

end InTempo

/-! ## The tempo in force -/

structure BuiltOn (p : PlaybackSettings) (s : Studio) : Prop where
  settings : s.settings = p
  session : s.session.bpm = p.tempo
  transport : s.transport.bpm = p.tempo

/-- The tempo is finite and within the limits, and nothing fails that it is needed for. -/
structure InForce (p : PlaybackSettings) (h : Hooks) (s : Studio) : Prop where
  session : isFinite s.session.bpm = true ∧ p.Allows s.session.bpm
  transport : isFinite s.transport.bpm = true ∧ p.Allows s.transport.bpm
  plays (journal : List Entry) : ∃ began b, (play h).on ⟨s, journal⟩ = some (.ok began, b)
  counts (journal : List Entry) (now : Option Float) :
    ∃ x, (carryOut h (.elapsedBeats now)).on ⟨s, journal⟩ = some (.ok (.real x), ⟨s, journal⟩)
  shows (journal : List Entry) (now : Option Float) :
    ∃ f, (frame now).on ⟨s, journal⟩ = some (.ok f, ⟨s, journal⟩)

theorem InTempo.inForce {p : PlaybackSettings} (hp : p.Sensible) {h : Hooks}
    (kind : Considerate p h) {s : Studio} (hs : InTempo p s) : InForce p h s where
  session := ⟨hp.isFinite hs.session, hs.session⟩
  transport := ⟨hp.isFinite hs.transport, hs.transport⟩
  plays journal := InTempo.plays hp (b := ⟨s, journal⟩) hs kind
  counts journal := InTempo.counts hp (b := ⟨s, journal⟩) hs h
  shows journal := InTempo.shows hp (b := ⟨s, journal⟩) hs

/-- The tempo of the command line decides. The tempo of a session stays within the limits,
whatever it is asked for, and nothing fails that it is needed for, if the first one is within them,
and only then. -/
theorem tempo_in_force {words : List String} {settings : Settings}
    (accepted : CommandLine.read words = .ok settings) {h : Hooks}
    (kind : Considerate settings.playback h) {s : Studio} (built : BuiltOn settings.playback s) :
    settings.playback.Allows settings.playback.tempo ↔
      ∀ cs, (∀ c ∈ cs, c.inTempo = true) → ∀ steps, inTurn h cs s = some steps →
        InForce settings.playback h (s.after steps) := by
  have hp : settings.playback.Sensible := by
    rw [CommandLine.read_playback accepted]
    exact PlaybackSettings.sensible_default _
  constructor
  · intro tempo cs hcs steps hrun
    have first : InTempo settings.playback s :=
      ⟨built.settings, built.session ▸ tempo, built.transport ▸ tempo⟩
    have last := leads_inTurn KeepsTempo.onward.toChains
      (fun c hc => KeepsTempo.carryOut kind tempo hp (hcs c hc)) hrun first
    exact last.inForce hp kind
  · intro always
    have first := always [] nofun [] rfl
    exact built.session ▸ first.session.2

end Studio

namespace Program

open Studio

theorem builtOn_studio (settings : Settings) (renderer : Renderer) :
    BuiltOn settings.playback (studio settings renderer) := ⟨rfl, rfl, rfl⟩

/-- A tempo within the limits, and operations that ask for others. -/
theorem tempo_in_force_asked : ∃ settings, CommandLine.read ["--bpm", "122.5"] = .ok settings ∧
    ∃ steps, inTurn (deskHooks (studio settings {}))
      [.setScript "C", .setBpm (.text "nan"), .play, .setBpm (.number 0), .frame none]
      (studio settings {}) = some steps ∧
    InForce settings.playback (deskHooks (studio settings {}))
      ((studio settings {}).after steps) := by
  let settings : Settings := { playback := { bpm := .value 122.5 } }
  have accepted : CommandLine.read ["--bpm", "122.5"] = .ok settings := rfl
  have tempo : settings.playback.Allows settings.playback.tempo := by decide +kernel
  obtain ⟨steps, hrun⟩ : ∃ steps, inTurn (deskHooks (studio settings {}))
      [.setScript "C", .setBpm (.text "nan"), .play, .setBpm (.number 0), .frame none]
      (studio settings {}) = some steps := Option.isSome_iff_exists.1 (by decide +kernel)
  have kind := considerate_deskHooks settings.playback (studio settings {})
  have always := (tempo_in_force accepted kind (builtOn_studio settings {})).1 tempo
  exact ⟨settings, accepted, steps, hrun, always _ (by decide) steps hrun⟩

/-- At the tempo zero nothing can be played, counted or shown. -/
theorem tempo_in_force_zero : ∃ settings, CommandLine.read ["--bpm", "0"] = .ok settings ∧
    BuiltOn settings.playback (studio settings {}) ∧
    ¬ settings.playback.Allows (studio settings {}).session.bpm ∧
    (inTurn (deskHooks (studio settings {}))
      [.setScript "C", .play, .elapsedBeats none, .frame none] (studio settings {})).map
        (·.map fun step => match step.outcome with
          | .ok _ => none
          | .error f => some f) =
      some [none, some .realDivision, some .realDivision, some .realDivision] := by
  refine ⟨{ playback := { bpm := .value 0 } }, rfl, builtOn_studio _ _, ?_, ?_⟩
  · decide +kernel
  · decide +kernel

end Program

end PianoRoll
