import PianoRoll.Proofs.Playback.Lanes
import PianoRoll.Proofs.Program.InStep
import PianoRoll.Proofs.Synth.Pitches

/-!
Every pitch that sounds is lit. Playback, the keys and the MIDI inputs share one synthesizer and one
set of lit keys, and each of them first asks for a sound and then tells of it: a pitch that begins
is told of as one that begins (`GlowsAfter`), and one is put out only behind the call that ends it.
So what an act does in between does not show when it is over (`Glows`). A note of playback could
fail between its sound and what is told of it, when the striker has no place for it; but for every
note of a playable studio it has one.
-/

namespace PianoRoll

def Event.begins : Event → Int → Prop
  | .noteOn q _ _, p => p = q
  | _, _ => False

def Event.putsOut : Event → Int → Prop
  | .noteOff q _, p => p = q
  | .transport false, _ => True
  | _, _ => False

/-- An event tells of a call if it tells of what the call begins, and puts out only what it ends. -/
structure Event.TellsOf (e : Event) (c : SoundCall) : Prop where
  begins (p : Int) : c.begins p → e.begins p
  ends (p : Int) : e.putsOut p → c.ends p

theorem tellsOf_on (p : Int) (velocity : Float) (source : Source) (key : Option Int) :
    Event.TellsOf (.noteOn p source key) (.on (.whole p) velocity) where
  begins _ h := (Except.ok.inj h).symm
  ends _ := nofun

theorem tellsOf_off (p : Int) (source : Source) :
    Event.TellsOf (.noteOff p source) (.off (.whole p)) where
  begins _ := nofun
  ends _ h := congrArg Except.ok h.symm

namespace Studio

open Work

/-- What sounds is lit, and the desk listens so that it stays so. -/
structure Glows (s : Studio) : Prop where
  hushed : s.audio.Hushed
  lights : .desk .light ∈ s.bus.listeners "note_on"
  lit : ∀ p ∈ s.audio.sounding, p ∈ s.desk.lit

/-- What sounds is lit once the desk has heard an event. -/
structure GlowsAfter (e : Event) (s : Studio) : Prop where
  hushed : s.audio.Hushed
  lights : .desk .light ∈ s.bus.listeners "note_on"
  lit : ∀ p ∈ s.audio.sounding, p ∈ s.desk.lit ∧ ¬e.putsOut p ∨ e.begins p

structure SameLight (s s' : Studio) : Prop where
  audio : s'.audio = s.audio
  bus : s'.bus = s.bus
  lit : s'.desk.lit = s.desk.lit

theorem Neutral.sameLight {s s' : Studio} (h : Neutral s s') : SameLight s s' :=
  ⟨h.audio, h.bus, h.lit⟩

theorem SameLight.trans {s s' s'' : Studio} (h : SameLight s s') (h' : SameLight s' s'') :
    SameLight s s'' :=
  ⟨h'.audio.trans h.audio, h'.bus.trans h.bus, h'.lit.trans h.lit⟩

variable {s s' : Studio} {e : Event}

theorem Glows.same (h : Glows s) (same : SameLight s s') : Glows s' where
  hushed := same.audio ▸ h.hushed
  lights := same.bus ▸ h.lights
  lit := by
    rw [same.audio, same.lit]
    exact h.lit

theorem GlowsAfter.same (h : GlowsAfter e s) (same : SameLight s s') : GlowsAfter e s' where
  hushed := same.audio ▸ h.hushed
  lights := same.bus ▸ h.lights
  lit := by
    rw [same.audio, same.lit]
    exact h.lit

/-- When nothing sounds, any event may be told. -/
theorem Glows.silent (h : Glows s) (silent : ∀ p, p ∉ s.audio.sounding) : GlowsAfter e s :=
  ⟨h.hushed, h.lights, fun p hp => absurd hp (silent p)⟩

/-- Before an event that puts nothing out all is as it should be. -/
theorem Glows.before (h : Glows s) (spares : ∀ p, ¬e.putsOut p := by intro _ out; cases out) :
    GlowsAfter e s :=
  ⟨h.hushed, h.lights, fun p hp => .inl ⟨h.lit p hp, spares p⟩⟩

/-! ## What is told -/

/-- A listener may fail, but an event that is delivered to it has been delivered. -/
theorem deliver_inv {h : Hooks} {l : Listener} {b b' : Bench Studio} {r : Except Fault Unit}
    (hp : (deliver h e l).on b = some (r, b')) :
    r = .ok () ∧ ∃ r₁ b₁, (h.hear l e).on b = some (r₁, b₁) ∧ b'.part = b₁.part := by
  rcases on_tryCatch_inv hp with ⟨_, heard, rfl⟩ | ⟨e, b₁, heard, logged⟩
  · exact ⟨rfl, _, b', heard, rfl⟩
  · cases logged
    exact ⟨rfl, _, b₁, heard, rfl⟩

theorem chains_lit (p : Int) : Chains fun s s' : Studio => p ∈ s.desk.lit → p ∈ s'.desk.lit :=
  ⟨fun _ => id, fun h h' => h' ∘ h⟩

def AtDesk (s s' : Studio) : Prop := ∃ desk, s' = { s with desk }

theorem chains_atDesk : Chains AtDesk where
  refl s := ⟨s.desk, rfl⟩
  trans := by
    rintro s _ _ ⟨d, rfl⟩ ⟨d', rfl⟩
    exact ⟨d', rfl⟩

section Telling

variable (desk : Studio)

/-- What the desk does with anything but a text is done at the desk. -/
theorem react_atDesk (r : Reaction)
    (he : ∀ text, e ≠ .textChanged text := by intro _ same; cases same) :
    Leads AtDesk (react r e) := by
  unfold react
  split
  · exact leads_change _ fun _ => ⟨_, rfl⟩
  · exact leads_change _ fun _ => ⟨_, rfl⟩
  · exact leads_change _ fun _ => ⟨_, rfl⟩
  · exact leads_change _ fun _ => ⟨_, rfl⟩
  · exact absurd rfl (he _)
  · exact chains_atDesk.pure _

/-- A pitch that is lit stays so unless an event puts it out. -/
theorem react_keeps_lit {p : Int} (spares : ¬e.putsOut p) (r : Reaction)
    (he : ∀ text, e ≠ .textChanged text := by intro _ same; cases same) :
    Leads (fun s s' : Studio => p ∈ s.desk.lit → p ∈ s'.desk.lit) (react r e) := by
  unfold react
  split
  · exact leads_change _ fun _ hp => PitchSet.mem_insert.2 (.inr hp)
  · exact leads_change _ fun _ hp => PitchSet.mem_erase.2 ⟨hp, spares⟩
  · exact absurd trivial spares
  · exact leads_change _ fun _ hp => hp
  · exact absurd rfl (he _)
  · exact (chains_lit p).pure _

end Telling

/-- Whoever listens besides, the desk lights a pitch that begins. -/
theorem deliver_lights (desk : Studio) {p : Int} {source : Source} {velocity : Option Int}
    {ls : List Listener} (lights : .desk .light ∈ ls) {b b' : Bench Studio} {r : Except Fault Unit}
    (h : (ls.forM (deliver (deskHooks desk) (.noteOn p source velocity))).on b = some (r, b')) :
    p ∈ b'.part.desk.lit := by
  have keeps (l : Listener) : Leads (fun s s' : Studio => p ∈ s.desk.lit → p ∈ s'.desk.lit)
      (deliver (deskHooks desk) (.noteOn p source velocity) l) :=
    (chains_lit p).rescue (leads_hear desk (chains_lit p)
      (react_keeps_lit id) l) fun _ => (chains_lit p).write _
  induction ls generalizing b with
  | nil => exact absurd lights List.not_mem_nil
  | cons l ls ih =>
    rw [forM_cons] at h
    rcases on_bind_inv h with ⟨_, b₁, h₁, h₂⟩ | ⟨e, h₁, -⟩
    · by_cases hl : l = .desk .light
      · subst hl
        obtain ⟨-, r₁, b₂, heard, part⟩ := deliver_inv h₁
        cases heard
        refine (chains_lit p).forM keeps ls h₂ ?_
        rw [part]
        exact PitchSet.mem_insert.2 (.inl rfl)
      · exact ih ((List.mem_cons.1 lights).resolve_left (Ne.symm hl)) h₂
    · cases (deliver_inv h₁).1

/-- What is told in time leaves a studio in which all that sounds is lit. -/
theorem glows_publish (desk : Studio) {b b' : Bench Studio} {r : Except Fault Unit}
    (glows : GlowsAfter e b.part) (h : (publish (deskHooks desk) e).on b = some (r, b'))
    (he : ∀ text, e ≠ .textChanged text := by intro _ same; cases same) : Glows b'.part := by
  obtain ⟨d, part⟩ := leads_publish desk chains_atDesk (react_atDesk · he) h
  have audio : b'.part.audio = b.part.audio := by rw [part]
  have bus : b'.part.bus = b.part.bus := by rw [part]
  refine ⟨audio ▸ glows.hushed, bus ▸ glows.lights, fun p hp => ?_⟩
  rcases glows.lit p (audio ▸ hp) with ⟨lit, spares⟩ | begins
  · exact leads_publish desk (chains_lit p) (react_keeps_lit spares · he) h lit
  · cases e with
    | noteOn q source velocity =>
      obtain rfl : p = q := begins
      rw [publish, on_bind_ok (record_on _ b), on_bind_ok (on_look _)] at h
      exact deliver_lights desk glows.lights h
    | _ => exact begins.elim

/-! ## What sounds and is told of -/

/-- A call changes a studio at the output alone. -/
theorem sound_leaves {c : SoundCall} {b b' : Bench Studio} {r : Except Fault Unit}
    (hushed : b.part.audio.Hushed) (h : (sound c).on b = some (r, b')) :
    ∃ a : Audio, b'.part = { b.part with audio := a } ∧ Audio.Leaves c r b.part.audio a := by
  unfold sound at h
  rw [on_within] at h
  obtain ⟨⟨r₁, b₁⟩, h₁, h₂⟩ := Option.map_eq_some_iff.1 h
  cases h₂
  exact ⟨b₁.part, rfl, Audio.call_leaves (b := ⟨b.part.audio, b.journal⟩) hushed h₁⟩

/-- A call that fails, or that begins no pitch, leaves all lit that sounds. -/
theorem glows_sound {c : SoundCall} {b b' : Bench Studio} {r : Except Fault Unit}
    (glows : Glows b.part) (begins : r = .ok () → ∀ p, ¬c.begins p)
    (h : (sound c).on b = some (r, b')) : Glows b'.part := by
  obtain ⟨a, part, leaves⟩ := sound_leaves glows.hushed h
  rw [part]
  refine ⟨leaves.hushed, glows.lights, fun p hp => ?_⟩
  rcases leaves.among p hp with ⟨old, -⟩ | ⟨ok, new⟩
  · exact glows.lit p old
  · exact absurd new (begins ok p)

/-- A call leaves a studio in which all is lit that sounds once it is told of. -/
theorem glowsAfter_sound {c : SoundCall} (tells : e.TellsOf c) {b b' : Bench Studio}
    {r : Except Fault Unit} (glows : Glows b.part) (h : (sound c).on b = some (r, b')) :
    GlowsAfter e b'.part := by
  obtain ⟨a, part, leaves⟩ := sound_leaves glows.hushed h
  rw [part]
  refine ⟨leaves.hushed, glows.lights, fun p hp => ?_⟩
  rcases leaves.among p hp with ⟨old, goes_on⟩ | ⟨-, new⟩
  · exact .inl ⟨glows.lit p old, fun out => goes_on (tells.ends p out)⟩
  · exact .inr (tells.begins p new)

theorem chains_glows : Chains fun s s' => Glows s → Glows s' := ⟨fun _ => id, fun h h' => h' ∘ h⟩

/-- A sound and what is told of it. -/
theorem leads_told (desk : Studio) {c : SoundCall} (tells : e.TellsOf c)
    (he : ∀ text, e ≠ .textChanged text := by intro _ same; cases same) :
    Leads (fun s s' => Glows s → Glows s') (do
      sound c
      publish (deskHooks desk) e) := by
  intro b r b' h glows
  rcases on_bind_inv h with ⟨_, b₁, h₁, h₂⟩ | ⟨f, h₁, -⟩
  · exact glows_publish desk (glowsAfter_sound tells glows h₁) h₂ he
  · exact glows_sound glows (fun ok => by cases ok) h₁

/-- A sound, what is told of it, and more. -/
theorem leads_told_bind (desk : Studio) {c : SoundCall} (tells : e.TellsOf c) {α : Type}
    {f : Unit → Act α} (hf : ∀ u, Leads (fun s s' => Glows s → Glows s') (f u))
    (he : ∀ text, e ≠ .textChanged text := by intro _ same; cases same) :
    Leads (fun s s' => Glows s → Glows s') (do
      sound c
      publish (deskHooks desk) e
      f ()) := by
  have assoc := bind_assoc (sound c) (fun _ => publish (deskHooks desk) e) f
  exact assoc ▸ chains_glows.bind (leads_told desk tells he) hf

/-! ## Keys, inputs and playback -/

section Acts

variable (desk : Studio)

theorem glows_press (pitch : Int) (velocity : Option Float) :
    Leads (fun s s' => Glows s → Glows s') (press (deskHooks desk) pitch velocity) :=
  chains_glows.bind chains_glows.look fun _ => leads_ite (chains_glows.pure _) <|
    chains_glows.bind (leads_change _ fun _ h => h.same ⟨rfl, rfl, rfl⟩) fun _ =>
      leads_told desk (tellsOf_on _ _ _ _)

theorem glows_release (pitch : Int) :
    Leads (fun s s' => Glows s → Glows s') (release (deskHooks desk) pitch) :=
  chains_glows.bind chains_glows.look fun _ => leads_ite
    (chains_glows.bind (leads_change _ fun _ h => h.same ⟨rfl, rfl, rfl⟩) fun _ =>
      leads_told desk (tellsOf_off _ _))
    (chains_glows.pure _)

theorem glows_receive (m : Midi.Message) :
    Leads (fun s s' => Glows s → Glows s') (receive (deskHooks desk) m) := by
  have off (note : Int) :
      Leads (fun s s' => Glows s → Glows s') (receive.noteOff (deskHooks desk) note) :=
    leads_told_bind desk (tellsOf_off _ _) fun _ => chains_glows.pure _
  cases m with
  | noteOn note velocity =>
    refine leads_ite ?_ (leads_ite (off note) (chains_glows.pure _))
    exact chains_glows.bind (chains_glows.orFail _) fun _ =>
      leads_told_bind desk (tellsOf_on _ _ _ _) fun _ => chains_glows.pure _
  | noteOff note velocity => exact off note
  | other => exact chains_glows.pure _

theorem glows_status : Leads (fun s s' => Glows s → Glows s') (publishStatus (deskHooks desk)) :=
  chains_glows.bind chains_glows.look fun _ _ _ _ h glows =>
    glows_publish desk glows.before h

theorem glows_startPlayback (notes : List Note) (bpm : Option Float) (extent : Option Extent) :
    Leads (fun s s' => Glows s → Glows s') (startPlayback (deskHooks desk) notes bpm extent) := by
  intro b r b' h glows
  cases hr : (b.part.transport.playing || notes.isEmpty)
  · cases ht : (orTempo bpm b.part.settings.tempo == 0)
    · rw [startPlayback_on _ extent hr ht] at h
      have begun : Glows (b.part.begun notes (orTempo bpm b.part.settings.tempo) extent) :=
        glows.same ⟨rfl, rfl, rfl⟩
      rcases on_bind_inv h with ⟨_, b₁, h₁, h₂⟩ | ⟨e, h₁, -⟩
      · cases h₂
        exact glows_publish desk begun.before h₁
      · exact glows_publish desk begun.before h₁
    · rw [startPlayback_on_fault _ extent hr ht] at h
      cases h
      exact glows.same ⟨rfl, rfl, rfl⟩
  · rw [startPlayback_on_refused _ bpm extent hr] at h
    cases h
    exact glows

/-- Keys may be put out when a run ends, for nothing sounds then. -/
theorem glows_stopPlayback :
    Leads (fun s s' => Glows s → Glows s') (stopPlayback (deskHooks desk)) := by
  intro b r b' h glows
  obtain ⟨a, es, hon, -, -, silenced⟩ := stopPlayback_on (deskHooks desk) b
  obtain ⟨_, part, leaves⟩ := sound_leaves glows.hushed silenced
  obtain rfl := congrArg Studio.audio part
  have silent (p : Int) : p ∉ a.sounding := fun hp => by
    rcases leaves.among p hp with ⟨-, ends⟩ | ⟨-, begins⟩
    · exact ends trivial
    · exact begins
  have stopped : Glows { b.part.calledOff.ended with audio := a } :=
    ⟨leaves.hushed, glows.lights, fun p hp => absurd hp (silent p)⟩
  rw [hon] at h
  cases hplay : b.part.transport.playing with
  | false =>
    rw [hplay] at h
    cases h
    exact stopped
  | true =>
    rw [hplay] at h
    change (log _ _ >>= fun _ => publish _ _).on _ = _ at h
    rw [log, on_bind_ok (on_write _ _)] at h
    exact glows_publish desk (stopped.silent silent) h

end Acts

structure Bright (s : Studio) : Prop where
  playable : Playable s
  glows : Glows s

theorem Bright.same (h : Bright s) (same : SameLight s s') (run : SameRun s s')
    (extent : s'.transport.extent = s.transport.extent) : Bright s' :=
  ⟨h.playable.aside run extent, h.glows.same same⟩

theorem bright_of {α : Type} {p : Act α} (keeps : Keeps p)
    (glows : Leads (fun s s' => Glows s → Glows s') p) :
    Leads (fun s s' => Bright s → Bright s') p :=
  fun _ _ _ h hb => ⟨keeps h hb.playable, glows h hb.glows⟩

theorem respectsNeutral_bright : RespectsNeutral fun s s' => Bright s → Bright s' :=
  respectsNeutral_of_kept fun h hs => hs.same h.sameLight h.run h.extent

section Playing

variable (desk : Studio)

theorem keeps_hear (l : Listener) (e : Event) : Keeps ((deskHooks desk).hear l e) := by
  cases l with
  | scripted name => exact Keeps.hereditary.pure _
  | desk r => exact Keeps.hereditary.react r e

/-- The striker has a place for the note of a timer that is due, so that the note is told of once it
sounds. -/
theorem bright_runTask {b b' : Bench Studio} {now : Float} {serial : Nat} {t : Timer Task}
    {ts : Timers Task} {r : Except Fault Unit} (hb : Bright b.part)
    (due : b.part.timers.takeDue? now = some (serial, ts))
    (here : b.part.timers.get? serial = some t) (alive : t.cancelled = false)
    (h : (runTask (deskHooks desk) serial t.task).on (left (ts.markFired serial) b) =
      some (r, b')) : Bright b'.part := by
  refine ⟨Keeps.runTask (keeps_hear desk) hb.playable due here alive h, ?_⟩
  obtain ⟨x, task⟩ := hb.playable.onlyPlayback t (Array.mem_of_getElem? here)
  have takes : Glows (taken serial { b.part with timers := ts }) :=
    hb.glows.same ⟨rfl, rfl, rfl⟩
  rw [task] at h
  change (trigger (deskHooks desk) x).on ⟨taken serial { b.part with timers := ts }, b.journal⟩ = _
    at h
  cases x with
  | noteOn n =>
    have reaches : Reaches b.part.transport.extent n.pitch :=
      hb.playable.reaches_due due here alive task
    rw [trigger, on_bind_ok (on_look _)] at h
    rcases on_bind_inv h with ⟨_, b₁, h₁, h₂⟩ | ⟨f, h₁, -⟩
    · have sounds := glowsAfter_sound (tellsOf_on n.pitch _ .playback none) takes h₁
      have reaches₁ : Reaches b₁.part.transport.extent n.pitch := by
        obtain ⟨a, es, rfl, -⟩ := sound_inv h₁
        exact reaches
      obtain ⟨b₂, struck, -⟩ := strike_goesOn reaches₁
      rw [on_bind_ok struck] at h₂
      have same : RespectsNeutral fun s s' => SameLight s s' :=
        ⟨Neutral.sameLight, SameLight.trans⟩
      exact glows_publish desk (sounds.same (same.allowsNeutral.strike _ struck)) h₂
    · exact glows_sound takes (fun ok => by cases ok) h₁
  | noteOff n =>
    have told : Leads (fun s s' => Glows s → Glows s') (trigger (deskHooks desk) (.noteOff n)) :=
      leads_told desk (tellsOf_off _ _)
    exact told h takes
  | finish =>
    rw [trigger, log, on_bind_ok (on_write _ _)] at h
    exact glows_stopPlayback desk h takes

theorem bright_pump (now : Option Float) :
    Leads (fun s s' => Bright s → Bright s') (pump (deskHooks desk) now) :=
  have hP := respectsNeutral_bright.allowsNeutral
  hP.bind (hP.moment now) fun _ => leads_drain
    (fun _ _ _ hb due dead => ⟨hb.playable.passed due dead, hb.glows.same ⟨rfl, rfl, rfl⟩⟩)
    (fun _ _ _ _ _ _ hb due here alive => bright_runTask desk hb due here alive) _ _

theorem bright_handles : Handles (Leads fun s s' => Bright s → Bright s') (deskHooks desk) :=
  have hP := Keeps.hereditary.allowsNeutral
  have performs := Keeps.performs (keeps_hear desk)
  have holds := Keeps.hereditary.holds
  { start := fun _ _ _ covers =>
      bright_of (Keeps.startPlayback (keeps_hear desk) _ covers) (glows_startPlayback desk _ _ _)
    stop := bright_of (Keeps.stopPlayback (keeps_hear desk)) (glows_stopPlayback desk)
    status := bright_of (hP.publishStatus performs) (glows_status desk)
    receive := fun m => bright_of (hP.receive performs m) (glows_receive desk m)
    waveform := fun _ => bright_of (Keeps.sound _) fun _ _ _ h glows =>
      glows_sound glows (fun _ _ => id) h
    volume := fun _ => bright_of (Keeps.sound _) fun _ _ _ h glows =>
      glows_sound glows (fun _ _ => id) h
    press := fun _ _ => bright_of (hP.press performs holds _ _) (glows_press desk _ _)
    release := fun _ => bright_of (hP.release performs holds _) (glows_release desk _) }

end Playing

end Studio

namespace Program

open Work Studio

/-- Editing touches neither sounds nor lit keys. -/
theorem Updated.bright {editor : Editor} {changed : Bool} {b b' : Bench Studio}
    (updated : Updated editor changed b b') (hb : Bright b.part) : Bright b'.part := by
  rw [updated.part, edited]
  dsimp only
  split
  · exact hb.same ⟨rfl, rfl, rfl⟩ ⟨rfl, rfl, rfl, rfl⟩ rfl
  · exact hb.same ⟨rfl, rfl, rfl⟩ ⟨rfl, rfl, rfl, rfl⟩ rfl

theorem bright_askEditor (c : Editor.Call) :
    Leads (fun s s' => Bright s → Bright s') (askEditor c) := by
  intro b r b' h hb
  obtain ⟨b₁, h₁, updated⟩ := askEditor_on c b
  rw [h₁] at h
  cases h
  exact updated.bright hb

theorem bright_offer (i : Input) : Leads (fun s s' => Bright s → Bright s') (offer i) := by
  intro b r b' h hb
  obtain ⟨b₁, h₁, updated⟩ := offer_on i b
  rw [h₁] at h
  cases h
  exact updated.bright hb

theorem handled_bright : Handled fun s s' => Bright s → Bright s' :=
  { respectsNeutral_bright with
    handles := bright_handles, pump := bright_pump, offer := bright_offer }

theorem bright_close : Leads (fun s s' => Bright s → Bright s') close :=
  have hP := respectsNeutral_bright.allowsNeutral
  hP.bind hP.look fun s => hP.bind (bright_handles s).stop fun _ => hP.bind hP.look fun s =>
    hP.bind (hP.releaseAll (bright_handles s).release) fun _ => hP.bind hP.closeInputs fun _ =>
      hP.bind (bright_of (Keeps.sound .close) fun _ _ _ h glows =>
        glows_sound glows (fun _ _ => id) h) fun _ => hP.log _ _

/-! ## From the beginning on -/

/-- Nothing sounds on a synthesizer that was just switched on. -/
theorem bright_startSynth {device : DeviceSetup} {s s₀ : Studio} {r : Except Fault Unit}
    {es : List Entry} (fresh : Fresh s) (lights : .desk .light ∈ s.bus.listeners "note_on")
    (h : runAct (startSynth device) s = some (r, s₀, es)) : Bright s₀ := by
  obtain ⟨⟨r₁, b⟩, hon, e⟩ := Option.map_eq_some_iff.1 h
  cases e
  rw [startSynth, log, on_bind_ok (on_write _ _), on_bind_ok (on_look _)] at hon
  split at hon
  · next tape =>
    cases hon
    have silent (p : Int) : p ∉ s.audio.sounding := by
      rw [tape]
      exact PitchSet.not_mem_empty
    exact ⟨fresh.playable, fun p hp => absurd hp (silent p), lights,
      fun p hp => absurd hp (silent p)⟩
  · rw [on_within] at hon
    obtain ⟨⟨r₂, b₁⟩, h₁, h₂⟩ := Option.map_eq_some_iff.1 hon
    cases h₂
    have silent := Synth.start_silent h₁
    exact ⟨fresh.playable.aside ⟨rfl, rfl, rfl, rfl⟩ rfl, fun p hp => absurd hp (silent p), lights,
      fun p hp => absurd hp (silent p)⟩

theorem bright_start (disk : Disk) : Leads (fun s s' => Bright s → Bright s') (start disk) :=
  have hP := respectsNeutral_bright.allowsNeutral
  hP.bind hP.look fun _ => hP.bind (hP.loadSong _) fun _ => hP.bind (hP.initialScript disk _)
    fun text => bright_askEditor (.setText text)

/-- Playback gets on without a frame being drawn. -/
def tick (now : Option Float) : Act Unit := do
  discard (pump (deskHooks (← look)) now)

inductive Later (s : Studio) : Studio → Prop
  | still : Later s s
  | doing {s' s'' : Studio} {r : Except Fault Unit} {es : List Entry} (later : Later s s')
      (d : Doing) (h : runAct d.act s' = some (r, s'', es)) : Later s s''
  | ticking {s' s'' : Studio} {r : Except Fault Unit} {es : List Entry} (later : Later s s')
      (now : Option Float) (h : runAct (tick now) s' = some (r, s'', es)) : Later s s''

theorem later_enact {ds : List Doing} {s s₁ s' : Studio} (later : Later s s₁)
    (h : enact ds s₁ = some s') : Later s s' := by
  induction ds generalizing s₁ with
  | nil =>
    cases h
    exact later
  | cons d ds ih =>
    obtain ⟨r, s₂, es, h₁, h₂⟩ := enact_cons_inv h
    exact ih (later.doing d h₁) h₂

theorem Later.bright {s s' : Studio} (later : Later s s') (hs : Bright s) : Bright s' := by
  have hP := respectsNeutral_bright.allowsNeutral
  induction later with
  | still => exact hs
  | doing _ d h ih => exact leads_runAct (handled_bright.leads_act bright_close d) h ih
  | ticking _ now h ih =>
    have ticks : Leads (fun s s' => Bright s → Bright s') (tick now) :=
      hP.bind hP.look fun s => hP.discard (bright_pump s now)
    exact leads_runAct ticks h ih

/-- The studio when its synthesizer was switched on and its window was opened, if neither failed. -/
def opening (device : DeviceSetup) (disk : Disk) (s : Studio) : Option Studio := do
  let (switched, s₀, _) ← runAct (startSynth device) s
  let (started, s₁, _) ← runAct (start disk) s₀
  match switched, started with
  | .ok (), .ok () => return s₁
  | _, _ => none

/-- A studio that was opened, fresh and with a desk that lights what begins. -/
structure Opened (device : DeviceSetup) (disk : Disk) (s s₁ : Studio) : Prop where
  fresh : Fresh s
  lights : .desk .light ∈ s.bus.listeners "note_on"
  opened : opening device disk s = some s₁

theorem Opened.bright {device : DeviceSetup} {disk : Disk} {s s₁ : Studio}
    (h : Opened device disk s s₁) : Bright s₁ := by
  obtain ⟨⟨switched, s₀, es⟩, h₀, rest⟩ := Option.bind_eq_some_iff.1 h.opened
  obtain ⟨⟨started, s₂, es₂⟩, h₁, result⟩ := Option.bind_eq_some_iff.1 rest
  have bright := leads_runAct (bright_start disk) h₁ (bright_startSynth h.fresh h.lights h₀)
  dsimp only at result
  split at result
  · cases result
    exact bright
  · cases result

/-- The desk of a studio that has just been put together lights what begins. -/
theorem lights_studio (settings : Settings) (renderer : Renderer) :
    .desk .light ∈ (studio settings renderer).bus.listeners "note_on" := by
  show Listener.desk .light ∈ Bus.listeners "note_on" subscriptions
  decide

/-- Every pitch that sounds is lit. Once the window is open, whatever happens in whatever order, and
at every moment of a run, the synthesizer sounds no pitch that is not lit, whatever its device
refuses. -/
theorem sounding_is_lit {device : DeviceSetup} {disk : Disk} {s s₁ : Studio}
    (opened : Opened device disk s s₁) :
    (∀ s', Later s₁ s' → ∀ p ∈ s'.audio.sounding, p ∈ s'.desk.lit) ∧
    ∀ passes run, mainLoop passes s₁ = some run → ∀ shot ∈ run.last :: run.shots,
      ∀ p ∈ shot.studio.audio.sounding, p ∈ shot.studio.desk.lit := by
  refine ⟨fun s' later => (later.bright opened.bright).glows.lit, fun passes run h shot hs => ?_⟩
  have turns := leads_turn handled_bright
  exact (kept_mainLoop turns bright_close opened.bright h shot hs).glows.lit

/-- A device that refuses every fourth call. -/
def stubborn : DeviceSetup := { refuses := fun n _ => n % 4 == 1 }

/-- A pitch is played on a MIDI input and on the keys, and playback comes to it too; then it ends on
the MIDI input, another key is pressed, and the device refuses one more note. -/
def jamming : List Doing :=
  [.message (.noteOn 60 90), .input (.key (.character 'a')), .button "PLAY/STOP",
    .arrive { milliseconds := 700 }, .frame 0.5, .message (.noteOff 60 0),
    .input (.key (.character 's')), .message (.noteOn 67 80)]

theorem sounding_is_lit_jamming : ∃ s₁ s', Opened stubborn noDisk plain s₁ ∧
    enact jamming s₁ = some s' ∧
      (s'.audio.sounding.toList, s'.desk.lit.toList, s'.held.toList) = ([62], [62, 67], [60, 62]) ∧
        ∀ p ∈ s'.audio.sounding, p ∈ s'.desk.lit := by
  have plays : ((opening stubborn noDisk plain).bind fun s₁ => (enact jamming s₁).map fun s' =>
      (s'.audio.sounding.toList, s'.desk.lit.toList, s'.held.toList)) =
        some ([62], [62, 67], [60, 62]) := by decide +kernel
  obtain ⟨s₁, opens, plays⟩ := Option.bind_eq_some_iff.1 plays
  obtain ⟨s', enacted, keys⟩ := Option.map_eq_some_iff.1 plays
  have opened : Opened stubborn noDisk plain s₁ :=
    ⟨⟨rfl, rfl, rfl, rfl⟩, lights_studio {} {}, opens⟩
  exact ⟨s₁, s', opened, enacted, keys, (sounding_is_lit opened).1 s' (later_enact .still enacted)⟩

end Program

end PianoRoll
