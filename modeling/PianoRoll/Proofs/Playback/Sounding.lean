import PianoRoll.Proofs.Work
import PianoRoll.Studio.Publish

/-!
What sounding and publishing do to a studio. A sound changes the audio output alone, an event
changes nothing before somebody hears it. The journal shows both: a tape writes every call down
(`sound_inv`), and an event stands there as often as its kind is recorded (`record_on`).
-/

namespace PianoRoll

open Work

def Entry.audible : Entry → Bool
  | .sound _ | .event _ => true
  | _ => false

namespace Synth

/-- A kind of entries that holds whatever a synthesizer writes: it speaks to its device and to the
log. -/
structure Voices (K : Entry → Prop) : Prop where
  log (l : LogLine) : K (.log l)
  device (c : DeviceCall) : K (.device c)
  released : K .deviceReleased

namespace Voices

variable {K : Entry → Prop} (hK : Voices K)
include hK

theorem call (c : DeviceCall) : Writes K (call c) :=
  writes_look.bind fun _ => (writes_change _).bind fun _ =>
    writes_ite (writes_pure _) ((writes_write _ (hK.device _)).bind fun _ => writes_pure _)

theorem line (l : Level) (t : String) : Writes K (Work.log l t : Work Synth Unit) :=
  writes_write _ (hK.log _)

theorem stopPitch (p : Int) : Writes K (stopPitch p) :=
  (writes_change _).bind fun _ => (hK.call _).bind fun _ =>
    writes_ite (hK.line _ _) (writes_pure _)

theorem startPitch (p : Int) (velocity : Float) : Writes K (startPitch p velocity) := by
  have sends : Writes K (do
      let v ← orFail (keyVelocity velocity)
      if ← Synth.call (.noteOn p v) then
        change fun s => { s with sounding := s.sounding.insert p }
      else Work.log .debug s!"[Synth] note_on {p} failed") :=
    (writes_orFail _).bind fun _ => (hK.call _).bind fun _ =>
      writes_ite (writes_change _) (hK.line _ _)
  refine writes_look.bind fun _ => writes_ite ?_ ?_
  · exact (hK.stopPitch p).bind fun _ => sends
  · exact sends

theorem stopAll : Writes K stopAll :=
  writes_look.bind fun _ => writes_ite (writes_pure _) <|
    (writes_forM hK.stopPitch _).bind fun _ => (hK.call _).bind fun _ =>
      writes_ite (hK.line _ _) (writes_pure _)

theorem playNote (pitch : Amount) (velocity : Float) : Writes K (playNote pitch velocity) :=
  writes_look.bind fun _ => writes_ite (writes_pure _) <|
    (writes_orFail _).bind fun _ => writes_ite (hK.startPitch _ _) (hK.line _ _)

theorem stopNote (pitch : Amount) : Writes K (stopNote pitch) :=
  writes_look.bind fun _ => writes_ite (writes_pure _) <|
    (writes_orFail _).bind fun _ => hK.stopPitch _

theorem setWaveform (name : Given String) : Writes K (setWaveform name) := by
  unfold Synth.setWaveform
  split
  · exact writes_look.bind fun _ => hK.line _ _
  · exact (writes_change _).bind fun _ => writes_look.bind fun _ =>
      writes_ite (writes_pure _) <| (hK.call _).bind fun _ =>
        writes_ite (hK.line _ _) (writes_pure _)

theorem setVolume (value : Float) : Writes K (setVolume value) := by
  refine (writes_change _).bind fun _ => writes_look.bind fun _ => writes_ite (writes_pure _) ?_
  split
  · exact (hK.call _).bind fun _ => writes_ite (hK.line _ _) (writes_pure _)
  · exact (writes_pure _).bind fun _ => writes_ite (hK.line _ _) (writes_pure _)

theorem close : Writes K close := by
  have lets_go : Writes K (do
      write .deviceReleased
      change fun s : Synth => { s with ready := false }) :=
    (writes_write _ hK.released).bind fun _ => writes_change _
  refine writes_look.bind fun _ => writes_ite ?_ lets_go
  exact hK.stopAll.bind fun _ => (hK.call _).bind fun _ =>
    writes_ite ((hK.line _ _).bind fun _ => lets_go) lets_go

theorem toSynth (c : SoundCall) : Writes K (Audio.toSynth c) := by
  cases c with
  | on pitch velocity => exact hK.playNote pitch velocity
  | off pitch => exact hK.stopNote pitch
  | silence => exact hK.stopAll
  | waveform name => exact hK.setWaveform _
  | volume value => exact hK.setVolume value
  | close => exact hK.close

end Voices

/-- A synthesizer does not speak of sounds or events. -/
abbrev Quietly {α : Type} (p : Work Synth α) : Prop := Writes (fun e => e.audible = false) p

/-! Silencing never fails, whatever the device refuses. -/

theorem succeeds_call (c : DeviceCall) : Succeeds (call c) :=
  succeeds_look.bind fun _ => (succeeds_change _).bind fun _ =>
    succeeds_ite (succeeds_pure _) ((succeeds_write _).bind fun _ => succeeds_pure _)

theorem succeeds_stopPitch (p : Int) : Succeeds (stopPitch p) :=
  (succeeds_change _).bind fun _ => (succeeds_call _).bind fun _ =>
    succeeds_ite (succeeds_write _) (succeeds_pure _)

theorem succeeds_stopAll : Succeeds stopAll :=
  succeeds_look.bind fun _ => succeeds_ite (succeeds_pure _) <|
    (succeeds_forM succeeds_stopPitch _).bind fun _ => (succeeds_call _).bind fun _ =>
      succeeds_ite (succeeds_write _) (succeeds_pure _)

/-! Nor do notes, if their loudness has a key velocity. -/

theorem succeeds_startPitch (p : Int) {velocity : Float} {v : Int}
    (takes : keyVelocity velocity = .ok v) : Succeeds (startPitch p velocity) := by
  have sends : Succeeds (do
      let v ← orFail (keyVelocity velocity)
      if ← call (.noteOn p v) then
        change fun s => { s with sounding := s.sounding.insert p }
      else log .debug s!"[Synth] note_on {p} failed") := by
    rw [takes]
    exact (succeeds_orFail v).bind fun _ => (succeeds_call _).bind fun _ =>
      succeeds_ite (succeeds_change _) (succeeds_write _)
  exact succeeds_look.bind fun _ =>
    succeeds_ite ((succeeds_stopPitch p).bind fun _ => sends) sends

theorem succeeds_playNote (p : Int) {velocity : Float} {v : Int}
    (takes : keyVelocity velocity = .ok v) : Succeeds (playNote (.whole p) velocity) :=
  succeeds_look.bind fun _ => succeeds_ite (succeeds_pure _) <|
    (succeeds_orFail p).bind fun _ =>
      succeeds_ite (succeeds_startPitch _ takes) (succeeds_write _)

theorem succeeds_stopNote (p : Int) : Succeeds (stopNote (.whole p)) :=
  succeeds_look.bind fun _ => succeeds_ite (succeeds_pure _) <|
    (succeeds_orFail p).bind fun _ => succeeds_stopPitch _

/-! Whatever is asked of a synthesizer comes to an end. -/

theorem ends_startPitch (p : Int) (velocity : Float) : Ends (startPitch p velocity) := by
  have sends : Ends (do
      let v ← orFail (keyVelocity velocity)
      if ← call (.noteOn p v) then
        change fun s => { s with sounding := s.sounding.insert p }
      else log .debug s!"[Synth] note_on {p} failed") :=
    (ends_orFail _).bind fun _ => (succeeds_call _).ends.bind fun _ =>
      (succeeds_ite (succeeds_change _) (succeeds_write _)).ends
  exact succeeds_look.ends.bind fun _ =>
    ends_ite ((succeeds_stopPitch p).ends.bind fun _ => sends) sends

theorem ends_playNote (pitch : Amount) (velocity : Float) : Ends (playNote pitch velocity) :=
  succeeds_look.ends.bind fun _ => ends_ite (succeeds_pure _).ends <|
    (ends_orFail _).bind fun _ => ends_ite (ends_startPitch _ _) (succeeds_write _).ends

theorem ends_stopNote (pitch : Amount) : Ends (stopNote pitch) :=
  succeeds_look.ends.bind fun _ => ends_ite (succeeds_pure _).ends <|
    (ends_orFail _).bind fun _ => (succeeds_stopPitch _).ends

theorem succeeds_setWaveform (name : Given String) : Succeeds (setWaveform name) := by
  unfold setWaveform
  split
  · exact succeeds_look.bind fun _ => succeeds_write _
  · exact (succeeds_change _).bind fun _ => succeeds_look.bind fun _ =>
      succeeds_ite (succeeds_pure _) <| (succeeds_call _).bind fun _ =>
        succeeds_ite (succeeds_write _) (succeeds_pure _)

theorem succeeds_setVolume (value : Float) : Succeeds (setVolume value) := by
  refine (succeeds_change _).bind fun _ => succeeds_look.bind fun _ =>
    succeeds_ite (succeeds_pure _) ?_
  split
  · exact (succeeds_call _).bind fun _ => succeeds_ite (succeeds_write _) (succeeds_pure _)
  · exact (succeeds_pure _).bind fun _ => succeeds_ite (succeeds_write _) (succeeds_pure _)

theorem succeeds_close : Succeeds close := by
  have lets_go : Succeeds (do
      write .deviceReleased
      change fun s : Synth => { s with ready := false }) :=
    (succeeds_write _).bind fun _ => succeeds_change _
  refine succeeds_look.bind fun _ => succeeds_ite ?_ lets_go
  exact succeeds_stopAll.bind fun _ => (succeeds_call _).bind fun _ =>
    succeeds_ite ((succeeds_write _).bind fun _ => lets_go) lets_go

end Synth

namespace Audio

def isTape : Audio → Bool
  | .tape => true
  | .synth _ => false

def heard (a : Audio) (c : SoundCall) : List Entry := if a.isTape then [.sound c] else []

/-- Besides what is heard of a call, an output leaves what nobody hears. -/
theorem silent_or_called {a : Audio} {c : SoundCall} {es : List Entry}
    (h : es.filter Entry.audible = a.heard c) {e : Entry} (he : e ∈ es) :
    e.audible = false ∨ e = .sound c := by
  cases audible : e.audible with
  | false => exact .inl rfl
  | true =>
    have heard : e ∈ a.heard c := h ▸ List.mem_filter.2 ⟨he, audible⟩
    unfold Audio.heard at heard
    split at heard
    · exact .inr (List.mem_singleton.1 heard)
    · cases heard

theorem quietly_toSynth (c : SoundCall) : Synth.Quietly (toSynth c) := by
  have voices : Synth.Voices fun e => e.audible = false := ⟨fun _ => rfl, fun _ => rfl, rfl⟩
  exact voices.toSynth c

/-- What an output writes down is the call itself, or what a synthesizer says. -/
theorem writes_call {K : Entry → Prop} (hK : Synth.Voices K) {c : SoundCall} (hc : K (.sound c)) :
    Writes K (call c) := by
  refine writes_look.bind fun a => ?_
  cases a with
  | tape => exact writes_write _ hc
  | synth s => exact (hK.toSynth c).within _ _

/-- An output that is asked for something stays what it is, a tape or a synthesizer, and shows
the call in the journal if it is a tape. Nothing of this depends on the journal. -/
theorem call_inv {c : SoundCall} {b b' : Bench Audio} {r : Except Fault Unit}
    (h : (call c).on b = some (r, b')) :
    b'.part.isTape = b.part.isTape ∧
      ∃ es, b'.journal = es ++ b.journal ∧ es.filter Entry.audible = b.part.heard c ∧
        ∀ j, (call c).on ⟨b.part, j⟩ = some (r, ⟨b'.part, es ++ j⟩) := by
  obtain ⟨a, j⟩ := b
  cases a with
  | tape =>
    cases h
    exact ⟨rfl, [.sound c], rfl, rfl, fun _ => rfl⟩
  | synth s =>
    change ((toSynth c).on ⟨s, j⟩).map _ = _ at h
    obtain ⟨⟨r₁, b₁⟩, h₁, h₂⟩ := Option.map_eq_some_iff.1 h
    obtain ⟨es, e, quiet, any⟩ := quietly_toSynth c h₁
    cases h₂
    refine ⟨rfl, es, e, List.filter_eq_nil_iff.2 fun x hx => ?_, fun j => ?_⟩
    · simp [quiet x hx]
    · change ((toSynth c).on ⟨s, j⟩).map _ = _
      rw [any]
      rfl

theorem ends_toSynth (c : SoundCall) : Ends (toSynth c) := by
  cases c with
  | on pitch velocity => exact Synth.ends_playNote pitch velocity
  | off pitch => exact Synth.ends_stopNote pitch
  | silence => exact Synth.succeeds_stopAll.ends
  | waveform name => exact (Synth.succeeds_setWaveform _).ends
  | volume value => exact (Synth.succeeds_setVolume value).ends
  | close => exact Synth.succeeds_close.ends

/-- An output ends a call as a synthesizer would; on a tape every call ends well. -/
theorem call_ends (c : SoundCall) (b : Bench Audio) :
    ∃ r b', (call c).on b = some (r, b') ∧ (Succeeds (toSynth c) → r = .ok ()) := by
  obtain ⟨a, j⟩ := b
  cases a with
  | tape => exact ⟨.ok (), _, rfl, fun _ => rfl⟩
  | synth s =>
    obtain ⟨r, b, h⟩ := ends_toSynth c ⟨s, j⟩
    refine ⟨r, ⟨.synth b.part, b.journal⟩, ?_, fun succeeds => ?_⟩
    · change ((toSynth c).on ⟨s, j⟩).map _ = _
      rw [h]
      rfl
    · obtain ⟨_, b', h'⟩ := succeeds ⟨s, j⟩
      rw [h'] at h
      cases h
      rfl

end Audio

namespace Studio

/-- A sound changes the audio output alone, and by the output alone it is decided how. -/
theorem sound_inv {c : SoundCall} {b b' : Bench Studio} {r : Except Fault Unit}
    (h : (sound c).on b = some (r, b')) :
    ∃ a es, b' = ⟨{ b.part with audio := a }, es ++ b.journal⟩ ∧
      a.isTape = b.part.audio.isTape ∧ es.filter Entry.audible = b.part.audio.heard c ∧
      ∀ b₂ : Bench Studio, b₂.part.audio = b.part.audio →
        (sound c).on b₂ = some (r, ⟨{ b₂.part with audio := a }, es ++ b₂.journal⟩) := by
  unfold sound at h ⊢
  rw [on_within] at h
  obtain ⟨⟨r₁, b₁⟩, h₁, h₂⟩ := Option.map_eq_some_iff.1 h
  obtain ⟨tape, es, e, k, any⟩ := Audio.call_inv h₁
  cases h₂
  refine ⟨b₁.part, es, by rw [e], tape, k, fun b₂ same => ?_⟩
  rw [on_within, same, any]
  rfl

theorem writes_sound {K : Entry → Prop} (hK : Synth.Voices K) {c : SoundCall} (hc : K (.sound c)) :
    Writes K (sound c) := (Audio.writes_call hK hc).within _ _

/-- Asking for a sound comes to an end. -/
theorem sound_ends (c : SoundCall) (b : Bench Studio) : ∃ r b', (sound c).on b = some (r, b') ∧
    (Succeeds (Audio.toSynth c) → r = .ok ()) := by
  obtain ⟨r, b₁, h, well⟩ := Audio.call_ends c ⟨b.part.audio, b.journal⟩
  refine ⟨r, ⟨{ b.part with audio := b₁.part }, b₁.journal⟩, ?_, well⟩
  unfold sound
  rw [on_within, h]
  rfl

theorem succeeds_sound {c : SoundCall} (h : Succeeds (Audio.toSynth c)) : Succeeds (sound c) := by
  intro b
  obtain ⟨r, b', on, well⟩ := sound_ends c b
  exact ⟨(), b', well h ▸ on⟩

/-- On a tape every sound ends well and is written down. -/
theorem sound_on_tape {b : Bench Studio} (h : b.part.audio = .tape) (c : SoundCall) :
    (sound c).on b = some (.ok (), ⟨b.part, .sound c :: b.journal⟩) := by
  obtain ⟨s, j⟩ := b
  change s.audio = .tape at h
  unfold sound
  rw [on_within, h]
  exact congrArg (fun a => some (Except.ok (), Bench.mk { s with audio := a } _)) h.symm

theorem moment_on (now : Option Float) (b : Bench Studio) :
    (moment now).on b = some (.ok (now.getD b.part.clock), b) := rfl

def shown (recorded : List String) (e : Event) : List Entry :=
  List.replicate (recorded.count e.kind) (.event e)

theorem record_on (e : Event) (b : Bench Studio) :
    (record e).on b = some (.ok (), ⟨b.part, shown b.part.recorded e ++ b.journal⟩) := by
  have each : ∀ (ks : List String) (b : Bench Studio),
      (ks.forM fun _ => (write (.event e) : Act Unit)).on b =
        some (.ok (), ⟨b.part, List.replicate ks.length (.event e) ++ b.journal⟩) := by
    intro ks
    induction ks with
    | nil => intro b; rfl
    | cons k ks ih =>
      intro b
      rw [forM_cons, on_bind_ok (on_write _ b), ih, List.length_cons, List.replicate_succ',
        List.append_assoc]
      rfl
  rw [shown, List.count_eq_countP, List.countP_eq_length_filter]
  exact each _ b

/-- Publishing ends well when everyone who may listen comes to an end. -/
theorem succeeds_publish_of_ends {h : Hooks} {e : Event} (hears : ∀ l, Ends (h.hear l e)) :
    Succeeds (publish h e) := by
  refine Succeeds.bind (fun b => ⟨(), _, record_on e b⟩) fun _ => succeeds_look.bind fun b =>
    succeeds_forM (fun l b => ?_) _
  obtain ⟨r, b', h⟩ := hears l b
  rw [deliver, on_tryCatch, h]
  cases r with
  | ok _ => exact ⟨(), b', rfl⟩
  | error _ => exact succeeds_write _ b'

theorem filter_audible_shown (recorded : List String) (e : Event) :
    (shown recorded e).filter Entry.audible = shown recorded e := by
  refine List.filter_eq_self.2 fun x hx => ?_
  rw [List.eq_of_mem_replicate hx]
  rfl

end Studio

end PianoRoll
