import PianoRoll.Proofs.Playback.Sounding

/-!
The pitches that sound. Only a call that begins a pitch adds one, and only if it ends well; a call
that ends pitches leaves none of them, and without a device nothing sounds at all
(`Audio.call_leaves`). This is so whatever the device refuses, and whether a call ends well or not.
-/

namespace PianoRoll

namespace Synth

open Work

/-- No pitch begins to sound, and there is a device or not as before. -/
structure Fades (s s' : Synth) : Prop where
  sounding : ∀ p ∈ s'.sounding, p ∈ s.sounding
  ready : s'.ready = s.ready

theorem chains_fades : Chains Fades where
  refl _ := ⟨fun _ hp => hp, rfl⟩
  trans h h' := ⟨fun p hp => h.sounding p (h'.sounding p hp), h'.ready.trans h.ready⟩

theorem fades_call (c : DeviceCall) : Leads Fades (call c) :=
  chains_fades.bind chains_fades.look fun _ =>
    chains_fades.bind (leads_change _ fun _ => ⟨fun _ hp => hp, rfl⟩) fun _ =>
      leads_ite (chains_fades.pure _) <|
        chains_fades.bind (chains_fades.write _) fun _ => chains_fades.pure _

/-- A call, with a log line if it is refused. -/
theorem fades_tell (c : DeviceCall) (text : String) :
    Leads Fades (do if !(← call c) then log .debug text) :=
  chains_fades.bind (fades_call c) fun _ =>
    leads_ite (chains_fades.write _) (chains_fades.pure _)

/-- A pitch that is stopped does not sound, whether or not the device stops it. -/
theorem fades_stopPitch (p : Int) :
    Leads (fun s s' => Fades s s' ∧ p ∉ s'.sounding) (stopPitch p) := by
  intro b r b' h
  rw [stopPitch, on_bind_ok (on_change _ b)] at h
  have told := fades_tell _ _ h
  have erased {q : Int} (hq : q ∈ b'.part.sounding) : q ∈ b.part.sounding ∧ q ≠ p :=
    PitchSet.mem_erase.1 (told.sounding q hq)
  exact ⟨⟨fun q hq => (erased hq).1, told.ready⟩, fun hp => (erased hp).2 rfl⟩

theorem fades_stopPitches (ps : List Int) :
    Leads (fun s s' => Fades s s' ∧ ∀ p ∈ ps, p ∉ s'.sounding) (ps.forM stopPitch) := by
  induction ps with
  | nil =>
    intro b r b' h
    exact ⟨chains_fades.pure () h, fun _ hp => absurd hp List.not_mem_nil⟩
  | cons p ps ih =>
    intro b r b' h
    rw [forM_cons] at h
    obtain ⟨_, b₁, h₁⟩ := succeeds_stopPitch p b
    rw [on_bind_ok h₁] at h
    obtain ⟨first, gone⟩ := fades_stopPitch p h₁
    obtain ⟨rest, others⟩ := ih h
    refine ⟨chains_fades.trans first rest, fun q hq => ?_⟩
    rcases List.mem_cons.1 hq with rfl | hq
    · exact fun hq => gone (rest.sounding q hq)
    · exact others q hq

theorem fades_stopAll :
    Leads (fun s s' => Fades s s' ∧ (s.ready = true → ∀ p, p ∉ s'.sounding)) stopAll := by
  intro b r b' h
  rw [stopAll, on_bind_ok (on_look b)] at h
  split at h
  · next off =>
    cases h
    exact ⟨chains_fades.refl _, fun on => by simp [on] at off⟩
  · obtain ⟨_, b₁, h₁⟩ := succeeds_forM succeeds_stopPitch b.part.sounding.toList b
    rw [on_bind_ok h₁] at h
    obtain ⟨each, gone⟩ := fades_stopPitches _ h₁
    have told := fades_tell _ _ h
    refine ⟨chains_fades.trans each told, fun _ p hp => ?_⟩
    have here := told.sounding p hp
    exact gone p (each.sounding p here) here

theorem fades_setWaveform (name : Given String) : Leads Fades (setWaveform name) := by
  unfold setWaveform
  split
  · exact chains_fades.bind chains_fades.look fun _ => chains_fades.write _
  · exact chains_fades.bind (leads_change _ fun _ => ⟨fun _ hp => hp, rfl⟩) fun _ =>
      chains_fades.bind chains_fades.look fun _ =>
        leads_ite (chains_fades.pure _) (fades_tell _ _)

theorem fades_setVolume (value : Float) : Leads Fades (setVolume value) := by
  have logged (sent : Bool) : Leads Fades
      (if !sent then log .debug "[Synth] volume change failed" else pure ()) :=
    leads_ite (chains_fades.write _) (chains_fades.pure _)
  refine chains_fades.bind (leads_change _ fun _ => ⟨fun _ hp => hp, rfl⟩) fun _ =>
    chains_fades.bind chains_fades.look fun _ => leads_ite (chains_fades.pure _) ?_
  split
  · exact chains_fades.bind (fades_call _) logged
  · exact chains_fades.bind (chains_fades.pure _) logged

/-! ## Calls -/

/-- Of the pitches that sound only one is new, and that one only if the work ended well. -/
structure Adds (p : Int) (r : Except Fault Unit) (s s' : Synth) : Prop where
  sounding : ∀ q ∈ s'.sounding, q ∈ s.sounding ∨ r = .ok () ∧ q = p
  ready : s'.ready = s.ready

theorem Fades.adds {s s' : Synth} (h : Fades s s') (p : Int) (r : Except Fault Unit) :
    Adds p r s s' := ⟨fun q hq => .inl (h.sounding q hq), h.ready⟩

variable {b b' : Bench Synth} {r : Except Fault Unit}

theorem startPitch_adds {p : Int} {velocity : Float}
    (h : (startPitch p velocity).on b = some (r, b')) : Adds p r b.part b'.part := by
  have sends {b₁ : Bench Synth} (h : (do
      let v ← orFail (keyVelocity velocity)
      if ← call (.noteOn p v) then
        change fun s => { s with sounding := s.sounding.insert p }
      else log .debug s!"[Synth] note_on {p} failed").on b₁ = some (r, b')) :
      Adds p r b₁.part b'.part := by
    rcases on_orFail_bind_inv h with ⟨v, -, h⟩ | ⟨e, -, rfl, rfl⟩
    · obtain ⟨done, b₃, h₂⟩ := succeeds_call (.noteOn p v) b₁
      have called := fades_call _ h₂
      rw [on_bind_ok h₂] at h
      cases done with
      | true =>
        cases h
        refine ⟨fun q hq => ?_, called.ready⟩
        rcases PitchSet.mem_insert.1 hq with rfl | hq
        · exact .inr ⟨rfl, rfl⟩
        · exact .inl (called.sounding q hq)
      | false =>
        cases h
        exact called.adds p _
    · exact (chains_fades.refl _).adds p _
  rw [startPitch, on_bind_ok (on_look b)] at h
  split at h
  · obtain ⟨_, b₁, h₁⟩ := succeeds_stopPitch p b
    rw [on_bind_ok h₁] at h
    obtain ⟨stopped, -⟩ := fades_stopPitch p h₁
    have sent := sends h
    refine ⟨fun q hq => (sent.sounding q hq).imp_left (stopped.sounding q), ?_⟩
    exact sent.ready.trans stopped.ready
  · exact sends h

end Synth

def SoundCall.begins : SoundCall → Int → Prop
  | .on pitch _, p => pitch.toWhole = .ok p
  | _, _ => False

def SoundCall.ends : SoundCall → Int → Prop
  | .off pitch, p => pitch.toWhole = .ok p
  | .silence, _ | .close, _ => True
  | _, _ => False

namespace Audio

/-- The pitches that sound; a tape has none. -/
def sounding : Audio → PitchSet
  | tape => .empty
  | synth s => s.sounding

def ready : Audio → Bool
  | tape => false
  | synth s => s.ready

def Hushed (a : Audio) : Prop := ∀ p ∈ a.sounding, a.ready = true

/-- What a call leaves of the pitches that sound: none that it ends, and a new one only if it begins
that pitch and ends well. -/
structure Leaves (c : SoundCall) (r : Except Fault Unit) (a a' : Audio) : Prop where
  hushed : a'.Hushed
  among : ∀ p ∈ a'.sounding, p ∈ a.sounding ∧ ¬c.ends p ∨ r = .ok () ∧ c.begins p
  device : c = .close → a'.ready = false

end Audio

namespace Synth

open Work Audio

variable {b b' : Bench Synth} {r : Except Fault Unit}

theorem Fades.leaves {s s' : Synth} (h : Fades s s') (hushed : Hushed (.synth s)) {c : SoundCall}
    (r : Except Fault Unit) (spares : ∀ p ∈ s'.sounding, ¬c.ends p) (opens : c ≠ .close) :
    Leaves c r (.synth s) (.synth s') where
  hushed p hp := h.ready.trans (hushed p (h.sounding p hp))
  among p hp := .inl ⟨h.sounding p hp, spares p hp⟩
  device closes := absurd closes opens

theorem playNote_leaves {pitch : Amount} {velocity : Float} (hushed : Hushed (.synth b.part))
    (h : (playNote pitch velocity).on b = some (r, b')) :
    Leaves (.on pitch velocity) r (.synth b.part) (.synth b'.part) := by
  have still {r} : Leaves (.on pitch velocity) r (.synth b.part) (.synth b.part) :=
    (chains_fades.refl _).leaves hushed r (fun _ _ => id) nofun
  rw [playNote, on_bind_ok (on_look b)] at h
  split at h
  · cases h
    exact still
  · next on =>
    rcases on_orFail_bind_inv h with ⟨p, whole, h⟩ | ⟨e, -, rfl, rfl⟩
    · split at h
      · have added := startPitch_adds h
        refine ⟨fun q hq => added.ready.trans (by simpa using on), fun q hq => ?_, nofun⟩
        rcases added.sounding q hq with old | ⟨ok, rfl⟩
        · exact .inl ⟨old, id⟩
        · exact .inr ⟨ok, whole⟩
      · cases h
        exact still
    · exact still

theorem stopNote_leaves {pitch : Amount} (hushed : Hushed (.synth b.part))
    (h : (stopNote pitch).on b = some (r, b')) :
    Leaves (.off pitch) r (.synth b.part) (.synth b'.part) := by
  rw [stopNote, on_bind_ok (on_look b)] at h
  split at h
  · next off =>
    cases h
    refine (chains_fades.refl _).leaves hushed _ (fun p hp => ?_) nofun
    have on : b.part.ready = true := hushed p hp
    simp [on] at off
  · rcases on_orFail_bind_inv h with ⟨p, whole, h⟩ | ⟨e, fails, rfl, rfl⟩
    · obtain ⟨fades, gone⟩ := fades_stopPitch p h
      refine fades.leaves hushed r (fun q hq same => gone ?_) nofun
      cases whole.symm.trans same
      exact hq
    · refine (chains_fades.refl _).leaves hushed _ (fun p _ same => ?_) nofun
      cases fails.symm.trans same

/-- Silencing, of a synthesizer on which nothing sounds without a device, leaves nothing. -/
theorem stopAll_silences (hushed : Hushed (.synth b.part)) (h : stopAll.on b = some (r, b'))
    (p : Int) : p ∉ b'.part.sounding := by
  obtain ⟨fades, gone⟩ := fades_stopAll h
  exact fun hp => gone (hushed p (fades.sounding p hp)) p hp

/-- A synthesizer that is closed has no device, and nothing sounds. -/
theorem close_silences (hushed : Hushed (.synth b.part)) (h : close.on b = some (r, b')) :
    r = .ok () ∧ b'.part.ready = false ∧ ∀ p, p ∉ b'.part.sounding := by
  have lets_go (c : Bench Synth) (silent : ∀ p, p ∉ c.part.sounding)
      (h : (do write .deviceReleased; change fun s : Synth => { s with ready := false }).on c =
        some (r, b')) : r = .ok () ∧ b'.part.ready = false ∧ ∀ p, p ∉ b'.part.sounding := by
    cases h
    exact ⟨rfl, rfl, silent⟩
  rw [close, on_bind_ok (on_look b)] at h
  split at h
  · obtain ⟨_, b₁, h₁⟩ := succeeds_stopAll b
    rw [on_bind_ok h₁] at h
    obtain ⟨done, b₂, h₂⟩ := succeeds_call .close b₁
    rw [on_bind_ok h₂] at h
    have silent (p : Int) : p ∉ b₂.part.sounding := fun hp =>
      stopAll_silences hushed h₁ p ((fades_call _ h₂).sounding p hp)
    cases done with
    | true => exact lets_go b₂ silent h
    | false => exact lets_go { b₂ with journal := _ :: b₂.journal } silent h
  · next off => exact lets_go b (fun p hp => off (hushed p hp)) h

theorem toSynth_leaves {c : SoundCall} (hushed : Hushed (.synth b.part))
    (h : (Audio.toSynth c).on b = some (r, b')) : Leaves c r (.synth b.part) (.synth b'.part) := by
  cases c with
  | on pitch velocity => exact playNote_leaves hushed h
  | off pitch => exact stopNote_leaves hushed h
  | silence =>
    have silent := stopAll_silences hushed h
    exact (fades_stopAll h).1.leaves hushed r (fun p hp => absurd hp (silent p)) nofun
  | waveform name => exact (fades_setWaveform _ h).leaves hushed r (fun _ _ => id) nofun
  | volume value => exact (fades_setVolume _ h).leaves hushed r (fun _ _ => id) nofun
  | close =>
    obtain ⟨-, off, silent⟩ := close_silences hushed h
    exact ⟨fun p hp => absurd hp (silent p), fun p hp => absurd hp (silent p), fun _ => off⟩

/-- When a synthesizer has just been switched on, nothing sounds. -/
theorem start_silent {settings : AudioSettings} {device : DeviceSetup}
    (h : (start settings device).on b = some (r, b')) (p : Int) : p ∉ b'.part.sounding := by
  have chains : Chains fun s s' : Synth => ∀ p ∈ s'.sounding, p ∈ s.sounding :=
    ⟨fun _ _ hp => hp, fun h h' p hp => h p (h' p hp)⟩
  have opens : Leads (fun s s' : Synth => ∀ p ∈ s'.sounding, p ∈ s.sounding)
      (openDevice device) := by
    refine chains.bind (leads_change _ fun _ _ hp => hp) fun _ => ?_
    split
    · exact chains.write _
    · refine leads_ite (chains.write _) ?_
      split
      · exact chains.write _
      · exact chains.bind (chains.write _) fun _ =>
          chains.bind (leads_change _ fun _ _ hp => hp) fun _ => chains.write _
  rw [start, on_bind_ok (on_change _ b)] at h
  have shrinks {q : Work Synth Unit} {b₁ : Bench Synth} (on : q.on b₁ = some (r, b'))
      (hq : Leads (fun s s' : Synth => ∀ p ∈ s'.sounding, p ∈ s.sounding) q)
      (none : p ∉ b₁.part.sounding) : p ∉ b'.part.sounding := fun hp => none (hq on p hp)
  refine shrinks h (chains.bind opens fun _ => chains.bind
    ((fades_setWaveform settings.waveform).mono fun _ _ fades => fades.sounding) fun _ => ?_)
    PitchSet.not_mem_empty
  split
  · exact chains.orFail (.error _)
  · exact (fades_setVolume _).mono fun _ _ fades => fades.sounding

end Synth

namespace Audio

open Work

theorem call_leaves {c : SoundCall} {b b' : Bench Audio} {r : Except Fault Unit}
    (hushed : b.part.Hushed) (h : (call c).on b = some (r, b')) : Leaves c r b.part b'.part := by
  obtain ⟨a, j⟩ := b
  cases a with
  | tape =>
    cases h
    exact ⟨hushed, fun p hp => absurd hp PitchSet.not_mem_empty, fun _ => rfl⟩
  | synth s =>
    change ((toSynth c).on ⟨s, j⟩).map _ = _ at h
    obtain ⟨⟨r₁, b₁⟩, h₁, h₂⟩ := Option.map_eq_some_iff.1 h
    cases h₂
    exact Synth.toSynth_leaves (b := ⟨s, j⟩) hushed h₁

end Audio

end PianoRoll
