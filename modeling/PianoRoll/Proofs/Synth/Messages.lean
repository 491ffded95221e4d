import PianoRoll.Proofs.Number.Bounds
import PianoRoll.Proofs.Synth.Bookkeeping

/-!
What a synthesizer sends. MIDI messages carry data bytes, which are numbers of seven bits. A note
that begins is checked against the keys of MIDI, programs come from a table, and a volume is held
between its bounds, so these messages are legal whatever is asked for. A note that ends is not
checked: its pitch is sent as it was given. So every message is legal just if the synthesizer is
asked to end no pitch that MIDI does not know while its device is open (`messages_legal_iff`).
-/

namespace PianoRoll

def DeviceCall.dataBytes : DeviceCall → List Int
  | .noteOn pitch velocity => [pitch, velocity]
  | .noteOff pitch => [pitch, 0]
  | .program number => [number]
  | .control number value => [number, value]
  | .close => []

/-- Whether a number has seven bits. -/
def IsByte (n : Int) : Prop := 0 ≤ n ∧ n ≤ 127

instance (n : Int) : Decidable (IsByte n) := inferInstanceAs (Decidable (0 ≤ n ∧ n ≤ 127))

def DeviceCall.Legal (c : DeviceCall) : Prop := ∀ n ∈ c.dataBytes, IsByte n

instance (c : DeviceCall) : Decidable c.Legal :=
  inferInstanceAs (Decidable (∀ n ∈ c.dataBytes, IsByte n))

/-- The whole pitches that calls ask to end before they close the device. -/
def endedPitches : List SoundCall → List Int
  | [] => []
  | .off (.whole p) :: cs => p :: endedPitches cs
  | .close :: _ => []
  | _ :: cs => endedPitches cs

def DeviceSetup.opens (d : DeviceSetup) : Bool :=
  d.systemFailure.isNone && d.id != -1 && d.openFailure.isNone

namespace Synth

open Work Number

theorem legal_noteOff {p : Int} : (DeviceCall.noteOff p).Legal ↔ IsByte p := by
  simp [DeviceCall.Legal, DeviceCall.dataBytes, IsByte]

theorem legal_noteOn {p v : Int} (hp : IsByte p) (hv : IsByte v) :
    (DeviceCall.noteOn p v).Legal := by
  simpa [DeviceCall.Legal, DeviceCall.dataBytes] using ⟨hp, hv⟩

theorem legal_control {n v : Int} (hn : IsByte n) (hv : IsByte v) :
    (DeviceCall.control n v).Legal := by
  simpa [DeviceCall.Legal, DeviceCall.dataBytes] using ⟨hn, hv⟩

/-- The programs of the waveforms are those of a table. -/
theorem legal_program {name : String} {n : Int} (h : waveforms.lookup name = some n) :
    (DeviceCall.program n).Legal := by
  have table : ∀ w ∈ waveforms, (DeviceCall.program w.2).Legal := by decide
  obtain ⟨l₁, l₂, hw, -⟩ := List.lookup_eq_some_iff.1 h
  exact table (name, n) (by rw [hw]; simp)

/-- Whatever volume is asked for, the one that is sent has seven bits. -/
theorem volume_isByte (volume : Float) :
    ∃ v, truncate (clamp 0 1 volume * 127) = .ok v ∧ IsByte v := by
  obtain ⟨low, high⟩ := clamp_bounds (by decide +kernel : (0 : Float) ≤ 1) volume
  generalize clamp 0 1 volume = x at low high
  have small : (127 : Int).natAbs ≤ 2 ^ 7 := by decide
  have full : worth 127 = (127 : ℕ) := (worth_ofWhole (small.trans (by decide))).2
  have most : Bounded 7 127 := bounded_ofWhole (by decide) small
  have bounded := (bounded_unit low high).mul most (by decide)
  have above : 0 ≤ worth (x * 127) := by
    rw [worth_mul, full]
    exact fit_nonneg (mul_nonneg (worth_zero ▸ worth_le low) (Nat.cast_nonneg' 127))
  have below : worth (x * 127) ≤ (127 : ℕ) := by
    have unit : worth x ≤ 1 := worth_one ▸ worth_le high
    calc worth (x * 127) = fit (worth x * (127 : ℕ)) := by rw [worth_mul, full]
      _ ≤ fit (1 * (127 : ℕ)) := fit_mono (mul_le_mul_of_nonneg_right unit (Nat.cast_nonneg' 127))
      _ = (127 : ℕ) := by rw [one_mul, fit_natCast (by decide)]
  have nonneg := (le_iff numeric_zero bounded.numeric).2 (worth_zero ▸ above)
  obtain ⟨n, hn, le, -⟩ := truncate_of_nonneg nonneg bounded.isFinite
  have bound : n ≤ 127 := Nat.cast_le.1 (le.trans below)
  exact ⟨n, hn, by omega, by omega⟩

/-! ## Messages -/

/-- All messages are legal but those that end the pitches of a set, and each of these was sent. -/
structure Sent (ready : Bool) (ended : Int → Prop) (b : Bench Synth) : Prop where
  ready : b.part.ready = ready
  sounding : ∀ p ∈ b.part.sounding, IsByte p
  legal : ∀ r ∈ b.part.asked, r.1.Legal ∨ ∃ p, ended p ∧ r.1 = .noteOff p
  ended : ∀ p, ended p → ∃ done, (.noteOff p, done) ∈ b.part.asked

variable {ready : Bool} {ended : Int → Prop} {b : Bench Synth}

namespace Sent

/-- Pitches that MIDI knows may be left out. -/
theorem mono {ended' : Int → Prop} (h : Sent ready ended b) (fewer : ∀ p, ended' p → ended p)
    (enough : ∀ p, ended p → ended' p ∨ IsByte p) : Sent ready ended' b where
  ready := h.ready
  sounding := h.sounding
  legal r hr := by
    rcases h.legal r hr with legal | ⟨p, hp, e⟩
    · exact .inl legal
    · exact (enough p hp).symm.imp (fun byte => e ▸ legal_noteOff.2 byte) fun hp => ⟨p, hp, e⟩
  ended p hp := h.ended p (fewer p hp)

theorem congr {ended' : Int → Prop} (h : Sent ready ended b) (same : ∀ p, ended p ↔ ended' p) :
    Sent ready ended' b :=
  h.mono (fun p => (same p).2) fun p hp => .inl ((same p).1 hp)

theorem called (h : Sent ready ended b) {c : DeviceCall} (hc : c.Legal) (done : Bool) :
    Sent ready ended (afterCall c done b) where
  ready := h.ready
  sounding := h.sounding
  legal r hr := by
    rcases List.mem_cons.1 hr with rfl | hr
    · exact .inl hc
    · exact h.legal r hr
  ended p hp := (h.ended p hp).imp fun _ => List.mem_cons_of_mem _

/-- Any pitch may be ended. -/
theorem off (h : Sent ready ended b) (p : Int) (done : Bool) :
    Sent ready (fun q => ended q ∨ q = p) (afterCall (.noteOff p) done
      { b with part := { b.part with sounding := b.part.sounding.erase p } }) where
  ready := h.ready
  sounding q hq := h.sounding q (PitchSet.mem_erase.1 hq).1
  legal r hr := by
    rcases List.mem_cons.1 hr with rfl | hr
    · exact .inr ⟨p, .inr rfl, rfl⟩
    · exact (h.legal r hr).imp id fun ⟨q, hq, e⟩ => ⟨q, .inl hq, e⟩
  ended q hq := by
    rcases hq with hq | rfl
    · exact (h.ended q hq).imp fun _ => List.mem_cons_of_mem _
    · exact ⟨done, List.mem_cons_self⟩

theorem insert (h : Sent ready ended b) {p : Int} (hp : IsByte p) : Sent ready ended
    { b with part := { b.part with sounding := b.part.sounding.insert p } } where
  ready := h.ready
  sounding q hq := (PitchSet.mem_insert.1 hq).elim (fun e => e ▸ hp) (h.sounding q)
  legal := h.legal
  ended := h.ended

theorem written (h : Sent ready ended b) (e : Entry) :
    Sent ready ended { b with journal := e :: b.journal } :=
  ⟨h.ready, h.sounding, h.legal, h.ended⟩

/-- What touches neither the notes nor what was asked sends nothing. -/
theorem change (h : Sent ready ended b) {s : Synth} {ready' : Bool}
    (sounding : s.sounding = b.part.sounding) (asked : s.asked = b.part.asked)
    (now : s.ready = ready') : Sent ready' ended { b with part := s } where
  ready := now
  sounding := by simpa only [sounding] using h.sounding
  legal := by simpa only [asked] using h.legal
  ended := by simpa only [asked] using h.ended

end Sent

/-! ## Operations -/

theorem sends_log (level : Level) (text : String) :
    Attains (Sent ready ended) (log level text) fun _ => Sent ready ended :=
  attains_write _ fun _ hb => hb.written _

/-- A legal message, with a log line if it is refused. -/
theorem sends_call {c : DeviceCall} (hc : c.Legal) (text : String) :
    Attains (Sent ready ended) (do if !(← call c) then log .debug text)
      fun _ => Sent ready ended :=
  (attains_call (J := fun _ => Sent ready ended) fun _ done hb => hb.called hc done).bind
    fun _ => attains_ite (fun _ => sends_log _ _) fun _ => attains_pure _ fun _ hb => hb

theorem sends_stopPitch (p : Int) : Attains (Sent ready ended) (stopPitch p)
    fun _ => Sent ready fun q => ended q ∨ q = p := by
  refine (attains_change (J := fun _ b' => ∃ b, Sent ready ended b ∧
    b' = { b with part := { b.part with sounding := b.part.sounding.erase p } }) _
    fun b hb => ⟨b, hb, rfl⟩).bind fun _ => ?_
  refine (attains_call (J := fun _ => Sent ready fun q => ended q ∨ q = p) ?_).bind
    fun done => attains_ite (fun _ => sends_log _ _) fun _ => attains_pure _ fun _ hb => hb
  rintro _ done ⟨b, hb, rfl⟩
  exact hb.off p done

/-- Ending a pitch that MIDI knows. -/
theorem sends_stopPitch_legal {p : Int} (hp : IsByte p) :
    Attains (Sent ready ended) (stopPitch p) fun _ => Sent ready ended :=
  (sends_stopPitch p).post fun _ _ hb =>
    hb.mono (fun _ => .inl) fun q hq => hq.imp_right fun (e : q = p) => e ▸ hp

theorem sends_startPitch {p : Int} (hp : IsByte p) {velocity : Float}
    (finite : isFinite (velocity * 127) = true) :
    Attains (Sent ready ended) (startPitch p velocity) fun _ => Sent ready ended := by
  obtain ⟨v, hv, low, high⟩ := keyVelocity_of_isFinite finite
  have legal : (DeviceCall.noteOn p v).Legal := legal_noteOn hp ⟨by omega, high⟩
  have sends : Attains (Sent ready ended) (do
      let v ← orFail (keyVelocity velocity)
      if ← call (.noteOn p v) then
        change fun s => { s with sounding := s.sounding.insert p }
      else log .debug s!"[Synth] note_on {p} failed") fun _ => Sent ready ended := by
    rw [hv]
    refine (attains_orFail (J := fun w b => w = v ∧ Sent ready ended b) v
      fun b hb => ⟨rfl, hb⟩).bind fun w => ?_
    refine (attains_call (J := fun _ => Sent ready ended) ?_).bind fun done =>
      attains_ite (fun _ => attains_change _ fun _ hb => hb.insert hp) fun _ => sends_log _ _
    rintro b done ⟨rfl, hb⟩
    exact hb.called legal done
  refine attains_look_bind fun s => attains_ite (fun _ => ?_) fun _ => sends.pre fun _ hb => hb.2
  exact ((sends_stopPitch_legal hp).bind fun _ => sends).pre fun _ hb => hb.2

/-- A note begins only on a key of MIDI. -/
theorem sends_playNote (p : Int) {velocity : Float} (finite : isFinite (velocity * 127) = true) :
    Attains (Sent ready ended) (playNote (.whole p) velocity) fun _ => Sent ready ended := by
  refine attains_ready (fun _ hb _ => hb) fun s _ => ?_
  refine (attains_orFail (J := fun q b => q = p ∧ Sent ready ended b) p
    fun b hb => ⟨rfl, hb.2⟩).bind fun q => attains_ite (fun hq => ?_) fun _ => ?_
  · exact (sends_startPitch hq finite).pre fun _ hb => hb.2
  · exact (sends_log _ _).pre fun _ hb => hb.2

/-- A note ends on any key. -/
theorem sends_stopNote (p : Int) : Attains (Sent ready ended) (stopNote (.whole p))
    fun _ => Sent ready fun q => ended q ∨ ready = true ∧ q = p := by
  refine attains_ready (fun b hb off => hb.congr fun q => ?_) fun s on => ?_
  · rw [← hb.ready, off]
    simp
  · refine (attains_orFail (J := fun q b => q = p ∧ ready = true ∧ Sent ready ended b) p ?_).bind
      fun q => ?_
    · rintro b ⟨rfl, hb⟩
      exact ⟨rfl, hb.ready.symm.trans on, hb⟩
    · rintro b ⟨rfl, rfl, hb⟩
      obtain ⟨a, b', h, hb'⟩ := sends_stopPitch q b hb
      exact ⟨a, b', h, hb'.congr fun _ => by simp⟩

theorem sends_stopAll : Attains (Sent ready ended) stopAll fun _ => Sent ready ended := by
  refine attains_ready (fun _ hb _ => hb) fun s _ => ?_
  have each : Attains (fun b => (∀ p ∈ s.sounding.toList, IsByte p) ∧ Sent ready ended b)
      (s.sounding.toList.forM stopPitch)
      fun _ b => (∀ p ∈ ([] : List Int), IsByte p) ∧ Sent ready ended b := by
    refine attains_forM (I := fun ps b => (∀ p ∈ ps, IsByte p) ∧ Sent ready ended b)
      (fun p ps => ?_) _
    rintro b ⟨bytes, hb⟩
    obtain ⟨a, b', h, hb'⟩ := sends_stopPitch_legal (bytes p List.mem_cons_self) b hb
    exact ⟨a, b', h, fun q hq => bytes q (List.mem_cons_of_mem _ hq), hb'⟩
  refine (each.pre ?_).bind fun _ =>
    (sends_call (legal_control (by decide) (by decide)) _).pre fun _ hb => hb.2
  rintro b ⟨rfl, hb⟩
  exact ⟨hb.sounding, hb⟩

theorem sends_close : Attains (Sent ready ended) close fun _ => Sent false ended := by
  have lets_go : Attains (Sent ready ended) (do
      write .deviceReleased
      change fun s => { s with ready := false }) fun _ => Sent false ended :=
    (attains_write (J := fun _ => Sent ready ended) _ fun _ hb => hb.written _).bind fun _ =>
      attains_change _ fun _ hb => by refine hb.change ?_ ?_ ?_ <;> rfl
  have closing : DeviceCall.close.Legal := fun _ hn => absurd hn List.not_mem_nil
  refine attains_look_bind fun s => attains_ite (fun _ => ?_) fun _ => lets_go.pre fun _ hb => hb.2
  refine (sends_stopAll.pre fun _ hb => hb.2).bind fun _ => ?_
  refine (attains_call (J := fun _ => Sent ready ended) fun _ done hb => hb.called closing
    done).bind fun _ => attains_ite (fun _ => ?_) fun _ => lets_go
  exact (sends_log _ _).bind fun _ => lets_go

theorem sends_setWaveform (name : Given String) :
    Attains (Sent ready ended) (setWaveform name) fun _ => Sent ready ended := by
  unfold setWaveform
  split
  · exact (attains_look (J := fun _ => Sent ready ended) fun _ hb => hb).bind fun _ =>
      sends_log _ _
  · next program found =>
    refine (attains_change (J := fun _ => Sent ready ended) _ fun b hb => ?_).bind fun _ =>
      attains_ready (fun _ hb _ => hb) fun _ _ =>
        (sends_call (legal_program found) _).pre fun _ hb => hb.2
    exact hb.change (by rfl) (by rfl) hb.ready

theorem sends_setVolume (volume : Float) :
    Attains (Sent ready ended) (setVolume volume) fun _ => Sent ready ended := by
  obtain ⟨v, hv, byte⟩ := volume_isByte volume
  refine (attains_change (J := fun _ => Sent ready ended) _ fun b hb => ?_).bind fun _ =>
    attains_ready (fun _ hb _ => hb) fun s _ => ?_
  · exact hb.change (by rfl) (by rfl) hb.ready
  · dsimp only
    rw [hv]
    refine (attains_call (J := fun _ => Sent ready ended) fun _ done hb =>
      hb.2.called (legal_control (by decide) byte) done).bind fun sent => ?_
    exact attains_ite (fun _ => sends_log _ _) fun _ => attains_pure _ fun _ hb => hb

/-! ## Runs -/

theorem sends_openDevice (d : DeviceSetup) :
    Attains (Sent false ended) (openDevice d) fun _ => Sent d.opens ended := by
  have closed (h : d.opens = false) (level : Level) (text : String) :
      Attains (Sent false ended) (log level text) fun _ => Sent d.opens ended := by
    rw [h]
    exact sends_log level text
  refine (attains_change (J := fun _ => Sent false ended) _
    fun _ hb => hb.change (by rfl) (by rfl) hb.ready).bind fun _ => ?_
  split
  · next failed => exact closed (by simp [DeviceSetup.opens, failed]) _ _
  · next works =>
    refine attains_ite (fun nowhere => closed (by simp [DeviceSetup.opens, nowhere]) _ _)
      fun found => ?_
    split
    · next failed => exact closed (by simp [DeviceSetup.opens, failed]) _ _
    · next opened =>
      rw [show d.opens = true by simp [DeviceSetup.opens, works, found, opened]]
      refine (attains_write (J := fun _ => Sent false ended) _
        fun _ hb => hb.written _).bind fun _ => ?_
      exact (attains_change (J := fun _ => Sent true ended) _
        fun _ hb => hb.change (by rfl) (by rfl) (by rfl)).bind fun _ => sends_log _ _

/-- A synthesizer that has been switched on has sent legal messages only. -/
theorem sends_start (settings : AudioSettings) (d : DeviceSetup)
    (volume : settings.volume ≠ .blank) (b : Bench Synth) :
    ∃ b', (start settings d).on b = some (.ok (), b') ∧ Sent d.opens (fun _ => False) b' := by
  have fresh : Sent false (fun _ => False)
      ⟨{ waveform := settings.waveform, volume := settings.volume.getD 0 }, b.journal⟩ :=
    ⟨rfl, fun _ hp => absurd hp PitchSet.not_mem_empty, fun _ hr => absurd hr List.not_mem_nil,
      fun _ hp => hp.elim⟩
  obtain ⟨_, b₁, h₁, hb₁⟩ := sends_openDevice d _ fresh
  obtain ⟨_, b₂, h₂, hb₂⟩ := sends_setWaveform settings.waveform _ hb₁
  rw [start, on_bind_ok (on_change _ b), on_bind_ok h₁, on_bind_ok h₂]
  split
  · next blank => exact absurd blank volume
  · next value _ =>
    obtain ⟨_, b₃, h₃, hb₃⟩ := sends_setVolume value _ hb₂
    exact ⟨b₃, h₃, hb₃⟩

/-- Carried out in turn, calls send legal messages, but for those that end pitches as given. -/
theorem sends_run {cs : List SoundCall} (hcs : ∀ c ∈ cs, c.isProper = true) {ready : Bool}
    {ended : Int → Prop} : Attains (Sent ready ended) (cs.forM Audio.toSynth) fun _ b =>
      ∃ ready', Sent ready' (fun p => ended p ∨ ready = true ∧ p ∈ endedPitches cs) b := by
  -- each call may end a pitch or close the device, so both change along the calls
  induction cs generalizing ready ended with
  | nil => exact attains_pure _ fun b hb => ⟨ready, hb.congr fun p => by simp [endedPitches]⟩
  | cons c cs ih =>
    have rest {ready : Bool} {ended : Int → Prop} :=
      @ih (fun c hc => hcs c (.tail _ hc)) ready ended
    have proper := hcs c List.mem_cons_self
    rw [forM_cons]
    cases c with
    | on pitch velocity =>
      cases pitch with
      | whole p => exact (sends_playNote p proper).bind fun _ => rest
      | real x => cases proper
    | off pitch =>
      cases pitch with
      | whole p =>
        refine (sends_stopNote p).bind fun _ => rest.post fun _ _ ⟨ready', hb⟩ =>
          ⟨ready', hb.congr fun q => ?_⟩
        simp only [endedPitches, List.mem_cons]
        tauto
      | real x => cases proper
    | silence => exact sends_stopAll.bind fun _ => rest
    | waveform name => exact (sends_setWaveform _).bind fun _ => rest
    | volume value => exact (sends_setVolume value).bind fun _ => rest
    | close =>
      exact sends_close.bind fun _ => rest.post fun _ _ ⟨ready', hb⟩ =>
        ⟨ready', hb.congr fun q => by simp [endedPitches]⟩

/-- Whatever a synthesizer is asked for, it sends legal messages, but for those that end a pitch it
was told to end: these carry the pitch as it was given. So all of them are legal just if there is no
device, or MIDI knows every pitch that is to end. -/
theorem messages_legal_iff {settings : AudioSettings} (volume : settings.volume ≠ .blank)
    (d : DeviceSetup) (b₀ : Bench Synth) {cs : List SoundCall}
    (hcs : ∀ c ∈ cs, c.isProper = true) :
    ∃ b₁ b, (start settings d).on b₀ = some (.ok (), b₁) ∧
      (cs.forM Audio.toSynth).on b₁ = some (.ok (), b) ∧
      (∀ r ∈ b.part.asked, r.1.Legal ∨ ∃ p ∈ endedPitches cs, r.1 = .noteOff p) ∧
      ((∀ r ∈ b.part.asked, r.1.Legal) ↔ (d.opens = true → ∀ p ∈ endedPitches cs, IsByte p)) := by
  obtain ⟨b₁, started, sent⟩ := sends_start settings d volume b₀
  obtain ⟨_, b, ran, ready, hb⟩ := sends_run hcs b₁ sent
  refine ⟨b₁, b, started, ran, fun r hr => (hb.legal r hr).imp_right ?_, fun all opens p hp => ?_,
    fun bytes r hr => ?_⟩
  · rintro ⟨p, hp, e⟩
    exact ⟨p, (hp.resolve_left id).2, e⟩
  · obtain ⟨done, asked⟩ := hb.ended p (.inr ⟨opens, hp⟩)
    exact legal_noteOff.1 (all _ asked)
  · rcases hb.legal r hr with legal | ⟨p, hp, e⟩
    · exact legal
    · obtain ⟨opens, hp⟩ := hp.resolve_left id
      exact e ▸ legal_noteOff.2 (bytes opens p hp)

/-- The pitches that the calls end are on the keys of MIDI, unlike one that they begin. -/
theorem messages_legal_iff_hammered : (∀ c ∈ hammered, c.isProper = true) ∧ ∃ b₁ b,
    (start {} stubborn).on ⟨{ waveform := .blank, volume := 0 }, []⟩ = some (.ok (), b₁) ∧
      (hammered.forM Audio.toSynth).on b₁ = some (.ok (), b) ∧
        ∀ r ∈ b.part.asked, r.1.Legal := by
  have proper : ∀ c ∈ hammered, c.isProper = true := by decide +kernel
  have volume : ({} : AudioSettings).volume ≠ .blank := by decide
  obtain ⟨b₁, b, started, ran, -, legal⟩ := messages_legal_iff volume stubborn
    ⟨{ waveform := .blank, volume := 0 }, []⟩ proper
  exact ⟨proper, b₁, b, started, ran, legal.2 fun _ => by decide⟩

/-- A pitch that MIDI does not know is ended with a message that MIDI does not allow. -/
theorem pitch_beyond_sent : ∃ b₁ b,
    (start {} {}).on ⟨{ waveform := .blank, volume := 0 }, []⟩ = some (.ok (), b₁) ∧
      ([SoundCall.off (.whole 200)].forM Audio.toSynth).on b₁ = some (.ok (), b) ∧
        ∃ r ∈ b.part.asked, r.1 = .noteOff 200 ∧ ¬r.1.Legal := by
  have volume : ({} : AudioSettings).volume ≠ .blank := by decide
  obtain ⟨b₁, started, sent⟩ := sends_start {} {} volume ⟨{ waveform := .blank, volume := 0 }, []⟩
  have proper : ∀ c ∈ [SoundCall.off (.whole 200)], c.isProper = true := by decide +kernel
  obtain ⟨_, b, ran, ready, hb⟩ := sends_run proper b₁ sent
  obtain ⟨done, asked⟩ := hb.ended 200 (.inr ⟨rfl, List.mem_cons_self⟩)
  have beyond : ¬(DeviceCall.noteOff 200).Legal := by decide
  exact ⟨b₁, b, started, ran, _, asked, rfl, beyond⟩

end Synth

end PianoRoll
