import PianoRoll.Proofs.Work
import PianoRoll.Synth

/-!
The books of a synthesizer. A device may refuse any call, so what it holds is told from its calls
alone: a pitch that it did start and was not asked to end since. `Books` says that the pitches a
synthesizer takes to sound are these. Every call is an entry of one of three kinds, a note that
begins, a note that ends or neither, and each kind keeps the books; so does every operation.
-/

namespace PianoRoll

def DeviceCall.isNote : DeviceCall → Bool
  | .noteOn .. | .noteOff _ => true
  | _ => false

/-- Whether a call gives a whole pitch and a finite loudness where it gives any. -/
def SoundCall.isProper : SoundCall → Bool
  | .on (.whole _) velocity => Number.isFinite (velocity * 127)
  | .on (.real _) _ | .off (.real _) => false
  | _ => true

namespace Synth

open Work Number

/-! ## Calls -/

/-- The device holds a pitch that it did start and was not asked to end since. -/
def Holds (asked : List (DeviceCall × Bool)) (p : Int) : Prop :=
  ∃ later v earlier, asked = later ++ (.noteOn p v, true) :: earlier ∧
    ∀ r ∈ later, r.1 ≠ .noteOff p

/-- Between two calls to start a pitch, the first of which was done, there is one to end it. -/
def Separated (asked : List (DeviceCall × Bool)) : Prop :=
  ∀ later p w done between v earlier,
    asked = later ++ (.noteOn p w, done) :: (between ++ (.noteOn p v, true) :: earlier) →
      ∃ ended, (.noteOff p, ended) ∈ between

/-- The notes that the device did start have a pitch and a velocity that MIDI knows. -/
def Playable (asked : List (DeviceCall × Bool)) : Prop :=
  ∀ p v, (.noteOn p v, true) ∈ asked → (0 ≤ p ∧ p ≤ 127) ∧ 1 ≤ v ∧ v ≤ 127

def doneCalls (asked : List (DeviceCall × Bool)) : List DeviceCall :=
  (asked.filter (·.2)).map (·.1)

def shownCalls (es : List Entry) : List DeviceCall :=
  es.filterMap fun
    | .device c => some c
    | _ => none

variable {asked : List (DeviceCall × Bool)} {r : DeviceCall × Bool} {p : Int}

theorem holds_cons :
    Holds (r :: asked) p ↔ (∃ v, r = (.noteOn p v, true)) ∨ r.1 ≠ .noteOff p ∧ Holds asked p := by
  constructor
  · rintro ⟨later, v, earlier, e, hl⟩
    cases later with
    | nil => exact .inl ⟨v, (List.cons.inj e).1⟩
    | cons r' later =>
      obtain ⟨rfl, rfl⟩ := List.cons.inj e
      exact .inr ⟨hl _ List.mem_cons_self, later, v, earlier, rfl,
        fun x hx => hl x (List.mem_cons_of_mem _ hx)⟩
  · rintro (⟨v, rfl⟩ | ⟨hr, later, v, earlier, rfl, hl⟩)
    · exact ⟨[], v, asked, rfl, fun _ hx => absurd hx List.not_mem_nil⟩
    · refine ⟨r :: later, v, earlier, rfl, fun x hx => ?_⟩
      rcases List.mem_cons.1 hx with rfl | hx
      · exact hr
      · exact hl x hx

theorem not_holds_nil : ¬Holds [] p := by
  rintro ⟨later, v, earlier, e, -⟩
  cases later <;> cases e

/-- A call that starts no pitch which the device holds leaves the others separated. -/
theorem Separated.cons (h : Separated asked)
    (hr : ∀ p w done, r = (.noteOn p w, done) → ¬Holds asked p) : Separated (r :: asked) := by
  intro later p w done between v earlier e
  cases later with
  | nil =>
    obtain ⟨rfl, rfl⟩ := List.cons.inj e
    refine Classical.byContradiction fun none => hr p w done rfl ⟨between, v, earlier, rfl, ?_⟩
    rintro ⟨c, ended⟩ hx rfl
    exact none ⟨ended, hx⟩
  | cons r' later => exact h later p w done between v earlier (List.cons.inj e).2

theorem Playable.cons (h : Playable asked)
    (hr : ∀ p v, r = (.noteOn p v, true) → (0 ≤ p ∧ p ≤ 127) ∧ 1 ≤ v ∧ v ≤ 127) :
    Playable (r :: asked) := by
  intro p v hm
  rcases List.mem_cons.1 hm with e | hm
  · exact hr p v e.symm
  · exact h p v hm

/-- A finite loudness has a key velocity. -/
theorem keyVelocity_of_isFinite {velocity : Float} (h : isFinite (velocity * 127) = true) :
    ∃ v, keyVelocity velocity = .ok v ∧ 1 ≤ v ∧ v ≤ 127 := by
  unfold isFinite at h
  unfold keyVelocity roundToEven wholeBy
  cases hc : content (velocity * 127) with
  | nan => simp [hc] at h
  | infinite negative => simp [hc] at h
  | finite negative n e =>
    refine ⟨_, rfl, ?_, ?_⟩ <;> dsimp only <;> omega

/-! ## Books -/

def afterCall (c : DeviceCall) (done : Bool) (b : Bench Synth) : Bench Synth :=
  ⟨{ b.part with asked := (c, done) :: b.part.asked },
    (if done then [.device c] else []) ++ b.journal⟩

theorem attains_call {c : DeviceCall} {I : Bench Synth → Prop} {J : Bool → Bench Synth → Prop}
    (h : ∀ b done, I b → J done (afterCall c done b)) : Attains I (call c) J := by
  intro b hb
  rw [call, on_bind_ok (on_look b)]
  cases b.part.refuses b.part.asked.length c with
  | true => exact ⟨false, afterCall c false b, rfl, h b false hb⟩
  | false => exact ⟨true, afterCall c true b, rfl, h b true hb⟩

/-- The books of a synthesizer agree with its device, and what sounds is in a set of pitches.
`before` are the calls that the journal shows from before the synthesizer was switched on. -/
structure Books (before : List DeviceCall) (ready : Bool) (Q : Int → Prop) (b : Bench Synth) :
    Prop where
  sounding : ∀ p, p ∈ b.part.sounding ↔ Holds b.part.asked p
  separated : Separated b.part.asked
  playable : Playable b.part.asked
  shown : shownCalls b.journal = doneCalls b.part.asked ++ before
  ready : b.part.ready = ready
  among : ∀ p ∈ b.part.sounding, Q p

namespace Books

variable {before : List DeviceCall} {ready : Bool} {Q : Int → Prop} {b : Bench Synth}

theorem mono {Q' : Int → Prop} (h : Books before ready Q b) (hQ : ∀ p, Q p → Q' p) :
    Books before ready Q' b :=
  { h with among := fun p hp => hQ p (h.among p hp) }

theorem shown_afterCall (h : Books before ready Q b) (c : DeviceCall) (done : Bool) :
    shownCalls (afterCall c done b).journal =
      doneCalls (afterCall c done b).part.asked ++ before := by
  cases done with
  | true => exact congrArg (c :: ·) h.shown
  | false => exact h.shown

/-- A call that is not about a note. -/
theorem other (h : Books before ready Q b) {c : DeviceCall} (hc : c.isNote = false) (done : Bool) :
    Books before ready Q (afterCall c done b) where
  sounding p := by
    rw [show Holds (afterCall c done b).part.asked p ↔ Holds b.part.asked p from
      holds_cons.trans ⟨fun k => ?_, fun k => .inr ⟨?_, k⟩⟩]
    · exact h.sounding p
    · rcases k with ⟨v, e⟩ | ⟨-, k⟩
      · cases e; cases hc
      · exact k
    · rintro rfl
      cases hc
  separated := h.separated.cons fun _ _ _ e => by cases e; cases hc
  playable := h.playable.cons fun _ _ e => by cases e; cases hc
  shown := h.shown_afterCall c done
  ready := h.ready
  among := h.among

/-- A note ends: it does not sound, whether or not the device does the call. -/
theorem off (h : Books before ready Q b) (p : Int) (done : Bool) :
    Books before ready (fun q => Q q ∧ q ≠ p) (afterCall (.noteOff p) done
      { b with part := { b.part with sounding := b.part.sounding.erase p } }) where
  sounding q := by
    refine PitchSet.mem_erase.trans (Iff.trans ?_ holds_cons.symm)
    rw [h.sounding q]
    constructor
    · rintro ⟨k, hq⟩
      exact .inr ⟨fun e => hq (DeviceCall.noteOff.inj e).symm, k⟩
    · rintro (⟨v, e⟩ | ⟨hq, k⟩)
      · cases e
      · exact ⟨k, fun e => hq (e ▸ rfl)⟩
  separated := h.separated.cons fun _ _ _ e => by cases e
  playable := h.playable.cons fun _ _ e => by cases e
  shown := h.shown_afterCall _ done
  ready := h.ready
  among q hq := by
    obtain ⟨hq, hne⟩ := PitchSet.mem_erase.1 hq
    exact ⟨h.among q hq, hne⟩

/-- A note that does not sound begins. -/
theorem on (h : Books before ready (fun q => Q q ∧ q ≠ p) b) (hp : 0 ≤ p ∧ p ≤ 127) (hQ : Q p)
    {v : Int} (hv : 1 ≤ v ∧ v ≤ 127) :
    Books before ready Q { afterCall (.noteOn p v) true b with
      part := { b.part with
        asked := (.noteOn p v, true) :: b.part.asked, sounding := b.part.sounding.insert p } } where
  sounding q := by
    refine PitchSet.mem_insert.trans (Iff.trans ?_ holds_cons.symm)
    rw [h.sounding q]
    constructor
    · rintro (rfl | k)
      · exact .inl ⟨v, rfl⟩
      · exact .inr ⟨nofun, k⟩
    · rintro (⟨w, e⟩ | ⟨-, k⟩)
      · cases e; exact .inl rfl
      · exact .inr k
  separated := h.separated.cons fun q _ _ e k => by
    cases e
    exact (h.among _ ((h.sounding _).2 k)).2 rfl
  playable := h.playable.cons fun _ _ e => by cases e; exact ⟨hp, hv⟩
  shown := h.shown_afterCall _ true
  ready := h.ready
  among q hq := by
    rcases PitchSet.mem_insert.1 hq with rfl | hq
    · exact hQ
    · exact (h.among q hq).1

/-- A note that does not sound is refused. -/
theorem refused (h : Books before ready (fun q => Q q ∧ q ≠ p) b) (v : Int) :
    Books before ready Q (afterCall (.noteOn p v) false b) where
  sounding q := by
    refine (h.sounding q).trans (Iff.trans ?_ holds_cons.symm)
    exact ⟨fun k => .inr ⟨nofun, k⟩, fun k => k.elim (fun ⟨_, e⟩ => by cases e) And.right⟩
  separated := h.separated.cons fun q _ _ e k => by
    cases e
    exact (h.among _ ((h.sounding _).2 k)).2 rfl
  playable := h.playable.cons fun _ _ e => by cases e
  shown := h.shown_afterCall _ false
  ready := h.ready
  among q hq := (h.among q hq).1

theorem written (h : Books before ready Q b) {e : Entry} (he : shownCalls [e] = []) :
    Books before ready Q { b with journal := e :: b.journal } where
  sounding := h.sounding
  separated := h.separated
  playable := h.playable
  shown := by
    rw [← h.shown, show shownCalls (e :: b.journal) = shownCalls [e] ++ shownCalls b.journal from
      List.filterMap_append (l := [e]), he, List.nil_append]
  ready := h.ready
  among := h.among

/-- What touches neither the notes nor what was asked does not touch the books. -/
theorem change (h : Books before ready Q b) {s : Synth} {ready' : Bool}
    (sounding : s.sounding = b.part.sounding) (asked : s.asked = b.part.asked)
    (now : s.ready = ready') : Books before ready' Q { b with part := s } where
  sounding := by simpa only [sounding, asked] using h.sounding
  separated := by simpa only [asked] using h.separated
  playable := by simpa only [asked] using h.playable
  shown := by simpa only [asked] using h.shown
  ready := now
  among := by simpa only [sounding] using h.among

end Books

/-! ## Operations -/

variable {before : List DeviceCall} {ready : Bool} {Q : Int → Prop}

theorem stopPitch_keeps (p : Int) : Attains (Books before ready Q) (stopPitch p)
    fun _ => Books before ready fun q => Q q ∧ q ≠ p := by
  refine (attains_change (J := fun _ b' => ∃ b, Books before ready Q b ∧
    b' = { b with part := { b.part with sounding := b.part.sounding.erase p } }) _
    fun b hb => ⟨b, hb, rfl⟩).bind fun _ => ?_
  refine (attains_call (J := fun _ => Books before ready fun q => Q q ∧ q ≠ p) ?_).bind
    fun done => attains_ite (fun _ => ?_) fun _ => attains_pure _ fun _ hb => hb
  · rintro _ done ⟨b, hb, rfl⟩
    exact hb.off p done
  · exact attains_write _ fun _ hb => hb.written rfl

theorem startPitch_keeps {p : Int} (hp : 0 ≤ p ∧ p ≤ 127) (hQ : Q p) {velocity : Float}
    (finite : isFinite (velocity * 127) = true) : Attains (Books before ready Q)
      (startPitch p velocity) fun _ => Books before ready Q := by
  obtain ⟨v, hv, bounds⟩ := keyVelocity_of_isFinite finite
  have sends : Attains (Books before ready fun q => Q q ∧ q ≠ p) (do
      let v ← orFail (keyVelocity velocity)
      if ← call (.noteOn p v) then
        change fun s => { s with sounding := s.sounding.insert p }
      else log .debug s!"[Synth] note_on {p} failed") fun _ => Books before ready Q := by
    rw [hv]
    refine (attains_orFail (J := fun w b => w = v ∧ Books before ready _ b) v
      fun b hb => ⟨rfl, hb⟩).bind fun w => ?_
    refine (attains_call (J := fun done b' => ∃ b, Books before ready (fun q => Q q ∧ q ≠ p) b ∧
      b' = afterCall (.noteOn p v) done b) ?_).bind fun done => attains_ite ?_ ?_
    · rintro b done ⟨rfl, hb⟩
      exact ⟨b, hb, rfl⟩
    · rintro rfl
      refine attains_change _ ?_
      rintro _ ⟨b, hb, rfl⟩
      exact hb.on hp hQ bounds
    · intro refused
      refine attains_write _ ?_
      rintro _ ⟨b, hb, rfl⟩
      rw [Bool.eq_false_iff.2 refused]
      exact (hb.refused v).written rfl
  refine attains_look_bind fun s => attains_ite (fun _ => ?_) fun silent => ?_
  · exact ((stopPitch_keeps p).bind fun _ => sends).pre fun _ hb => hb.2
  · refine sends.pre ?_
    rintro b ⟨rfl, hb⟩
    exact { hb with among := fun q hq => ⟨hb.among q hq, fun e => silent (e ▸ hq)⟩ }

/-- An operation that does nothing without a device. -/
theorem attains_ready {I : Bench Synth → Prop} {J : Unit → Bench Synth → Prop}
    {p : Synth → Work Synth Unit} (off : ∀ b, I b → b.part.ready = false → J () b)
    (on : ∀ s, s.ready = true → Attains (fun b => s = b.part ∧ I b) (p s) J) :
    Attains I (do
      let s ← look
      if !s.ready then return
      p s) J := by
  refine attains_look_bind fun s => attains_ite (fun h => attains_pure _ ?_) fun h =>
    on s (by simpa using h)
  rintro b ⟨rfl, hb⟩
  exact off b hb (by simpa using h)

/-- The books agree, and without a device nothing sounds. -/
abbrev Balanced (before : List DeviceCall) (ready : Bool) : Bench Synth → Prop :=
  Books before ready fun _ => ready = true

abbrev Silent (before : List DeviceCall) (ready : Bool) : Bench Synth → Prop :=
  Books before ready fun _ => False

theorem Books.ofSilent {b : Bench Synth} (h : Silent before ready b) : Books before ready Q b :=
  h.mono fun _ hp => hp.elim

theorem playNote_keeps (p : Int) {velocity : Float} (finite : isFinite (velocity * 127) = true) :
    Attains (Balanced before ready) (playNote (.whole p) velocity)
      fun _ => Balanced before ready := by
  refine attains_ready (fun _ hb _ => hb) fun s on => ?_
  refine (attains_orFail (J := fun q b => q = p ∧ s = b.part ∧ Balanced before ready b) p
    fun b hb => ⟨rfl, hb⟩).bind fun q => attains_ite (fun hq b hb => ?_) fun _ => ?_
  · obtain ⟨rfl, rfl, hb⟩ := hb
    exact startPitch_keeps hq (hb.ready.symm.trans on) finite b hb
  · exact attains_write _ fun _ hb => hb.2.2.written rfl

theorem stopNote_keeps (p : Int) : Attains (Balanced before ready) (stopNote (.whole p))
    fun _ => Balanced before ready := by
  refine attains_ready (fun _ hb _ => hb) fun s _ => ?_
  refine (attains_orFail (J := fun q b => q = p ∧ Balanced before ready b) p
    fun b hb => ⟨rfl, hb.2⟩).bind fun q => ?_
  exact ((stopPitch_keeps q).pre fun _ hb => hb.2).post fun _ _ hb => hb.mono fun _ hq => hq.1

/-- A call that is not about a note, with a log line if it is refused. -/
theorem call_keeps {c : DeviceCall} (hc : c.isNote = false) (text : String) :
    Attains (Books before ready Q) (do if !(← call c) then log .debug text)
      fun _ => Books before ready Q :=
  (attains_call (J := fun _ => Books before ready Q) fun _ done hb => hb.other hc done).bind
    fun _ => attains_ite (fun _ => attains_write _ fun _ hb => hb.written rfl)
      fun _ => attains_pure _ fun _ hb => hb

theorem stopAll_keeps : Attains (Balanced before ready) stopAll fun _ => Silent before ready := by
  refine attains_ready (fun b hb off => hb.mono fun _ on => ?_) fun s _ => ?_
  · rw [hb.ready, on] at off
    cases off
  · have each : Attains (Books before ready (· ∈ s.sounding.toList))
        (s.sounding.toList.forM stopPitch) fun _ => Books before ready (· ∈ ([] : List Int)) := by
      refine attains_forM (I := fun ps => Books before ready (· ∈ ps)) (fun p ps => ?_) _
      refine (stopPitch_keeps p).post fun _ _ hb => hb.mono fun q hq => ?_
      exact (List.mem_cons.1 hq.1).resolve_left hq.2
    refine ((each.post fun _ _ hb => hb.mono fun _ hq => absurd hq List.not_mem_nil).pre ?_).bind
      fun _ => call_keeps rfl _
    rintro b ⟨rfl, hb⟩
    exact { hb with among := fun _ hp => hp }

theorem close_keeps : Attains (Balanced before ready) close fun _ => Silent before false := by
  have lets_go : Attains (Silent before ready) (do
      write .deviceReleased
      change fun s => { s with ready := false }) fun _ => Silent before false :=
    (attains_write (J := fun _ => Silent before ready) _ fun _ hb => hb.written rfl).bind fun _ =>
      attains_change _ fun _ hb => by refine hb.change ?_ ?_ ?_ <;> rfl
  refine attains_look_bind fun s => attains_ite (fun _ => ?_) fun off => lets_go.pre ?_
  · refine (stopAll_keeps.pre fun _ hb => hb.2).bind fun _ => ?_
    refine (attains_call (J := fun _ => Silent before ready)
      fun _ done hb => hb.other rfl done).bind fun _ => attains_ite (fun _ => ?_) fun _ => lets_go
    exact (attains_write (J := fun _ => Silent before ready) _ fun _ hb => hb.written rfl).bind
      fun _ => lets_go
  · rintro b ⟨rfl, hb⟩
    exact hb.mono fun _ on => off (hb.ready.trans on)

theorem setWaveform_keeps (name : Given String) :
    Attains (Books before ready Q) (setWaveform name) fun _ => Books before ready Q := by
  unfold setWaveform
  split
  · exact (attains_look (J := fun _ => Books before ready Q) fun _ hb => hb).bind fun _ =>
      attains_write _ fun _ hb => hb.written rfl
  · refine (attains_change (J := fun _ => Books before ready Q) _ fun b hb => ?_).bind fun _ =>
      attains_ready (fun _ hb _ => hb) fun _ _ =>
        (call_keeps rfl _).pre fun _ hb => hb.2
    exact hb.change (by rfl) (by rfl) hb.ready

theorem setVolume_keeps (value : Float) :
    Attains (Books before ready Q) (setVolume value) fun _ => Books before ready Q := by
  refine (attains_change (J := fun _ => Books before ready Q) _ fun b hb => ?_).bind fun _ =>
    attains_ready (fun _ hb _ => hb) fun s _ => ?_
  · exact hb.change (by rfl) (by rfl) hb.ready
  · have logged (sent : Bool) : Attains (Books before ready Q)
        (if !sent then log .debug "[Synth] volume change failed" else pure ())
        fun _ => Books before ready Q :=
      attains_ite (fun _ => attains_write _ fun _ hb => hb.written rfl)
        fun _ => attains_pure _ fun _ hb => hb
    split
    · exact (attains_call (J := fun _ => Books before ready Q)
        fun _ done hb => hb.2.other rfl done).bind logged
    · exact (attains_pure (J := fun _ => Books before ready Q) false fun _ hb => hb.2).bind logged

/-! ## Runs -/

/-- The books agree, and without a device nothing sounds, whether there is a device or not. -/
def Accounts (before : List DeviceCall) (b : Bench Synth) : Prop := ∃ ready, Balanced before ready b

/-- Every operation ends well and keeps the books. -/
theorem toSynth_keeps {c : SoundCall} (hc : c.isProper = true) :
    Attains (Accounts before) (Audio.toSynth c) fun _ => Accounts before := by
  rintro b ⟨ready, hb⟩
  have kept {p : Work Synth Unit}
      (hp : Attains (Balanced before ready) p fun _ => Balanced before ready) :
      ∃ a b', p.on b = some (.ok a, b') ∧ Accounts before b' := by
    obtain ⟨a, b', h, hb'⟩ := hp b hb
    exact ⟨a, b', h, ready, hb'⟩
  cases c with
  | on pitch velocity =>
    cases pitch with
    | whole p => exact kept (playNote_keeps p hc)
    | real x => cases hc
  | off pitch =>
    cases pitch with
    | whole p => exact kept (stopNote_keeps p)
    | real x => cases hc
  | silence =>
    exact kept (stopAll_keeps.post fun _ _ h => .ofSilent h)
  | waveform name => exact kept (setWaveform_keeps _)
  | volume value => exact kept (setVolume_keeps value)
  | close =>
    obtain ⟨a, b', h, hb'⟩ := close_keeps b hb
    exact ⟨a, b', h, false, .ofSilent hb'⟩

/-- The device is closed, and it was asked for nothing else. -/
def Closed (asked : List (DeviceCall × Bool)) (b : Bench Synth) : Prop :=
  b.part.ready = false ∧ b.part.asked = asked

/-- After the device is closed it is not asked for anything. -/
theorem toSynth_closed (c : SoundCall) :
    Attains (Closed asked) (Audio.toSynth c) fun _ => Closed asked := by
  have rests {p : Synth → Work Synth Unit} : Attains (Closed asked) (do
      let s ← look
      if !s.ready then return
      p s) fun _ => Closed asked :=
    attains_ready (fun _ hb _ => hb) fun s on b ⟨e, hb⟩ => by
      subst e
      rw [hb.1] at on
      cases on
  cases c with
  | on pitch velocity => exact rests
  | off pitch => exact rests
  | silence => exact rests
  | waveform name =>
    change Attains _ (setWaveform _) _
    unfold setWaveform
    split
    · exact (attains_look (J := fun _ => Closed asked) fun _ hb => hb).bind fun _ =>
        attains_write _ fun _ hb => hb
    · exact (attains_change (I := Closed asked) (J := fun _ => Closed asked) _
        fun _ hb => hb).bind fun _ => rests
  | volume value =>
    exact (attains_change (I := Closed asked) (J := fun _ => Closed asked) _
      fun _ hb => hb).bind fun _ => rests
  | close =>
    refine attains_look_bind fun s => attains_ite (fun on => ?_) fun _ => ?_
    · rintro b ⟨rfl, hb⟩
      rw [hb.1] at on
      cases on
    · exact (attains_write (J := fun _ => Closed asked) _ fun _ hb => hb.2).bind fun _ =>
        attains_change _ fun _ hb => ⟨rfl, hb.2⟩

theorem openDevice_keeps (d : DeviceSetup) :
    Attains (Silent before false) (openDevice d) fun _ => Accounts before := by
  have stays {b : Bench Synth} (hb : Silent before false b) : Accounts before b :=
    ⟨false, .ofSilent hb⟩
  refine (attains_change (J := fun _ => Silent before false) _
    fun _ hb => hb.change (by rfl) (by rfl) hb.ready).bind fun _ => ?_
  split
  · exact attains_write _ fun _ hb => stays (hb.written rfl)
  · refine attains_ite (fun _ => attains_write _ fun _ hb => stays (hb.written rfl)) fun _ => ?_
    split
    · exact attains_write _ fun _ hb => stays (hb.written rfl)
    · refine (attains_write (J := fun _ => Silent before false) _
        fun _ hb => hb.written rfl).bind fun _ => ?_
      refine (attains_change (J := fun _ => Silent before true) _
        fun _ hb => hb.change (by rfl) (by rfl) (by rfl)).bind fun _ => ?_
      exact attains_write _ fun _ hb => ⟨true, .written (.ofSilent hb) rfl⟩

/-- A synthesizer that has been switched on begins with books that agree. -/
theorem start_keeps (settings : AudioSettings) (d : DeviceSetup)
    (volume : settings.volume ≠ .blank) (b : Bench Synth) :
    ∃ b', (start settings d).on b = some (.ok (), b') ∧ Accounts (shownCalls b.journal) b' := by
  have fresh : Silent (shownCalls b.journal) false
      ⟨{ waveform := settings.waveform, volume := settings.volume.getD 0 }, b.journal⟩ :=
    ⟨fun _ => iff_of_false PitchSet.not_mem_empty not_holds_nil,
      fun later _ _ _ _ _ _ e => (by cases later <;> cases e),
      fun _ _ hm => absurd hm List.not_mem_nil, rfl, rfl,
      fun _ hp => absurd hp PitchSet.not_mem_empty⟩
  obtain ⟨_, b₁, h₁, ready, hb₁⟩ := openDevice_keeps d _ fresh
  obtain ⟨_, b₂, h₂, hb₂⟩ := setWaveform_keeps settings.waveform _ hb₁
  rw [start, on_bind_ok (on_change _ b), on_bind_ok h₁, on_bind_ok h₂]
  split
  · next blank => exact absurd blank volume
  · next value _ =>
    obtain ⟨_, b₃, h₃, hb₃⟩ := setVolume_keeps value _ hb₂
    exact ⟨b₃, h₃, ready, hb₃⟩

/-- Operations that are carried out in turn all end well and keep the books. -/
theorem run_keeps {cs : List SoundCall} (hcs : ∀ c ∈ cs, c.isProper = true) :
    Attains (Accounts before) (cs.forM Audio.toSynth) fun _ => Accounts before := by
  refine ((attains_forM (I := fun cs b => (∀ c ∈ cs, c.isProper = true) ∧ Accounts before b)
    (fun c cs b ⟨hcs, hb⟩ => ?_) cs).pre fun _ hb => ⟨hcs, hb⟩).post fun _ _ hb => hb.2
  obtain ⟨a, b', h, hb'⟩ := toSynth_keeps (hcs c List.mem_cons_self) b hb
  exact ⟨a, b', h, fun c hc => hcs c (List.mem_cons_of_mem _ hc), hb'⟩

/-- Whatever a synthesizer is asked for and whatever its device refuses, it never fails, and the
pitches that sound are those that the device holds. Silenced or closed it holds none, and once
closed the device is not asked for anything. -/
theorem books_agree {settings : AudioSettings} (volume : settings.volume ≠ .blank)
    (d : DeviceSetup) (b₀ : Bench Synth) {cs : List SoundCall}
    (hcs : ∀ c ∈ cs, c.isProper = true) :
    ∃ b₁ b, (start settings d).on b₀ = some (.ok (), b₁) ∧
      (cs.forM Audio.toSynth).on b₁ = some (.ok (), b) ∧
      (∀ p, p ∈ b.part.sounding ↔ Holds b.part.asked p) ∧
      Playable b.part.asked ∧ Separated b.part.asked ∧
      shownCalls b.journal = doneCalls b.part.asked ++ shownCalls b₀.journal ∧
      (∃ b', (Audio.toSynth .silence).on b = some (.ok (), b') ∧ ∀ p, p ∉ b'.part.sounding) ∧
      ∃ b', (Audio.toSynth .close).on b = some (.ok (), b') ∧ (∀ p, p ∉ b'.part.sounding) ∧
        ∀ more : List SoundCall, ∃ b'', (more.forM Audio.toSynth).on b' = some (.ok (), b'') ∧
          b''.part.asked = b'.part.asked := by
  obtain ⟨b₁, started, accounts⟩ := start_keeps settings d volume b₀
  obtain ⟨_, b, ran, ready, hb⟩ := run_keeps hcs b₁ accounts
  obtain ⟨_, b₂, silenced, hb₂⟩ := stopAll_keeps b hb
  obtain ⟨_, b₃, closed, hb₃⟩ := close_keeps b hb
  refine ⟨b₁, b, started, ran, hb.sounding, hb.playable, hb.separated, hb.shown,
    ⟨b₂, silenced, hb₂.among⟩, b₃, closed, hb₃.among, fun more => ?_⟩
  obtain ⟨_, b₄, went, hb₄⟩ := attains_forM (I := fun _ => Closed b₃.part.asked)
    (fun c _ => toSynth_closed c) more b₃ ⟨hb₃.ready, rfl⟩
  exact ⟨b₄, went, hb₄.2⟩

/-- A device that refuses the call to end the pitch it did start first, and another one later. -/
def stubborn : DeviceSetup := { refuses := fun n _ => n == 3 || n == 6 }

/-- A pitch that is played twice and ended, two others, one of which MIDI does not know, and a
volume that is no number. -/
def hammered : List SoundCall :=
  [.on (.whole 60) 0.5, .on (.whole 60) 2, .on (.whole 64) 1, .off (.whole 60), .on (.whole 200) 1,
    .volume (0 / 0)]

theorem books_agree_stubborn : (∀ c ∈ hammered, c.isProper = true) ∧ ∃ b₁ b,
    (start {} stubborn).on ⟨{ waveform := .blank, volume := 0 }, []⟩ = some (.ok (), b₁) ∧
      (hammered.forM Audio.toSynth).on b₁ = some (.ok (), b) ∧
        ∀ p, p ∈ b.part.sounding ↔ Holds b.part.asked p := by
  have proper : ∀ c ∈ hammered, c.isProper = true := by decide +kernel
  have volume : ({} : AudioSettings).volume ≠ .blank := by decide
  obtain ⟨b₁, b, started, ran, sounding, -⟩ := books_agree volume stubborn
    ⟨{ waveform := .blank, volume := 0 }, []⟩ proper
  exact ⟨proper, b₁, b, started, ran, sounding⟩

end Synth

end PianoRoll
