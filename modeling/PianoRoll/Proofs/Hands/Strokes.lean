import PianoRoll.Proofs.Bus.Delivery
import PianoRoll.Proofs.Callback
import PianoRoll.Proofs.Hereditary
import PianoRoll.Proofs.Playback.FrameRate

/-!
Notes played by hand, stroke by stroke. A stroke turns one key over: the audio output is asked for
its sound and it is published, and only then somebody may call back. What is done at the keyboard
and beside it is a row of touches, which `Fingered` ties to the studio before and after it and to
the journal. Whoever presses and releases in the middle of all this is fingered in the same way
(`Callback.fingers`).
-/

namespace PianoRoll

open Work

inductive Stroke
  | down (pitch : Int) (velocity : Float)
  | up (pitch : Int)

namespace Stroke

def pitch : Stroke → Int
  | down p _ | up p => p

def isDown : Stroke → Bool
  | down .. => true
  | up _ => false

def call : Stroke → SoundCall
  | down p velocity => .on (.whole p) velocity
  | up p => .off (.whole p)

def event : Stroke → Event
  | down p _ => .noteOn p .live none
  | up p => .noteOff p .live

def applyTo (held : PitchSet) : Stroke → PitchSet
  | down p _ => held.insert p
  | up p => held.erase p

/-- The key of the stroke goes down from above, or up from below. -/
def Turns (k : Stroke) (held : PitchSet) : Prop := k.isDown = !decide (k.pitch ∈ held)

theorem turns_down {p : Int} {velocity : Float} {held : PitchSet} (h : p ∉ held) :
    (down p velocity).Turns held := by
  simp [Turns, isDown, pitch, h]

theorem turns_up {p : Int} {held : PitchSet} (h : p ∈ held) : (up p).Turns held := by
  simp [Turns, isDown, pitch, h]

theorem mem_applyTo {k : Stroke} {held : PitchSet} {q : Int} :
    q ∈ k.applyTo held ↔ if q = k.pitch then k.isDown = true else q ∈ held := by
  cases k with
  | down p velocity => by_cases hq : q = p <;> simp [applyTo, pitch, isDown, hq]
  | up p => by_cases hq : q = p <;> simp [applyTo, pitch, isDown, hq]

end Stroke

/-! ## Rows of strokes -/

/-- Strokes each of which turns its key, from the keys held before the first to those held after
the last. -/
def Turning : PitchSet → List Stroke → PitchSet → Prop
  | held, [], held' => held' = held
  | held, k :: ks, held' => k.Turns held ∧ Turning (k.applyTo held) ks held'

/-- Which ways the key of a pitch goes. -/
def waysOf (p : Int) (ks : List Stroke) : List Bool :=
  (ks.filter fun k => k.pitch == p).map Stroke.isDown

namespace Turning

variable {held held' held'' : PitchSet} {ks ks' : List Stroke}

theorem append (h : Turning held ks held') (h' : Turning held' ks' held'') :
    Turning held (ks ++ ks') held'' := by
  induction ks generalizing held with
  | nil =>
    cases h
    exact h'
  | cons k ks ih => exact ⟨h.1, ih h.2⟩

/-- A key goes down and up in turn, and is held if it went down at last. -/
theorem alternating (h : Turning held ks held') (p : Int) :
    Alternating (decide (p ∈ held)) (waysOf p ks) (decide (p ∈ held')) := by
  induction ks generalizing held with
  | nil =>
    cases h
    rfl
  | cons k ks ih =>
    obtain ⟨turns, rest⟩ := h
    have after := ih rest
    by_cases hp : k.pitch = p
    · have here : waysOf p (k :: ks) = k.isDown :: waysOf p ks := by simp [waysOf, hp]
      have now : decide (p ∈ k.applyTo held) = k.isDown := by simp [Stroke.mem_applyTo, hp]
      rw [here]
      rw [now] at after
      rw [Stroke.Turns, hp] at turns
      exact ⟨turns, after⟩
    · have other : waysOf p (k :: ks) = waysOf p ks := by simp [waysOf, hp]
      have same : decide (p ∈ k.applyTo held) = decide (p ∈ held) := by
        simp [Stroke.mem_applyTo, Ne.symm hp]
      rw [other, ← same]
      exact after

/-- Where keys only go up, no key is held that was not. -/
theorem subset (h : Turning held ks held') (lifts : ∀ k ∈ ks, k.isDown = false) {p : Int}
    (hp : p ∈ held') : p ∈ held := by
  induction ks generalizing held with
  | nil =>
    cases h
    exact hp
  | cons k ks ih =>
    obtain ⟨turns, rest⟩ := h
    have before := ih rest fun k hk => lifts k (List.mem_cons_of_mem _ hk)
    rw [Stroke.mem_applyTo] at before
    split at before
    · rw [lifts k List.mem_cons_self] at before
      cases before
    · exact before

/-- Where keys only go up, one that is held at first and not at last goes up exactly once. -/
theorem waysOf_eq (h : Turning held ks held') (lifts : ∀ k ∈ ks, k.isDown = false) (p : Int)
    (gone : p ∉ held') : waysOf p ks = if p ∈ held then [false] else [] := by
  have alternating := h.alternating p
  have ups : ∀ x ∈ waysOf p ks, x = false := by
    intro x hx
    obtain ⟨k, hk, rfl⟩ := List.mem_map.1 hx
    exact lifts k (List.mem_filter.1 hk).1
  rw [decide_eq_false gone] at alternating
  cases hx : waysOf p ks with
  | nil =>
    rw [hx] at alternating
    have absent : p ∉ held := of_decide_eq_false alternating.symm
    rw [if_neg absent]
  | cons x xs =>
    rw [hx] at alternating ups
    obtain ⟨hd, rest⟩ := alternating
    obtain rfl : x = false := ups x List.mem_cons_self
    have present : p ∈ held := by simpa using hd
    cases xs with
    | nil => rw [if_pos present]
    | cons y ys =>
      -- the key would have to go down before it could go up again
      have second := rest.1
      rw [ups y (List.mem_cons_of_mem _ List.mem_cons_self)] at second
      cases second

end Turning

/-- What changes each time was the last value, if it ever changed. -/
theorem Alternating.getLast? {b b' : Bool} {xs : List Bool} (h : Alternating b xs b') :
    b' = xs.getLast?.getD b := by
  induction xs generalizing b with
  | nil => exact h
  | cons x xs ih =>
    rw [List.getLast?_cons, Option.getD_some]
    exact ih h.2

/-! ## Touches -/

/-- What is done at the keyboard, and beside it. -/
inductive Touch
  /-- The audio output is asked for the sound of a stroke, and answers or fails. -/
  | asked (k : Stroke) (answered : Bool)
  /-- A stroke is published. -/
  | told (k : Stroke)
  /-- Somebody else left this in the journal. -/
  | beside (e : Entry)

def Event.live : Event → Bool
  | .noteOn _ .live _ | .noteOff _ .live => true
  | _ => false

def Entry.live : Entry → Bool
  | .event e => e.live
  | _ => false

def Entry.sound? : Entry → Option SoundCall
  | .sound c => some c
  | _ => none

/-- What may be written beside the keyboard: nothing that is told of it, and sounds only from those
who may make some. -/
structure Entry.Beside (sounds : Prop) (e : Entry) : Prop where
  live : e.live = false
  sound : e.sound?.isSome = true → sounds

theorem Entry.beside_of_silent {sounds : Prop} {e : Entry} (h : e.audible = false) :
    e.Beside sounds := by
  have live : e.live = false := by cases e <;> first | rfl | cases h
  have silent : e.sound? = none := by cases e <;> first | rfl | cases h
  exact ⟨live, fun sound => by simp [silent] at sound⟩

def Touch.heard (s : Studio) : Touch → List Entry
  | .asked k _ => s.audio.heard k.call
  | .told k => Studio.shown s.recorded k.event
  | .beside e => [e]

def strokes (ts : List Touch) : List Stroke := ts.filterMap fun
  | .asked k _ => some k
  | _ => none

def answered (ts : List Touch) : List Stroke := ts.filterMap fun
  | .asked k true => some k
  | _ => none

def toldOf (ts : List Touch) : List Stroke := ts.filterMap fun
  | .told k => some k
  | _ => none

theorem strokes_append (ts us : List Touch) : strokes (ts ++ us) = strokes ts ++ strokes us :=
  List.filterMap_append

theorem strokes_beside (es : List Entry) : strokes (es.map .beside) = [] := by
  simp [strokes, List.filterMap_map]

/-- What was done from one studio to another, as the journal shows it. Every stroke turned its key
and was published if the output answered; the output fails at loudnesses alone that it does not
take, and nobody else tells of the keyboard, or makes a sound unless there are others who do. -/
structure Fingered (sounds : Prop) (s : Studio) (ts : List Touch) (es : List Entry) (s' : Studio) :
    Prop where
  course : Turning s.held (strokes ts) s'.held
  told : toldOf ts = answered ts
  failed : ∀ k, .asked k false ∈ ts → ∃ p velocity, k = .down p velocity ∧ ¬s.audio.Takes velocity
  others : ∀ e, .beside e ∈ ts → e.Beside sounds
  recorded : s'.recorded = s.recorded
  tape : s'.audio.isTape = s.audio.isTape
  journal : es.filter Entry.audible = ts.flatMap (Touch.heard s)

namespace Fingered

variable {sounds : Prop} {s s' s'' : Studio} {ts us : List Touch} {es es' : List Entry}

theorem trans (h : Fingered sounds s ts es s') (h' : Fingered sounds s' us es' s'') :
    Fingered sounds s (ts ++ us) (es ++ es') s'' where
  course := strokes_append ts us ▸ h.course.append h'.course
  told := by
    rw [toldOf, answered, List.filterMap_append, List.filterMap_append]
    exact congrArg₂ _ h.told h'.told
  failed k hk := by
    rcases List.mem_append.1 hk with hk | hk
    · exact h.failed k hk
    · obtain ⟨p, velocity, rfl, refuses⟩ := h'.failed k hk
      exact ⟨p, velocity, rfl, fun takes => refuses (takes.of_isTape h.tape)⟩
  others e he := (List.mem_append.1 he).elim (h.others e) (h'.others e)
  recorded := h'.recorded.trans h.recorded
  tape := h'.tape.trans h.tape
  journal := by
    have same : Touch.heard s' = Touch.heard s := by
      funext t
      cases t <;> simp only [Touch.heard, Audio.heard, h.recorded, h.tape]
    rw [List.filter_append, List.flatMap_append, h.journal, h'.journal, same]

/-- What leaves the keys alone. -/
theorem beside (held : s'.held = s.held) (recorded : s'.recorded = s.recorded)
    (tape : s'.audio.isTape = s.audio.isTape) {es : List Entry}
    (others : ∀ e ∈ es, e.Beside sounds) :
    Fingered sounds s ((es.filter Entry.audible).map .beside) es s' where
  course := by
    rw [strokes_beside]
    exact held
  told := by simp [toldOf, answered, List.filterMap_map]
  failed k hk := by simp at hk
  others e he := by
    obtain ⟨e', h, eq⟩ := List.mem_map.1 he
    obtain rfl := Touch.beside.inj eq
    exact others e' (List.mem_filter.1 h).1
  recorded := recorded
  tape := tape
  journal := by
    rw [List.flatMap_map]
    exact (List.flatMap_singleton' _).symm

/-- Where the output takes every loudness, what is published are the strokes. -/
theorem told_eq (h : Fingered sounds s ts es s')
    (takes : ∀ p velocity, .down p velocity ∈ strokes ts → s.audio.Takes velocity) :
    toldOf ts = strokes ts := by
  rw [h.told]
  refine List.filterMap_congr fun t ht => ?_
  cases t with
  | asked k all =>
    cases all with
    | true => rfl
    | false =>
      obtain ⟨p, velocity, rfl, refuses⟩ := h.failed k ht
      exact absurd (takes p velocity (List.mem_filterMap.2 ⟨_, ht, rfl⟩)) refuses
  | told k => rfl
  | beside e => rfl

/-- What the journal tells of the keyboard are the strokes that were published. -/
theorem live_eq (h : Fingered sounds s ts es s') :
    es.filter Entry.live = (toldOf ts).flatMap fun k => Studio.shown s.recorded k.event := by
  have others := h.others
  have audible : es.filter Entry.live = (es.filter Entry.audible).filter Entry.live := by
    rw [List.filter_filter]
    refine List.filter_congr fun e _ => ?_
    cases e <;> simp [Entry.live, Entry.audible]
  rw [audible, h.journal]
  clear audible h
  induction ts with
  | nil => rfl
  | cons t ts ih =>
    have rest := ih fun e he => others e (List.mem_cons_of_mem _ he)
    rw [List.flatMap_cons, List.filter_append, rest]
    cases t with
    | asked k all =>
      have calls : (s.audio.heard k.call).filter Entry.live = [] := by
        unfold Audio.heard
        split <;> rfl
      exact congrArg (· ++ _) calls
    | told k =>
      have tells : (Studio.shown s.recorded k.event).filter Entry.live =
          Studio.shown s.recorded k.event := by
        rw [List.filter_eq_self]
        intro e he
        rw [List.eq_of_mem_replicate he]
        cases k <;> rfl
      exact congrArg (· ++ _) tells
    | beside e =>
      have silent : [e].filter Entry.live = [] := by
        simp [(others e List.mem_cons_self).live]
      exact congrArg (· ++ _) silent

/-- Where nobody else makes a sound, the calls that a tape wrote down are those of the strokes. -/
theorem sounds_eq (h : Fingered sounds s ts es s') (alone : ¬sounds)
    (tape : s.audio.isTape = true) :
    es.filterMap Entry.sound? = (strokes ts).map Stroke.call := by
  have others := h.others
  have audible : es.filterMap Entry.sound? = (es.filter Entry.audible).filterMap Entry.sound? := by
    rw [List.filterMap_filter]
    refine List.filterMap_congr fun e _ => ?_
    cases e <;> simp [Entry.sound?, Entry.audible]
  rw [audible, h.journal]
  clear audible h
  induction ts with
  | nil => rfl
  | cons t ts ih =>
    have rest := ih fun e he => others e (List.mem_cons_of_mem _ he)
    rw [List.flatMap_cons, List.filterMap_append, rest]
    cases t with
    | asked k all => simp [Touch.heard, Audio.heard, tape, Entry.sound?, strokes]
    | told k => simp [Touch.heard, Studio.shown, Entry.sound?, strokes, List.filterMap_replicate]
    | beside e =>
      have silent : e.sound? = none := by
        by_contra sound
        exact alone ((others e List.mem_cons_self).sound (Option.isSome_iff_ne_none.2 sound))
      simp [Touch.heard, silent, strokes]

end Fingered

namespace Studio

/-! ## Strokes as acts -/

def stroke (h : Hooks) (k : Stroke) : Act Unit := do
  change fun s => { s with held := k.applyTo s.held }
  sound k.call
  publish h k.event

/-- To press a key that is not held is to carry out a stroke. -/
theorem press_on (h : Hooks) (p : Int) (velocity : Option Float) (b : Bench Studio) :
    (press h p velocity).on b = if p ∈ b.part.held then some (.ok (), b)
      else (stroke h (.down p (velocity.getD b.part.liveVelocity))).on b := by
  unfold press
  rw [on_bind_ok (on_look b)]
  split <;> rfl

/-- To release a key that is held is to carry out a stroke. -/
theorem release_on (h : Hooks) (p : Int) (b : Bench Studio) :
    (release h p).on b =
      if p ∈ b.part.held then (stroke h (.up p)).on b else some (.ok (), b) := by
  unfold release
  rw [on_bind_ok (on_look b)]
  split <;> rfl

/-- An output that fails was asked for a note of a loudness that it does not take. -/
theorem sound_stroke_failed {k : Stroke} {b b' : Bench Studio} {e : Fault}
    (hon : (sound k.call).on b = some (.error e, b')) :
    ∃ p velocity, k = .down p velocity ∧ ¬b.part.audio.Takes velocity := by
  obtain ⟨r, b₁, h₁, well⟩ := sound_ends k.call b
  obtain ⟨rfl, -⟩ := Prod.mk.inj (Option.some.inj (h₁.symm.trans hon))
  have fails : ¬Succeeds (Audio.toSynth k.call) := fun succeeds => nomatch well succeeds
  cases k with
  | up p => exact absurd (Synth.succeeds_stopNote p) fails
  | down p velocity =>
    refine ⟨p, velocity, rfl, fun takes => ?_⟩
    cases ha : b.part.audio with
    | tape =>
      rw [sound_on_tape ha] at hon
      cases hon
    | synth s =>
      rw [ha] at takes
      obtain ⟨v, hv⟩ := takes
      exact fails (Synth.succeeds_playNote p hv)

/-! ## Benches -/

def Played (sounds : Prop) (b : Bench Studio) (ts : List Touch) (b' : Bench Studio) : Prop :=
  ∃ es, b'.journal = es.reverse ++ b.journal ∧ Fingered sounds b.part ts es b'.part

variable {sounds : Prop} {b b' b'' : Bench Studio} {ts us : List Touch} {α β : Type}

theorem Played.trans (h : Played sounds b ts b') (h' : Played sounds b' us b'') :
    Played sounds b (ts ++ us) b'' := by
  obtain ⟨es, he, fingered⟩ := h
  obtain ⟨es', he', fingered'⟩ := h'
  refine ⟨es ++ es', ?_, fingered.trans fingered'⟩
  rw [he', he, List.reverse_append, List.append_assoc]

theorem played_beside (held : b'.part.held = b.part.held)
    (recorded : b'.part.recorded = b.part.recorded)
    (tape : b'.part.audio.isTape = b.part.audio.isTape) (es : List Entry)
    (journal : b'.journal = es ++ b.journal) (others : ∀ e ∈ es, e.Beside sounds) :
    ∃ ts, Played sounds b ts b' ∧ strokes ts = [] :=
  ⟨_, ⟨es.reverse, by rw [List.reverse_reverse, journal],
    .beside held recorded tape fun e he => others e (List.mem_reverse.1 he)⟩, strokes_beside _⟩

theorem played_refl (b : Bench Studio) : ∃ ts, Played sounds b ts b ∧ strokes ts = [] :=
  played_beside rfl rfl rfl [] rfl (by simp)

/-- A stroke asks for its sound and tells of it, before the first listener hears of it. -/
theorem stroke_inv {h : Hooks} {k : Stroke} {r : Except Fault Unit}
    (turns : k.Turns b.part.held) (hon : (stroke h k).on b = some (r, b')) :
    ∃ b₁ ts, Played sounds b ts b₁ ∧ strokes ts = [k] ∧ b₁.part.held = k.applyTo b.part.held ∧
      ((b' = b₁ ∧ k.isDown = true) ∨ (r = .ok () ∧ ∃ ls, Delivers h k.event ls b₁ b')) := by
  unfold stroke at hon
  rw [on_bind_ok (on_change _ b)] at hon
  have heard {es : List Entry} (hes : es.filter Entry.audible = b.part.audio.heard k.call) :
      es.reverse.filter Entry.audible = b.part.audio.heard k.call := by
    rw [List.filter_reverse, hes, Audio.heard]
    split <;> rfl
  rcases on_bind_inv hon with ⟨_, b₁, h₁, h₂⟩ | ⟨e, h₁, -⟩
  · obtain ⟨a, es, rfl, tape, hes, -⟩ := sound_inv h₁
    obtain ⟨rfl, delivers⟩ := publish_on_iff.1 h₂
    let told := shown b.part.recorded k.event
    refine ⟨_, [.asked k true, .told k], ⟨es.reverse ++ told, ?_, ?_⟩, rfl, rfl,
      .inr ⟨rfl, _, delivers⟩⟩
    · rw [List.reverse_append, List.reverse_reverse, List.append_assoc]
      simp [announced, told, shown]
    · refine ⟨⟨turns, rfl⟩, rfl, fun k hk => by simp at hk, fun e he => by simp at he, rfl, tape,
        ?_⟩
      rw [List.filter_append, heard hes, filter_audible_shown]
      simp [Touch.heard]
  · obtain ⟨p, velocity, rfl, refuses⟩ := sound_stroke_failed h₁
    obtain ⟨a, es, rfl, tape, hes, -⟩ := sound_inv h₁
    refine ⟨_, [.asked (.down p velocity) false], ⟨es.reverse, ?_, ?_⟩, rfl, rfl, .inl ⟨rfl, rfl⟩⟩
    · rw [List.reverse_reverse]
    · refine ⟨⟨turns, rfl⟩, rfl, fun k hk => ?_, fun e he => by simp at he, rfl, tape, ?_⟩
      · cases List.mem_singleton.1 hk
        exact ⟨p, velocity, rfl, refuses⟩
      · rw [heard hes]
        simp [Touch.heard]

/-! ## Acts that handle the keyboard -/

/-- Whatever the act comes to, it played on the keyboard, and its keys went the ways they may. -/
def Fingers (may : Bool → Prop) (sounds : Prop) (p : Act α) : Prop :=
  ∀ ⦃b r b'⦄, p.on b = some (r, b') →
    ∃ ts, Played sounds b ts b' ∧ ∀ k ∈ strokes ts, may k.isDown

/-- A change that leaves alone the keys, and whether what is played can be heard. -/
structure HandsOff (s s' : Studio) : Prop where
  held : s'.held = s.held
  recorded : s'.recorded = s.recorded
  isTape : s'.audio.isTape = s.audio.isTape

theorem chains_handsOff : Chains HandsOff where
  refl _ := ⟨rfl, rfl, rfl⟩
  trans h h' := ⟨h'.held.trans h.held, h'.recorded.trans h.recorded, h'.isTape.trans h.isTape⟩

/-- What those may do who hear of the keyboard: press keys or release them, as far as keys may go
that way, and otherwise leave alone the keys and what is told of them. They may be able to make
sounds of their own. -/
def Scope.hands (may : Bool → Prop) (sounds : Prop) : Scope where
  changes := HandsOff
  chains := chains_handsOff
  writes := Entry.Beside sounds
  publishes e := e.live = false
  asks
    | .press .. => may true
    | .release _ | .releaseAll => may false
    | _ => False

section Handled

variable {may : Bool → Prop}

theorem compositional_beside :
    Compositional (Alters HandsOff (Entry.Beside sounds) : {α : Type} → Act α → Prop) :=
  compositional_alters chains_handsOff fun _ => Entry.beside_of_silent

theorem fingers_of_alters {p : Act α} (alters : Alters HandsOff (Entry.Beside sounds) p) :
    Fingers may sounds p := by
  intro b r b' hon
  obtain ⟨same, es, journal, others⟩ := alters hon
  obtain ⟨ts, played, none⟩ := played_beside same.held same.recorded same.isTape es journal others
  exact ⟨ts, played, fun k hk => by simp [none] at hk⟩

theorem Played.append (h : Played sounds b ts b') (hts : ∀ k ∈ strokes ts, may k.isDown)
    (h' : ∃ us, Played sounds b' us b'' ∧ ∀ k ∈ strokes us, may k.isDown) :
    ∃ vs, Played sounds b vs b'' ∧ ∀ k ∈ strokes vs, may k.isDown := by
  obtain ⟨us, played, hus⟩ := h'
  refine ⟨ts ++ us, h.trans played, fun k hk => ?_⟩
  rw [strokes_append] at hk
  exact (List.mem_append.1 hk).elim (hts k) (hus k)

theorem Fingers.bind {p : Act α} {f : α → Act β} (hp : Fingers may sounds p)
    (hf : ∀ a, Fingers may sounds (f a)) : Fingers may sounds (p >>= f) := by
  intro b r b' hon
  rcases on_bind_inv hon with ⟨a, b₁, h₁, h₂⟩ | ⟨e, h₁, -⟩
  · obtain ⟨ts, played, hts⟩ := hp h₁
    exact played.append hts (hf a h₂)
  · exact hp h₁

theorem Fingers.rescue {p : Act α} {f : Fault → Act α} (hp : Fingers may sounds p)
    (hf : ∀ e, Fingers may sounds (f e)) : Fingers may sounds (tryCatch p f) := by
  intro b r b' hon
  rcases on_tryCatch_inv hon with ⟨a, h₁, -⟩ | ⟨e, b₁, h₁, h₂⟩
  · exact hp h₁
  · obtain ⟨ts, played, hts⟩ := hp h₁
    exact played.append hts (hf e h₂)

/-- Acts that handle the keyboard may be put together, with changes that do not touch it. -/
theorem allowsNeutral_fingers :
    AllowsNeutral (Fingers may sounds : {α : Type} → Act α → Prop) where
  pure a := fingers_of_alters (compositional_beside.pure a)
  bind := Fingers.bind
  fail e := fingers_of_alters (compositional_beside.fail e)
  rescue := Fingers.rescue
  look := fingers_of_alters compositional_beside.look
  write e quiet := fingers_of_alters (compositional_beside.write e quiet)
  neutral f h := fingers_of_alters <| alters_change f fun s =>
    ⟨(h s).held, (h s).recorded, congrArg Audio.isTape (h s).audio⟩

section Heard

variable {h : Hooks} (hears : ∀ l e, Fingers may sounds (h.hear l e))
include hears

/-- Those who hear an event handle the keyboard one after the other. -/
theorem played_delivers {e : Event} {ls : List Listener} (d : Delivers h e ls b b') :
    ∃ ts, Played sounds b ts b' ∧ ∀ k ∈ strokes ts, may k.isDown := by
  induction d with
  | done b =>
    obtain ⟨ts, played, none⟩ := played_refl b
    exact ⟨ts, played, by simp [none]⟩
  | @hears l ls r b b₁ b' hl _ ih =>
    obtain ⟨ts, played, hts⟩ := hears l e hl
    cases r with
    | ok _ => exact played.append hts ih
    | error _ =>
      obtain ⟨us, logged, none⟩ :
          ∃ us, Played sounds b₁ us (noted e l (.error _) b₁) ∧ strokes us = [] :=
        played_beside rfl rfl rfl [_] rfl (List.forall_mem_singleton.2 (Entry.beside_of_silent rfl))
      refine played.append hts (logged.append (fun k hk => ?_) ih)
      rw [none] at hk
      cases hk

theorem fingers_publish {e : Event} (he : e.live = false) :
    Fingers may sounds (publish h e) := by
  intro b r b' hon
  obtain ⟨-, delivers⟩ := publish_on_iff.1 hon
  have others : ∀ x ∈ shown b.part.recorded e, x.Beside sounds := fun x hx => by
    rw [List.eq_of_mem_replicate hx]
    exact ⟨he, nofun⟩
  obtain ⟨ts, announces, none⟩ : ∃ ts, Played sounds b ts (announced e b) ∧ strokes ts = [] :=
    played_beside rfl rfl rfl _ rfl others
  refine announces.append (fun k hk => ?_) (played_delivers hears delivers)
  rw [none] at hk
  cases hk

theorem fingers_stroke {k : Stroke} {r : Except Fault Unit} (allowed : may k.isDown)
    (turns : k.Turns b.part.held) (hon : (stroke h k).on b = some (r, b')) :
    ∃ ts, Played sounds b ts b' ∧ ∀ k ∈ strokes ts, may k.isDown := by
  obtain ⟨b₁, ts, played, one, -, ⟨rfl, -⟩ | ⟨-, ls, delivers⟩⟩ := stroke_inv turns hon
  · exact ⟨ts, played, by simp [one, allowed]⟩
  · exact played.append (by simp [one, allowed]) (played_delivers hears delivers)

theorem fingers_press (allowed : may true) (p : Int) (velocity : Option Float) :
    Fingers may sounds (press h p velocity) := by
  intro b r b' hon
  rw [press_on] at hon
  split at hon
  · exact allowsNeutral_fingers.pure () hon
  · next absent =>
    exact fingers_stroke hears (k := .down p _) allowed (Stroke.turns_down absent) hon

theorem fingers_release (allowed : may false) (p : Int) : Fingers may sounds (release h p) := by
  intro b r b' hon
  rw [release_on] at hon
  split at hon
  · next present => exact fingers_stroke hears (k := .up p) allowed (Stroke.turns_up present) hon
  · exact allowsNeutral_fingers.pure () hon

/-- Whatever is asked of the keyboard, as far as it may be asked. -/
theorem fingers_carryOut {c : Command} (allowed : (Scope.hands may sounds).asks c) :
    Fingers may sounds (carryOut h c) := by
  have hP : AllowsNeutral (Fingers may sounds : {α : Type} → Act α → Prop) :=
    allowsNeutral_fingers
  cases c with
  | press p velocity => exact (fingers_press hears allowed p velocity).bind fun _ => hP.pure _
  | release p => exact (fingers_release hears allowed p).bind fun _ => hP.pure _
  | releaseAll => exact (hP.releaseAll (fingers_release hears allowed)).bind fun _ => hP.pure _
  | _ => exact absurd allowed id

end Heard

theorem Callback.fingers {p : Act α} (callback : Callback (.hands may sounds) p) :
    Fingers may sounds p := by
  induction callback with
  | act alters => exact fingers_of_alters alters
  | bind _ _ ihp ihf => exact ihp.bind ihf
  | rescue _ _ ihp ihf => exact ihp.rescue ihf
  | look _ ih => exact allowsNeutral_fingers.look.bind fun s => ih s trivial
  | react r e =>
    have untouched {f : Studio → Studio} (h : ∀ s, HandsOff s (f s)) :
        Fingers may sounds (change f) := fingers_of_alters (alters_change f h)
    exact allowsNeutral_fingers.toCompositional.react
      (fun _ => untouched fun _ => ⟨rfl, rfl, rfl⟩) (fun _ => untouched fun _ => ⟨rfl, rfl, rfl⟩)
      r e
  | publish h _ e silent ih => exact fingers_publish ih silent
  | ask h _ _ c allowed ih => exact fingers_carryOut ih allowed

end Handled

end Studio

end PianoRoll
