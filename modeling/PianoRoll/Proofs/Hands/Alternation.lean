import PianoRoll.Proofs.Hands.Strokes
import PianoRoll.Proofs.Playback.Runs
import PianoRoll.Proofs.Program.Keys

/-!
Notes on and off by hand. Whatever is pressed and released, also by those who hear of it, each key
asks for its note to begin and to end in turn, and is held exactly while the last that it asked for
is to begin; what is published are the same strokes, and nothing else is asked for. Releasing
everything leaves nothing held, with one end for each note, unless somebody presses keys meanwhile
(`strokes_alternate`).
-/

namespace PianoRoll

open Work

def Command.byHand : Command → Bool
  | .press .. | .release _ | .releaseAll => true
  | _ => false

namespace Studio

/-! ## Releasing everything -/

section Releasing

variable {sounds : Prop} {h : Hooks} {b b' : Bench Studio} {r : Except Fault Unit}

/-- A release never fails. What it does first is to lift the key, if that is held, and the rest is
done by those who hear of it. -/
theorem release_inv {may : Bool → Prop} (hears : ∀ l e, Fingers may sounds (h.hear l e))
    {p : Int} (hon : (release h p).on b = some (r, b')) : r = .ok () ∧
      ∃ ts ks, Played sounds b ts b' ∧
        strokes ts = (if p ∈ b.part.held then [.up p] else []) ++ ks ∧
        ∀ k ∈ ks, may k.isDown := by
  rw [release_on] at hon
  split at hon
  · next present =>
    obtain ⟨b₁, ts, played, one, -, ⟨-, down⟩ | ⟨ok, ls, delivers⟩⟩ :=
      stroke_inv (Stroke.turns_up present) hon
    · cases down
    · obtain ⟨us, rest, hus⟩ := played_delivers hears delivers
      refine ⟨ok, ts ++ us, strokes us, played.trans rest, ?_, hus⟩
      rw [strokes_append, one, if_pos present]
  · next absent =>
    cases hon
    obtain ⟨ts, played, none⟩ := played_refl b
    exact ⟨rfl, ts, [], played, by rw [none, if_neg absent]; rfl, by simp⟩

theorem Played.course {ts : List Touch} (h : Played sounds b ts b') :
    Turning b.part.held (strokes ts) b'.part.held := by
  obtain ⟨es, -, fingered⟩ := h
  exact fingered.course

/-- A key is up once it was released, as long as keys only go up. -/
theorem release_lifts (hears : ∀ l e, Fingers (· = false) sounds (h.hear l e)) {p : Int}
    (hon : (release h p).on b = some (r, b')) : r = .ok () ∧
      ∃ ts, Played sounds b ts b' ∧ (∀ k ∈ strokes ts, k.isDown = false) ∧ p ∉ b'.part.held := by
  obtain ⟨ok, ts, ks, played, hks, lifts⟩ := release_inv hears hon
  have course := hks ▸ played.course
  refine ⟨ok, ts, played, fun k hk => ?_, fun held => ?_⟩
  · rw [hks] at hk
    rcases List.mem_append.1 hk with hk | hk
    · split at hk
      · rw [List.mem_singleton.1 hk]
        rfl
      · cases hk
    · exact lifts k hk
  · split at course
    · have lifted := Turning.subset course.2 lifts held
      exact (PitchSet.mem_erase.1 lifted).2 rfl
    · next absent => exact absent (Turning.subset course lifts held)

/-- Keys that were released one after the other are up, as long as keys only go up. -/
theorem forM_release_lifts (hears : ∀ l e, Fingers (· = false) sounds (h.hear l e)) (ps : List Int)
    (hon : (ps.forM (release h)).on b = some (r, b')) : r = .ok () ∧
      ∃ ts, Played sounds b ts b' ∧ (∀ k ∈ strokes ts, k.isDown = false) ∧
        ∀ p ∈ ps, p ∉ b'.part.held := by
  induction ps generalizing b with
  | nil =>
    cases hon
    obtain ⟨ts, played, none⟩ := played_refl b'
    exact ⟨rfl, ts, played, by simp [none], by simp⟩
  | cons p ps ih =>
    rw [forM_cons] at hon
    rcases on_bind_inv hon with ⟨_, b₁, h₁, h₂⟩ | ⟨e, h₁, -⟩
    · obtain ⟨-, ts, played, lifts, gone⟩ := release_lifts hears h₁
      obtain ⟨ok, us, rest, lifts', gone'⟩ := ih h₂
      refine ⟨ok, ts ++ us, played.trans rest, fun k hk => ?_, fun q hq held => ?_⟩
      · rw [strokes_append] at hk
        exact (List.mem_append.1 hk).elim (lifts k) (lifts' k)
      · rcases List.mem_cons.1 hq with rfl | hq
        · exact gone (rest.course.subset lifts' held)
        · exact gone' q hq held
    · obtain ⟨ok, -⟩ := release_lifts hears h₁
      cases ok

/-- Keys that are held are released in their order, if nobody calls back. -/
theorem forM_release_ascending (still : ∀ l e, Fingers (fun _ => False) sounds (h.hear l e))
    {ps : List Int} (nodup : ps.Nodup) (held : ∀ p ∈ ps, p ∈ b.part.held)
    (hon : (ps.forM (release h)).on b = some (r, b')) :
    ∃ ts, Played sounds b ts b' ∧ strokes ts = ps.map .up := by
  induction ps generalizing b with
  | nil =>
    cases hon
    exact played_refl b'
  | cons p ps ih =>
    obtain ⟨absent, nodup⟩ := List.nodup_cons.1 nodup
    rw [forM_cons] at hon
    rcases on_bind_inv hon with ⟨_, b₁, h₁, h₂⟩ | ⟨e, h₁, -⟩
    · obtain ⟨-, ts, ks, played, hks, none⟩ := release_inv still h₁
      obtain rfl : ks = [] := List.eq_nil_iff_forall_not_mem.2 none
      rw [if_pos (held p List.mem_cons_self), List.append_nil] at hks
      have lifted : b₁.part.held = b.part.held.erase p := (hks ▸ played.course).2
      have held₁ : ∀ q ∈ ps, q ∈ b₁.part.held := by
        intro q hq
        rw [lifted, PitchSet.mem_erase]
        exact ⟨held q (List.mem_cons_of_mem _ hq), fun e => absent (e ▸ hq)⟩
      obtain ⟨us, rest, hus⟩ := ih nodup held₁ h₂
      exact ⟨ts ++ us, played.trans rest, by rw [strokes_append, hks, hus]; rfl⟩
    · obtain ⟨ok, -⟩ := release_inv still h₁
      cases ok

end Releasing

/-- Releases end well if everybody who may hear of them comes to an end. -/
theorem succeeds_releaseAll {h : Hooks} (ends : ∀ l e, Ends (h.hear l e)) :
    Succeeds (releaseAll h) := by
  refine succeeds_look.bind fun s => succeeds_forM (fun p => succeeds_look.bind fun _ => ?_) _
  refine succeeds_ite ((succeeds_change _).bind fun _ => ?_) (succeeds_pure ())
  have sounds : Succeeds (sound (.off (.whole p))) := succeeds_sound (Synth.succeeds_stopNote p)
  exact sounds.bind fun _ => succeeds_publish_of_ends fun l => ends l _

/-- What releasing everything does to a studio: unless somebody presses keys meanwhile it lifts each
key that is held once, and no other, and if nobody calls back it does so from the lowest. -/
structure LetsGo (sounds : Prop) (s : Studio) : Prop where
  lifts {h : Hooks} (lifting : ∀ l e, Callback (.hands (· = false) sounds) (h.hear l e))
    {r : Except Fault Unit} {s' : Studio} {es : List Entry}
    (hrun : runAct (releaseAll h) s = some (r, s', es)) :
    r = .ok () ∧ s'.held = .empty ∧ ∃ ts, Fingered sounds s ts es s' ∧
      ∀ p, waysOf p (strokes ts) = if p ∈ s.held then [false] else []
  ascends {h : Hooks} (still : ∀ l e, Callback (.hands (fun _ => False) sounds) (h.hear l e))
    {r : Except Fault Unit} {s' : Studio} {es : List Entry}
    (hrun : runAct (releaseAll h) s = some (r, s', es)) :
    ∃ ts, Fingered sounds s ts es s' ∧ strokes ts = s.held.toList.map .up ∧
      (¬sounds → s.audio.isTape = true →
        es.filterMap Entry.sound? = s.held.toList.map fun p => .off (.whole p))
  ends {h : Hooks} (ends : ∀ l e, Ends (h.hear l e)) :
    ∃ s' es, runAct (releaseAll h) s = some (.ok (), s', es)

theorem Played.fingered {sounds : Prop} {s s' : Studio} {ts : List Touch} {es : List Entry}
    (h : Played sounds ⟨s, []⟩ ts ⟨s', es.reverse⟩) : Fingered sounds s ts es s' := by
  obtain ⟨es', he, fingered⟩ := h
  obtain rfl : es = es' := List.reverse_injective (he.trans (List.append_nil _))
  exact fingered

/-- What was run from an empty journal. -/
theorem runAct_inv {α : Type} {p : Act α} {s s' : Studio} {r : Except Fault α} {es : List Entry}
    (hrun : runAct p s = some (r, s', es)) : p.on ⟨s, []⟩ = some (r, ⟨s', es.reverse⟩) := by
  obtain ⟨⟨r', b⟩, hon, e⟩ := Option.map_eq_some_iff.1 hrun
  cases e
  rw [List.reverse_reverse]
  exact hon

theorem letsGo (sounds : Prop) (s : Studio) : LetsGo sounds s where
  lifts {h} lifting r s' es hrun := by
    have hon := runAct_inv hrun
    rw [releaseAll, on_bind_ok (on_look _)] at hon
    obtain ⟨ok, ts, played, up, gone⟩ :=
      forM_release_lifts (fun l e => (lifting l e).fingers) _ hon
    have none_held (p : Int) : p ∉ s'.held := fun hp => gone p (played.course.subset up hp) hp
    exact ⟨ok, PitchSet.eq_empty none_held, ts, played.fingered, fun p =>
      played.course.waysOf_eq up p (none_held p)⟩
  ascends {h} still r s' es hrun := by
    have hon := runAct_inv hrun
    rw [releaseAll, on_bind_ok (on_look _)] at hon
    have nodup : s.held.toList.Nodup := s.held.ascending.imp fun lt => Int.ne_of_lt lt
    obtain ⟨ts, played, all⟩ :=
      forM_release_ascending (fun l e => (still l e).fingers) nodup (fun _ hp => hp) hon
    refine ⟨ts, played.fingered, all, fun alone tape => ?_⟩
    rw [played.fingered.sounds_eq alone tape, all, List.map_map]
    rfl
  ends {h} ends := by
    obtain ⟨_, b, hon⟩ := succeeds_releaseAll ends ⟨s, []⟩
    exact ⟨b.part, b.journal.reverse, by rw [runAct, hon]; rfl⟩

/-! ## Runs -/

/-- Whatever the keyboard can be asked for may be asked for where all keys may go both ways. -/
theorem asks_byHand (sounds : Prop) {c : Command} (hc : c.byHand = true) :
    (Scope.hands (fun _ => True) sounds).asks c := by
  cases c with
  | press | release | releaseAll => trivial
  | _ => cases hc

theorem fingered_refl (sounds : Prop) (s : Studio) : ∃ ts, Fingered sounds s ts [] s :=
  ⟨_, .beside rfl rfl rfl (by simp)⟩

/-- Commands about the keyboard, carried out in turn, are fingered as a whole. -/
theorem fingered_inTurn {sounds : Prop} {h : Hooks}
    (hears : ∀ l e, Callback (.hands (fun _ => True) sounds) (h.hear l e)) {cs : List Command}
    (hcs : ∀ c ∈ cs, c.byHand = true) {s : Studio} {steps : List Step}
    (hrun : inTurn h cs s = some steps) :
    ∃ ts, Fingered sounds s ts (steps.flatMap Step.entries) (s.after steps) := by
  induction cs generalizing s steps with
  | nil =>
    cases hrun
    exact fingered_refl sounds s
  | cons c cs ih =>
    obtain ⟨step, rest, rfl, hrest, hon⟩ := inTurn_cons_inv hrun
    have allowed := asks_byHand sounds (hcs c List.mem_cons_self)
    obtain ⟨ts, played, -⟩ := fingers_carryOut (fun l e => (hears l e).fingers) allowed hon
    obtain ⟨us, later⟩ := ih (fun c hc => hcs c (List.mem_cons_of_mem _ hc)) hrest
    rw [after_cons, List.flatMap_cons]
    exact ⟨ts ++ us, played.fingered.trans later⟩

end Studio

open Studio

/-- Each key begins and ends its notes in turn, beginning first, and is held exactly if the last it
asked for is to begin. What is published of the keyboard are the strokes, in their order, as far as
the audio output takes them; and the output is asked for nothing else, unless those who listen make
sounds of their own. From there, everything can be let go. -/
theorem strokes_alternate {sounds : Prop} {h : Hooks}
    (hears : ∀ l e, Callback (.hands (fun _ => True) sounds) (h.hear l e)) {cs : List Command}
    (hcs : ∀ c ∈ cs, c.byHand = true) {s : Studio} (rests : s.held = .empty) {steps : List Step}
    (hrun : inTurn h cs s = some steps) :
    (∃ ts, Fingered sounds s ts (steps.flatMap Step.entries) (s.after steps) ∧
      (∀ p, Alternating false (waysOf p (strokes ts)) (decide (p ∈ (s.after steps).held)) ∧
        (p ∈ (s.after steps).held ↔ (waysOf p (strokes ts)).getLast? = some true)) ∧
      (¬sounds → s.audio.isTape = true →
        (steps.flatMap Step.entries).filterMap Entry.sound? = (strokes ts).map Stroke.call) ∧
      (steps.flatMap Step.entries).filter Entry.live =
        (toldOf ts).flatMap (fun k => shown s.recorded k.event) ∧
      ((∀ p velocity, .down p velocity ∈ strokes ts → s.audio.Takes velocity) →
        toldOf ts = strokes ts)) ∧
    LetsGo sounds (s.after steps) := by
  obtain ⟨ts, fingered⟩ := fingered_inTurn hears hcs hrun
  refine ⟨⟨ts, fingered, fun p => ?_, fingered.sounds_eq, fingered.live_eq, fingered.told_eq⟩,
    letsGo sounds _⟩
  have alternating := fingered.course.alternating p
  rw [rests, decide_eq_false PitchSet.not_mem_empty] at alternating
  refine ⟨alternating, ?_⟩
  have last := alternating.getLast?
  rw [← decide_eq_true_iff (p := p ∈ (s.after steps).held), last]
  cases (waysOf p (strokes ts)).getLast? with
  | none => exact iff_of_false nofun nofun
  | some way => exact Option.some_inj.symm

/-- A listener that plays a third above the first note it hears, and goes on to another when that
note ends. -/
def following : Hooks := prompted fun
  | .noteOn 60 .live _ => [.press 64 none]
  | .noteOff 60 .live => [.release 64, .press 67 none]
  | _ => []

def hands_following (l : Listener) (e : Event) :
    Callback (.hands (fun _ => True) False) (following.hear l e) :=
  .give _ fun c hc => by
    dsimp only at hc
    split at hc
    · obtain rfl := List.mem_singleton.1 hc
      trivial
    · obtain rfl | hc := List.mem_cons.1 hc
      · trivial
      · obtain rfl := List.mem_singleton.1 hc
        trivial
    · cases hc

/-- A studio with a tape, on whose bus somebody listens to notes, and with nothing held. -/
def followedStudio : Studio :=
  { bus := [("note_on", .scripted "third"), ("note_off", .scripted "third")]
    recorded := ["note_on", "note_off"] }

/-- A key that is pressed twice and released, and one that is left to be let go. -/
def fingering : List Command := [.press 60 none, .press 60 none, .press 48 none, .release 60]

theorem fingering_ends : (inTurn following fingering followedStudio).isSome = true := by
  decide +kernel

theorem strokes_alternate_fingering :
    ∃ steps, inTurn following fingering followedStudio = some steps ∧
      (∃ ts, Fingered False followedStudio ts (steps.flatMap Step.entries)
          (followedStudio.after steps) ∧
        (steps.flatMap Step.entries).filterMap Entry.sound? = (strokes ts).map Stroke.call ∧
        (steps.flatMap Step.entries).filter Entry.live =
          (strokes ts).flatMap (fun k => shown followedStudio.recorded k.event)) ∧
      LetsGo False (followedStudio.after steps) := by
  obtain ⟨steps, hrun⟩ := Option.isSome_iff_exists.1 fingering_ends
  obtain ⟨⟨ts, fingered, -, sounds, live, told⟩, letsGo⟩ :=
    strokes_alternate hands_following (by decide) rfl hrun
  rw [told fun _ _ _ => trivial] at live
  exact ⟨steps, hrun, ⟨ts, fingered, sounds id rfl, live⟩, letsGo⟩

end PianoRoll
