import PianoRoll.Proofs.Playback.Telling

/-!
What is told of a session is a course. In an orderly studio the deeds that are told of an act are
those of a course that it takes, with the traces that the journal shows (`Tracks`). So it is with
beginning, stopping and pumping, and with whatever a session can be asked for, as far as it is so
with those who hear of it (`tracks_carryOut`); and so it is with callbacks (`Callback.tracks`).
-/

namespace PianoRoll.Studio

open Work

namespace Telling

variable {α β : Type} {p : Act α} {f : α → Act β} {t : Telling p} {u : ∀ a, Telling (f a)}

/-- What an act on a bench comes to, with the deeds that are told of it. -/
structure Yields (t : Telling p) (b : Bench Studio) (ds : List Deed) (r : Except Fault α)
    (b' : Bench Studio) : Prop where
  on : p.on b = some (r, b')
  deeds : t.deeds b = ds

namespace Yields

variable {b b₁ b' : Bench Studio} {ds : List Deed}

theorem note_inv {deed : Studio → Deed} {r : Except Fault α}
    (h : (t.note deed).Yields b ds r b') : ∃ es, ds = deed b.part :: es ∧ t.Yields b es r b' :=
  ⟨t.deeds b, h.deeds.symm, h.on, rfl⟩

/-- After a piece of which there is nothing to tell, the rest is told. -/
theorem next {a : α} {r : Except Fault β} (h : ((quietly p).bind u).Yields b ds r b')
    (hp : p.on b = some (.ok a, b₁)) : (u a).Yields b₁ ds r b' :=
  ⟨(on_bind_ok hp).symm.trans h.on, (deeds_quietly_bind hp).symm.trans h.deeds⟩

/-- What is told of two pieces in a row is told of the one and then of the other. -/
theorem bind_inv {r : Except Fault β} (h : (t.bind u).Yields b ds r b') :
    (∃ a b₁ es fs, t.Yields b es (.ok a) b₁ ∧ (u a).Yields b₁ fs r b' ∧ ds = es ++ fs) ∨
      ∃ e, t.Yields b ds (.error e) b' ∧ r = .error e := by
  obtain ⟨hon, rfl⟩ := h
  rcases on_bind_inv hon with ⟨a, b₁, h₁, h₂⟩ | ⟨e, h₁, rfl⟩
  · exact .inl ⟨a, b₁, _, _, ⟨h₁, rfl⟩, ⟨h₂, rfl⟩, deeds_bind_ok h₁⟩
  · exact .inr ⟨e, ⟨h₁, (deeds_bind_error h₁).symm⟩, rfl⟩

theorem rescue_inv {g : Fault → Act α} {v : ∀ e, Telling (g e)} {r : Except Fault α}
    (h : (t.rescue v).Yields b ds r b') :
    t.Yields b ds r b' ∨
      ∃ e b₁ es fs, t.Yields b es (.error e) b₁ ∧ (v e).Yields b₁ fs r b' ∧ ds = es ++ fs := by
  obtain ⟨hon, rfl⟩ := h
  rcases on_tryCatch_inv hon with ⟨a, h₁, rfl⟩ | ⟨e, b₁, h₁, h₂⟩
  · exact .inl ⟨h₁, (deeds_rescue_ok h₁).symm⟩
  · exact .inr ⟨e, b₁, _, _, ⟨h₁, rfl⟩, ⟨h₂, rfl⟩, deeds_rescue_error h₁⟩

theorem ite_inv {q : Act α} {c : Prop} [Decidable c] {v : Telling q} {r : Except Fault α}
    (h : (Telling.ite c t v).Yields b ds r b') :
    c ∧ t.Yields b ds r b' ∨ ¬c ∧ v.Yields b ds r b' := by
  obtain ⟨hon, rfl⟩ := h
  by_cases hc : c
  · rw [if_pos hc] at hon
    exact .inl ⟨hc, hon, (deeds_ite_pos hc).symm⟩
  · rw [if_neg hc] at hon
    exact .inr ⟨hc, hon, (deeds_ite_neg hc).symm⟩

end Yields

/-- Whatever an act comes to, what is told of it is a course that it took. -/
def Tracks (t : Telling p) : Prop :=
  ∀ ⦃b ds r b'⦄, b.part.Orderly → t.Yields b ds r b' → Traced b ds b'

/-! ## Acts that take a course -/

/-- An act that leaves the run alone and is not heard. -/
theorem traced_aside {b b' : Bench Studio} (h : Aside b.part b'.part) (es : List Entry)
    (he : b'.journal = es ++ b.journal) (quiet : ∀ e ∈ es, e.audible = false) :
    Traced b [] b' := by
  refine .move (.aside h.run) h.recorded (by rw [h.audio]) es he ?_
  rw [List.filter_eq_nil_iff.2 fun e hm => by simp [quiet e hm]]
  rfl

theorem tracks_quietly (hp : Alters Aside (fun e => e.audible = false) p) :
    (quietly p).Tracks := by
  rintro b ds r b' _ ⟨hon, rfl⟩
  obtain ⟨away, es, he, quiet⟩ := hp hon
  exact traced_aside away es he quiet

theorem tracks_log (l : Level) (s : String) : (quietly (log l s : Act Unit)).Tracks :=
  tracks_quietly (alters_write chains_aside _ rfl)

theorem tracks_pure (a : α) : (quietly (pure a : Act α)).Tracks :=
  tracks_quietly (alters_pure chains_aside a)

theorem Tracks.bind (ht : t.Tracks) (hu : ∀ a, (u a).Tracks) : (t.bind u).Tracks := by
  intro b ds r b' hb h
  rcases h.bind_inv with ⟨a, b₁, es, fs, h₁, h₂, rfl⟩ | ⟨e, h₁, -⟩
  · have first := ht hb h₁
    exact first.trans (hu a (hb.course first.course) h₂)
  · exact ht hb h₁

theorem Tracks.rescue {g : Fault → Act α} {v : ∀ e, Telling (g e)} (ht : t.Tracks)
    (hv : ∀ e, (v e).Tracks) : (t.rescue v).Tracks := by
  intro b ds r b' hb h
  rcases h.rescue_inv with h₁ | ⟨e, b₁, es, fs, h₁, h₂, rfl⟩
  · exact ht hb h₁
  · have first := ht hb h₁
    exact first.trans (hv e (hb.course first.course) h₂)

theorem Tracks.ite {q : Act α} {c : Prop} [Decidable c] {v : Telling q} (ht : t.Tracks)
    (hv : v.Tracks) : (Telling.ite c t v).Tracks := by
  intro b ds r b' hb h
  rcases h.ite_inv with ⟨-, h⟩ | ⟨-, h⟩
  · exact ht hb h
  · exact hv hb h

theorem tracks_forM {f : α → Act Unit} {t : ∀ a, Telling (f a)} (ht : ∀ a, (t a).Tracks)
    (xs : List α) : (forM t xs).Tracks := by
  induction xs with
  | nil => exact tracks_pure ()
  | cons x xs ih => exact (ht x).bind fun _ => ih

/-- What alters nothing that counts for a run is so as a whole. -/
theorem hereditary_aside : Hereditary (Alters Aside fun e => e.audible = false) where
  toCompositional := compositional_alters chains_aside fun _ quiet => quiet
  aside f h := alters_change f fun s => (h s).1

/-! ## Publishing -/

section Listeners

variable {h : Hooks} {hears : ∀ l e, Telling (h.hear l e)} (hh : ∀ l e, (hears l e).Tracks)
include hh

theorem tracks_delivered (e : Event) (ls : List Listener) : (delivered hears e ls).Tracks :=
  tracks_forM (fun l => (hh l e).rescue fun _ => tracks_log _ _) ls

/-- Behind a move that ends with an event, publishing the event goes on with the courses of those
who hear it. -/
theorem traced_publish {e : Event} (b b₁ : Bench Studio) {b' : Bench Studio}
    {r : Except Fault Unit} {ds ds' : List Deed}
    (hm : Move b.part (ds ++ [.published e b₁.part]) b₁.part)
    (recorded : b₁.part.recorded = b.part.recorded)
    (tape : b₁.part.audio.isTape = b.part.audio.isTape) (es : List Entry)
    (he : b₁.journal = es ++ b.journal)
    (hes : (es.filter Entry.audible).reverse = ds.flatMap (Deed.heard b.part))
    (hb : b.part.Orderly) (hp : (publish hears e).Yields b₁ ds' r b') :
    Traced b (ds ++ ds') b' := by
  obtain ⟨later, rfl, told⟩ := hp.note_inv
  let b₂ : Bench Studio := ⟨b₁.part, shown b₁.part.recorded e ++ b₁.journal⟩
  have heard := (told.next (record_on e b₁)).next (on_look b₂)
  have first : Traced b (ds ++ [.published e b₁.part]) b₂ := by
    have hj : b₂.journal = (shown b₁.part.recorded e ++ es) ++ b.journal := by
      rw [List.append_assoc, ← he]
    refine .move hm recorded tape _ hj ?_
    rw [List.filter_append, filter_audible_shown, List.reverse_append, hes, recorded,
      List.flatMap_append, shown, List.reverse_replicate]
    simp [Deed.heard, shown]
  have rest : Traced b₂ later b' := tracks_delivered hh e _ (hb.move hm) heard
  simpa using first.trans rest

/-! ## Beginning and stopping -/

theorem tracks_start (notes : List Note) (bpm : Option Float) (extent : Option Extent) :
    (start hears notes bpm extent).Tracks := by
  intro b ds r b' hb hp
  rcases (hp.next (on_look b)).ite_inv with ⟨-, hp⟩ | ⟨hr, hp⟩
  · exact tracks_pure false hb hp
  · obtain ⟨rests, some⟩ : b.part.transport.playing = false ∧ notes ≠ [] := by simpa using hr
    let tempo := orTempo bpm b.part.settings.tempo
    let b₁ : Bench Studio := ⟨b.part.prepared notes tempo extent, b.journal⟩
    have hp := hp.next (on_changeTransport _ b)
    cases ht : (tempo == 0)
    · have hall := scheduleAll_on b.part.clock (triggers b.part.settings.startDelay notes) b₁ ht
      obtain ⟨later, rfl, begun⟩ := ((hp.next hall).next (on_changeTransport _ _)).note_inv
      have begun := begun.next (on_write (startedLine notes tempo) _)
      let b₂ : Bench Studio :=
        ⟨b.part.begun notes tempo extent, startedLine notes tempo :: b.journal⟩
      have hm : Move b.part ([.begun b₂.part.transport.pending] ++
          [.published (.transport true) b₂.part]) b₂.part :=
        Move.begin notes tempo extent rests some
      have told {es : List Deed} {r₁ : Except Fault Unit}
          (h₁ : (publish hears (.transport true)).Yields b₂ es r₁ b') :
          Traced b ([.begun b₂.part.transport.pending] ++ es) b' :=
        traced_publish hh b b₂ hm rfl rfl [startedLine notes tempo] rfl rfl hb h₁
      rcases begun.bind_inv with ⟨_, b₃, es, fs, h₁, ⟨h₂, rfl⟩, rfl⟩ | ⟨e, h₁, -⟩
      · cases h₂
        rw [deeds_quietly, List.append_nil]
        exact told h₁
      · exact told h₁
    · -- without a tempo the first trigger already fails
      obtain ⟨n, rest, rfl⟩ := List.exists_cons_of_ne_nil some
      obtain ⟨m, plan, hplan⟩ := triggers_eq_cons b.part.settings.startDelay n rest
      have hfail := scheduleAll_on_fault b.part.clock m plan b₁ ht
      rw [← hplan] at hfail
      rcases hp.bind_inv with ⟨_, _, _, _, ⟨h₁, -⟩, -⟩ | ⟨e, ⟨h₁, rfl⟩, -⟩
      · cases hfail.symm.trans h₁
      · obtain ⟨-, rfl⟩ := Prod.mk.inj (Option.some.inj (hfail.symm.trans h₁))
        exact .move (.aside ⟨rfl, rfl, rfl, rfl⟩) rfl rfl [] rfl rfl

omit hh in
/-- Stopping is told at once, and then the silence, and what follows is published of a studio that
has stopped. -/
theorem stop_inv {b b' : Bench Studio} {ds : List Deed} {r : Except Fault Unit}
    (hp : (stop hears).Yields b ds r b') :
    ∃ a es later, ds = .halted :: .sounded .silence :: later ∧
      (publishEnd hears b.part.transport.playing).Yields ⟨b.part.stopped a, es ++ b.journal⟩ later
        r b' ∧
      a.isTape = b.part.audio.isTape ∧ es.filter Entry.audible = b.part.audio.heard .silence := by
  obtain ⟨_, rfl, halts⟩ := hp.note_inv
  obtain ⟨later, rfl, silences⟩ :=
    (((halts.next (on_look b)).next (on_change _ b)).next (on_changeTransport _ _)).note_inv
  obtain ⟨_, b₁, h₁⟩ := succeeds_sound (c := .silence) Synth.succeeds_stopAll
    ⟨b.part.calledOff, b.journal⟩
  have ends := silences.next h₁
  obtain ⟨a, es, rfl, tape, hes, -⟩ := sound_inv h₁
  exact ⟨a, es, later, rfl, ends.next (on_changeTransport _ _), tape, hes⟩

/-- A move that stops the studio, followed by what is published of it. -/
theorem traced_stop {b b' : Bench Studio} {r : Except Fault Unit} {s : Studio} {a : Audio}
    {ds later : List Deed} (hm : Move b.part (ds ++ s.stopDeeds a) (s.stopped a))
    (recorded : s.recorded = b.part.recorded) (tape : a.isTape = b.part.audio.isTape)
    {es : List Entry} (hes : es.filter Entry.audible = b.part.audio.heard .silence)
    (hds : ds.flatMap (Deed.heard b.part) = []) (hb : b.part.Orderly)
    (hp : (publishEnd hears s.transport.playing).Yields ⟨s.stopped a, es ++ b.journal⟩ later r
      b') :
    Traced b (ds ++ ([.halted, .sounded .silence] ++ later)) b' := by
  have silent : (es.filter Entry.audible).reverse = b.part.audio.heard .silence := by
    rw [hes, Audio.heard]
    split <;> rfl
  rcases hp.ite_inv with ⟨plays, hp⟩ | ⟨rests, ⟨hon, rfl⟩⟩
  · have hp := hp.next (on_write _ _)
    have split : ds ++ s.stopDeeds a =
        (ds ++ [.halted, .sounded .silence]) ++ [.published (.transport false) (s.stopped a)] := by
      simp [stopDeeds, plays]
    rw [split] at hm
    have heard : (List.filter Entry.audible (.log ⟨.info, "playback stopped"⟩ :: es)).reverse =
        (ds ++ [Deed.halted, .sounded .silence]).flatMap (Deed.heard b.part) := by
      rw [List.flatMap_append, hds]
      simpa [Deed.heard, Entry.audible] using silent
    simpa using traced_publish hh b _ hm recorded tape _ rfl heard hb hp
  · cases hon
    have still : s.stopDeeds a = [.halted, .sounded .silence] := by
      simp [stopDeeds, rests]
    rw [still] at hm
    refine .move hm recorded tape es rfl ?_
    rw [silent, List.flatMap_append, hds]
    simp [Deed.heard]

theorem tracks_stop : (stop hears).Tracks := by
  intro b ds r b' hb hp
  obtain ⟨a, es, later, rfl, ends, tape, hes⟩ := stop_inv hp
  have hm : Move b.part ([] ++ b.part.stopDeeds a) (b.part.stopped a) := Move.stop a
  exact traced_stop hh hm rfl tape hes rfl hb ends

/-! ## Firing -/

omit hh in
/-- Moving the striker changes neither the run nor the journal. -/
theorem strike_inv {p : Int} {b b' : Bench Studio} {r : Except Fault Unit}
    (hp : (strike p).on b = some (r, b')) : Aside b.part b'.part ∧ b'.journal = b.journal := by
  unfold strike at hp
  rw [on_bind_ok (on_changeTransport _ b), on_bind_ok (on_look _)] at hp
  split at hp
  · cases hp
    exact ⟨⟨⟨rfl, rfl, rfl, rfl⟩, rfl, rfl⟩, rfl⟩
  · obtain ⟨m, b₁, h₁, h₂⟩ | ⟨e, h₁, _⟩ := on_bind_inv hp <;>
      rw [on_orFail] at h₁ <;> obtain ⟨_, rfl⟩ := Prod.mk.inj (Option.some.inj h₁)
    · cases h₂
      exact ⟨⟨⟨rfl, rfl, rfl, rfl⟩, rfl, rfl⟩, rfl⟩
    · exact ⟨⟨⟨rfl, rfl, rfl, rfl⟩, rfl, rfl⟩, rfl⟩

/-- The trigger of a note sounds, and then either is cut short by a fault or publishes. -/
theorem traced_note {b b' : Bench Studio} {r : Except Fault Unit} {serial : Nat} {t : Trigger}
    {s : Studio} {v : Float} {p : Act Unit} {u : Telling p} {ds : List Deed}
    (ht : t ≠ .finish) (fires : Fires b.part serial t s)
    (recorded : s.recorded = b.part.recorded) (audio : s.audio = b.part.audio)
    (hrest : ∀ {b₁ : Bench Studio} {es r}, u.Yields b₁ es r b' →
      ∃ b₂, Aside b₁.part b₂.part ∧ b₂.journal = b₁.journal ∧
        (b' = b₂ ∧ es = [] ∨ ∃ r', (publish hears t.event).Yields b₂ es r' b'))
    (hb : b.part.Orderly)
    (hp : (bind (quietly (sound (t.call v))) fun _ => u).Yields ⟨s, b.journal⟩ ds r b') :
    Traced b (.fired serial t :: .sounded (t.call v) :: ds) b' := by
  have heard {es : List Entry} (hes : es.filter Entry.audible = s.audio.heard (t.call v)) :
      (es.filter Entry.audible).reverse =
        [Deed.fired serial t, .sounded (t.call v)].flatMap (Deed.heard b.part) := by
    rw [hes, audio]
    cases hd : b.part.audio <;> simp [Deed.heard, Audio.heard, Audio.isTape, hd]
  have sounding (a : Audio) : SameRun s { s with audio := a } := ⟨rfl, rfl, rfl, rfl⟩
  rcases hp.bind_inv with ⟨_, b₁, _, es', ⟨h₁, rfl⟩, h₂, rfl⟩ | ⟨e, ⟨h₁, rfl⟩, -⟩
  · obtain ⟨a, es, rfl, tape, hes, _⟩ := sound_inv h₁
    obtain ⟨b₂, away, he, told⟩ := hrest h₂
    have same : SameRun s b₂.part := (sounding a).trans away.run
    have recorded₂ : b₂.part.recorded = b.part.recorded := away.recorded.trans recorded
    have tape₂ : b₂.part.audio.isTape = b.part.audio.isTape := by
      rw [away.audio, ← audio]
      exact tape
    rcases told with ⟨rfl, rfl⟩ | ⟨r', h₃⟩
    · exact .move (.play serial t v false ht fires same) recorded₂ tape₂ es he (heard hes)
    · exact traced_publish hh b b₂ (.play serial t v true ht fires same) recorded₂ tape₂ es
        he (heard hes) hb h₃
  · obtain ⟨a, es, rfl, tape, hes, _⟩ := sound_inv h₁
    exact .move (.play serial t v false ht fires (sounding a)) recorded
      (tape.trans (by rw [audio])) es rfl (heard hes)

/-- A timer of the run that has left the queue executes its trigger. -/
theorem traced_trigger {b b' : Bench Studio} {r : Except Fault Unit} {serial : Nat} {t : Trigger}
    {s : Studio} {ds : List Deed} (fires : Fires b.part serial t s)
    (recorded : s.recorded = b.part.recorded) (audio : s.audio = b.part.audio)
    (hb : b.part.Orderly)
    (hp : (trigger hears t).Yields ⟨s, b.journal⟩ ds r b') :
    Traced b (.fired serial t :: ds) b' := by
  cases t with
  | noteOn n =>
    obtain ⟨later, rfl, sounds⟩ := (hp.next (on_look _)).note_inv
    refine traced_note hh (t := .noteOn n) nofun fires recorded audio (fun {b₁ es r₁} h₁ => ?_) hb
      sounds
    rcases h₁.bind_inv with ⟨_, b₂, _, _, ⟨h₂, rfl⟩, h₃, rfl⟩ | ⟨e, ⟨h₂, rfl⟩, -⟩
    · exact ⟨b₂, (strike_inv h₂).1, (strike_inv h₂).2, .inr ⟨_, h₃⟩⟩
    · exact ⟨b', (strike_inv h₂).1, (strike_inv h₂).2, .inl ⟨rfl, rfl⟩⟩
  | noteOff n =>
    obtain ⟨later, rfl, sounds⟩ := hp.note_inv
    exact traced_note hh (t := .noteOff n) (v := 0) nofun fires recorded audio
      (fun {b₁ _ _} h₁ => ⟨b₁, .refl _, rfl, .inr ⟨_, h₁⟩⟩) hb sounds
  | finish =>
    let line : Entry := .log ⟨.debug, "playback reached the end"⟩
    obtain ⟨a, es, later, rfl, ends, tape, hes⟩ := stop_inv (hp.next (on_write line _))
    change (publishEnd hears s.transport.playing).Yields ⟨s.stopped a, es ++ line :: b.journal⟩ _ _
      _ at ends
    rw [List.append_cons] at ends
    rw [show (Bench.mk s (line :: b.journal)).part.audio = b.part.audio from audio] at tape hes
    have hm : Move b.part ([.fired serial .finish] ++ s.stopDeeds a) (s.stopped a) :=
      Move.finish serial a fires
    have silent : (es ++ [line]).filter Entry.audible = b.part.audio.heard .silence := by
      rw [List.filter_append, hes]
      exact List.append_nil _
    exact traced_stop hh hm recorded tape silent rfl hb ends

/-- A timer that has left the queue is passed over or fires. -/
theorem traced_fire {b b' : Bench Studio} {now : Float} {serial : Nat} {ts : Timers Task}
    {r : Except Fault Bool} {ds : List Deed}
    (due : b.part.timers.takeDue? now = some (serial, ts)) (hb : b.part.Orderly)
    (hp : (fire hears serial).Yields ⟨{ b.part with timers := ts }, b.journal⟩ ds r b') :
    Traced b ds b' := by
  have same : ts.get? serial = b.part.timers.get? serial :=
    Timers.get?_congr (Timers.takeDue?_inv due).1 serial
  have passes (dead : ∀ timer, b.part.timers.get? serial = some timer → timer.cancelled = true) :
      Traced b [] ⟨{ b.part with timers := ts }, b.journal⟩ :=
    .move (.pass now serial ts due dead) rfl rfl [] rfl rfl
  have hp := hp.next (on_look _)
  dsimp only at hp
  generalize hg : ts.get? serial = here at hp
  cases here with
  | none =>
    obtain ⟨hon, rfl⟩ := hp
    cases hon
    exact passes fun timer htimer => by rw [← same, hg] at htimer; cases htimer
  | some timer =>
    rcases hp.ite_inv with ⟨dead, ⟨hon, rfl⟩⟩ | ⟨alive, hp⟩
    · cases hon
      refine passes fun timer' htimer => ?_
      rw [← same, hg] at htimer
      cases htimer
      exact dead
    · obtain ⟨t, htask⟩ := hb.onlyPlayback timer (Array.mem_of_getElem? (same ▸ hg))
      have fires : Fires b.part serial t (taken serial { b.part with timers := ts }) :=
        ⟨⟨now, ts, due, rfl⟩, timer, same ▸ hg, by simpa using alive, htask⟩
      have hp := hp.next (on_change _ _)
      rw [htask] at hp
      have does {es : List Deed} {r₁ : Except Fault Unit}
          (h₁ : (runTask hears serial (.playback t)).Yields
            ⟨{ b.part with timers := ts.markFired serial }, b.journal⟩ es r₁ b') :
          Traced b es b' := by
        obtain ⟨later, rfl, fired⟩ := (h₁.next (on_changeTransport _ _)).note_inv
        exact traced_trigger hh fires rfl rfl hb fired
      rcases hp.bind_inv with ⟨_, b₁, es, fs, h₁, ⟨h₂, rfl⟩, rfl⟩ | ⟨e, h₁, -⟩
      · cases h₂
        rw [deeds_quietly, List.append_nil]
        exact does h₁
      · exact does h₁

theorem tracks_drain (now : Float) (n fired : Nat) : (drain hears now n fired).Tracks := by
  induction n generalizing fired with
  | zero => exact fun b ds r b' _ hp => by cases hp.on
  | succ n ih =>
    intro b ds r b' hb hp
    have hp := hp.next (on_look b)
    dsimp only at hp
    generalize hd : b.part.timers.takeDue? now = due at hp
    cases due with
    | none => exact tracks_pure fired hb hp
    | some q =>
      obtain ⟨serial, ts⟩ := q
      rcases (hp.next (on_change _ b)).bind_inv with
        ⟨did, b₁, es, fs, h₁, h₂, rfl⟩ | ⟨e, h₁, -⟩
      · have first := traced_fire hh hd hb h₁
        exact first.trans (ih _ (hb.course first.course) h₂)
      · exact traced_fire hh hd hb h₁

theorem tracks_pump (now : Option Float) : (pump hears now).Tracks :=
  (tracks_quietly (hereditary_aside.moment now)).bind fun _ => tracks_drain hh _ _ _

/-! ## Sessions -/

theorem tracks_play : (play hears).Tracks :=
  (tracks_quietly hereditary_aside.look).bind fun _ => (tracks_pure false).ite <|
    (tracks_quietly (hereditary_aside.discard hereditary_aside.allowsNeutral.shuffle)).bind fun _ =>
      (tracks_quietly (hereditary_aside.changeSession _)).bind fun _ => tracks_start hh _ _ _

/-- Whatever a session can be asked for takes the course that is told of it. -/
theorem tracks_carryOut {c : Command} (hc : c.ofSession = true) : (carryOut hears c).Tracks := by
  have look : (quietly Work.look).Tracks := tracks_quietly hereditary_aside.look
  have melody (m : Melody) : (quietly (readMelody m : Act (List Note))).Tracks :=
    tracks_quietly (hereditary_aside.readMelody m)
  have start (notes bpm extent) := tracks_start hh notes bpm extent
  have stop := tracks_stop hh
  have play := tracks_play hh
  have rest {α β : Type} {p : Act α} {t : Telling p} (ht : t.Tracks) (f : α → β) :
      (t.bind fun a => quietly (pure (f a))).Tracks := ht.bind fun _ => tracks_pure _
  cases c with
  | pump now => exact rest (tracks_pump hh now) _
  | tick now => exact rest (tracks_pump hh now) _
  | startPlayback m bpm extent => exact (melody m).bind fun _ => rest (start _ _ _) _
  | togglePlayback m bpm =>
    exact (melody m).bind fun _ =>
      rest (look.bind fun _ => stop.ite (rest (start _ _ _) _)) _
  | stopPlayback => exact rest stop _
  | stop => exact rest stop _
  | play => exact rest play _
  | playStop => exact rest (look.bind fun _ => stop.ite (rest play _)) _
  | replay => exact rest (stop.bind fun _ => play) _
  | render now =>
    refine rest ((rest (tracks_pump hh now) _).bind fun _ => tracks_quietly ?_) _
    refine hereditary_aside.bind (hereditary_aside.frame now) fun f => ?_
    cases f with
    | none => exact hereditary_aside.pure _
    | some f => exact hereditary_aside.bind (hereditary_aside.write _ rfl) fun _ =>
        hereditary_aside.pure _
  | _ => exact tracks_quietly (hereditary_aside.settled hc rfl)

end Listeners

end Telling

/-- What a callback of a session leads to is a course. -/
theorem Callback.tracks {α : Type} {p : Act α} (callback : Callback .sessions p) :
    callback.telling.Tracks := by
  induction callback with
  | act alters => exact Telling.tracks_quietly alters
  | bind _ _ ihp ihf => exact ihp.bind ihf
  | rescue _ _ ihp ihf => exact ihp.rescue ihf
  | look sees ih =>
    intro b ds r b' hb h
    have seen := h.next (on_look b)
    rw [dif_pos hb.coherent] at seen
    exact ih b.part hb.coherent hb seen
  | react r e => exact Telling.tracks_quietly (Telling.hereditary_aside.react r e)
  | publish _ _ _ may => exact may.elim
  | ask h hears _ c may ih => exact Telling.tracks_carryOut ih may

end PianoRoll.Studio
