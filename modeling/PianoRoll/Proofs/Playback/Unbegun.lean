import PianoRoll.Proofs.Bus.Delivery
import PianoRoll.Proofs.Playback.Course
import PianoRoll.Proofs.Playback.Operations

/-!
Runs that do not begin. Who asks for a run while one is under way, or for a run of no notes, is
refused, and nothing has happened. A run without a tempo fails when what it was to play has been
taken over: no timer was set or called off and the studio is still at rest, and a run that begins
later does not know of it (`unbegun_spares_run`).
-/

namespace PianoRoll.Studio

open Work

/-- A studio whose session is about to play: the monsters are in the next order, and the ghost
melody is that of the run. -/
def readied (s : Studio) : Studio :=
  { s with
    shuffles := s.shuffles.tail
    session := { s.session with
      monsters := match s.shuffles with
        | [] => monsterNames
        | order :: _ => reorder order monsterNames
      playedGhosts := s.session.ghosts } }

theorem play_on_refused (h : Hooks) {b : Bench Studio}
    (hb : (b.part.transport.playing || b.part.session.notes.isEmpty) = true) :
    (play h).on b = some (.ok false, b) := by
  unfold play
  rw [on_bind_ok (on_look b), if_pos hb]
  rfl

/-- A session gets ready and then begins a run. -/
theorem play_on (h : Hooks) {b : Bench Studio}
    (hb : (b.part.transport.playing || b.part.session.notes.isEmpty) = false) :
    (play h).on b = (startPlayback h b.part.session.notes (some b.part.session.bpm)
      (Extent.of? (b.part.session.notes ++ b.part.session.ghosts))).on
        ⟨b.part.readied, b.journal⟩ := by
  unfold play
  rw [on_bind_ok (on_look b), if_neg (by rw [hb]; exact Bool.false_ne_true)]
  rfl

/-- How it ends to ask for a run when none comes of it. -/
inductive Unbegun (notes : List Note) (tempo : Float) (takes : Studio → Studio)
    (b : Bench Studio) : Except Fault Bool → Bench Studio → Prop
  /-- It is refused, and nothing has happened. -/
  | refused (idle : b.part.transport.playing = true ∨ notes = []) :
    Unbegun notes tempo takes b (.ok false) b
  /-- It fails for want of a tempo, when this much has been taken over. -/
  | failed (rests : b.part.transport.playing = false) (some : notes ≠ [])
      (still : (tempo == 0) = true) :
    Unbegun notes tempo takes b (.error .realDivision) ⟨takes b.part, b.journal⟩

section

variable {h : Hooks} {b b' : Bench Studio} {r : Except Fault Bool} {notes : List Note}
  {tempo : Float} {takes : Studio → Studio}

/-- Where there is a tempo, nothing happens unless a run begins. -/
theorem Unbegun.unchanged (u : Unbegun notes tempo takes b r b') (ht : (tempo == 0) = false) :
    r = .ok false ∧ b' = b := by
  cases u with
  | refused => exact ⟨rfl, rfl⟩
  | failed _ _ still => exact absurd (ht.symm.trans still) Bool.false_ne_true

theorem Unbegun.sameRun (u : Unbegun notes tempo takes b r b')
    (spares : ∀ s, SameRun s (takes s)) : SameRun b.part b'.part ∧ b'.journal = b.journal := by
  cases u with
  | refused => exact ⟨.refl _, rfl⟩
  | failed => exact ⟨spares _, rfl⟩

theorem idle_iff : (b.part.transport.playing || notes.isEmpty) = true ↔
    b.part.transport.playing = true ∨ notes = [] := by
  rw [Bool.or_eq_true, List.isEmpty_iff]

/-- Unless it is refused or fails, a run begins, since publishing does not fail. -/
theorem startPlayback_unbegun {bpm : Option Float} {extent : Option Extent}
    (hon : (startPlayback h notes bpm extent).on b = some (r, b')) (none : r ≠ .ok true) :
    Unbegun notes (orTempo bpm b.part.settings.tempo)
      (prepared notes (orTempo bpm b.part.settings.tempo) extent) b r b' := by
  cases idle : b.part.transport.playing || notes.isEmpty with
  | true =>
    rw [startPlayback_on_refused h bpm extent idle] at hon
    cases hon
    exact .refused (idle_iff.1 idle)
  | false =>
    cases ht : orTempo bpm b.part.settings.tempo == 0 with
    | true =>
      rw [startPlayback_on_fault h extent idle ht] at hon
      cases hon
      have busy := mt idle_iff.2 (by rw [idle]; exact Bool.false_ne_true)
      rw [not_or, Bool.not_eq_true] at busy
      exact .failed busy.1 busy.2 ht
    | false =>
      -- all that is left to be done is to publish
      rw [startPlayback_on h extent idle ht] at hon
      rcases on_bind_inv hon with ⟨_, b₁, _, done⟩ | ⟨f, told, -⟩
      · cases done
        exact absurd rfl none
      · cases (publish_on_iff.1 told).1

theorem play_unbegun (hon : (play h).on b = some (r, b')) (none : r ≠ .ok true) :
    Unbegun b.part.session.notes (orTempo (some b.part.session.bpm) b.part.settings.tempo)
      (fun s => s.readied.prepared b.part.session.notes
        (orTempo (some b.part.session.bpm) b.part.settings.tempo)
        (Extent.of? (b.part.session.notes ++ b.part.session.ghosts))) b r b' := by
  cases idle : b.part.transport.playing || b.part.session.notes.isEmpty with
  | true =>
    rw [play_on_refused h idle] at hon
    cases hon
    exact .refused (idle_iff.1 idle)
  | false =>
    rw [play_on h idle] at hon
    cases startPlayback_unbegun hon none with
    | refused again => exact absurd (idle.symm.trans (idle_iff.2 again)) Bool.false_ne_true
    | failed rests some still => exact .failed rests some still

/-- A run that begins takes everything over anew. -/
theorem startPlayback_on_prepared (h : Hooks) {notes' : List Note} {bpm' : Option Float}
    (bpm : Float) (extent extent' : Option Extent) {b : Bench Studio}
    (hb : (b.part.transport.playing || notes'.isEmpty) = false)
    (ht : (orTempo bpm' b.part.settings.tempo == 0) = false) :
    (startPlayback h notes' bpm' extent').on ⟨b.part.prepared notes bpm extent, b.journal⟩ =
      (startPlayback h notes' bpm' extent').on b := by
  rw [startPlayback_on h extent' hb ht]
  exact startPlayback_on h extent' hb ht

end

/-- When no run begins, the transport asked for one stays as it was, and so does the session, if
there is a tempo. Without one they have taken over what was to be played, but neither playing nor
its start, neither the timers of a run nor the queue have changed, and a run that begins after it
is the same as it would have been before. -/
theorem unbegun_spares_run (h : Hooks) (b : Bench Studio) :
    (∀ notes bpm extent r b', (startPlayback h notes bpm extent).on b = some (r, b') →
      r ≠ .ok true →
      ((orTempo bpm b.part.settings.tempo == 0) = false → r = .ok false ∧ b' = b) ∧
      Unbegun notes (orTempo bpm b.part.settings.tempo)
        (prepared notes (orTempo bpm b.part.settings.tempo) extent) b r b' ∧
      (SameRun b.part b'.part ∧ b'.journal = b.journal) ∧
      ∀ notes' bpm' extent', notes' ≠ [] → (orTempo bpm' b.part.settings.tempo == 0) = false →
        (startPlayback h notes' bpm' extent').on b' =
          (startPlayback h notes' bpm' extent').on b) ∧
    ∀ r b', (play h).on b = some (r, b') → r ≠ .ok true →
      ((orTempo (some b.part.session.bpm) b.part.settings.tempo == 0) = false →
        r = .ok false ∧ b' = b) ∧
      Unbegun b.part.session.notes (orTempo (some b.part.session.bpm) b.part.settings.tempo)
        (fun s => s.readied.prepared b.part.session.notes
          (orTempo (some b.part.session.bpm) b.part.settings.tempo)
          (Extent.of? (b.part.session.notes ++ b.part.session.ghosts))) b r b' ∧
      SameRun b.part b'.part ∧ b'.journal = b.journal := by
  constructor
  · intro notes bpm extent r b' hon none
    have u := startPlayback_unbegun hon none
    refine ⟨u.unchanged, u, u.sameRun fun s => ⟨rfl, rfl, rfl, rfl⟩, ?_⟩
    intro notes' bpm' extent' some' ht
    cases u with
    | refused => rfl
    | failed rests _ _ =>
      refine startPlayback_on_prepared h _ _ _ ?_ ht
      rw [rests, Bool.false_or, List.isEmpty_eq_false_iff]
      exact some'
  · intro r b' hon none
    have u := play_unbegun hon none
    exact ⟨u.unchanged, u, u.sameRun fun s => ⟨rfl, rfl, rfl, rfl⟩⟩

/-- A studio without a tempo that has a note to play and monsters to put into order. -/
def still : Studio :=
  { settings := { bpm := .value 0 }
    transport := { bpm := 0 }
    session := { bpm := 0 : Session }.setNotes [⟨60, "C4", 0, 1⟩]
    shuffles := [[1, 0, 2, 3, 4, 5, 6, 7]] }

theorem unbegun_spares_run_still :
    ∃ b' b'', (startPlayback (deskHooks still) still.session.notes none none).on ⟨still, []⟩ =
        some (.error .realDivision, b') ∧ SameRun still b'.part ∧
      (startPlayback (deskHooks still) still.session.notes (some 120) none).on b' =
        (startPlayback (deskHooks still) still.session.notes (some 120) none).on ⟨still, []⟩ ∧
      (play (deskHooks still)).on ⟨still, []⟩ = some (.error .realDivision, b'') ∧
      SameRun still b''.part := by
  have noTempo : (orTempo none still.settings.tempo == 0) = true := by decide +kernel
  have noOther : (orTempo (some still.session.bpm) still.settings.tempo == 0) = true := by
    decide +kernel
  have tempo : (orTempo (some 120) still.settings.tempo == 0) = false := by decide +kernel
  have hon : (startPlayback (deskHooks still) still.session.notes none none).on ⟨still, []⟩ = _ :=
    startPlayback_on_fault _ none rfl noTempo
  have hplay : (play (deskHooks still)).on ⟨still, []⟩ = _ :=
    (play_on _ rfl).trans (startPlayback_on_fault _ _ rfl noOther)
  have ⟨atOnce, ofSession⟩ := unbegun_spares_run (deskHooks still) ⟨still, []⟩
  obtain ⟨-, -, same, later⟩ := atOnce _ _ _ _ _ hon (by simp)
  obtain ⟨-, -, same', -⟩ := ofSession _ _ hplay (by simp)
  exact ⟨_, _, hon, same.1, later _ _ _ (List.cons_ne_nil _ _) tempo, hplay,
    same'⟩

/-- Without a tempo the notes and the order of the monsters are taken over by a run that does not
begin; and a run that fails to begin takes the tempo away with which a frame could be shown. -/
theorem unbegun_takes_over :
    (inTurn (deskHooks still) [.countTimers, .play] still).map
        (·.map fun step => (match step.outcome with
          | .ok _ => none
          | .error f => some f, step.studio.transport.notes.length,
            step.studio.transport.extent.isSome, step.studio.session.monsters)) =
      some [(none, 0, false, monsterNames),
        (some .realDivision, 1, true, "bat" :: "slime" :: monsterNames.drop 2)] ∧
    (inTurn (deskHooks still) [.setBpm (.number 120), .play, .stop, .frame none,
        .startPlayback (.script "C") none none, .frame none] still).map
        (·.map fun step => match step.outcome with
          | .ok _ => none
          | .error f => some f) =
      some [none, none, none, none, some .realDivision, some .realDivision] := by
  constructor <;> decide +kernel

end PianoRoll.Studio
