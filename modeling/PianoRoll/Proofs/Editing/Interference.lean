import PianoRoll.Proofs.Editing.Alike
import PianoRoll.Proofs.Playback.Operations
import PianoRoll.Proofs.Playback.Segments

/-!
Edits do not interfere with a run. What a run needs was taken over when it began, so the same ticks
and frames show the same, and leave the same in the journal, whatever is edited in between
(`edits_do_not_interfere`). Only the window in view follows the edits at once.
-/

namespace PianoRoll

def Command.edits : Command → Bool
  | .setNotes _ | .setGhosts _ | .setScript _ | .loadSong _ | .setBpm _ => true
  | _ => false

/-- The commands that let time pass, look at it, or stop. -/
def Command.watches : Command → Bool
  | .advance _ | .tick _ | .frame _ | .stop => true
  | _ => false

def Answer.unviewed : Answer → Answer
  | .frame (some f) => .frame (some { f with viewStart := 0, viewEnd := 0 })
  | a => a

/-- What a step tells outside of the log. -/
def Step.tells (p : Step) : List Entry := unlogged p.entries

/-- What a step answers while a run is under way, but for the window in view. -/
def Step.sight (p : Step) : Option (Except Fault Answer) :=
  if p.studio.transport.playing then some (p.outcome.map Answer.unviewed) else none

/-- What is seen in the steps of some commands that are not edits. -/
def sights (cs : List Command) (steps : List Step) : List (Option (Except Fault Answer)) :=
  (cs.zip steps).filterMap fun (c, p) => if c.edits then none else some p.sight

namespace Studio

open Work

/-- What the commands of a session tell and show: the entries of the journal outside of the log, and
the answers of those that are not edits. -/
def account (h : Hooks) (cs : List Command) (s : Studio) :
    Option (List Entry × List (Option (Except Fault Answer))) :=
  (inTurn h cs s).map fun steps => (steps.flatMap Step.tells, sights cs steps)

/-- Edits come to an end and are not seen. -/
theorem unseen_carryOut (h : Hooks) {c : Command} (hc : c.edits = true) :
    Unseen (carryOut h c) := by
  cases c with
  | setNotes melody =>
    exact (unseen_readMelody melody).bind fun _ => (unseen_setNotes _).bind fun _ => unseen_pure _
  | setGhosts melody =>
    exact (unseen_readMelody melody).bind fun _ => (unseen_setGhosts _).bind fun _ => unseen_pure _
  | setScript text => exact (unseen_setScript text).bind fun _ => unseen_pure _
  | loadSong name => exact (unseen_loadSong name).bind fun _ => unseen_pure _
  | setBpm bpm => exact (unseen_setBpm bpm).bind fun _ => unseen_pure _
  | _ => cases hc

theorem frame_on (now : Option Float) (b : Bench Studio) :
    (frame now).on b = some (b.part.session.frame? b.part.transport b.part.settings
      (now.getD b.part.clock), b) := by
  unfold frame
  rw [on_bind_ok (on_look b), on_bind_ok (moment_on now b), on_orFail]

/-- While a run is under way its frame is the same on studios that are alike, but for the window in
view. -/
theorem frame?_alike {s₁ s₂ : Studio} (same : Alike s₁ s₂) (plays : s₁.transport.playing = true)
    (now : Float) :
    ((s₁.session.frame? s₁.transport s₁.settings now).map Answer.frame).map Answer.unviewed =
      ((s₂.session.frame? s₂.transport s₂.settings now).map Answer.frame).map Answer.unviewed := by
  have shown : s₁.session.shown s₁.transport = s₂.session.shown s₂.transport := by
    rw [Session.shown, Session.shown, if_pos plays, if_pos (same.transport ▸ plays),
      same.playedGhosts, same.transport]
  unfold Session.frame?
  rw [shown, same.transport, same.settings, same.monsters]
  rcases s₂.session.shown s₂.transport with ⟨notes, ghosts, extent⟩
  cases extent with
  | none => rfl
  | some extent =>
    cases s₂.transport.elapsedBeats s₂.settings.referenceBpm now with
    | ok beats => rfl
    | error e => rfl

/-- One step of a command that is no edit, on studios that are alike. -/
theorem carryOut_watches {h : Hooks} (hears : ∀ l e, Blind (h.hear l e))
    (runs : ∀ name program, Blind (h.run name program)) {c : Command} (hc : c.watches = true)
    (b₁ b₂ : Bench Studio) (hb : Twins b₁ b₂) :
    ((carryOut h c).on b₁ = none ∧ (carryOut h c).on b₂ = none) ∨
      ∃ r₁ r₂ b₁' b₂', (carryOut h c).on b₁ = some (r₁, b₁') ∧
        (carryOut h c).on b₂ = some (r₂, b₂') ∧ Twins b₁' b₂' ∧
        (b₁'.part.transport.playing = true →
          r₁.map Answer.unviewed = r₂.map Answer.unviewed) := by
  have of_blind (blind : Blind (carryOut h c)) :
      ((carryOut h c).on b₁ = none ∧ (carryOut h c).on b₂ = none) ∨
        ∃ r₁ r₂ b₁' b₂', (carryOut h c).on b₁ = some (r₁, b₁') ∧
          (carryOut h c).on b₂ = some (r₂, b₂') ∧ Twins b₁' b₂' ∧
          (b₁'.part.transport.playing = true →
            r₁.map Answer.unviewed = r₂.map Answer.unviewed) := by
    rcases blind hb with none | ⟨r, b₁', b₂', h₁, h₂, twins⟩
    · exact Or.inl none
    · exact Or.inr ⟨r, r, b₁', b₂', h₁, h₂, twins, fun _ => rfl⟩
  cases c with
  | advance seconds =>
    refine of_blind ((blind_change fun _ => by rfl).bind fun _ => ?_)
    refine together_look fun s₁ s₂ same => ?_
    rw [same.clock]
    exact blind_pure _
  | tick now => exact of_blind ((blind_pump hears runs now).bind fun _ => blind_pure _)
  | stop => exact of_blind ((blind_stopPlayback hears).bind fun _ => blind_pure _)
  | frame now =>
    have hon (b : Bench Studio) : (carryOut h (.frame now)).on b =
        some ((b.part.session.frame? b.part.transport b.part.settings
          (now.getD b.part.clock)).map Answer.frame, b) := by
      change (frame now >>= fun f => pure (Answer.frame f)).on b = _
      rw [on_bind, frame_on]
      cases b.part.session.frame? b.part.transport b.part.settings (now.getD b.part.clock) <;> rfl
    refine Or.inr ⟨_, _, b₁, b₂, hon b₁, hon b₂, hb, fun plays => ?_⟩
    rw [hb.part.clock]
    exact frame?_alike hb.part plays _
  | _ => cases hc

theorem account_cons (h : Hooks) (c : Command) (cs : List Command) (s : Studio) :
    account h (c :: cs) s = ((carryOut h c).on ⟨s, []⟩).bind fun x =>
      (account h cs x.2.part).map fun rest =>
        (unlogged x.2.journal.reverse ++ rest.1,
          if c.edits then rest.2
          else Step.sight ⟨x.1, x.2.part, x.2.journal.reverse⟩ :: rest.2) := by
  unfold account
  rw [inTurn, runAct]
  cases (carryOut h c).on ⟨s, []⟩ with
  | none => rfl
  | some x =>
    obtain ⟨r, b⟩ := x
    change ((inTurn h cs b.part).bind fun steps => some _).map _ =
      ((inTurn h cs b.part).map _).map _
    cases inTurn h cs b.part with
    | none => rfl
    | some steps =>
      cases hc : c.edits <;> simp [sights, hc, Step.tells]

theorem unlogged_reverse (es : List Entry) : unlogged es.reverse = (unlogged es).reverse :=
  List.filter_reverse

/-- What is told and shown is what is told and shown without the edits. -/
theorem account_without_edits {h : Hooks} (hears : ∀ l e, Blind (h.hear l e))
    (runs : ∀ name program, Blind (h.run name program)) {cs : List Command}
    (hcs : ∀ c ∈ cs, c.edits = true ∨ c.watches = true) {s₁ s₂ : Studio} (same : Alike s₁ s₂) :
    account h cs s₁ = account h (cs.filter fun c => !c.edits) s₂ := by
  induction cs generalizing s₁ s₂ with
  | nil => rfl
  | cons c cs ih =>
    have hrest : ∀ c ∈ cs, c.edits = true ∨ c.watches = true :=
      fun c hc => hcs c (List.mem_cons_of_mem _ hc)
    rw [account_cons]
    cases hc : c.edits with
    | true =>
      obtain ⟨r, b, hon, twins⟩ := unseen_carryOut h hc ⟨s₁, []⟩
      have quiet : unlogged b.journal.reverse = [] := by
        rw [unlogged_reverse, ← twins.journal]
        rfl
      rw [hon, List.filter_cons_of_neg (by simp [hc])]
      simp only [Option.bind_some]
      rw [ih hrest (twins.part.symm.trans same), quiet]
      simp
    | false =>
      have watches := (hcs c List.mem_cons_self).resolve_left (by simp [hc])
      rw [List.filter_cons_of_pos (by simp [hc]), account_cons]
      obtain ⟨h₁, h₂⟩ | ⟨r₁, r₂, b₁, b₂, h₁, h₂, twins, answers⟩ :=
        carryOut_watches hears runs watches ⟨s₁, []⟩ ⟨s₂, []⟩ ⟨same, rfl⟩
      · rw [h₁, h₂]
        rfl
      · have told : unlogged b₁.journal.reverse = unlogged b₂.journal.reverse := by
          rw [unlogged_reverse, unlogged_reverse, twins.journal]
        have seen : Step.sight ⟨r₁, b₁.part, b₁.journal.reverse⟩ =
            Step.sight ⟨r₂, b₂.part, b₂.journal.reverse⟩ := by
          unfold Step.sight
          rw [← twins.part.transport]
          split
          · next plays => rw [answers plays]
          · rfl
        rw [h₁, h₂]
        simp only [Option.bind_some]
        rw [ih hrest twins.part, told, seen, hc]

/-! The desk of the program does not see edits, though it makes some itself. -/

theorem blind_changeDesk (f : Desk → Desk) : Blind (changeDesk f) := blind_change fun _ => rfl

theorem blind_react (r : Reaction) (e : Event) : Blind (react r e) := by
  unfold react
  split
  · exact blind_changeDesk _
  · exact blind_changeDesk _
  · exact blind_change fun _ => rfl
  · exact blind_changeDesk _
  · next text =>
    have check : Blind (checkScript text) := by
      refine (blind_forM (fun _ => blind_write _) _).bind fun _ => ?_
      split <;> exact blind_pure _
    exact check.bind fun _ => (blind_changeDesk _).bind fun _ => blind_change fun _ => rfl
  · exact blind_pure _

theorem blind_deskHooks_hear (s : Studio) (l : Listener) (e : Event) :
    Blind ((deskHooks s).hear l e) := by
  cases l with
  | scripted name => exact blind_pure _
  | desk r => exact blind_react r e

end Studio

open Studio

/-- Two sessions that go on from the same studio with the same ticks and frames tell and show the
same while a run is under way, whatever each of them edits in between: they make the same sounds,
publish the same events, and see the same frames, but for the window in view. -/
theorem edits_do_not_interfere {h : Hooks} (hears : ∀ l e, Blind (h.hear l e))
    (runs : ∀ name program, Blind (h.run name program)) {cs₁ cs₂ : List Command}
    (hcs₁ : ∀ c ∈ cs₁, c.edits = true ∨ c.watches = true)
    (hcs₂ : ∀ c ∈ cs₂, c.edits = true ∨ c.watches = true)
    (rest : (cs₁.filter fun c => !c.edits) = cs₂.filter fun c => !c.edits) (s : Studio) :
    account h cs₁ s = account h cs₂ s := by
  rw [account_without_edits hears runs hcs₁ (.refl s), rest,
    ← account_without_edits hears runs hcs₂ (.refl s)]

/-- A studio that has just begun to play a note to a ghost note, and lights its keys. -/
def lit : Studio :=
  let s : Studio :=
    { bus := [("note_on", .desk .light), ("note_off", .desk .unlight)]
      recorded := ["note_on", "note_off", "transport"]
      session := { playedGhosts := [⟨64, "E4", 0, 1⟩] } }
  s.begun [⟨60, "C4", 0, 1⟩] 120 none

/-- The note to its end, with a look at it in between. -/
def untouched : List Command :=
  [.tick (some 100.6), .frame (some 100.7), .tick (some 103)]

/-- The same with edits of everything that can be edited. -/
def touched : List Command :=
  [.setBpm (.whole 60), .setNotes (.notes []), .tick (some 100.6), .setScript "E4 1",
    .loadSong (some "Nobody's"), .frame (some 100.7), .setGhosts (.notes []), .tick (some 103)]

theorem edits_do_not_interfere_lit : ∃ told,
    account (deskHooks lit) untouched lit = some told ∧
      account (deskHooks lit) touched lit = some told := by
  have ends : (account (deskHooks lit) untouched lit).isSome = true := by decide +kernel
  obtain ⟨told, h⟩ := Option.isSome_iff_exists.1 ends
  refine ⟨told, h, ?_⟩
  rw [← h]
  exact edits_do_not_interfere (blind_deskHooks_hear lit) (fun _ _ => blind_pure _)
    (by decide : ∀ c ∈ touched, c.edits = true ∨ c.watches = true)
    (by decide : ∀ c ∈ untouched, c.edits = true ∨ c.watches = true) rfl lit

end PianoRoll
