import PianoRoll.Program
import PianoRoll.Proofs.Editor.Caret
import PianoRoll.Proofs.Hereditary

/-!
What the program does, put together. It serves its buttons and keys by playing, by telling of the
inputs, and by sounds (`Serves`, `Handles`), and does the rest by neutral changes. So a property of
acts that these have is one of all that the program does. One such property is that a studio and
what becomes of it are related by a relation that neutral changes respect (`RespectsNeutral`); when
all changes respect it that are apart from the script and the held keys (`RespectsApart`), then so
do sounds and events (`AllowsApart`).
-/

namespace PianoRoll

namespace Studio

open Work

/-- What buttons ask for besides neutral changes has a property. -/
structure Serves (P : {α : Type} → Act α → Prop) (h : Hooks) : Prop
    extends Plays P h, Attends P h where
  waveform (name : String) : P (sound (.waveform name))
  volume (value : Float) : P (sound (.volume value))

/-- What buttons and keys ask for besides neutral changes has a property. -/
structure Handles (P : {α : Type} → Act α → Prop) (h : Hooks) : Prop extends Serves P h where
  press (pitch : Int) (velocity : Option Float) : P (press h pitch velocity)
  release (pitch : Int) : P (release h pitch)

/-! ## Buttons and keys -/

namespace AllowsNeutral

variable {P : {α : Type} → Act α → Prop} (hP : AllowsNeutral P) {α : Type}
include hP

theorem initialScript (disk : Program.Disk) (path : Option String) :
    P (Program.initialScript disk path) := by
  cases path with
  | none => exact hP.pure _
  | some path =>
    refine hP.ite (hP.pure _) ?_
    split
    · exact hP.bind (hP.discard (hP.orFail _)) fun _ =>
        hP.bind (hP.changeDesk _ fun _ => ⟨rfl, rfl⟩) fun _ => hP.pure _
    · exact hP.fail _
    · split
      · exact hP.pure _
      · exact hP.fail _

theorem nextSong : P Program.nextSong :=
  hP.bind hP.look fun _ => hP.bind (hP.changeDesk _ fun _ => ⟨rfl, rfl⟩) fun _ =>
    hP.bind (hP.loadSong _) fun _ => hP.changeDesk _ fun _ => ⟨rfl, rfl⟩

theorem synthState : P Program.synthState := by
  refine hP.bind hP.look fun b => ?_
  split
  · exact hP.pure _
  · exact hP.pure _

theorem moveBpm (step : Float) : P (Program.moveBpm step) :=
  hP.bind hP.look fun _ => hP.discard (hP.setBpm _)

section Serving

variable (serves : ∀ s, Serves P (deskHooks s))
include serves

theorem moveVolume (step : Float) : P (Program.moveVolume step) :=
  hP.bind hP.synthState fun _ => (serves {}).volume _

theorem playOrStop : P Program.playOrStop := by
  refine hP.bind hP.look fun b => ?_
  have plays : P (Studio.playStop (deskHooks b)) := hP.playStop (serves b).toPlays
  split
  · exact hP.ite (hP.bind (hP.fail _) fun _ => plays) plays
  · exact plays

theorem pressButton (label : String) : P (Program.pressButton label) := by
  have answers {p : Act Unit} (hp : P p) :
      P (do
        p
        return label != "QUIT") := hP.bind hp fun _ => hP.pure _
  refine hP.bind hP.look fun b => ?_
  split
  · exact answers (hP.playOrStop serves)
  · exact answers (hP.discard (hP.replay (serves b).toPlays))
  · exact answers hP.nextSong
  · exact hP.bind hP.synthState fun _ => answers ((serves b).waveform _)
  · exact answers (hP.moveVolume serves _)
  · exact answers (hP.moveVolume serves _)
  · exact answers (hP.moveBpm _)
  · exact answers (hP.moveBpm _)
  · exact hP.bind hP.look fun _ => answers (hP.discard (hP.connect (serves b).toAttends _))
  · exact answers (hP.pure ())

end Serving

section Handling

variable (handles : ∀ s, Handles P (deskHooks s))
include handles

theorem click (x y : Int) : P (Program.click x y) := by
  refine hP.bind hP.look fun b => ?_
  dsimp only
  split
  · exact hP.pressButton (fun s => (handles s).toServes) _
  · refine hP.bind (hP.orFail _) fun pitch => ?_
    cases pitch with
    | none => exact hP.pure _
    | some pitch =>
      exact hP.bind hP.look fun b => hP.bind ((handles b).press _ _) fun _ => hP.pure _

theorem playInput (i : Input) : P (Program.play i) := by
  have done {p : Act Unit} (hp : P p) :
      P (do
        p
        return true) := hP.bind hp fun _ => hP.pure _
  refine hP.bind hP.look fun b => ?_
  split
  · exact done (hP.playOrStop fun s => (handles s).toServes)
  · split
    · exact done ((handles b).press _ _)
    · exact hP.pure _
  · split
    · exact done ((handles b).release _)
    · exact hP.pure _
  · exact hP.click handles _ _
  · exact done (hP.releaseAll (handles b).release)
  · exact hP.pure _

end Handling

end AllowsNeutral

/-- A property of acts that passes from the pieces of an act to the whole, and that all acts have
which are apart from the script and the held keys. -/
structure AllowsApart (P : {α : Type} → Act α → Prop) : Prop extends Compositional P where
  tell (e : Event) : P (Work.write (.event e))
  sound (c : SoundCall) : P (sound c)
  apart (f : Studio → Studio) (h : ∀ s, Apart s (f s)) : P (change f)

namespace AllowsApart

variable {P : {α : Type} → Act α → Prop} (hP : AllowsApart P) {α : Type} (s : Studio)
include hP

theorem allowsNeutral : AllowsNeutral P where
  toCompositional := hP.toCompositional
  neutral f h := hP.apart f fun s => (h s).toApart

theorem performs : Performs P (deskHooks s) where
  sound := hP.sound
  publish e he := hP.publish (hP.tell e) fun l => by
    cases l with
    | desk r =>
      exact hP.allowsNeutral.react
        (fun _ => hP.apart _ fun _ => ⟨rfl, rfl, rfl, rfl, rfl, rfl, id⟩) r he
    | scripted name => exact hP.pure _

/-! ## Playing -/

theorem changeTransport (f : Transport → Transport) : P (changeTransport f) :=
  hP.apart _ fun _ => ⟨rfl, rfl, rfl, rfl, rfl, rfl, id⟩

theorem changeTimers (f : Studio → Timers Task) : P (change fun s => { s with timers := f s }) :=
  hP.apart _ fun _ => ⟨rfl, rfl, rfl, rfl, rfl, rfl, id⟩

theorem schedule (moment : Float) (task : Task) : P (schedule moment task) :=
  hP.bind hP.look fun _ => hP.bind (hP.changeTimers _) fun _ => hP.pure _

theorem scheduleAll (start : Float) (plan : List (Float × Trigger)) :
    P (scheduleAll start plan) := by
  induction plan with
  | nil => exact hP.pure _
  | cons m plan ih =>
    refine hP.bind (hP.bind hP.look fun _ => hP.bind (hP.orFail _) fun _ => hP.schedule _ _)
      fun _ => hP.bind ih fun _ => hP.pure _

theorem plays : Plays P (deskHooks s) where
  start _ _ _ _ :=
    hP.bind hP.look fun _ => hP.ite (hP.pure _) <| hP.bind (hP.changeTransport _) fun _ =>
      hP.bind (hP.scheduleAll _ _) fun _ => hP.bind (hP.changeTransport _) fun _ =>
        hP.bind (hP.log _ _) fun _ =>
          hP.bind ((hP.performs s).publish (.transport true) nofun) fun _ => hP.pure _
  stop :=
    hP.bind hP.look fun _ => hP.bind (hP.changeTimers _) fun _ =>
      hP.bind (hP.changeTransport _) fun _ => hP.bind (hP.sound _) fun _ =>
        hP.bind (hP.changeTransport _) fun _ => hP.ite
          (hP.bind (hP.log _ _) fun _ => (hP.performs s).publish (.transport false) nofun)
          (hP.pure _)

theorem runTask (serial : Nat) (t : Task) : P (runTask (deskHooks s) serial t) := by
  cases t with
  | playback t =>
    refine hP.bind (hP.changeTransport _) fun _ => ?_
    by_cases ht : t = .finish
    · subst ht
      exact hP.bind (hP.log _ _) fun _ => (hP.plays s).stop
    · exact hP.allowsNeutral.note (hP.performs s) ht
  | program name commands => exact hP.pure _

theorem fire (serial : Nat) : P (fire (deskHooks s) serial) := by
  refine hP.bind hP.look fun b => ?_
  split
  · exact hP.pure _
  · exact hP.ite (hP.pure _) <| hP.bind (hP.changeTimers _) fun _ =>
      hP.bind (hP.runTask s _ _) fun _ => hP.pure _

/-- Pumping has the property if giving up has it. -/
theorem pump (gives : ∀ α, P (unfinished : Act α)) (now : Option Float) :
    P (pump (deskHooks s) now) := by
  refine hP.bind (hP.moment now) fun moment => ?_
  generalize (deskHooks s).patience = n
  have drains (fired : Nat) : P (drain (deskHooks s) moment n fired) := by
    induction n generalizing fired with
    | zero => exact gives _
    | succ n ih =>
      refine hP.bind hP.look fun b => ?_
      split
      · exact hP.pure _
      · exact hP.bind (hP.changeTimers _) fun _ => hP.bind (hP.fire s _) fun _ => ih _
  exact drains 0

theorem serves : Serves P (deskHooks s) where
  toPlays := hP.plays s
  toAttends := hP.allowsNeutral.attends (hP.performs s)
  waveform _ := hP.sound _
  volume _ := hP.sound _

theorem handles (holds : ∀ f : Studio → PitchSet, P (change fun s => { s with held := f s })) :
    Handles P (deskHooks s) where
  toServes := hP.serves s
  press _ _ := hP.allowsNeutral.press (hP.performs s) holds _ _
  release _ := hP.allowsNeutral.release (hP.performs s) holds _

theorem close (releases : ∀ s, P (releaseAll (deskHooks s))) : P Program.close :=
  hP.bind hP.look fun b => hP.bind (hP.plays b).stop fun _ => hP.bind hP.look fun b =>
    hP.bind (releases b) fun _ => hP.bind hP.allowsNeutral.closeInputs fun _ =>
      hP.bind (hP.sound _) fun _ => hP.log _ _

end AllowsApart

/-! ## Relations between a studio and what becomes of it -/

/-- A relation that can be followed from act to act, and that neutral changes respect. -/
structure RespectsNeutral (R : Studio → Studio → Prop) : Prop where
  neutral {s s' : Studio} : Neutral s s' → R s s'
  trans {s s' s'' : Studio} : R s s' → R s' s'' → R s s''

/-- A relation that can be followed from act to act, and that all changes respect which are apart
from the script and the held keys. -/
structure RespectsApart (R : Studio → Studio → Prop) : Prop where
  apart {s s' : Studio} : Apart s s' → R s s'
  trans {s s' s'' : Studio} : R s s' → R s' s'' → R s s''

theorem respectsNeutral_of_kept {I : Studio → Prop}
    (neutral : ∀ {s s'}, Neutral s s' → I s → I s') : RespectsNeutral fun s s' => I s → I s' where
  neutral := neutral
  trans h h' hs := h' (h hs)

theorem Neutral.refl (s : Studio) : Neutral s s :=
  ⟨⟨.refl s, rfl, rfl⟩, .refl s, rfl, rfl⟩

section

variable {R : Studio → Studio → Prop}

/-- The desk hears an event, and does with it what any reaction may do. -/
theorem leads_hear (desk : Studio) {e : Event} (hR : Chains R)
    (reacts : ∀ r, Leads R (react r e)) (l : Listener) : Leads R ((deskHooks desk).hear l e) := by
  cases l with
  | scripted name => exact hR.pure _
  | desk r => exact reacts r

theorem leads_publish (desk : Studio) {e : Event} (hR : Chains R)
    (reacts : ∀ r, Leads R (react r e)) : Leads R (publish (deskHooks desk) e) :=
  (compositional_leads hR).publish (hR.write _) (leads_hear desk hR reacts)

theorem RespectsNeutral.chains (hR : RespectsNeutral R) : Chains R :=
  ⟨fun s => hR.neutral (.refl s), hR.trans⟩

theorem RespectsNeutral.allowsNeutral (hR : RespectsNeutral R) : AllowsNeutral (Leads R) where
  toCompositional := compositional_leads hR.chains
  neutral f h := leads_change f fun s => hR.neutral (h s)

theorem RespectsApart.respectsNeutral (hR : RespectsApart R) : RespectsNeutral R :=
  ⟨fun h => hR.apart h.toApart, hR.trans⟩

theorem RespectsApart.allowsApart (hR : RespectsApart R) : AllowsApart (Leads R) where
  toCompositional := hR.respectsNeutral.allowsNeutral.toCompositional
  tell _ := hR.respectsNeutral.chains.write _
  sound c := fun b r b' h => by
    obtain ⟨a, es, rfl, -⟩ := sound_inv h
    exact hR.apart ⟨rfl, rfl, rfl, rfl, rfl, rfl, id⟩
  apart f h := leads_change f fun s => hR.apart (h s)

end

end Studio

namespace Program

open Work Studio

/-- A relation that can be followed through what the program does by itself and for its buttons. -/
structure Served (R : Studio → Studio → Prop) : Prop extends RespectsNeutral R where
  serves (s : Studio) : Serves (Leads R) (deskHooks s)
  pump (s : Studio) (now : Option Float) : Leads R (pump (deskHooks s) now)

/-- A relation that can be followed through all that the program does before it is closed. -/
structure Handled (R : Studio → Studio → Prop) : Prop extends RespectsNeutral R where
  handles (s : Studio) : Handles (Leads R) (deskHooks s)
  pump (s : Studio) (now : Option Float) : Leads R (pump (deskHooks s) now)
  offer (i : Input) : Leads R (offer i)

section

variable {R : Studio → Studio → Prop}

theorem Handled.served (hR : Handled R) : Served R :=
  { hR with serves := fun s => (hR.handles s).toServes }

theorem served_of_respectsApart (hR : RespectsApart R) : Served R :=
  { hR.respectsNeutral with
    serves := hR.allowsApart.serves
    pump := fun s => hR.allowsApart.pump s fun _ => leads_giveUp }

theorem handled_of_respectsApart (hR : RespectsApart R) (offers : ∀ i, Leads R (offer i))
    (holds : ∀ f : Studio → PitchSet, Leads R (change fun s => { s with held := f s })) :
    Handled R :=
  { hR.respectsNeutral with
    handles := fun s => hR.allowsApart.handles s holds
    pump := fun s => hR.allowsApart.pump s fun _ => leads_giveUp
    offer := offers }

end

/-! ## Drawing -/

section Drawing

variable {R : Studio → Studio → Prop}

/-- Drawing with the renderer changes the renderer alone. -/
theorem leads_drawing (hR : RespectsNeutral R) {α : Type} (p : Work Renderer α) :
    Leads R (drawing p) := by
  intro b r b' h
  rw [drawing, on_within] at h
  obtain ⟨⟨r₁, b₁⟩, -, h₂⟩ := Option.map_eq_some_iff.1 h
  cases h₂
  exact hR.neutral
    ⟨⟨⟨rfl, rfl, rfl, rfl⟩, rfl, rfl⟩, ⟨rfl, rfl, rfl, rfl, rfl, rfl, id⟩, rfl, rfl⟩

theorem leads_statusLine (hR : RespectsNeutral R) : Leads R statusLine := by
  have hP := hR.allowsNeutral
  refine hP.bind hP.look fun b => hP.bind (hP.bind hP.look fun b => ?_) fun _ =>
    hP.bind hP.synthState fun _ => hP.bind (hP.orFail _) fun _ => hP.pure _
  split
  · exact hP.fail _
  · exact hP.pure _

theorem leads_drawStatus (hR : RespectsNeutral R) (seconds : Float) :
    Leads R (drawStatus seconds) :=
  have hP := hR.allowsNeutral
  hP.bind (leads_statusLine hR) fun _ => hP.bind hP.look fun _ =>
    hP.bind (hP.changeDesk _ fun _ => ⟨rfl, rfl⟩) fun _ => leads_drawing hR _

/-- Drawing the editor brings its caret into view, and does not touch its text. -/
theorem leads_drawEditor (hR : RespectsNeutral R) : Leads R drawEditor := by
  have hP := hR.allowsNeutral
  intro b r b' h
  rw [drawEditor, on_bind_ok (on_look b), Editor.drawn] at h
  obtain ⟨scroll, scrolled⟩ := b.part.desk.editor.scrollToCaret_eq
  cases ha : b.part.desk.editor.area? with
  | error e =>
    rw [ha] at h
    cases h
    exact hR.chains.refl _
  | ok area =>
    rw [ha, scrolled] at h
    rcases on_bind_inv h with ⟨_, b₁, h₁, h₂⟩ | ⟨e, h₁, -⟩
    · cases h₁
      rcases on_bind_inv h₂ with ⟨_, b₂, h₂, h₃⟩ | ⟨e, h₂, -⟩
      · cases h₂
        refine hR.trans (hR.neutral ?_) (hP.forM (fun s => hP.write (.drawn s) rfl) _ h₃)
        exact ⟨⟨⟨rfl, rfl, rfl, rfl⟩, rfl, rfl⟩, ⟨rfl, rfl, rfl, rfl, rfl, rfl, id⟩, rfl, rfl⟩
      · cases h₂
    · cases h₁

theorem leads_draw (hR : Served R) (seconds : Float) : Leads R (draw seconds) :=
  have hN := hR.toRespectsNeutral
  have hP := hN.allowsNeutral
  hP.bind (leads_drawing hN _) fun _ => hP.bind (leads_drawStatus hN _) fun _ =>
    hP.bind hP.look fun b => hP.bind (hP.discard (hP.render (hR.pump b)
      (fun _ => leads_drawing hN _) _)) fun _ =>
        hP.bind (leads_drawEditor hN) fun _ => hP.bind hP.look fun _ => leads_drawing hN _

end Drawing

/-! ## Turns -/

section Turns

variable {R : Studio → Studio → Prop}

theorem leads_arrive (hR : RespectsNeutral R) (p : Pass) : Leads R (change p.arrive) :=
  leads_change _ fun _ => hR.neutral
    ⟨⟨⟨rfl, rfl, rfl, rfl⟩, rfl, rfl⟩, ⟨rfl, rfl, rfl, rfl, rfl, rfl, id⟩, rfl, rfl⟩

theorem leads_fade (hR : RespectsNeutral R) (seconds : Float) :
    Leads R (changeDesk (·.fade seconds)) := by
  refine hR.allowsNeutral.changeDesk _ fun d => ?_
  unfold Desk.fade
  split
  · dsimp only
    split <;> exact ⟨rfl, rfl⟩
  · exact ⟨rfl, rfl⟩

theorem leads_poll (hR : Served R) (now : Option Float) :
    Leads R (do discard (poll (deskHooks (← look)) now) : Act Unit) :=
  have hP := hR.toRespectsNeutral.allowsNeutral
  hP.bind hP.look fun b => hP.discard
    (hP.poll (hR.serves b).toAttends (fun _ => leads_giveUp) now)

theorem leads_handle (hR : Handled R) (i : Input) : Leads R (handle i) :=
  have hP := hR.toRespectsNeutral.allowsNeutral
  hP.ite (hP.pure _) <| hP.bind (hR.offer i) fun _ => hP.ite (hP.pure _) (hP.playInput hR.handles i)

theorem leads_turn (hR : Handled R) (p : Pass) : Leads R (turn p) := by
  have hP := hR.toRespectsNeutral.allowsNeutral
  have handles (is : List Input) : Leads R (handleAll is) := by
    induction is with
    | nil => exact hP.pure _
    | cons i is ih => exact hP.bind (leads_handle hR i) fun _ => hP.ite ih (hP.pure _)
  refine hP.bind (leads_arrive hR.toRespectsNeutral p) fun _ => hP.bind (handles _) fun _ =>
    hP.ite ?_ (hP.pure _)
  exact hP.bind (leads_fade hR.toRespectsNeutral _) fun _ => hP.bind hP.look fun b =>
    hP.bind (hP.discard (hP.poll (hR.handles b).toAttends (fun _ => leads_giveUp) none)) fun _ =>
      hP.bind (leads_draw hR.served _) fun _ => hP.pure _

theorem leads_runAct {α : Type} {p : Act α} (hp : Leads R p) {s s' : Studio}
    {r : Except Fault α} {es : List Entry} (h : runAct p s = some (r, s', es)) : R s s' := by
  obtain ⟨⟨r₁, b⟩, h₁, h₂⟩ := Option.map_eq_some_iff.1 h
  cases h₂
  exact hp h₁

/-- What every turn keeps holds at every moment of the main loop and when it ends. -/
theorem kept_loop {I : Studio → Prop} (turns : ∀ p, Leads (fun s s' => I s → I s') (turn p))
    {passes : List Pass} {earlier : List Entry} {s : Studio} {run : Run} (hs : I s)
    (h : loop earlier passes s = some run) : ∀ shot ∈ run.last :: run.shots, I shot.studio := by
  induction passes generalizing earlier s run with
  | nil =>
    rw [loop] at h
    obtain ⟨⟨r, s', es⟩, h₁, h⟩ := Option.bind_eq_some_iff.1 h
    cases h
    simpa using leads_runAct (turns _) h₁ hs
  | cons p ps ih =>
    rw [loop] at h
    obtain ⟨⟨r, s', es⟩, h₁, h⟩ := Option.bind_eq_some_iff.1 h
    have hs' : I s' := leads_runAct (turns p) h₁ hs
    rcases r with e | _ | _
    · cases h
      simpa using hs'
    · cases h
      simpa using hs'
    · obtain ⟨rest, h₂, h⟩ := Option.bind_eq_some_iff.1 h
      cases h
      have := ih hs' h₂
      simp only [List.mem_cons, forall_eq_or_imp] at this ⊢
      exact ⟨this.1, hs', this.2⟩

/-- What every turn keeps, and closing too, holds at every moment of a run. -/
theorem kept_mainLoop {I : Studio → Prop} (turns : ∀ p, Leads (fun s s' => I s → I s') (turn p))
    (closes : Leads (fun s s' => I s → I s') close) {passes : List Pass} {s : Studio} {run : Run}
    (hs : I s) (h : mainLoop passes s = some run) :
    ∀ shot ∈ run.last :: run.shots, I shot.studio := by
  obtain ⟨looped, h₁, h⟩ := Option.bind_eq_some_iff.1 h
  obtain ⟨⟨r, s', es⟩, h₂, h⟩ := Option.bind_eq_some_iff.1 h
  cases h
  have shots := kept_loop turns hs h₁
  simp only [List.mem_cons, forall_eq_or_imp] at shots ⊢
  exact ⟨leads_runAct closes h₂ shots.1, shots.2⟩

end Turns

/-! ## Whatever may happen -/

inductive Doing
  /-- Somebody uses the mouse or the keys. -/
  | input (i : Input)
  | button (label : String)
  | message (m : Midi.Message)
  | poll (now : Option Float)
  | frame (seconds : Float)
  /-- Time goes by and the MIDI system changes. -/
  | arrive (p : Pass)
  | close

def Doing.act : Doing → Act Unit
  | input i => discard (handle i)
  | button label => discard (pressButton label)
  | message m => do discard (receive (deskHooks (← look)) m)
  | poll now => do discard (Studio.poll (deskHooks (← look)) now)
  | frame seconds => do
    changeDesk (·.fade seconds)
    draw seconds
  | arrive p => change p.arrive
  | close => Program.close

/-- The studio after things have happened one after the other, each of which may fail on its
own. -/
def enact : List Doing → Studio → Option Studio
  | [], s => some s
  | d :: ds, s => do
    let (_, s, _) ← runAct d.act s
    enact ds s

/-- The first thing happens, and then the others. -/
theorem enact_cons_inv {d : Doing} {ds : List Doing} {s s' : Studio}
    (h : enact (d :: ds) s = some s') :
    ∃ r s₁ es, runAct d.act s = some (r, s₁, es) ∧ enact ds s₁ = some s' := by
  obtain ⟨⟨r, s₁, es⟩, h₁, h₂⟩ := Option.bind_eq_some_iff.1 h
  exact ⟨r, s₁, es, h₁, h₂⟩

section Happening

variable {R : Studio → Studio → Prop}

/-- What happens without keys, before the program is closed. -/
theorem leads_act (hR : Served R) {d : Doing} (noInput : ∀ i, d ≠ .input i) (runs : d ≠ .close) :
    Leads R d.act := by
  have hP := hR.toRespectsNeutral.allowsNeutral
  cases d with
  | input i => exact absurd rfl (noInput i)
  | button label => exact hP.discard (hP.pressButton hR.serves label)
  | message m => exact hP.bind hP.look fun b => hP.discard ((hR.serves b).receive m)
  | poll now => exact leads_poll hR now
  | frame seconds => exact hP.bind (leads_fade hR.toRespectsNeutral _) fun _ => leads_draw hR _
  | arrive p => exact leads_arrive hR.toRespectsNeutral p
  | close => exact absurd rfl runs

/-- Whatever happens. -/
theorem Handled.leads_act (hR : Handled R) (closes : Leads R close) (d : Doing) :
    Leads R d.act := by
  by_cases noInput : ∀ i, d ≠ .input i
  · by_cases runs : d = .close
    · exact runs ▸ closes
    · exact Program.leads_act hR.served noInput runs
  · obtain ⟨i, rfl⟩ : ∃ i, d = .input i := by simpa using noInput
    exact hR.toRespectsNeutral.allowsNeutral.discard (leads_handle hR i)

theorem leads_enact (hR : RespectsNeutral R) (acts : ∀ d : Doing, Leads R d.act) {ds : List Doing}
    {s s' : Studio} (h : enact ds s = some s') : R s s' := by
  induction ds generalizing s with
  | nil =>
    cases h
    exact hR.chains.refl _
  | cons d ds ih =>
    obtain ⟨r, s₁, es, h₁, h₂⟩ := enact_cons_inv h
    exact hR.trans (leads_runAct (acts d) h₁) (ih h₂)

end Happening

end Program

end PianoRoll
