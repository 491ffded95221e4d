import PianoRoll.Proofs.Callback
import PianoRoll.Proofs.Hereditary
import PianoRoll.Proofs.Playback.Consistency
import PianoRoll.Proofs.Playback.Operations

/-!
Telling what is done. A telling of an act goes along the act, piece by piece, and says where in it
something is done that counts for the run: before which piece of it a deed is noted. So the deeds of
an act on a bench are computed from the act and the bench (`Telling.deeds`). All that a session can
be asked for is told, with whatever those ask for who hear of it: everything is to be stopped when
stopping is asked for, before anything else; an event is published when publishing begins; and a
run has begun when everything is set for it, before anybody hears of it.
-/

namespace PianoRoll

/-- The commands that stop everything before they do anything else. -/
def Command.halts (s : Studio) : Command → Bool
  | .stopPlayback | .stop | .replay => true
  | .playStop => s.transport.playing
  | _ => false

namespace Studio

open Work

/-- Where in an act what is done. -/
inductive Telling : {α : Type} → Act α → Type 1
  /-- An act of which there is nothing to tell. -/
  | quietly {α : Type} (p : Act α) : Telling p
  /-- A deed of the studio as it stands when the act begins. -/
  | note {α : Type} {p : Act α} (deed : Studio → Deed) (t : Telling p) : Telling p
  | bind {α β : Type} {p : Act α} {f : α → Act β} (t : Telling p) (u : ∀ a, Telling (f a)) :
      Telling (p >>= f)
  | rescue {α : Type} {p : Act α} {f : Fault → Act α} (t : Telling p) (u : ∀ e, Telling (f e)) :
      Telling (tryCatch p f)
  | ite {α : Type} {p q : Act α} (c : Prop) [Decidable c] (t : Telling p) (u : Telling q) :
      Telling (if c then p else q)

namespace Telling

def deeds : {α : Type} → {p : Act α} → Telling p → Bench Studio → List Deed
  | _, _, .quietly _, _ => []
  | _, _, .note deed t, b => deed b.part :: t.deeds b
  | _, _, @bind _ _ p _ t u, b => t.deeds b ++ match p.on b with
    | some (.ok a, b') => (u a).deeds b'
    | _ => []
  | _, _, @rescue _ p _ t u, b => t.deeds b ++ match p.on b with
    | some (.error e, b') => (u e).deeds b'
    | _ => []
  | _, _, @ite _ _ _ c _ t u, b => if c then t.deeds b else u.deeds b

section Deeds

variable {α β : Type} {p : Act α} {f : α → Act β} {t : Telling p} {u : ∀ a, Telling (f a)}
  {b b' : Bench Studio}

@[simp] theorem deeds_quietly : (quietly p).deeds b = [] := rfl

@[simp] theorem deeds_note {deed : Studio → Deed} :
    (t.note deed).deeds b = deed b.part :: t.deeds b := rfl

theorem deeds_bind_ok {a : α} (h : p.on b = some (.ok a, b')) :
    (t.bind u).deeds b = t.deeds b ++ (u a).deeds b' := by
  rw [deeds, h]

/-- What is told of two pieces in a row begins as what is told of the first one. -/
theorem deeds_bind_head {d : Deed} (h : ∃ ds, t.deeds b = d :: ds) :
    ∃ ds, (t.bind u).deeds b = d :: ds := by
  obtain ⟨ds, e⟩ := h
  exact ⟨_, by rw [deeds, e, List.cons_append]⟩

theorem deeds_bind_error {e : Fault} (h : p.on b = some (.error e, b')) :
    (t.bind u).deeds b = t.deeds b := by
  rw [deeds, h]
  exact List.append_nil _

/-- After a piece of which there is nothing to tell, the rest is told. -/
theorem deeds_quietly_bind {a : α} (h : p.on b = some (.ok a, b')) :
    ((quietly p).bind u).deeds b = (u a).deeds b' := by
  rw [deeds_bind_ok h, deeds_quietly, List.nil_append]

theorem deeds_ite_pos {q : Act α} {c : Prop} [Decidable c] {v : Telling q} (hc : c) :
    (Telling.ite c t v).deeds b = t.deeds b := if_pos hc

theorem deeds_ite_neg {q : Act α} {c : Prop} [Decidable c] {v : Telling q} (hc : ¬c) :
    (Telling.ite c t v).deeds b = v.deeds b := if_neg hc

variable {g : Fault → Act α} {v : ∀ e, Telling (g e)}

theorem deeds_rescue_ok {a : α} (h : p.on b = some (.ok a, b')) :
    (t.rescue v).deeds b = t.deeds b := by
  rw [deeds, h]
  exact List.append_nil _

theorem deeds_rescue_error {e : Fault} (h : p.on b = some (.error e, b')) :
    (t.rescue v).deeds b = t.deeds b ++ (v e).deeds b' := by
  rw [deeds, h]

end Deeds

/-! ## Playback -/

def forM {α : Type} {f : α → Act Unit} (t : ∀ a, Telling (f a)) :
    (xs : List α) → Telling (xs.forM f)
  | [] => .quietly _
  | x :: xs => .bind (t x) fun _ => forM t xs

section Listeners

variable {h : Hooks} (hears : ∀ l e, Telling (h.hear l e))

def delivered (e : Event) (ls : List Listener) : Telling (ls.forM (deliver h e)) :=
  forM (fun l => .rescue (hears l e) fun _ => .quietly _) ls

def publish (e : Event) : Telling (publish h e) :=
  .note (.published e) <| .bind (.quietly _) fun _ => .bind (.quietly look) fun _ =>
    delivered hears e _

def publishEnd (playing : Bool) : Telling (publishEnd h playing) :=
  .ite _ (.bind (.quietly _) fun _ => publish hears (.transport false)) (.quietly _)

def start (notes : List Note) (bpm : Option Float) (extent : Option Extent) :
    Telling (startPlayback h notes bpm extent) :=
  .bind (.quietly look) fun _ => .ite _ (.quietly _) <|
    .bind (.quietly (changeTransport _)) fun _ => .bind (.quietly (scheduleAll _ _)) fun _ =>
      .bind (.quietly (changeTransport _)) fun _ =>
        .note (fun s => .begun s.transport.pending) <| .bind (.quietly (log _ _)) fun _ =>
          .bind (publish hears _) fun _ => .quietly _

def stop : Telling (stopPlayback h) :=
  .note (fun _ => .halted) <| .bind (.quietly look) fun s => .bind (.quietly (change _)) fun _ =>
    .bind (.quietly (changeTransport _)) fun _ => .note (fun _ => .sounded .silence) <|
      .bind (.quietly (sound .silence)) fun _ => .bind (.quietly (changeTransport _)) fun _ =>
        publishEnd hears s.transport.playing

def trigger : (t : Trigger) → Telling (trigger h t)
  | .noteOn n => .bind (.quietly look) fun s =>
    .note (fun _ => .sounded (.on (.whole n.pitch) s.transport.velocity)) <|
      .bind (.quietly (sound _)) fun _ => .bind (.quietly (strike _)) fun _ => publish hears _
  | .noteOff n => .note (fun _ => .sounded (.off (.whole n.pitch))) <|
    .bind (.quietly (sound _)) fun _ => publish hears _
  | .finish => .bind (.quietly (log _ _)) fun _ => stop hears

/-- Programs that others have set a timer for are not told. -/
def runTask (serial : Nat) : (task : Task) → Telling (runTask h serial task)
  | .playback t => .bind (.quietly (changeTransport _)) fun _ =>
    .note (fun _ => .fired serial t) (trigger hears t)
  | .program _ _ => .quietly _

def fire (serial : Nat) : Telling (fire h serial) :=
  .bind (.quietly look) fun s => match s.timers.get? serial with
    | none => .quietly _
    | some timer => .ite _ (.quietly _) <| .bind (.quietly (change _)) fun _ =>
      .bind (runTask hears serial timer.task) fun _ => .quietly _

def drain (now : Float) : (n fired : Nat) → Telling (drain h now n fired)
  | 0, _ => .quietly _
  | n + 1, _ => .bind (.quietly look) fun s => match s.timers.takeDue? now with
    | none => .quietly _
    | some (serial, _) => .bind (.quietly (change _)) fun _ =>
      .bind (fire hears serial) fun _ => drain now n _

def pump (now : Option Float) : Telling (pump h now) :=
  .bind (.quietly (moment now)) fun _ => drain hears _ _ _

/-! ## Sessions -/

def play : Telling (play h) :=
  .bind (.quietly look) fun _ => .ite _ (.quietly _) <| .bind (.quietly (discard shuffle)) fun _ =>
    .bind (.quietly (changeSession _)) fun _ => start hears _ _ _

def playStop : Telling (playStop h) :=
  .bind (.quietly look) fun _ => .ite _ (stop hears) (.bind (play hears) fun _ => .quietly _)

def replay : Telling (replay h) := .bind (stop hears) fun _ => play hears

def togglePlayback (notes : List Note) (bpm : Option Float) :
    Telling (togglePlayback h notes bpm) :=
  .bind (.quietly look) fun _ =>
    .ite _ (stop hears) (.bind (start hears _ _ _) fun _ => .quietly _)

def render (draw : Frame → Act Unit) (now : Option Float) : Telling (render h draw now) :=
  .bind (.bind (pump hears now) fun _ => .quietly _) fun _ => .quietly _

def carryOut : (c : Command) → Telling (carryOut h c)
  | .pump now | .tick now => .bind (pump hears now) fun _ => .quietly _
  | .startPlayback melody _ _ => .bind (.quietly (readMelody melody)) fun _ =>
    .bind (start hears _ _ _) fun _ => .quietly _
  | .togglePlayback melody _ => .bind (.quietly (readMelody melody)) fun _ =>
    .bind (togglePlayback hears _ _) fun _ => .quietly _
  | .stopPlayback | .stop => .bind (stop hears) fun _ => .quietly _
  | .play => .bind (play hears) fun _ => .quietly _
  | .playStop => .bind (playStop hears) fun _ => .quietly _
  | .replay => .bind (replay hears) fun _ => .quietly _
  | .render now => .bind (render hears _ now) fun _ => .quietly _
  | _ => .quietly _

/-- That everything is to be stopped is told before anything else. -/
theorem deeds_halts {c : Command} {b : Bench Studio} (hc : c.halts b.part = true) :
    ∃ ds, (carryOut hears c).deeds b = .halted :: ds := by
  have stops : ∃ ds, (stop hears).deeds b = .halted :: ds := ⟨_, deeds_note⟩
  cases c with
  | stopPlayback => exact deeds_bind_head stops
  | stop => exact deeds_bind_head stops
  | replay => exact deeds_bind_head (deeds_bind_head stops)
  | playStop =>
    have told : (playStop hears).deeds b = (stop hears).deeds b :=
      (deeds_quietly_bind (on_look b)).trans (deeds_ite_pos hc)
    exact deeds_bind_head (told ▸ stops)
  | _ => cases hc

end Listeners

end Telling

/-! ## Callbacks -/

/-- What those may do who listen to a session: ask for all that a session can be asked for, and
touch neither the run nor the timers otherwise, without being heard. Whenever they look at the
studio they may count on it that transport and timers tell the same. -/
def Scope.sessions : Scope where
  changes := Aside
  chains := chains_aside
  writes e := e.audible = false
  expects := Coherent
  asks c := c.ofSession = true

def Callback.telling : {α : Type} → {p : Act α} → Callback .sessions p → Telling p
  | _, _, .act _ => .quietly _
  | _, _, .bind first rest => .bind first.telling fun a => (rest a).telling
  | _, _, .rescue first rest => .rescue first.telling fun e => (rest e).telling
  | _, _, .look sees => .bind (.quietly Work.look) fun s =>
    if coherent : Coherent s then (sees s coherent).telling else .quietly _
  | _, _, .react _ _ => .quietly _
  | _, _, .publish _ _ _ may => may.elim
  | _, _, .ask _ hears _ c _ => .carryOut (fun l e => (hears l e).telling) c

/-- What is done in each of some commands that are carried out in turn. -/
def chronicle {h : Hooks} (hears : ∀ l e, Callback .sessions (h.hear l e)) :
    List Command → Studio → List (List Deed)
  | [], _ => []
  | c :: cs, s =>
    (Telling.carryOut (fun l e => (hears l e).telling) c).deeds ⟨s, []⟩ ::
      match runAct (carryOut h c) s with
      | some (_, s', _) => chronicle hears cs s'
      | none => []

section Chronicle

variable {h : Hooks} {hears : ∀ l e, Callback .sessions (h.hear l e)} {c : Command}
  {cs : List Command} {s : Studio}

theorem chronicle_cons {step : Step} (hon : (carryOut h c).on ⟨s, []⟩ =
      some (step.outcome, ⟨step.studio, step.entries.reverse⟩)) :
    chronicle hears (c :: cs) s =
      (Telling.carryOut (fun l e => (hears l e).telling) c).deeds ⟨s, []⟩ ::
        chronicle hears cs step.studio := by
  rw [chronicle, runAct, hon]
  rfl

/-- What is done in one of the commands is what is told of it in the studio that it begins with. -/
theorem chronicle_get? {steps : List Step} (hrun : inTurn h cs s = some steps) {i : Nat}
    (hc : cs[i]? = some c) : (chronicle hears cs s)[i]? =
      some ((Telling.carryOut (fun l e => (hears l e).telling) c).deeds
        ⟨s.after (steps.take i), []⟩) := by
  induction cs generalizing s steps i with
  | nil => cases hc
  | cons c₀ cs ih =>
    obtain ⟨step, rest, rfl, hrest, hon⟩ := inTurn_cons_inv hrun
    rw [chronicle_cons hon]
    cases i with
    | zero =>
      cases hc
      rfl
    | succ i =>
      rw [List.take_succ_cons, after_cons]
      exact ih hrest hc

end Chronicle

end Studio

end PianoRoll
