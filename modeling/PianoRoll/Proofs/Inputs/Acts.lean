import PianoRoll.Proofs.Inputs.Ports
import PianoRoll.Proofs.Playback.Sounding
import PianoRoll.Studio.Perform

/-!
Following a relation through all that is asked of the MIDI inputs. Most acts leave the ports alone
(`Idle`). So where a relation holds between benches that differ in other things alone, and can be
followed through connecting, closing and looking at the system's list, it holds from before to
after whatever is asked of the inputs (`Carries.carryOut`).
-/

namespace PianoRoll

/-- The commands about the MIDI inputs, and about the passing of time. -/
def Command.ofInputs : Command → Bool
  | .advance _ | .queueMessages .. | .connect _ | .rescan | .poll _ | .receive _
  | .closeInputs => true
  | _ => false

/-- Taking a message changes what waits alone. -/
theorem Midi.System.dequeue?_eq {s s' : Midi.System} {name : String} {m : Midi.Message}
    (h : s.dequeue? name = some (m, s')) : ∃ queues, s' = { s with queues } := by
  unfold Midi.System.dequeue? at h
  split at h
  · cases h
    exact ⟨_, rfl⟩
  · cases h

namespace Studio

open Work Midi

def switchesIn (journal : List Entry) : List Switch := journal.filterMap Entry.switch?

/-- Nothing was done with ports from one bench to the other, what is said of them is the same, and
so is what the system lists. -/
structure Idle (b b' : Bench Studio) : Prop where
  ports : b'.part.inputs.ports = b.part.inputs.ports
  connected : b'.part.inputs.connected = b.part.inputs.connected
  status : b'.part.inputs.status = b.part.inputs.status
  opened : b'.part.system.opened = b.part.system.opened
  listing : b'.part.system.listing = b.part.system.listing
  switches : switchesIn b'.journal = switchesIn b.journal

theorem Idle.refl (b : Bench Studio) : Idle b b := ⟨rfl, rfl, rfl, rfl, rfl, rfl⟩

/-- A relation between benches that can be followed from act to act. -/
structure Carries (R : Bench Studio → Bench Studio → Prop) : Prop where
  idle {b b' : Bench Studio} : Idle b b' → R b b'
  trans {b b' b'' : Bench Studio} : R b b' → R b' b'' → R b b''

/-- The relation holds between the bench before the act and the bench after it. -/
def Along {α : Type} (R : Bench Studio → Bench Studio → Prop) (p : Act α) : Prop :=
  ∀ ⦃b r b'⦄, p.on b = some (r, b') → R b b'

namespace Carries

variable {R : Bench Studio → Bench Studio → Prop} (hR : Carries R) {α β : Type}
include hR

theorem pure (a : α) : Along R (pure a : Act α) := fun b _ _ h => by
  cases h
  exact hR.idle (.refl b)

theorem orFail (r : Except Fault α) : Along R (orFail r : Act α) := fun b _ _ h => by
  cases h
  exact hR.idle (.refl b)

omit hR in
theorem giveUp (_ : Carries R) : Along R (unfinished : Act α) := fun _ _ _ h => by cases h

theorem look : Along R look := fun b _ _ h => by
  cases h
  exact hR.idle (.refl b)

theorem write (e : Entry) (he : e.switch? = none) : Along R (write e) := fun b _ _ h => by
  cases h
  refine hR.idle ⟨rfl, rfl, rfl, rfl, rfl, ?_⟩
  rw [switchesIn, List.filterMap_cons, he]
  rfl

theorem log (l : Level) (text : String) : Along R (Work.log l text : Act Unit) := hR.write _ rfl

theorem change (f : Studio → Studio) (h : ∀ s j, Idle ⟨s, j⟩ ⟨f s, j⟩) : Along R (change f) :=
  fun b _ _ hon => by
    cases hon
    exact hR.idle (h b.part b.journal)

theorem bind {p : Act α} {f : α → Act β} (hp : Along R p) (hf : ∀ a, Along R (f a)) :
    Along R (p >>= f) := by
  intro b r b' h
  rcases on_bind_inv h with ⟨a, b₁, h₁, h₂⟩ | ⟨e, h₁, -⟩
  · exact hR.trans (hp h₁) (hf a h₂)
  · exact hp h₁

theorem rescue {p : Act α} {f : Fault → Act α} (hp : Along R p) (hf : ∀ e, Along R (f e)) :
    Along R (tryCatch p f) := by
  intro b r b' h
  rcases on_tryCatch_inv h with ⟨a, h₁, -⟩ | ⟨e, b₁, h₁, h₂⟩
  · exact hp h₁
  · exact hR.trans (hp h₁) (hf e h₂)

theorem forM {f : α → Act Unit} (hf : ∀ a, Along R (f a)) (xs : List α) :
    Along R (xs.forM f) := by
  induction xs with
  | nil => exact hR.pure ()
  | cons x xs ih =>
    rw [forM_cons]
    exact hR.bind (hf x) fun _ => ih

omit hR in
theorem ite (_ : Carries R) {c : Prop} [Decidable c] {p q : Act α} (hp : Along R p)
    (hq : Along R q) : Along R (if c then p else q) := by
  split
  · exact hp
  · exact hq

theorem discard {p : Act α} (hp : Along R p) : Along R (Functor.discard p) :=
  hR.bind hp fun _ => hR.pure _

theorem moment (now : Option Float) : Along R (moment now) := hR.bind hR.look fun _ => hR.pure _

theorem sound (c : SoundCall) : Along R (sound c) := by
  intro b r b' h
  have voices : Synth.Voices fun e => e.switch? = none := ⟨fun _ => rfl, fun _ => rfl, rfl⟩
  obtain ⟨es, written, silent, -⟩ := writes_sound voices rfl h
  obtain ⟨a, _, rfl, -⟩ := sound_inv h
  refine hR.idle ⟨rfl, rfl, rfl, rfl, rfl, ?_⟩
  have nothing : es.filterMap Entry.switch? = [] := List.filterMap_eq_nil_iff.2 silent
  rw [written, switchesIn, List.filterMap_append, nothing]
  rfl

theorem ask (question : System → Nat → α) : Along R (ask question) := fun b _ _ h => by
  rw [ask_on] at h
  cases h
  exact hR.idle ⟨rfl, rfl, rfl, rfl, rfl, rfl⟩

/-! ## Listeners -/

/-- The desk does nothing with the inputs, whatever it hears. -/
theorem react (r : Reaction) (e : Event) : Along R (react r e) := by
  have desk (f : Desk → Desk) : Along R (changeDesk f) :=
    hR.change _ fun _ _ => ⟨rfl, rfl, rfl, rfl, rfl, rfl⟩
  have checks (text : String) : Along R (checkScript text : Act (List Note × Option Fault)) := by
    refine hR.bind (hR.forM (fun m => hR.log .debug _) _) fun _ => ?_
    split <;> exact hR.pure _
  unfold Studio.react
  split
  · exact desk _
  · exact desk _
  · exact hR.change _ fun _ _ => ⟨rfl, rfl, rfl, rfl, rfl, rfl⟩
  · exact desk _
  · exact hR.bind (checks _) fun _ => hR.bind (desk _) fun _ =>
      hR.change _ fun _ _ => ⟨rfl, rfl, rfl, rfl, rfl, rfl⟩
  · exact hR.pure _

theorem hear (s : Studio) (l : Listener) (e : Event) : Along R ((deskHooks s).hear l e) := by
  cases l with
  | scripted name => exact hR.pure _
  | desk r => exact hR.react r e

section

variable {h : Hooks} (hears : ∀ l e, Along R (h.hear l e))
include hears

theorem publish (e : Event) : Along R (publish h e) :=
  hR.bind (hR.bind hR.look fun _ => hR.forM (fun _ => hR.write _ rfl) _) fun _ =>
    hR.bind hR.look fun _ => hR.forM (fun l => hR.rescue (hears l e) fun _ => hR.log _ _) _

theorem publishStatus : Along R (publishStatus h) :=
  hR.bind hR.look fun _ => hR.publish hears _

theorem receive (m : Message) : Along R (receive h m) := by
  have off (note : Int) : Along R (Studio.receive.noteOff h note) :=
    hR.bind (hR.sound _) fun _ => hR.bind (hR.publish hears _) fun _ => hR.pure _
  cases m with
  | noteOn note velocity =>
    refine hR.ite ?_ (hR.ite (off note) (hR.pure _))
    exact hR.bind (hR.orFail _) fun _ => hR.bind (hR.sound _) fun _ =>
      hR.bind (hR.publish hears _) fun _ => hR.pure _
  | noteOff note velocity => exact off note
  | other => exact hR.pure _

theorem announce : Along R (announce h) :=
  hR.bind hR.look fun _ =>
    hR.bind (hR.change _ fun _ _ => by exact ⟨rfl, rfl, rfl, rfl, rfl, rfl⟩) fun _ =>
      hR.bind (hR.publishStatus hears) fun _ => hR.bind hR.look fun _ => hR.pure _

/-! ## Reading -/

theorem readMessages (name : String) (n taken handled : Nat) :
    Along R (readMessages h name n taken handled) := by
  induction n generalizing taken handled with
  | zero => exact hR.giveUp
  | succ n ih =>
    refine hR.bind (hR.ask _) fun answer => ?_
    cases answer with
    | some reason => exact hR.orFail (.error _)
    | none =>
      intro b r b' hrun
      rw [on_bind_ok (on_look b)] at hrun
      split at hrun
      · exact hR.pure _ hrun
      · next m system here =>
        obtain ⟨queues, rfl⟩ := System.dequeue?_eq here
        rw [on_bind_ok (on_change _ b)] at hrun
        have rest := hR.bind (hR.receive hears m)
          (fun did => ih (taken + 1) (if did then handled + 1 else handled)) hrun
        refine hR.trans (hR.idle ?_) rest
        exact ⟨rfl, rfl, rfl, rfl, rfl, rfl⟩

theorem readPorts (ports : List Port) (handled : Nat) : Along R (readPorts h ports handled) := by
  induction ports generalizing handled with
  | nil => exact hR.pure _
  | cons port rest ih => exact hR.bind (hR.readMessages hears _ _ _ _) fun _ => ih _

/-! ## Commands -/

section

variable (looks : Along R (rescan h))
include looks

omit hears in
theorem rescanIfDue (now : Option Float) : Along R (rescanIfDue h now) :=
  hR.bind hR.look fun _ => hR.ite (hR.bind (hR.moment now) fun _ => hR.ite
    (hR.bind (hR.change _ fun _ _ => by exact ⟨rfl, rfl, rfl, rfl, rfl, rfl⟩) fun _ =>
      hR.discard looks) (hR.pure _)) (hR.pure _)

theorem poll (now : Option Float) : Along R (poll h now) :=
  hR.bind (hR.rescanIfDue looks now) fun _ => hR.bind hR.look fun _ => hR.readPorts hears _ _

/-- Whatever is asked of the inputs, if the relation can be followed through what is done with their
ports. -/
theorem carryOut (connects : ∀ name, Along R (connect h name)) (closes : Along R closeInputs)
    {c : Command} (hc : c.ofInputs = true) : Along R (carryOut h c) := by
  cases c with
  | advance seconds =>
    exact hR.bind (hR.change _ fun _ _ => by exact ⟨rfl, rfl, rfl, rfl, rfl, rfl⟩) fun _ =>
      hR.bind hR.look fun _ => hR.pure _
  | queueMessages port messages =>
    exact hR.bind (hR.change _ fun _ _ => by exact ⟨rfl, rfl, rfl, rfl, rfl, rfl⟩) fun _ =>
      hR.pure _
  | connect name => exact hR.bind (connects name) fun _ => hR.pure _
  | rescan => exact hR.bind looks fun _ => hR.pure _
  | poll now => exact hR.bind (hR.poll hears looks now) fun _ => hR.pure _
  | receive message => exact hR.bind (hR.receive hears message) fun _ => hR.pure _
  | closeInputs => exact hR.bind closes fun _ => hR.pure _
  | _ => cases hc

end

end

end Carries

end Studio

end PianoRoll
