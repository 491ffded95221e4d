import PianoRoll.Proofs.Inputs.Ports
import PianoRoll.Proofs.Number.Quotient
import PianoRoll.Proofs.Program.Keys
import PianoRoll.Proofs.Synth.Bookkeeping

/-!
What ends well whatever the devices do. If listeners come to an end and have nothing to do with
the system (`Aloof`), connecting, following the system's list and closing end well and take
nothing of what waits on the inputs (`Safe`), and so does handling a message whose velocity is one
that keys have (`Aloof.receive_on`).
-/

namespace PianoRoll

open Midi

/-- Messages whose velocity is one that keys have. -/
def Midi.Message.Plays : Message → Prop
  | .noteOn _ velocity => velocity ≤ 127
  | _ => True

/-- Of each velocity that keys have a synthesizer can make its own; there are few enough of them to
try each. -/
theorem loudness_of_plays {velocity : Int} (positive : 0 < velocity) (plays : velocity ≤ 127) :
    ∃ q, Number.quotient velocity 127 = .ok q ∧ Number.isFinite (q * 127) = true := by
  have each : ∀ n : Fin 128,
      ((Number.quotient n.val 127).toOption.any fun q => Number.isFinite (q * 127)) = true := by
    decide +kernel
  have here := each ⟨velocity.toNat, by omega⟩
  rw [Int.toNat_of_nonneg positive.le] at here
  cases found : Number.quotient velocity 127 with
  | error e =>
    rw [found] at here
    cases here
  | ok q =>
    rw [found] at here
    exact ⟨q, rfl, here⟩

namespace Studio

open Work

/-! ## Listeners that leave the system alone -/

def Unasked (s s' : Studio) : Prop := s'.system = s.system

theorem chains_unasked : Chains Unasked := ⟨fun _ => rfl, fun h h' => h'.trans h⟩

/-- Listeners that come to an end and have nothing to do with the system. -/
structure Aloof (h : Hooks) : Prop where
  ends (l : Listener) (e : Event) : Ends (h.hear l e)
  unasked (l : Listener) (e : Event) : Leads Unasked (h.hear l e)

theorem react_unasked (r : Reaction) (e : Event) : Leads Unasked (react r e) := by
  have hP := compositional_leads chains_unasked
  unfold react
  split
  · exact leads_change _ fun _ => rfl
  · exact leads_change _ fun _ => rfl
  · exact leads_change _ fun _ => rfl
  · exact leads_change _ fun _ => rfl
  · exact hP.bind (hP.checkScript _) fun _ =>
      hP.bind (leads_change _ fun _ => rfl) fun _ => leads_change _ fun _ => rfl
  · exact hP.pure _

theorem aloof_desk (s : Studio) : Aloof (deskHooks s) where
  ends l e := (succeeds_hear s l e).ends
  unasked l e := leads_hear s chains_unasked (fun r => react_unasked r e) l

namespace Aloof

variable {h : Hooks} (aloof : Aloof h)
include aloof

theorem performs : Performs (Leads Unasked) h where
  sound c := fun _ _ _ hon => by
    obtain ⟨a, es, rfl, -⟩ := sound_inv hon
    rfl
  publish e _ :=
    (compositional_leads chains_unasked).publish (chains_unasked.write _) (aloof.unasked · e)

theorem succeeds_publish (e : Event) : Succeeds (publish h e) :=
  succeeds_publish_of_ends (aloof.ends · e)

/-- A message is handled and the system left alone. -/
theorem receive_on {m : Message} (plays : m.Plays) (b : Bench Studio) :
    ∃ did b', (receive h m).on b = some (.ok did, b') ∧ b'.part.system = b.part.system := by
  have off (note : Int) : Succeeds (receive.noteOff h note) :=
    (succeeds_sound (c := .off (.whole note)) (Synth.succeeds_stopNote note)).bind fun _ =>
      (aloof.succeeds_publish _).bind fun _ => succeeds_pure _
  have receives : Succeeds (receive h m) := by
    cases m with
    | noteOn note velocity =>
      by_cases positive : 0 < velocity
      · obtain ⟨q, quotient, finite⟩ := loudness_of_plays positive plays
        obtain ⟨v, takes, -⟩ := Synth.keyVelocity_of_isFinite finite
        have sounds : Succeeds (do
            sound (.on (.whole note) q)
            publish h (.noteOn note .midi (some velocity))
            return true) :=
          (succeeds_sound (c := .on (.whole note) q) (Synth.succeeds_playNote note takes)).bind
            fun _ => (aloof.succeeds_publish _).bind fun _ => succeeds_pure _
        rw [receive, if_pos positive, quotient]
        exact sounds
      · rw [receive, if_neg positive]
        exact succeeds_ite (off note) (succeeds_pure _)
    | noteOff note velocity => exact off note
    | other => exact succeeds_pure _
  obtain ⟨did, b', hon⟩ := receives b
  exact ⟨did, b', hon, (compositional_leads chains_unasked).receive aloof.performs m hon⟩

end Aloof

/-! ## Acts that end well -/

/-- The system was asked and opened ports; what it answers and what waits is as before. -/
def Asked (s s' : Studio) : Prop := ∃ asked opened, s'.system = { s.system with asked, opened }

/-- Acts that end well whatever the system answers, and take nothing of what waits. -/
def Safe {α : Type} (p : Act α) : Prop :=
  ∀ b, ∃ a b', p.on b = some (.ok a, b') ∧ Asked b.part b'.part

section

variable {α β : Type}

theorem Safe.succeeds {p : Act α} (hp : Safe p) : Succeeds p := fun b =>
  have ⟨a, b', h, _⟩ := hp b
  ⟨a, b', h⟩

theorem safe_of_unasked {p : Act α} (succeeds : Succeeds p) (unasked : Leads Unasked p) :
    Safe p := by
  intro b
  obtain ⟨a, b', h⟩ := succeeds b
  exact ⟨a, b', h, b.part.system.asked, b.part.system.opened, unasked h⟩

theorem safe_pure (a : α) : Safe (pure a : Act α) :=
  safe_of_unasked (succeeds_pure a) (chains_unasked.pure a)

theorem safe_look : Safe look := safe_of_unasked succeeds_look chains_unasked.look

theorem safe_log (l : Level) (text : String) : Safe (log l text : Act Unit) :=
  safe_of_unasked (succeeds_write _) (chains_unasked.write _)

theorem safe_changeInputs (f : Inputs → Inputs) : Safe (changeInputs f) :=
  safe_of_unasked (succeeds_change _) (leads_change _ fun _ => rfl)

theorem safe_ask (question : System → Nat → α) : Safe (ask question) :=
  fun b => ⟨_, _, ask_on question b, _, _, rfl⟩

theorem Safe.bind {p : Act α} {f : α → Act β} (hp : Safe p) (hf : ∀ a, Safe (f a)) :
    Safe (p >>= f) := by
  intro b
  obtain ⟨a, b₁, h₁, asked, opened, same⟩ := hp b
  obtain ⟨c, b₂, h₂, asked', opened', same'⟩ := hf a b₁
  exact ⟨c, b₂, (on_bind_ok h₁).trans h₂, asked', opened', same'.trans (by rw [same])⟩

theorem safe_forM {f : α → Act Unit} (hf : ∀ a, Safe (f a)) (xs : List α) :
    Safe (xs.forM f) := by
  induction xs with
  | nil => exact safe_pure ()
  | cons x xs ih =>
    rw [forM_cons]
    exact (hf x).bind fun _ => ih

theorem safe_ite {c : Prop} [Decidable c] {p q : Act α} (hp : Safe p) (hq : Safe q) :
    Safe (if c then p else q) := by
  split
  · exact hp
  · exact hq

end

theorem safe_closeInputs : Safe closeInputs := fun b =>
  have ⟨_, h, _⟩ := closeInputs_on b
  ⟨_, _, h, _, _, rfl⟩

theorem safe_dropPort (name : String) (port : Port) : Safe (dropPort name port) := fun b =>
  have ⟨_, h, _⟩ := dropPort_on name port b
  ⟨_, _, h, _, _, rfl⟩

theorem safe_addPorts (names : List String) : Safe (addPorts names) := fun b =>
  have ⟨_, _, _, h, _⟩ := addPorts_on names b
  ⟨_, _, h, _, _, rfl⟩

theorem safe_openNamed (name : Option String) : Safe (openNamed name) := fun b =>
  have ⟨_, _, _, _, _, h⟩ := openNamed_on name b
  ⟨_, _, h, _, _, rfl⟩

namespace Aloof

variable {h : Hooks} (aloof : Aloof h)
include aloof

theorem safe_publishStatus : Safe (publishStatus h) :=
  safe_of_unasked (succeeds_look.bind fun _ => aloof.succeeds_publish _)
    ((compositional_leads chains_unasked).publishStatus aloof.performs)

theorem safe_receive {m : Message} (plays : m.Plays) : Safe (receive h m) := fun b =>
  have ⟨_, _, hon, same⟩ := aloof.receive_on plays b
  ⟨_, _, hon, _, _, same⟩

theorem safe_settle (failure : Option String) : Safe (settle h failure) := by
  have announces : Safe (announce h) :=
    safe_look.bind fun _ => (safe_changeInputs _).bind fun _ =>
      aloof.safe_publishStatus.bind fun _ => safe_look.bind fun _ => safe_pure _
  cases failure with
  | none =>
    exact (safe_changeInputs _).bind fun _ => (safe_changeInputs _).bind fun _ => announces
  | some reason =>
    exact (safe_log _ _).bind fun _ => safe_closeInputs.bind fun _ =>
      (safe_changeInputs _).bind fun _ => announces

theorem safe_connect (name : Option String) : Safe (connect h name) :=
  safe_closeInputs.bind fun _ => (safe_changeInputs _).bind fun _ =>
    (safe_openNamed name).bind aloof.safe_settle

theorem safe_rescan : Safe (rescan h) := by
  refine (safe_ask _).bind fun listed => ?_
  cases listed with
  | error reason => exact (safe_log _ _).bind fun _ => safe_pure _
  | ok listed =>
    refine safe_look.bind fun _ => (safe_forM (fun _ => safe_dropPort _ _) _).bind fun _ =>
      (safe_addPorts _).bind fun _ => safe_ite ?_ (safe_pure _)
    exact (safe_changeInputs _).bind fun _ => aloof.safe_publishStatus.bind fun _ => safe_pure _

theorem safe_rescanIfDue (now : Option Float) : Safe (rescanIfDue h now) := by
  have moment : Safe (moment now) := safe_look.bind fun _ => safe_pure _
  refine safe_look.bind fun _ => safe_ite (moment.bind fun _ => safe_ite ?_ (safe_pure _))
    (safe_pure _)
  exact (safe_changeInputs _).bind fun _ => aloof.safe_rescan.bind fun _ => safe_pure _

end Aloof

end Studio

end PianoRoll
