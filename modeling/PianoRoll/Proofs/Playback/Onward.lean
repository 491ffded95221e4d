import PianoRoll.Proofs.Hereditary

/-!
Acts that begin nothing. While a run goes on and comes to its end, settings and session stay as they
are but for the monsters and the name of the song, and what is played stays what it was
(`Onward`), and as long as no song is asked for its name stays too (`Unsung`). So a relation that
holds along such changes, and along whatever those do who are called back, holds along stopping and
pumping (`RespectsUnsung`), and along everything a session can be asked for that neither hands over
notes or a tempo nor begins a run (`RespectsUnsung.carryOut`).
-/

namespace PianoRoll

/-- The commands about a session that begin nothing and hand nothing over to it. -/
def Command.beginsNothing : Command → Bool
  | .advance _ | .pump _ | .tick _ | .countTimers | .stopPlayback | .stop | .beatsToMs ..
  | .elapsed _ | .elapsedBeats _ | .setVelocity _ | .listSongs | .shuffle | .frame _
  | .render _ => true
  | _ => false

namespace Studio

open Work

/-- A change of a studio that begins nothing: no melody, no tempo and no run. -/
structure Onward (s s' : Studio) : Prop where
  settings : s'.settings = s.settings
  session : s'.session =
    { s.session with monsters := s'.session.monsters, song := s'.session.song }
  bpm : s'.transport.bpm = s.transport.bpm
  notes : s'.transport.notes = s.transport.notes
  extent : s'.transport.extent = s.transport.extent
  playing : s'.transport.playing = true → s.transport.playing = true

structure Unsung (s s' : Studio) : Prop extends Onward s s' where
  song : s'.session.song = s.session.song

/-- A relation that can be followed and holds along changes that begin nothing and ask for no
song. -/
structure RespectsUnsung (R : Studio → Studio → Prop) : Prop extends Chains R where
  unsung {s s' : Studio} : Unsung s s' → R s s'

/-- A relation that can be followed and holds along changes that begin nothing. -/
structure RespectsOnward (R : Studio → Studio → Prop) : Prop extends Chains R where
  onward {s s' : Studio} : Onward s s' → R s s'

/-- A change that begins nothing is one as a whole. -/
theorem respectsOnward_onward : RespectsOnward Onward where
  refl _ := ⟨rfl, rfl, rfl, rfl, rfl, id⟩
  trans h h' :=
    { settings := h'.settings.trans h.settings
      session := by rw [h'.session, h.session]
      bpm := h'.bpm.trans h.bpm
      notes := h'.notes.trans h.notes
      extent := h'.extent.trans h.extent
      playing := h.playing ∘ h'.playing }
  onward := id

/-- What such changes leave true can be followed. -/
theorem respectsOnward_of_onward {I : Studio → Prop} (hI : ∀ {s s'}, I s → Onward s s' → I s') :
    RespectsOnward fun s s' => I s → I s' where
  refl _ := id
  trans h h' := h' ∘ h
  onward on hs := hI hs on

structure CallsAlong (R : Studio → Studio → Prop) (h : Hooks) : Prop where
  hears (l : Listener) (e : Event) : Leads R (h.hear l e)
  runs (name : String) (program : List Command) : Leads R (h.run name program)

namespace RespectsUnsung

variable {R : Studio → Studio → Prop} (hR : RespectsUnsung R)
include hR

theorem compositional : Compositional (Leads R) := compositional_leads hR.toChains

/-- A change of parts that neither melody nor tempo depend on. -/
theorem change (f : Studio → Studio) (hf : ∀ s, (f s).settings = s.settings ∧
    (f s).session = s.session ∧ (f s).transport = s.transport) : Leads R (change f) := by
  refine leads_change f fun s => hR.unsung ?_
  obtain ⟨settings, session, transport⟩ := hf s
  exact ⟨⟨settings, by rw [session], by rw [transport], by rw [transport], by rw [transport],
    by rw [transport]; exact id⟩, by rw [session]⟩

theorem changeTransport (f : Transport → Transport) (hf : ∀ t, (f t).bpm = t.bpm ∧
    (f t).notes = t.notes ∧ (f t).extent = t.extent ∧ ((f t).playing = true → t.playing = true)) :
    Leads R (changeTransport f) :=
  leads_change _ fun s =>
    have ⟨bpm, notes, extent, playing⟩ := hf s.transport
    hR.unsung ⟨⟨rfl, rfl, bpm, notes, extent, playing⟩, rfl⟩

theorem changeTimers (f : Studio → Timers Task) :
    Leads R (Work.change fun s => { s with timers := f s }) :=
  hR.change _ fun _ => ⟨rfl, rfl, rfl⟩

theorem sound (c : SoundCall) : Leads R (sound c) := by
  intro b r b' h
  obtain ⟨a, es, rfl, -⟩ := sound_inv h
  exact hR.unsung ⟨⟨rfl, rfl, rfl, rfl, rfl, id⟩, rfl⟩

theorem strike (pitch : Int) : Leads R (strike pitch) := by
  refine hR.bind (hR.changeTransport _ fun _ => ⟨rfl, rfl, rfl, id⟩) fun _ =>
    hR.bind hR.look fun s => ?_
  split
  · exact hR.pure _
  · exact hR.bind (hR.orFail _) fun _ => hR.changeTransport _ fun _ => ⟨rfl, rfl, rfl, id⟩

theorem shuffle : Leads R shuffle := by
  have taken : Leads R (Work.change fun s : Studio => { s with shuffles := s.shuffles.tail }) :=
    hR.change _ fun _ => ⟨rfl, rfl, rfl⟩
  have shown (monsters : List String) : Leads R (changeSession fun s => { s with monsters }) :=
    leads_change _ fun _ => hR.unsung ⟨⟨rfl, rfl, rfl, rfl, rfl, id⟩, rfl⟩
  exact hR.bind hR.look fun _ => hR.bind taken fun _ => hR.bind (shown _) fun _ => hR.pure _

section Called

variable {h : Hooks} (called : CallsAlong R h)
include called

theorem publish (e : Event) : Leads R (publish h e) :=
  hR.compositional.publish (hR.write _) fun l => called.hears l e

theorem stopPlayback : Leads R (stopPlayback h) := by
  refine hR.bind hR.look fun s => hR.bind (hR.changeTimers _) fun _ =>
    hR.bind (hR.changeTransport _ fun _ => ⟨rfl, rfl, rfl, id⟩) fun _ =>
      hR.bind (hR.sound _) fun _ =>
        hR.bind (hR.changeTransport _ fun _ => ⟨rfl, rfl, rfl, nofun⟩) fun _ =>
          leads_ite ?_ (hR.pure _)
  exact hR.bind (hR.write _) fun _ => hR.publish called _

theorem trigger (t : Trigger) : Leads R (trigger h t) := by
  cases t with
  | noteOn n =>
    exact hR.bind hR.look fun _ => hR.bind (hR.sound _) fun _ =>
      hR.bind (hR.strike _) fun _ => hR.publish called _
  | noteOff n => exact hR.bind (hR.sound _) fun _ => hR.publish called _
  | finish => exact hR.bind (hR.write _) fun _ => hR.stopPlayback called

theorem fire (serial : Nat) : Leads R (fire h serial) := by
  refine hR.bind hR.look fun s => ?_
  split
  · exact hR.pure _
  · next timer _ =>
    have runs : Leads R (runTask h serial timer.task) := by
      cases timer.task with
      | playback t =>
        exact hR.bind (hR.changeTransport _ fun _ => ⟨rfl, rfl, rfl, id⟩) fun _ =>
          hR.trigger called t
      | program name commands => exact called.runs name commands
    exact leads_ite (hR.pure _) <|
      hR.bind (hR.changeTimers _) fun _ => hR.bind runs fun _ => hR.pure _

theorem drain (now : Float) (n fired : Nat) : Leads R (drain h now n fired) := by
  induction n generalizing fired with
  | zero => exact leads_giveUp
  | succ n ih =>
    refine hR.bind hR.look fun s => ?_
    split
    · exact hR.pure _
    · exact hR.bind (hR.changeTimers _) fun _ => hR.bind (hR.fire called _) fun _ => ih _

theorem pump (now : Option Float) : Leads R (pump h now) :=
  hR.bind (hR.compositional.moment now) fun _ => hR.drain called _ _ _

/-- What begins nothing is followed to its end. -/
theorem carryOut {c : Command} (hc : c.beginsNothing = true) : Leads R (carryOut h c) := by
  cases c with
  | advance seconds =>
    exact hR.bind (hR.change _ fun _ => ⟨rfl, rfl, rfl⟩) fun _ => hR.bind hR.look fun _ => hR.pure _
  | pump now => exact hR.bind (hR.pump called now) fun _ => hR.pure _
  | tick now => exact hR.bind (hR.pump called now) fun _ => hR.pure _
  | countTimers => exact hR.bind hR.look fun _ => hR.pure _
  | stopPlayback => exact hR.bind (hR.stopPlayback called) fun _ => hR.pure _
  | stop => exact hR.bind (hR.stopPlayback called) fun _ => hR.pure _
  | beatsToMs beats bpm =>
    exact hR.bind hR.look fun _ => hR.bind (hR.orFail _) fun _ => hR.pure _
  | elapsed now =>
    exact hR.bind hR.look fun _ => hR.bind (hR.compositional.moment now) fun _ => hR.pure _
  | elapsedBeats now =>
    exact hR.bind hR.look fun _ => hR.bind (hR.compositional.moment now) fun _ =>
      hR.bind (hR.orFail _) fun _ => hR.pure _
  | setVelocity velocity =>
    exact hR.bind (hR.changeTransport _ fun _ => ⟨rfl, rfl, rfl, id⟩) fun _ => hR.pure _
  | listSongs => exact hR.pure _
  | shuffle => exact hR.bind hR.shuffle fun _ => hR.pure _
  | frame now => exact hR.bind (hR.compositional.frame now) fun _ => hR.pure _
  | render now =>
    refine hR.bind (hR.bind (hR.compositional.discard (hR.pump called now)) fun _ =>
      hR.bind (hR.compositional.frame now) fun f => ?_) fun _ => hR.pure _
    cases f with
    | none => exact hR.pure _
    | some f => exact hR.bind (hR.write _) fun _ => hR.pure _
  | _ => cases hc

end Called

end RespectsUnsung

namespace RespectsOnward

variable {R : Studio → Studio → Prop} (hR : RespectsOnward R)
include hR

theorem respectsUnsung : RespectsUnsung R := ⟨hR.toChains, fun unsung => hR.onward unsung.toOnward⟩

theorem compositional : Compositional (Leads R) := hR.respectsUnsung.compositional

theorem change (f : Studio → Studio) (hf : ∀ s, (f s).settings = s.settings ∧
    (f s).session = s.session ∧ (f s).transport = s.transport) : Leads R (change f) :=
  hR.respectsUnsung.change f hf

theorem shuffle : Leads R shuffle := hR.respectsUnsung.shuffle

section Called

variable {h : Hooks} (called : CallsAlong R h)
include called

theorem publish (e : Event) : Leads R (publish h e) := hR.respectsUnsung.publish called e

theorem stopPlayback : Leads R (stopPlayback h) := hR.respectsUnsung.stopPlayback called

theorem carryOut {c : Command} (hc : c.beginsNothing = true) : Leads R (carryOut h c) :=
  hR.respectsUnsung.carryOut called hc

end Called

end RespectsOnward

end Studio

end PianoRoll
