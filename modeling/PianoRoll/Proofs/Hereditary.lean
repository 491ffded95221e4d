import PianoRoll.Proofs.Melody.Extents
import PianoRoll.Proofs.Playback.Course
import PianoRoll.Studio.Perform

/-!
Properties of acts that pass from the pieces of an act to the whole (`AllowsNeutral`, `Hereditary`).
What a studio does is put together from acts that sound and publish, from others that begin, stop
and pump, and for the rest from acts that leave the run alone, most of which do not touch the script
or the held keys either (`Neutral`). So a property of these few is one of all that is done by hand,
on the MIDI inputs, and in a session (`Hereditary.carryOut`).
-/

namespace PianoRoll

/-- The commands about the session and its transport, and about the passing of time. -/
def Command.ofSession : Command → Bool
  | .advance _ | .pump _ | .countTimers | .startPlayback .. | .togglePlayback .. | .stopPlayback
  | .beatsToMs .. | .elapsed _ | .elapsedBeats _ | .setVelocity _ | .setNotes _ | .setGhosts _
  | .setScript _ | .loadSong _ | .listSongs | .setBpm _ | .play | .stop | .playStop | .replay
  | .shuffle | .tick _ | .frame _ | .render _ => true
  | _ => false

/-- The commands that begin a run, end one, or let time pass for it. -/
def Command.operates : Command → Bool
  | .pump _ | .tick _ | .startPlayback .. | .togglePlayback .. | .stopPlayback | .stop | .play
  | .playStop | .replay | .render _ => true
  | _ => false

/-- The commands about a session that leave it to its melodies what extent is shown. -/
def Command.inLanes : Command → Bool
  | .startPlayback _ _ (some _) => false
  | c => c.ofSession

structure Session.Measured (s : Session) : Prop where
  extent : s.extent = Extent.of? (s.notes ++ s.ghosts)
  viewStart : s.viewStart = 0
  viewEnd : s.viewEnd = totalBeats (s.notes ++ s.ghosts)

namespace Studio

open Work

/-- A change of a studio that leaves alone who listens, which keys are held, and the script with its
melody. -/
structure Apart (s s' : Studio) : Prop where
  bus : s'.bus = s.bus
  held : s'.held = s.held
  rows : s'.desk.editor.rows = s.desk.editor.rows
  focused : s'.desk.editor.focused = s.desk.editor.focused
  error : s'.desk.editor.error = s.desk.editor.error
  notes : s'.session.notes = s.session.notes
  measured : s.session.Measured → s'.session.Measured

theorem Apart.refl (s : Studio) : Apart s s := ⟨rfl, rfl, rfl, rfl, rfl, rfl, id⟩

/-- A change of a studio that leaves alone its run, what is lit, and what it is apart from. -/
structure Neutral (s s' : Studio) : Prop extends Aside s s', Apart s s' where
  extent : s'.transport.extent = s.transport.extent
  lit : s'.desk.lit = s.desk.lit

/-- A property of acts that passes from the pieces of an act to the whole, and that acts have which
change nothing and are not heard. -/
structure Compositional (P : {α : Type} → Act α → Prop) : Prop where
  pure {α : Type} (a : α) : P (pure a : Act α)
  bind {α β : Type} {p : Act α} {f : α → Act β} : P p → (∀ a, P (f a)) → P (p >>= f)
  fail {α : Type} (e : Fault) : P (throw e : Act α)
  rescue {α : Type} {p : Act α} {f : Fault → Act α} : P p → (∀ e, P (f e)) → P (tryCatch p f)
  look : P look
  write (e : Entry) (quiet : e.audible = false) : P (write e)

structure AllowsNeutral (P : {α : Type} → Act α → Prop) : Prop extends Compositional P where
  neutral (f : Studio → Studio) (h : ∀ s, Neutral s (f s)) : P (change f)

/-- All changes that leave the run alone have such a property. -/
structure Hereditary (P : {α : Type} → Act α → Prop) : Prop extends Compositional P where
  aside (f : Studio → Studio)
    (h : ∀ s, Aside s (f s) ∧ (f s).transport.extent = s.transport.extent) : P (change f)

structure Performs (P : {α : Type} → Act α → Prop) (h : Hooks) : Prop where
  sound (c : SoundCall) : P (sound c)
  publish (e : Event) (he : ∀ text, e ≠ .textChanged text) : P (publish h e)

structure Plays (P : {α : Type} → Act α → Prop) (h : Hooks) : Prop where
  start (notes : List Note) (bpm : Option Float) (extent : Option Extent)
    (covers : ∀ r, extent = some r → r.Covers notes) : P (startPlayback h notes bpm extent)
  stop : P (stopPlayback h)

/-- Telling of the MIDI inputs, and what is played on them, have a property. -/
structure Attends (P : {α : Type} → Act α → Prop) (h : Hooks) : Prop where
  status : P (publishStatus h)
  receive (m : Midi.Message) : P (receive h m)

structure Operates (P : {α : Type} → Act α → Prop) (h : Hooks) : Prop extends Plays P h where
  pump (now : Option Float) : P (pump h now)

/-- What acts lead to, along a relation that can be followed, is such a property. -/
theorem compositional_leads {R : Studio → Studio → Prop} (hR : Chains R) :
    Compositional (Leads R) where
  pure := hR.pure
  bind := hR.bind
  fail e := hR.orFail (.error e)
  rescue := hR.rescue
  look := hR.look
  write e _ := hR.write e

/-- To alter nothing but along a relation that can be followed, and to write nothing that is heard
but of some kind, is such a property. -/
theorem compositional_alters {R : Studio → Studio → Prop} {K : Entry → Prop} (hR : Chains R)
    (hK : ∀ e : Entry, e.audible = false → K e) : Compositional (Alters R K) where
  pure := alters_pure hR
  bind := Alters.bind hR
  fail e := alters_of_eq hR fun _ _ _ h => by cases h; rfl
  rescue := Alters.rescue hR
  look := alters_of_eq hR fun _ _ _ h => by cases h; rfl
  write e quiet := alters_write hR e (hK e quiet)

namespace Compositional

variable {P : {α : Type} → Act α → Prop} (hP : Compositional P) {α : Type}
include hP

theorem log (l : Level) (t : String) : P (Work.log l t : Act Unit) := hP.write _ rfl

theorem orFail (r : Except Fault α) : P (Work.orFail r : Act α) := by
  cases r with
  | ok a => exact hP.pure a
  | error e => exact hP.fail e

omit hP in
theorem ite (_ : Compositional P) {c : Prop} [Decidable c] {p q : Act α} (hp : P p) (hq : P q) :
    P (if c then p else q) := by
  split
  · exact hp
  · exact hq

theorem discard {p : Act α} (hp : P p) : P (Functor.discard p) := hP.bind hp fun _ => hP.pure _

theorem forM {f : α → Act Unit} (hf : ∀ a, P (f a)) (xs : List α) : P (xs.forM f) := by
  induction xs with
  | nil => exact hP.pure ()
  | cons x xs ih =>
    rw [forM_cons]
    exact hP.bind (hf x) fun _ => ih

theorem moment (now : Option Float) : P (moment now) := hP.bind hP.look fun _ => hP.pure _

theorem frame (now : Option Float) : P (frame now) :=
  hP.bind hP.look fun _ => hP.bind (hP.moment now) fun _ => hP.orFail _

/-! ## Scripts -/

theorem readScript (text : String) : P (readScript text : Act (List Note)) := by
  refine hP.bind (hP.forM (fun m => hP.log .debug _) _) fun _ => ?_
  split
  · exact hP.pure _
  · exact hP.bind (hP.log _ _) fun _ => hP.pure _

theorem readMelody (m : Melody) : P (readMelody m : Act (List Note)) := by
  cases m with
  | notes ns => exact hP.pure ns
  | script text => exact hP.readScript text

theorem songNotes (name : Option String) : P (songNotes name) := by
  cases name with
  | none => exact hP.pure _
  | some name => exact hP.ite (hP.pure _) (hP.bind (hP.orFail _) fun _ => hP.readScript _)

theorem checkScript (text : String) : P (checkScript text : Act (List Note × Option Fault)) := by
  refine hP.bind (hP.forM (fun m => hP.log .debug _) _) fun _ => ?_
  split <;> exact hP.pure _

/-- What the desk does is as its changes are, and taking over the notes of a text. -/
theorem react (desk : ∀ f : Studio → Desk, P (change fun s => { s with desk := f s }))
    (notes : ∀ ns, P (changeSession (·.setNotes ns))) (r : Reaction) (e : Event) :
    P (react r e) := by
  unfold Studio.react
  split
  · exact desk _
  · exact desk _
  · exact desk _
  · exact desk _
  · exact hP.bind (hP.checkScript _) fun _ => hP.bind (desk _) fun _ => notes _
  · exact hP.pure _

/-- Publishing, where the event may be written down, is as those are who listen. -/
theorem publish {h : Hooks} {e : Event} (told : P (Work.write (.event e) : Act Unit))
    (hears : ∀ l, P (h.hear l e)) : P (publish h e) :=
  hP.bind (hP.bind hP.look fun _ => hP.forM (fun _ => told) _) fun _ => hP.bind hP.look fun _ =>
    hP.forM (fun l => hP.rescue (hears l) fun _ => hP.log _ _) _

/-! ## Acts of the MIDI inputs that are heard -/

theorem publishStatus {h : Hooks} (does : Performs P h) : P (publishStatus h) :=
  hP.bind hP.look fun _ => does.publish _ nofun

theorem receive {h : Hooks} (does : Performs P h) (m : Midi.Message) : P (receive h m) := by
  have off (note : Int) : P (Studio.receive.noteOff h note) :=
    hP.bind (does.sound _) fun _ => hP.bind (does.publish _ nofun) fun _ => hP.pure _
  cases m with
  | noteOn note velocity =>
    refine hP.ite ?_ (hP.ite (off note) (hP.pure _))
    exact hP.bind (hP.orFail _) fun _ => hP.bind (does.sound _) fun _ =>
      hP.bind (does.publish _ nofun) fun _ => hP.pure _
  | noteOff note velocity => exact off note
  | other => exact hP.pure _

end Compositional

namespace AllowsNeutral

variable {P : {α : Type} → Act α → Prop} (hP : AllowsNeutral P) {α : Type}
include hP

/-! ## Sessions -/

/-- A change of a session that leaves its melody alone. -/
theorem changeSession (f : Session → Session)
    (h : ∀ s, (f s).notes = s.notes ∧ (s.Measured → (f s).Measured)) : P (changeSession f) :=
  hP.neutral _ fun s => ⟨⟨⟨rfl, rfl, rfl, rfl⟩, rfl, rfl⟩,
    ⟨rfl, rfl, rfl, rfl, rfl, (h s.session).1, (h s.session).2⟩, rfl, rfl⟩

theorem loadSong (name : Option String) : P (loadSong name) :=
  hP.bind (hP.changeSession _ fun _ => ⟨rfl, fun h => ⟨h.1, h.2, h.3⟩⟩) fun _ =>
    hP.bind (hP.songNotes name) fun _ =>
      hP.bind (hP.changeSession _ fun _ => ⟨rfl, fun _ => ⟨rfl, rfl, rfl⟩⟩) fun _ => hP.log _ _

theorem setBpm (bpm : TempoText) : P (setBpm bpm) :=
  hP.bind (hP.orFail _) fun _ => hP.bind hP.look fun _ =>
    hP.bind (hP.changeSession _ fun _ => ⟨rfl, fun h => ⟨h.1, h.2, h.3⟩⟩) fun _ =>
      hP.bind hP.look fun _ => hP.pure _

theorem shuffle : P shuffle :=
  hP.bind hP.look fun _ =>
    hP.bind (hP.neutral _ fun _ => by
      exact ⟨⟨⟨rfl, rfl, rfl, rfl⟩, rfl, rfl⟩, ⟨rfl, rfl, rfl, rfl, rfl, rfl, id⟩, rfl, rfl⟩)
    fun _ => hP.bind (hP.changeSession _ fun _ => ⟨rfl, fun h => ⟨h.1, h.2, h.3⟩⟩) fun _ =>
      hP.pure _

theorem strike (pitch : Int) : P (strike pitch) := by
  refine hP.bind (hP.neutral _ fun _ => by
    exact ⟨⟨⟨rfl, rfl, rfl, rfl⟩, rfl, rfl⟩, ⟨rfl, rfl, rfl, rfl, rfl, rfl, id⟩, rfl, rfl⟩)
    fun _ => hP.bind hP.look fun s => ?_
  split
  · exact hP.pure _
  · exact hP.bind (hP.orFail _) fun _ => hP.neutral _ fun _ => by
      exact ⟨⟨⟨rfl, rfl, rfl, rfl⟩, rfl, rfl⟩, ⟨rfl, rfl, rfl, rfl, rfl, rfl, id⟩, rfl, rfl⟩

/-! ## The desk -/

/-- A change of the desk that leaves alone the editor and what is lit. -/
theorem changeDesk (f : Desk → Desk) (h : ∀ d, (f d).editor = d.editor ∧ (f d).lit = d.lit) :
    P (changeDesk f) :=
  hP.neutral _ fun s =>
    have editor := (h s.desk).1
    ⟨⟨⟨rfl, rfl, rfl, rfl⟩, rfl, rfl⟩,
      ⟨rfl, rfl, congrArg Editor.rows editor, congrArg Editor.focused editor,
        congrArg Editor.error editor, rfl, id⟩, rfl, (h s.desk).2⟩

/-- What the desk does with anything but a text. -/
theorem react (lights : ∀ f : Studio → PitchSet,
      P (change fun s => { s with desk := { s.desk with lit := f s } }))
    (r : Reaction) {e : Event} (he : ∀ text, e ≠ .textChanged text) : P (react r e) := by
  unfold Studio.react
  split
  · next pitch _ _ => exact lights fun s => s.desk.lit.insert pitch
  · next pitch _ => exact lights fun s => s.desk.lit.erase pitch
  · exact lights fun s => s.held
  · exact hP.changeDesk _ fun _ => ⟨rfl, rfl⟩
  · exact absurd rfl (he _)
  · exact hP.pure _

/-! ## Ports -/

theorem changeInputs (f : Midi.Inputs → Midi.Inputs) : P (changeInputs f) :=
  hP.neutral _ fun _ =>
    ⟨⟨⟨rfl, rfl, rfl, rfl⟩, rfl, rfl⟩, ⟨rfl, rfl, rfl, rfl, rfl, rfl, id⟩, rfl, rfl⟩

/-- A change of the system is neutral. -/
theorem changeSystem (f : Studio → Midi.System) : P (change fun s => { s with system := f s }) :=
  hP.neutral _ fun _ =>
    ⟨⟨⟨rfl, rfl, rfl, rfl⟩, rfl, rfl⟩, ⟨rfl, rfl, rfl, rfl, rfl, rfl, id⟩, rfl, rfl⟩

theorem ask (question : Midi.System → Nat → α) : P (ask question) :=
  hP.bind hP.look fun _ => hP.bind (hP.changeSystem _) fun _ => hP.pure _

theorem openPort (name : String) : P (openPort name) := by
  refine hP.bind (hP.ask _) fun answer => ?_
  cases answer with
  | some reason => exact hP.pure _
  | none =>
    exact hP.bind hP.look fun _ => hP.bind (hP.changeSystem _) fun _ =>
      hP.bind (hP.write _ rfl) fun _ => hP.bind (hP.changeInputs _) fun _ => hP.pure _

theorem closePort (port : Midi.Port) : P (closePort port) :=
  hP.bind (hP.write _ rfl) fun _ => hP.bind (hP.ask _) fun _ => hP.ite (hP.log _ _) (hP.pure _)

theorem closeInputs : P closeInputs :=
  hP.bind hP.look fun _ => hP.bind (hP.forM (fun _ => hP.closePort _) _) fun _ => hP.changeInputs _

theorem openPorts (names : List String) : P (openPorts names) := by
  induction names with
  | nil => exact hP.pure _
  | cons name rest ih =>
    refine hP.bind (hP.openPort name) fun answer => ?_
    cases answer with
    | some reason => exact hP.pure _
    | none => exact ih

theorem namesToOpen (name : Option String) : P (namesToOpen name) := by
  cases name with
  | some name => exact hP.ite (hP.ask _) (hP.pure _)
  | none => exact hP.ask _

theorem openNamed (name : Option String) : P (openNamed name) := by
  refine hP.bind (hP.namesToOpen name) fun names => ?_
  cases names with
  | error reason => exact hP.pure _
  | ok names => exact hP.openPorts names

theorem countInputs : P countInputs := hP.changeInputs _

theorem dropPort (name : String) (port : Midi.Port) : P (dropPort name port) :=
  hP.bind (hP.changeInputs _) fun _ => hP.bind (hP.closePort port) fun _ => hP.log _ _

theorem addPort (name : String) : P (addPort name) := by
  refine hP.bind hP.look fun _ => hP.ite (hP.pure _) (hP.bind (hP.openPort name) fun answer => ?_)
  cases answer with
  | some reason => exact hP.bind (hP.log _ _) fun _ => hP.pure _
  | none => exact hP.bind (hP.log _ _) fun _ => hP.pure _

theorem addPorts (names : List String) : P (addPorts names) := by
  induction names with
  | nil => exact hP.pure _
  | cons name rest ih => exact hP.bind (hP.addPort name) fun _ => hP.bind ih fun _ => hP.pure _

theorem releaseAll {h : Hooks} (releases : ∀ p, P (release h p)) : P (releaseAll h) :=
  hP.bind hP.look fun _ => hP.forM releases _

/-! ## Acts that are heard -/

section Performing

variable {h : Hooks} (does : Performs P h)
include does

/-- The trigger of a note. -/
theorem note {t : Trigger} (ht : t ≠ .finish) : P (trigger h t) := by
  cases t with
  | noteOn n =>
    exact hP.bind hP.look fun _ => hP.bind (does.sound _) fun _ => hP.bind (hP.strike _) fun _ =>
      does.publish _ nofun
  | noteOff n => exact hP.bind (does.sound _) fun _ => does.publish _ nofun
  | finish => exact absurd rfl ht

theorem publishEnd (playing : Bool) : P (publishEnd h playing) :=
  hP.ite (hP.bind (hP.log _ _) fun _ => does.publish _ nofun) (hP.pure _)

section Holding

variable (holds : ∀ f : Studio → PitchSet, P (change fun s => { s with held := f s }))
include holds

theorem press (pitch : Int) (velocity : Option Float) : P (press h pitch velocity) :=
  hP.bind hP.look fun _ => hP.ite (hP.pure _) <|
    hP.bind (holds fun s => s.held.insert pitch) fun _ =>
      hP.bind (does.sound _) fun _ => does.publish _ nofun

theorem release (pitch : Int) : P (release h pitch) := by
  refine hP.bind hP.look fun _ => hP.ite ?_ (hP.pure _)
  exact hP.bind (holds fun s => s.held.erase pitch) fun _ =>
    hP.bind (does.sound _) fun _ => does.publish _ nofun

end Holding

theorem attends : Attends P h := ⟨hP.publishStatus does, hP.receive does⟩

end Performing

/-! ## Acts on MIDI inputs -/

section Attending

variable {h : Hooks} (attends : Attends P h)
include attends

theorem connect (name : Option String) : P (connect h name) := by
  refine hP.bind hP.closeInputs fun _ => hP.bind (hP.changeInputs _) fun _ =>
    hP.bind (hP.openNamed name) fun answer => ?_
  have last : P (do
      let now := (← Work.look).clock
      Studio.changeInputs fun i => { i with lastScan := now }
      Studio.publishStatus h
      return (← Work.look).inputs.connected) :=
    hP.bind hP.look fun _ => hP.bind (hP.changeInputs _) fun _ =>
      hP.bind attends.status fun _ => hP.bind hP.look fun _ => hP.pure _
  cases answer with
  | none => exact hP.bind (hP.changeInputs _) fun _ => hP.bind hP.countInputs fun _ => last
  | some reason =>
    exact hP.bind (hP.log _ _) fun _ => hP.bind hP.closeInputs fun _ =>
      hP.bind (hP.changeInputs _) fun _ => last

theorem rescan : P (rescan h) := by
  refine hP.bind (hP.ask _) fun listed => ?_
  cases listed with
  | error reason => exact hP.bind (hP.log _ _) fun _ => hP.pure _
  | ok listed =>
    refine hP.bind hP.look fun _ => hP.bind (hP.forM (fun _ => hP.dropPort _ _) _) fun _ =>
      hP.bind (hP.addPorts _) fun _ => hP.ite ?_ (hP.pure _)
    exact hP.bind hP.countInputs fun _ => hP.bind attends.status fun _ => hP.pure _

theorem rescanIfDue (now : Option Float) : P (rescanIfDue h now) := by
  refine hP.bind hP.look fun _ => hP.ite (hP.bind (hP.moment now) fun _ => hP.ite ?_ (hP.pure _))
    (hP.pure _)
  exact hP.bind (hP.changeInputs _) fun _ => hP.discard (hP.rescan attends)

section Reading

variable (gives : ∀ α, P (unfinished : Act α))
include gives

theorem readMessages (name : String) (n taken handled : Nat) :
    P (readMessages h name n taken handled) := by
  induction n generalizing taken handled with
  | zero => exact gives _
  | succ n ih =>
    refine hP.bind (hP.ask _) fun answer => ?_
    cases answer with
    | some reason => exact hP.fail _
    | none =>
      refine hP.bind hP.look fun s => ?_
      split
      · exact hP.pure _
      · exact hP.bind (hP.changeSystem _) fun _ => hP.bind (attends.receive _) fun _ => ih _ _

theorem readPorts (ports : List Midi.Port) (handled : Nat) : P (readPorts h ports handled) := by
  induction ports generalizing handled with
  | nil => exact hP.pure _
  | cons port rest ih => exact hP.bind (hP.readMessages attends gives _ _ _ _) fun _ => ih _

theorem poll (now : Option Float) : P (poll h now) :=
  hP.bind (hP.rescanIfDue attends now) fun _ => hP.bind hP.look fun _ =>
    hP.readPorts attends gives _ _

end Reading

end Attending

section Playing

variable {h : Hooks} (plays : Plays P h)
include plays

/-- The extent that a session plays in holds its melody. -/
theorem play : P (play h) := by
  refine hP.bind hP.look fun s => hP.ite (hP.pure _) <| hP.bind (hP.discard hP.shuffle) fun _ =>
    hP.bind (hP.changeSession _ fun _ => ⟨rfl, fun h => ⟨h.1, h.2, h.3⟩⟩) fun _ =>
      plays.start _ _ _ fun r hr n hn => ?_
  exact Extent.covers_of? hr n (List.mem_append_left _ hn)

theorem playStop : P (playStop h) :=
  hP.bind hP.look fun _ => hP.ite plays.stop (hP.discard (hP.play plays))

theorem replay : P (replay h) := hP.bind plays.stop fun _ => hP.play plays

theorem togglePlayback (notes : List Note) (bpm : Option Float) : P (togglePlayback h notes bpm) :=
  hP.bind hP.look fun _ =>
    hP.ite plays.stop (hP.discard (plays.start _ _ _ fun _ hr => by cases hr))

end Playing

theorem render {h : Hooks} (pump : ∀ now, P (pump h now)) {draw : Frame → Act Unit}
    (hd : ∀ f, P (draw f)) (now : Option Float) : P (render h draw now) := by
  refine hP.bind (hP.discard (pump now)) fun _ => hP.bind (hP.frame now) fun f => ?_
  cases f with
  | none => exact hP.pure _
  | some f => exact hP.bind (hd f) fun _ => hP.pure _

end AllowsNeutral

namespace Hereditary

variable {P : {α : Type} → Act α → Prop} (hP : Hereditary P) {α : Type}
include hP

/-- A hereditary property is one that neutral changes have. -/
theorem allowsNeutral : AllowsNeutral P where
  toCompositional := hP.toCompositional
  neutral f h := hP.aside f fun s => ⟨(h s).toAside, (h s).extent⟩

theorem holds (f : Studio → PitchSet) : P (change fun s => { s with held := f s }) :=
  hP.aside _ fun _ => ⟨⟨⟨rfl, rfl, rfl, rfl⟩, rfl, rfl⟩, rfl⟩

theorem changeSession (f : Session → Session) : P (changeSession f) :=
  hP.aside _ fun _ => ⟨⟨⟨rfl, rfl, rfl, rfl⟩, rfl, rfl⟩, rfl⟩

theorem setScript (text : String) : P (setScript text) :=
  hP.bind (hP.readScript text) fun _ => hP.bind (hP.changeSession _) fun _ => hP.pure _

theorem react (r : Reaction) (e : Event) : P (react r e) :=
  hP.toCompositional.react (fun _ => hP.aside _ fun _ => ⟨⟨⟨rfl, rfl, rfl, rfl⟩, rfl, rfl⟩, rfl⟩)
    (fun _ => hP.changeSession _) r e

/-- Whatever a session can be asked for that neither begins nor ends a run. -/
theorem settled {h : Hooks} {c : Command} (hc : c.ofSession = true) (still : c.operates = false) :
    P (carryOut h c) := by
  cases c with
  | advance seconds =>
    exact hP.bind (hP.aside _ fun _ => by exact ⟨⟨⟨rfl, rfl, rfl, rfl⟩, rfl, rfl⟩, rfl⟩) fun _ =>
      hP.bind hP.look fun _ => hP.pure _
  | countTimers => exact hP.bind hP.look fun _ => hP.pure _
  | beatsToMs beats bpm =>
    exact hP.bind hP.look fun _ => hP.bind (hP.orFail _) fun _ => hP.pure _
  | elapsed now => exact hP.bind hP.look fun _ => hP.bind (hP.moment now) fun _ => hP.pure _
  | elapsedBeats now =>
    exact hP.bind hP.look fun _ => hP.bind (hP.moment now) fun _ =>
      hP.bind (hP.orFail _) fun _ => hP.pure _
  | setVelocity velocity =>
    exact hP.bind (hP.aside _ fun _ => by exact ⟨⟨⟨rfl, rfl, rfl, rfl⟩, rfl, rfl⟩, rfl⟩) fun _ =>
      hP.pure _
  | setNotes melody =>
    exact hP.bind (hP.readMelody melody) fun _ => hP.bind (hP.changeSession _) fun _ => hP.pure _
  | setGhosts melody =>
    exact hP.bind (hP.readMelody melody) fun _ => hP.bind (hP.changeSession _) fun _ => hP.pure _
  | setScript text => exact hP.bind (hP.setScript text) fun _ => hP.pure _
  | loadSong name => exact hP.bind (hP.allowsNeutral.loadSong name) fun _ => hP.pure _
  | listSongs => exact hP.pure _
  | setBpm bpm => exact hP.bind (hP.allowsNeutral.setBpm bpm) fun _ => hP.pure _
  | shuffle => exact hP.bind hP.allowsNeutral.shuffle fun _ => hP.pure _
  | frame now => exact hP.bind (hP.frame now) fun _ => hP.pure _
  | pump | tick | startPlayback | togglePlayback | stopPlayback | stop | play | playStop | replay
  | render => cases still
  | _ => cases hc

section Operations

variable {h : Hooks} (ops : Operates P h)
include ops

/-- Whatever a session can be asked for is as beginning, stopping and pumping are. -/
theorem carryOut {c : Command} (hc : c.inLanes = true) : P (carryOut h c) := by
  cases c with
  | pump now => exact hP.bind (ops.pump now) fun _ => hP.pure _
  | tick now => exact hP.bind (ops.pump now) fun _ => hP.pure _
  | startPlayback melody bpm extent =>
    cases extent with
    | none =>
      exact hP.bind (hP.readMelody melody) fun _ =>
        hP.bind (ops.start _ _ _ fun _ hr => by cases hr) fun _ => hP.pure _
    | some r => cases hc
  | togglePlayback melody bpm =>
    exact hP.bind (hP.readMelody melody) fun _ =>
      hP.bind (hP.allowsNeutral.togglePlayback ops.toPlays _ _) fun _ => hP.pure _
  | stopPlayback => exact hP.bind ops.stop fun _ => hP.pure _
  | stop => exact hP.bind ops.stop fun _ => hP.pure _
  | play => exact hP.bind (hP.allowsNeutral.play ops.toPlays) fun _ => hP.pure _
  | playStop => exact hP.bind (hP.allowsNeutral.playStop ops.toPlays) fun _ => hP.pure _
  | replay => exact hP.bind (hP.allowsNeutral.replay ops.toPlays) fun _ => hP.pure _
  | render now =>
    exact hP.bind (hP.allowsNeutral.render ops.pump (fun _ => hP.write _ rfl) now)
      fun _ => hP.pure _
  | _ => exact hP.settled hc rfl

end Operations

end Hereditary

end Studio

end PianoRoll
