import PianoRoll.Bus
import PianoRoll.Desk
import PianoRoll.Session
import PianoRoll.Synth
import PianoRoll.Timers

/-!
The studio: clock, bus, timers, transport, session, keyboard, MIDI inputs and sound, with the
scripted listeners and timers that commands have set up. An act is work on the whole studio.
-/

namespace PianoRoll

/-- What a timer does: something of the run that plays, or a program of commands. -/
inductive Task
  | playback (t : Trigger)
  | program (name : String) (commands : List Command)

/-- What a scripted listener does: it fails, or obeys a program a number of times. -/
structure Cue where
  program : List Command
  times : Nat
  failure : Option String

structure Studio where
  clock : Float := 100
  settings : PlaybackSettings := {}
  bus : Bus := []
  timers : Timers Task := {}
  transport : Transport := {}
  session : Session := {}
  audio : Audio := .tape
  /-- The pitches held on the keyboard. -/
  held : PitchSet := .empty
  liveVelocity : Float := 0.85
  inputs : Midi.Inputs := {}
  system : Midi.System := {}
  cues : Table String Cue := []
  /-- The timers that commands have named. -/
  named : Table String Nat := []
  /-- The orders that the next shufflings give. -/
  shuffles : List (List Nat) := []
  /-- The kinds of events that go into the journal, each as often as it is to be written. -/
  recorded : List String := []
  desk : Desk := {}

abbrev Act := Work Studio

/-- How a studio calls back: what a listener does with an event, what a program does when its
timer is due, and how many steps a loop may take before it is given up. -/
structure Hooks where
  hear : Listener → Event → Act Unit
  run : String → List Command → Act Unit
  patience : Nat

namespace Studio

/-- A studio for the given playback settings. -/
def ofSettings (settings : PlaybackSettings) : Studio :=
  { settings
    transport := { bpm := settings.tempo }
    session := { bpm := settings.tempo } }

/-- Does work on a studio; gives its result, the studio after it, and what it wrote to the
journal, oldest first. -/
def runAct {α : Type} (a : Act α) (s : Studio) : Option (Except Fault α × Studio × List Entry) :=
  (a.on ⟨s, []⟩).map fun (r, b) => (r, b.part, b.journal.reverse)

end Studio

end PianoRoll
