import PianoRoll.Event
import PianoRoll.Frame
import PianoRoll.Midi
import PianoRoll.Sound

/-!
Commands: everything that can be asked of a studio, from outside, by a listener or by a timer.
-/

namespace PianoRoll

/-- A melody as it is handed in: notes, or the script of them. -/
inductive Melody
  | notes (ns : List Note)
  | script (text : String)

/-- A tempo as it is handed in: a number, whole or not, or a text that should be one. -/
inductive TempoText
  | whole (n : Int)
  | number (x : Float)
  | text (s : String)

/-- A change of what the MIDI system answers; what is not given stays. -/
structure SystemChange where
  available : Option (Nat → List String) := none
  refusal : Option (Nat → Option String) := none
  opening : Option (Nat → String → Option String) := none
  closing : Option (Nat → String → Option String) := none
  reading : Option (Nat → String → Nat → Option String) := none

def SystemChange.apply (c : SystemChange) (s : Midi.System) : Midi.System :=
  { s with
    available := c.available.getD s.available
    refusal := c.refusal.getD s.refusal
    opening := c.opening.getD s.opening
    closing := c.closing.getD s.closing
    reading := c.reading.getD s.reading }

inductive Command
  | advance (seconds : Float)
  | fail (message : String)
  -- timers
  | schedule (name : String) (delay : Float) (now : Option Float) (program : List Command)
  | cancel (name : String)
  | pump (now : Option Float)
  | countTimers
  | clearTimers
  | describeTimer (name : String)
  -- transport
  | startPlayback (melody : Melody) (bpm : Option Float) (extent : Option Extent)
  | togglePlayback (melody : Melody) (bpm : Option Float)
  | stopPlayback
  | beatsToMs (beats : Float) (bpm : Option Float)
  | elapsed (now : Option Float)
  | elapsedBeats (now : Option Float)
  | setVelocity (value : Float)
  -- session
  | setNotes (melody : Melody)
  | setGhosts (melody : Melody)
  | setScript (text : String)
  | loadSong (name : Option String)
  | listSongs
  | setBpm (bpm : TempoText)
  | play
  | stop
  | playStop
  | replay
  | shuffle
  | tick (now : Option Float)
  | frame (now : Option Float)
  | render (now : Option Float)
  -- keyboard
  | press (pitch : Int) (velocity : Option Float)
  | release (pitch : Int)
  | releaseAll
  -- MIDI inputs
  | changeSystem (change : SystemChange)
  | queueMessages (port : String) (messages : List Midi.Message)
  | connect (name : Option String)
  | rescan
  | poll (now : Option Float)
  | receive (message : Midi.Message)
  | closeInputs
  -- events
  | subscribe (listener kind : String) (program : List Command) (times : Nat)
      (failure : Option String)
  | unsubscribe (listener kind : String)
  | publish (event : Event)
  -- sound
  | sound (call : SoundCall)
  | setRefusals (refuses : Nat → DeviceCall → Bool)

instance : Inhabited Command := ⟨.countTimers⟩

inductive Answer
  | nothing
  | truth (b : Bool)
  | count (n : Int)
  | real (x : Float)
  | text (s : String)
  | texts (ss : List String)
  | notes (ns : List Note)
  | frame (f : Option Frame)

end PianoRoll
