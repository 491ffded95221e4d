import PianoRoll.Number.Whole

/-!
What an audio output is asked to do, and what reaches the MIDI device behind a synthesizer.
-/

namespace PianoRoll

/-- A number as a caller gives it, whole or not. -/
inductive Amount
  | whole (n : Int)
  | real (x : Float)

/-- The whole part of an amount. -/
def Amount.toWhole : Amount → Except Fault Int
  | .whole n => .ok n
  | .real x => Number.truncate x

inductive SoundCall
  | on (pitch : Amount) (velocity : Float)
  | off (pitch : Amount)
  | silence
  | waveform (name : String)
  | volume (value : Float)
  | close

inductive DeviceCall
  | noteOn (pitch velocity : Int)
  | noteOff (pitch : Int)
  | program (number : Int)
  | control (number value : Int)
  | close
  deriving DecidableEq, Repr

/-- The waveforms, each with the program that sounds most like it. -/
def waveforms : List (String × Int) :=
  [("sine", 79), ("triangle", 73), ("square", 80), ("sawtooth", 81)]

/-- The names of the waveforms. -/
def waveformNames : List String := waveforms.map (·.1)

end PianoRoll
