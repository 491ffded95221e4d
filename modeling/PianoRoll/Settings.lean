/-!
The settings of the program and their defaults. A setting that can be given may also be left blank,
which does no harm where none is needed.
-/

namespace PianoRoll

/-- What a setting was given: a value, or a blank in the place of one. -/
inductive Given (α : Type)
  | blank
  | value (a : α)
  deriving DecidableEq, Repr

def Given.getD {α : Type} (g : Given α) (other : α) : α :=
  match g with
  | .blank => other
  | .value a => a

def Given.text : Given String → String
  | .blank => "[]"
  | .value s => s

/-- Sizes of the window and what is in it, in pixels. -/
structure RenderSettings where
  windowWidth : Int := 1280
  windowHeight : Int := 720
  editorWidth : Int := 300
  pianoHeight : Int := 110
  /-- How far a beat moves the notes while they play. -/
  pixelsPerBeat : Given Float := .value 160
  /-- Where notes are struck, from the left edge of the roll. -/
  hitX : Int := 120
  firstPitch : Int := 48
  lastPitch : Int := 84
  framesPerSecond : Int := 60

structure AudioSettings where
  waveform : Given String := .value "triangle"
  volume : Given Float := .value 0.5
  velocity : Float := 1
  liveVelocity : Float := 0.85

structure PlaybackSettings where
  bpm : Given Float := .value 120
  /-- The tempo at which a beat lasts as long as scripts say. -/
  referenceBpm : Float := 120
  /-- The lead-in, in beats. -/
  startDelay : Float := 0.5
  minBpm : Float := 30
  maxBpm : Float := 300
  strikeTolerance : Float := 0.001

/-- The tempo to begin with. A blank is zero, at which nothing can be played. -/
def PlaybackSettings.tempo (p : PlaybackSettings) : Float := p.bpm.getD 0

structure LogSettings where
  directory : Given (Option String) := .value none
  level : Given String := .value "INFO"
  deriving DecidableEq, Repr

structure Settings where
  render : RenderSettings := {}
  audio : AudioSettings := {}
  playback : PlaybackSettings := {}
  log : LogSettings := {}
  scriptPath : Given (Option String) := .value none
  ghostSong : Given (Option String) := .value none
  midiIn : Given (Option String) := .value none

end PianoRoll
