import PianoRoll.Number.Order
import PianoRoll.Work
import PianoRoll.PitchSet
import PianoRoll.Settings

/-!
The synthesizer: notes, waveform and volume sent to a MIDI device, with the set of pitches that
sound. A device may refuse any call; a refused call is logged and has no effect. Without a device
nothing is sent.
-/

namespace PianoRoll

structure Synth where
  waveform : Given String
  volume : Float
  sounding : PitchSet := .empty
  /-- Whether a device is open. -/
  ready : Bool := false
  /-- Which calls the device refuses, given how many it was asked before. -/
  refuses : Nat → DeviceCall → Bool := fun _ _ => false
  /-- What the device was asked for, latest first, and whether it did it. -/
  asked : List (DeviceCall × Bool) := []

/-- What a synthesizer finds when it looks for a device. -/
structure DeviceSetup where
  /-- The device to use; -1 is none. -/
  id : Int := 0
  /-- Why the device system does not start. -/
  systemFailure : Option String := none
  /-- Why the device does not open. -/
  openFailure : Option String := none
  refuses : Nat → DeviceCall → Bool := fun _ _ => false

namespace Synth

open Work Number

/-- Asks the device for something; true if it did it. -/
def call (c : DeviceCall) : Work Synth Bool := do
  let s ← look
  let refused := s.refuses s.asked.length c
  change fun s => { s with asked := (c, !refused) :: s.asked }
  if refused then return false
  write (.device c)
  return true

/-- Ends a pitch. -/
def stopPitch (p : Int) : Work Synth Unit := do
  change fun s => { s with sounding := s.sounding.erase p }
  if !(← call (.noteOff p)) then log .debug s!"[Synth] note_off {p} failed"

/-- The key velocity of a loudness between zero and one. -/
def keyVelocity (velocity : Float) : Except Fault Int :=
  (roundToEven (velocity * 127)).map fun v => max 1 (min v 127)

/-- Starts a pitch with a key velocity; a pitch that sounds is ended first. -/
def startPitch (p : Int) (velocity : Float) : Work Synth Unit := do
  if p ∈ (← look).sounding then stopPitch p
  let v ← orFail (keyVelocity velocity)
  if ← call (.noteOn p v) then
    change fun s => { s with sounding := s.sounding.insert p }
  else log .debug s!"[Synth] note_on {p} failed"

/-- Plays a note; pitches outside the keys of MIDI are skipped. -/
def playNote (pitch : Amount) (velocity : Float) : Work Synth Unit := do
  if !(← look).ready then return
  let p ← orFail pitch.toWhole
  if 0 ≤ p ∧ p ≤ 127 then startPitch p velocity
  else log .debug s!"[Synth] pitch {p} outside MIDI range, skipped"

/-- Ends a note. -/
def stopNote (pitch : Amount) : Work Synth Unit := do
  if !(← look).ready then return
  stopPitch (← orFail pitch.toWhole)

/-- Ends every note that sounds, and then all others the device may hold. The notes that sound are a
set, which has no order of its own; they are ended from the lowest here. -/
def stopAll : Work Synth Unit := do
  let s ← look
  if !s.ready then return
  s.sounding.toList.forM stopPitch
  if !(← call (.control 123 0)) then log .debug "[Synth] all-notes-off failed"

/-- A waveform's name as the log shows it. -/
def quoted : Given String → String
  | .blank => Given.text .blank
  | .value name => Text.quote name

/-- Picks the program of a waveform; an unknown one changes nothing. -/
def setWaveform (name : Given String) : Work Synth Unit := do
  match waveforms.lookup name.text with
  | none =>
    log .warning s!"[Synth] unknown waveform {quoted name}, keeping {quoted (← look).waveform}"
  | some program =>
    change fun s => { s with waveform := name }
    if !(← look).ready then return
    if !(← call (.program program)) then log .debug "[Synth] program change failed"

/-- Sets the volume, held between zero and one. -/
def setVolume (value : Float) : Work Synth Unit := do
  let volume := clamp 0 1 value
  change fun s => { s with volume }
  if !(← look).ready then return
  let sent ← match truncate (volume * 127) with
    | .ok v => call (.control 7 v)
    | .error _ => pure false
  if !sent then log .debug "[Synth] volume change failed"

/-- Silences and lets go of the device. -/
def close : Work Synth Unit := do
  if (← look).ready then
    stopAll
    if !(← call .close) then log .debug "[Synth] close failed"
  write .deviceReleased
  change fun s => { s with ready := false }

/-- Looks for a device and opens it. -/
def openDevice (d : DeviceSetup) : Work Synth Unit := do
  change fun s => { s with refuses := d.refuses }
  match d.systemFailure with
  | some reason => log .warning s!"[Synth] MIDI init failed: {reason}"
  | none =>
    if d.id = -1 then log .warning "[Synth] No MIDI output device found, audio disabled"
    else match d.openFailure with
      | some reason => log .warning s!"[Synth] MIDI init failed: {reason}"
      | none =>
        write (.deviceOpened d.id)
        change fun s => { s with ready := true }
        log .info s!"[Synth] Using system MIDI out (device {d.id})"

/-- A synthesizer that has just been switched on. -/
def start (settings : AudioSettings) (d : DeviceSetup) : Work Synth Unit := do
  change fun _ => { waveform := settings.waveform, volume := settings.volume.getD 0 }
  openDevice d
  setWaveform settings.waveform
  match settings.volume with
  | .blank => throw (.blank .number)
  | .value volume => setVolume volume

end Synth

/-- An audio output: a tape that only records what it is asked, or a synthesizer. -/
inductive Audio
  | tape
  | synth (s : Synth)

namespace Audio

open Work

/-- Hands a call to a synthesizer. -/
def toSynth : SoundCall → Work Synth Unit
  | .on pitch velocity => Synth.playNote pitch velocity
  | .off pitch => Synth.stopNote pitch
  | .silence => Synth.stopAll
  | .waveform name => Synth.setWaveform (.value name)
  | .volume value => Synth.setVolume value
  | .close => Synth.close

/-- What an output does when it is asked. -/
def call (c : SoundCall) : Work Audio Unit := do
  match ← look with
  | .tape => write (.sound c)
  | .synth s => within (fun _ => s) (fun s' _ => .synth s') (toSynth c)

/-- The device of the output refuses other calls from now on. -/
def setRefusals (refuses : Nat → DeviceCall → Bool) : Audio → Audio
  | .tape => .tape
  | .synth s => .synth { s with refuses }

end Audio

end PianoRoll
