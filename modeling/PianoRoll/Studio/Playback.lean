import PianoRoll.Number.Fixed
import PianoRoll.Studio.Publish

/-!
Playback: starting and ending a run, what its triggers do, and the pump that fires timers. All
timers of a run are measured from the moment it began, and ending it cancels those that are left.
-/

namespace PianoRoll.Studio

open Work

/-- Changes the transport. -/
def changeTransport (f : Transport → Transport) : Act Unit :=
  change fun s => { s with transport := f s.transport }

/-- Schedules a task and gives the serial number of its timer. -/
def schedule (moment : Float) (task : Task) : Act Nat := do
  let (serial, timers) := (← look).timers.schedule moment task
  change fun s => { s with timers }
  return serial

/-- Schedules a trigger some beats after the beginning of a run. -/
def scheduleTrigger (start : Float) (beats : Float) (t : Trigger) : Act Nat := do
  let s ← look
  let delay ← orFail (beatsToMs s.settings.referenceBpm s.transport.bpm beats)
  schedule (Timers.deadline start delay) (.playback t)

/-- Schedules triggers one after the other. -/
def scheduleAll (start : Float) : List (Float × Trigger) → Act (List Nat)
  | [] => return []
  | (beats, t) :: rest => do
    let serial ← scheduleTrigger start beats t
    return serial :: (← scheduleAll start rest)

/-- Starts a run, unless one is under way or there is nothing to play. -/
def startPlayback (h : Hooks) (notes : List Note) (bpm : Option Float) (extent : Option Extent) :
    Act Bool := do
  let s ← look
  if s.transport.playing || notes.isEmpty then return false
  let bpm := orTempo bpm s.settings.tempo
  changeTransport fun t => { t with bpm, notes, extent := extent.or (Extent.of? notes) }
  let pending ← scheduleAll s.clock (triggers s.settings.startDelay notes)
  changeTransport fun t => { t with pending, start := some s.clock, playing := true }
  log .info s!"playback started: {notes.length} notes, bpm={Number.fixed 1 bpm}"
  publish h (.transport true)
  return true

/-- Ends the run: its timers are cancelled and everything falls silent. -/
def stopPlayback (h : Hooks) : Act Unit := do
  let s ← look
  change fun s => { s with timers := s.transport.pending.foldl (fun ts n => ts.cancel n) s.timers }
  changeTransport fun t => { t with pending := [] }
  sound .silence
  changeTransport fun t => { t with playing := false, start := none }
  if s.transport.playing then
    log .info "playback stopped"
    publish h (.transport false)

/-- Ends the run, or starts one. -/
def togglePlayback (h : Hooks) (notes : List Note) (bpm : Option Float) : Act Unit := do
  if (← look).transport.playing then stopPlayback h
  else discard (startPlayback h notes bpm none)

/-- Moves the striker to a pitch. -/
def strike (pitch : Int) : Act Unit := do
  changeTransport fun t => { t with swing := !t.swing }
  match (← look).transport.extent with
  | none => return
  | some r =>
    let marker ← orFail (markerOf r pitch)
    changeTransport fun t => { t with marker }

/-- Does what the run has for this moment. -/
def trigger (h : Hooks) : Trigger → Act Unit
  | .noteOn n => do
    sound (.on (.whole n.pitch) (← look).transport.velocity)
    strike n.pitch
    publish h (.noteOn n.pitch .playback none)
  | .noteOff n => do
    sound (.off (.whole n.pitch))
    publish h (.noteOff n.pitch .playback)
  | .finish => do
    log .debug "playback reached the end"
    stopPlayback h

/-- Does the task of a timer. -/
def runTask (h : Hooks) (serial : Nat) : Task → Act Unit
  | .playback t => do
    changeTransport fun t => { t with pending := t.pending.erase serial }
    trigger h t
  | .program name commands => h.run name commands

/-- Fires a timer, unless it was cancelled; tells whether it did. -/
def fire (h : Hooks) (serial : Nat) : Act Bool := do
  match (← look).timers.get? serial with
  | none => return false
  | some t =>
    if t.cancelled then return false
    change fun s => { s with timers := s.timers.markFired serial }
    runTask h serial t.task
    return true

/-- Fires what is due, one timer after the other, and counts on from `fired`. -/
def drain (h : Hooks) (now : Float) : Nat → Nat → Act Nat
  | 0, _ => unfinished
  | n + 1, fired => do
    match (← look).timers.takeDue? now with
    | none => return fired
    | some (serial, timers) =>
      change fun s => { s with timers }
      let did ← fire h serial
      drain h now n (if did then fired + 1 else fired)

/-- Fires every timer that is due, and tells how many there were. -/
def pump (h : Hooks) (now : Option Float) : Act Nat := do
  drain h (← moment now) h.patience 0

end PianoRoll.Studio
