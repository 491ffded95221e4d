import PianoRoll.Script.Compile
import PianoRoll.Songs
import PianoRoll.Studio.Playback

/-!
The session at work: melodies are taken over from notes, scripts and songs, played, and shown
frame by frame.
-/

namespace PianoRoll.Studio

open Work

/-- The notes of a script; what is wrong with it goes to the log. -/
def readScript {σ : Type} (text : String) : Work σ (List Note) := do
  let r := Script.compile text
  r.remarks.forM fun m => log .debug m.message
  match r.notes with
  | .ok notes => return notes
  | .error f =>
    log .debug s!"script rejected: {f.message}"
    return []

/-- The notes of a melody as it was handed in. -/
def readMelody {σ : Type} : Melody → Work σ (List Note)
  | .notes ns => return ns
  | .script text => readScript text

/-- Changes the session. -/
def changeSession (f : Session → Session) : Act Unit :=
  change fun s => { s with session := f s.session }

/-- Takes over a script and gives its notes. -/
def setScript (text : String) : Act (List Note) := do
  let notes ← readScript text
  changeSession (·.setNotes notes)
  return notes

/-- The ghost melody of a song; no song has none. -/
def songNotes : Option String → Act (List Note)
  | none => return []
  | some name => do
    if name.isEmpty then return []
    readScript (← orFail (songScript name))

/-- Makes a song the ghost melody. -/
def loadSong (name : Option String) : Act Unit := do
  changeSession fun s => { s with song := name }
  let notes ← songNotes name
  changeSession (·.setGhosts notes)
  let shown := match name with
    | some n => if n.isEmpty then "-" else n
    | none => "-"
  log .info s!"ghost song: {shown}"

/-- The number that a tempo is handed in as. -/
def readTempo : TempoText → Except Fault Float
  | .whole n => Number.ofWhole? n
  | .number x => .ok x
  | .text s => match Number.read? s.toList with
    | some x => .ok x
    | none => .error (.notNumber s)

/-- Sets the tempo of the runs to come, within the limits, and gives it. -/
def setBpm (bpm : TempoText) : Act Float := do
  let x ← orFail (readTempo bpm)
  let settings := (← look).settings
  changeSession (·.setBpm settings x)
  return (← look).session.bpm

/-- Puts the monsters into the next order. -/
def shuffle : Act (List String) := do
  let s ← look
  let monsters := match s.shuffles with
    | [] => monsterNames
    | order :: _ => reorder order monsterNames
  change fun s => { s with shuffles := s.shuffles.tail }
  changeSession fun s => { s with monsters }
  return monsters

/-- Plays the melody, unless a run is under way or there is none. -/
def play (h : Hooks) : Act Bool := do
  let s ← look
  if s.transport.playing || s.session.notes.isEmpty then return false
  discard shuffle
  changeSession fun s => { s with playedGhosts := s.ghosts }
  startPlayback h s.session.notes s.session.bpm
    (Extent.of? (s.session.notes ++ s.session.ghosts))

/-- Stops if a run is under way, plays if not. -/
def playStop (h : Hooks) : Act Unit := do
  if (← look).transport.playing then stopPlayback h else discard (play h)

/-- Plays from the beginning. -/
def replay (h : Hooks) : Act Bool := do
  stopPlayback h
  play h

/-- The frame of a moment. -/
def frame (now : Option Float) : Act (Option Frame) := do
  let s ← look
  orFail (s.session.frame? s.transport s.settings (← moment now))

/-- Fires what is due and hands the frame of the moment over for drawing. -/
def render (h : Hooks) (draw : Frame → Act Unit) (now : Option Float) : Act (Option Frame) := do
  discard (pump h now)
  match ← frame now with
  | none => return none
  | some f =>
    draw f
    return some f

end PianoRoll.Studio
