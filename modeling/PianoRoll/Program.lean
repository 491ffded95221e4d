import PianoRoll.CommandLine
import PianoRoll.CrashReports
import PianoRoll.Studio.Hands
import PianoRoll.Studio.Reaction
import PianoRoll.Studio.Wiring

/-!
The program: a studio with its window, fed with inputs pass by pass until someone leaves. However
a pass ends, the instrument is left silent and every device is let go.
-/

namespace PianoRoll.Program

open Work Studio

/-- The script that stands in the editor when no other is given. -/
def starterScript : String := "octave 4\nstep 1/4\nC\nE\nG\nrest\nG\nE\nC"

def buttons : List String :=
  ["PLAY/STOP", "REPLAY", "SONG", "WAVE", "VOL-", "VOL+", "BPM-", "BPM+", "MIDI", "QUIT"]

def keyLabels : Table Int String :=
  Table.ofEntries (Keymap.default.map fun (_, p) => (p, Keymap.label Keymap.default p))

/-- The files within reach: the bytes of each or why it cannot be read. Failures are reported there,
too; the stamp is the second at which the program starts. -/
structure Disk where
  read : String → Except Fault (List UInt8)
  reports : CrashReports := {}
  stamp : Stamp := ⟨0, 0⟩

/-- Reports that a script cannot be read. -/
def Disk.report (disk : Disk) (f : Failure) : Except Fault (List Char) :=
  (disk.reports.report "load_script" f disk.stamp).1

def scriptUnreadable (disk : Disk) (path : String) (f : Failure) : Act String := do
  discard (orFail (disk.report f))
  changeDesk (·.toast s!"Cannot read {path} (see logs)" 6)
  return starterScript

/-- The text that the editor begins with: the starter script, unless another is asked for that
can be read. -/
def initialScript (disk : Disk) : Option String → Act String
  | none => return starterScript
  | some path => do
    if path.isEmpty then return starterScript
    match disk.read path with
    | .error (.file cause named) => scriptUnreadable disk path (.ofPath cause named)
    | .error f => throw f
    | .ok bytes =>
      match Text.decodeBytes bytes with
      | .ok text => return String.ofList (Text.unifyFeeds text)
      | .error cause => throw (.bytes cause)

/-- Changes the editor, and lets everyone know if its text changed. -/
def updateEditor (editor : Editor) (edited : Bool) : Act Unit := do
  changeDesk fun d => { d with editor }
  if edited then publish (deskHooks (← look)) (.textChanged (String.ofList editor.text))

def replaceText (text : String) : Act Unit := do
  updateEditor ((← look).desk.editor.setText text.toList) true

/-- Offers the editor an input; tells whether it took it. -/
def offer (i : Input) : Act Bool := do
  let o := (← look).desk.editor.handle i
  updateEditor o.editor o.edited
  return o.consumed

def subscriptions : Bus :=
  [("note_on", .desk .light), ("note_off", .desk .unlight), ("transport", .desk .settle),
   ("midi_status", .desk .announce), ("text_changed", .desk .recompile)]

/-- A studio for the settings, before anything is switched on. -/
def studio (settings : Settings) (renderer : Renderer) : Studio :=
  let s := Studio.ofSettings settings.playback
  { s with
    bus := subscriptions
    transport := { s.transport with velocity := settings.audio.velocity }
    liveVelocity := settings.audio.liveVelocity
    audio := .synth
      { waveform := settings.audio.waveform, volume := settings.audio.volume.getD 0 }
    desk :=
      { settings, renderer
        editor := Editor.create renderer.fonts renderer.editorBox []
        songIndex := match settings.ghostSong.getD none with
          | some name => if songNames.contains name then songNames.idxOf name else 0
          | none => 0 } }

def startSynth (device : DeviceSetup) : Act Unit := do
  log .info "應用程式啟動"
  let s ← look
  match s.audio with
  | .tape => return
  | .synth y =>
    within (fun _ => y) (fun y s => { s with audio := .synth y })
      (Synth.start s.desk.settings.audio device)

/-- Opens the window: the ghost melody and the script. -/
def start (disk : Disk) : Act Unit := do
  let s ← look
  loadSong songNames[s.desk.songIndex]?
  replaceText (← initialScript disk (s.desk.settings.scriptPath.getD none))

/-- Makes the next song the ghost melody; behind the last one comes none. -/
def nextSong : Act Unit := do
  let index := ((← look).desk.songIndex + 1) % (songNames.length + 1)
  changeDesk fun d => { d with songIndex := index }
  let name := songNames[index]?
  loadSong name
  changeDesk (·.toast ("Ghost: " ++ name.getD "off") 2)

def synthState : Act (String × Float) := do
  match (← look).audio with
  | .tape => return ("", 0)
  | .synth s => return (s.waveform.text, s.volume)

/-- The waveform behind another; behind the last, and behind an unknown one, comes the first. -/
def waveformAfter (name : String) : String :=
  if waveformNames.contains name then
    waveformNames[(waveformNames.idxOf name + 1) % waveformNames.length]?.getD name
  else waveformNames.headD name

def moveVolume (step : Float) : Act Unit := do
  sound (.volume ((← synthState).2 + step))

def moveBpm (step : Float) : Act Unit := do
  discard (setBpm (.number ((← look).session.bpm + step)))

/-- Starts or stops the playback, which a blank tempo does not let begin. -/
def playOrStop : Act Unit := do
  let s ← look
  match s.settings.bpm with
  | .blank =>
    if !s.transport.playing && !s.session.notes.isEmpty then throw (.blank .divisor)
  | .value _ => pure ()
  playStop (deskHooks s)

/-- Does what a button says; false is the wish to leave. -/
def pressButton (label : String) : Act Bool := do
  let h := deskHooks (← look)
  match label with
  | "PLAY/STOP" => playOrStop
  | "REPLAY" => discard (replay h)
  | "SONG" => nextSong
  | "WAVE" => sound (.waveform (waveformAfter (← synthState).1))
  | "VOL-" => moveVolume (-0.1)
  | "VOL+" => moveVolume 0.1
  | "BPM-" => moveBpm (-10)
  | "BPM+" => moveBpm 10
  | "MIDI" => discard (connect h ((← look).desk.settings.midiIn.getD none))
  | _ => pure ()
  return label != "QUIT"

/-- Does what a click outside the editor says; false is the wish to leave. -/
def click (x y : Int) : Act Bool := do
  let r := (← look).desk.renderer
  match r.buttons.find? fun (_, box) => box.holds x y with
  | some (label, _) => pressButton label
  | none =>
    match ← orFail (r.keyUnder x y) with
    | some pitch => press (deskHooks (← look)) pitch none
    | none => pure ()
    return true

/-- Does what an input says that the editor did not take; false is the wish to leave. -/
def play (i : Input) : Act Bool := do
  let h := deskHooks (← look)
  match i with
  | .key .space => playOrStop
  | .key k =>
    match Keymap.default.get? k with
    | some pitch => press h pitch none
    | none => pure ()
  | .keyUp k =>
    match Keymap.default.get? k with
    | some pitch => release h pitch
    | none => pure ()
  | .down x y 1 => return ← click x y
  | .up _ _ 1 => releaseAll h
  | _ => pure ()
  return true

/-- Does what an input says; false is the wish to leave. -/
def handle (i : Input) : Act Bool := do
  if i = .quit then return false
  if ← offer i then return true
  play i

/-- Does what inputs say, up to the first that is the wish to leave. -/
def handleAll : List Input → Act Bool
  | [] => return true
  | i :: rest => do if ← handle i then handleAll rest else return false

def tempoText : Act String := do
  let s ← look
  match s.settings.bpm with
  | .blank => throw (.blank .text)
  | .value _ => return Number.fixed 0 s.session.bpm

def statusLine : Act String := do
  let s ← look
  let tempo ← tempoText
  let (waveform, volume) ← synthState
  let percent ← orFail (Number.truncate (volume * 100))
  let onOff := if s.transport.playing then "ON" else "OFF"
  let fields := [s!"PLAY: {onOff}", s!"BPM: {tempo}",
    s!"WAVE: {waveform}", s!"VOL: {percent}%", s!"NOTES: {s.session.notes.length}"]
  return "  |  ".intercalate
    (if s.desk.message.isEmpty then fields else fields ++ [s.desk.message])

def drawing {α : Type} (p : Work Renderer α) : Act α :=
  within (·.desk.renderer) (fun renderer s => { s with desk := { s.desk with renderer } }) p

def drawStatus (seconds : Float) : Act Unit := do
  let line ← statusLine
  let title := (← look).session.song.getD ""
  changeDesk fun d => { d with status := (line, title) }
  drawing (Renderer.drawStatus buttons seconds line title)

/-- Draws the editor, with its caret in view. -/
def drawEditor : Act Unit := do
  let (editor, shapes) ← orFail (← look).desk.editor.drawn
  changeDesk fun d => { d with editor }
  shapes.forM fun s => write (.drawn s)

def draw (seconds : Float) : Act Unit := do
  drawing Renderer.beginFrame
  drawStatus seconds
  discard (render (deskHooks (← look)) (fun f => drawing (Renderer.drawFrame f)) none)
  drawEditor
  drawing (Renderer.drawPiano (← look).desk.lit.toList keyLabels)

/-- One turn of the main loop: the time that went by, what hands did, and how the MIDI system
changed. -/
structure Pass where
  milliseconds : Int := 16
  inputs : List Input := []
  change : SystemChange := {}
  messages : List (String × List Midi.Message) := []

/-- What the world does before a pass. -/
def Pass.arrive (p : Pass) (s : Studio) : Studio :=
  let system :=
    p.messages.foldl (fun sys (name, ms) => sys.enqueue name ms) (p.change.apply s.system)
  { s with clock := s.clock + Number.ofWhole p.milliseconds / 1000, system }

/-- One turn of the main loop; false is the wish to leave. -/
def turn (p : Pass) : Act Bool := do
  change p.arrive
  if ← handleAll p.inputs then
    let seconds := Number.ofWhole p.milliseconds / 1000
    changeDesk (·.fade seconds)
    discard (poll (deskHooks (← look)) none)
    draw seconds
    return true
  else return false

/-- Silences everything and lets every device go. -/
def close : Act Unit := do
  stopPlayback (deskHooks (← look))
  releaseAll (deskHooks (← look))
  closeInputs
  sound .close
  log .info "main loop finished"

/-- A studio at some moment, with what was written to the journal since the moment before. -/
structure Shot where
  studio : Studio
  entries : List Entry

/-- A run of the program: the studio after it was opened and after each drawn pass, the studio at
the end, and the fault that ended the run, if one did. -/
structure Run where
  shots : List Shot
  last : Shot
  fault : Option Fault

/-- Turns until someone leaves or something fails; when the passes are over, someone leaves.
`earlier` are the entries since the last shot. -/
def loop (earlier : List Entry) : List Pass → Studio → Option Run
  | [], s => do
    let (r, s, es) ← runAct (turn { inputs := [.quit] }) s
    return ⟨[], ⟨s, earlier ++ es⟩, match r with
      | .ok _ => none
      | .error f => some f⟩
  | p :: ps, s => do
    match ← runAct (turn p) s with
    | (.ok true, s, es) =>
      let run ← loop [] ps s
      return { run with shots := ⟨s, earlier ++ es⟩ :: run.shots }
    | (.ok false, s, es) => return ⟨[], ⟨s, earlier ++ es⟩, none⟩
    | (.error f, s, es) => return ⟨[], ⟨s, earlier ++ es⟩, some f⟩

def mainLoop (passes : List Pass) (s : Studio) : Option Run := do
  let run ← loop [.log ⟨.info, "main loop started"⟩] passes s
  let (_, s, es) ← runAct close run.last.studio
  return { run with last := ⟨s, run.last.entries ++ es⟩ }

/-- How a launch ends: the command line is refused, the program fails before there is a window, or
it ran. -/
inductive Ending
  | refused (r : CommandLine.Refusal)
  | notBegun (entries : List Entry) (f : Fault)
  | ran (r : Run)

def run (disk : Disk) (device : DeviceSetup) (passes : List Pass) (s : Studio) : Option Ending := do
  match ← runAct (startSynth device) s with
  | (.error f, _, es) => return .notBegun es f
  | (.ok (), s, es) =>
    match ← runAct (start disk) s with
    | (.error f, s, es') => return .ran ⟨[], ⟨s, es ++ es'⟩, some f⟩
    | (.ok (), s, es') =>
      let run ← mainLoop passes s
      return .ran { run with shots := ⟨s, es ++ es'⟩ :: run.shots }

/-- The disk whose files are those that reports go to. -/
def Disk.ofReports (reports : CrashReports) (stamp : Stamp) : Disk where
  read path := reports.files.read path.toList
  reports
  stamp

/-- The surroundings of a program: the files, the typefaces, the audio device, and the second at
which it starts. -/
structure Surroundings where
  files : Files (List UInt8) := {}
  fonts : Fonts := .fixedWidth
  device : DeviceSetup := {}
  stamp : Stamp := ⟨0, 0⟩

/-- The program for the words of a command line: sees to the reports of failures, makes the
directory for logs and then the window. `place` puts the studio into its surroundings. -/
def launch (words : List String) (around : Surroundings) (place : Studio → Studio)
    (passes : List Pass) : Option Ending :=
  match CommandLine.read words with
  | .error r => some (.refused r)
  | .ok settings =>
    let reports : CrashReports := { files := around.files }
    let (begun, reports) := reports.setUp (settings.log.directory.getD none) around.stamp
    let (made, reports) := reports.openDirectory
    match begun, made, Renderer.create around.fonts settings.render with
    | .ok (), .ok _, .ok renderer =>
      run (.ofReports reports around.stamp) around.device passes
        (place (studio settings renderer))
    | .error f, _, _ | .ok (), .error f, _ | .ok (), .ok _, .error f => some (.notBegun [] f)

end PianoRoll.Program
