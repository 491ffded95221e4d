import PianoRoll.Studio.Hands
import PianoRoll.Studio.Reaction
import PianoRoll.Studio.Wiring

/-!
Carrying out commands. Listeners and timers give commands themselves, so one command may lead to
many; how many is bounded by what the commands say.
-/

namespace PianoRoll.Studio

open Work

/-- The timer that goes by a name. -/
def timerNamed (name : String) : Act Nat := do
  match (← look).named.get? name with
  | some serial => return serial
  | none => throw (.unknownTimer name)

/-- Schedules a program under a name; a name used again stands for the new timer. -/
def scheduleProgram (name : String) (delay : Float) (now : Option Float)
    (program : List Command) : Act Unit := do
  let serial ← schedule (Timers.deadline (← moment now) delay) (.program name program)
  change fun s => { s with named := s.named.put name serial }

/-- Subscribes a listener; its first subscription says what it does. -/
def subscribe (listener kind : String) (cue : Cue) : Act Unit := change fun s =>
  { s with
    cues := if (s.cues.get? listener).isSome then s.cues else s.cues.put listener cue
    bus := s.bus.subscribe kind (.scripted listener) }

/-- Carries out a command, calling back by the given hooks. -/
def carryOut (h : Hooks) : Command → Act Answer
  | .advance seconds => do
    change fun s => { s with clock := s.clock + seconds }
    return .real (← look).clock
  | .fail message => throw (.failure message)
  | .schedule name delay now program => do
    scheduleProgram name delay now program
    return .nothing
  | .cancel name => do
    let serial ← timerNamed name
    change fun s => { s with timers := s.timers.cancel serial }
    return .nothing
  | .pump now | .tick now => return .count (← pump h now)
  | .countTimers => return .count (← look).timers.pending
  | .clearTimers => do
    change fun s => { s with timers := s.timers.clear }
    return .nothing
  | .describeTimer name => do
    let serial ← timerNamed name
    return match (← look).timers.get? serial with
      | some t => .text t.describe
      | none => .nothing
  | .startPlayback melody bpm extent => do
    return .truth (← startPlayback h (← readMelody melody) bpm extent)
  | .togglePlayback melody bpm => do
    togglePlayback h (← readMelody melody) bpm
    return .nothing
  | .stopPlayback | .stop => do
    stopPlayback h
    return .nothing
  | .beatsToMs beats bpm => do
    let s ← look
    return .real (← orFail
      (PianoRoll.beatsToMs s.settings.referenceBpm (orTempo bpm s.transport.bpm) beats))
  | .elapsed now => do
    return .real ((← look).transport.elapsed (← moment now))
  | .elapsedBeats now => do
    let s ← look
    return .real (← orFail (s.transport.elapsedBeats s.settings.referenceBpm (← moment now)))
  | .setVelocity velocity => do
    changeTransport fun t => { t with velocity }
    return .nothing
  | .setNotes melody => do
    let notes ← readMelody melody
    changeSession (·.setNotes notes)
    return .nothing
  | .setGhosts melody => do
    let notes ← readMelody melody
    changeSession (·.setGhosts notes)
    return .nothing
  | .setScript text => return .notes (← setScript text)
  | .loadSong name => do
    loadSong name
    return .nothing
  | .listSongs => return .texts songNames
  | .setBpm bpm => return .real (← setBpm bpm)
  | .play => return .truth (← play h)
  | .playStop => do
    playStop h
    return .nothing
  | .replay => return .truth (← replay h)
  | .shuffle => return .texts (← shuffle)
  | .frame now => return .frame (← frame now)
  | .render now => return .frame (← render h (fun f => write (.shown f.notes.length)) now)
  | .press pitch velocity => do
    press h pitch velocity
    return .nothing
  | .release pitch => do
    release h pitch
    return .nothing
  | .releaseAll => do
    releaseAll h
    return .nothing
  | .changeSystem c => do
    change fun s => { s with system := c.apply s.system }
    return .nothing
  | .queueMessages port messages => do
    change fun s => { s with system := s.system.enqueue port messages }
    return .nothing
  | .connect name => return .truth (← connect h name)
  | .rescan => return .truth (← rescan h)
  | .poll now => return .count (← poll h now)
  | .receive message => return .truth (← receive h message)
  | .closeInputs => do
    closeInputs
    return .nothing
  | .subscribe listener kind program times failure => do
    subscribe listener kind ⟨program, times, failure⟩
    return .truth true
  | .unsubscribe listener kind => do
    change fun s => { s with bus := s.bus.unsubscribe kind (.scripted listener) }
    return .nothing
  | .publish e => do
    match e.takenName? with
    | some name => throw (.nameTaken name)
    | none => publish h e
    return .nothing
  | .sound c => do
    sound c
    return .nothing
  | .setRefusals refuses => do
    change fun s => { s with audio := s.audio.setRefusals refuses }
    return .nothing

/-- Carries out a program one command after the other, noting each answer. -/
def obey (perform : Command → Act Answer) (program : List Command) : Act Unit :=
  program.forM fun c => do write (.answered c (← perform c))

/-- What a scripted listener does with an event. -/
def hearScripted (perform : Command → Act Answer) (name : String) (e : Event) : Act Unit := do
  write (.heard name e)
  match (← look).cues.get? name with
  | none => return
  | some cue =>
    match cue.failure with
    | some reason => throw (.failure reason)
    | none =>
      if 0 < cue.times then
        change fun s => { s with cues := s.cues.put name { cue with times := cue.times - 1 } }
        obey perform cue.program

/-- The hooks of a studio whose listeners and timers give commands. -/
def scriptedHooks (perform : Command → Act Answer) (patience : Nat) : Hooks where
  hear
    | .desk r, e => react r e
    | .scripted name, e => hearScripted perform name e
  run name program := do
    write (.started name)
    obey perform program
  patience

/-- Carries out a command, giving up when calls nest deeper, or loops run longer, than the
bound. -/
def perform : Nat → Command → Act Answer
  | 0, _ => unfinished
  | n + 1, c => carryOut (scriptedHooks (perform n) n) c

end PianoRoll.Studio
