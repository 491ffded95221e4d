import PianoRoll.Number.Whole
import PianoRoll.Studio.Publish

/-!
MIDI inputs at work: opening and closing ports, following the system's list as inputs come and
go, and passing on what is played on them.
-/

namespace PianoRoll.Studio

open Work Midi

def changeInputs (f : Inputs → Inputs) : Act Unit :=
  change fun s => { s with inputs := f s.inputs }

/-- Asks the system something; what it answers may depend on how often it was asked. -/
def ask {α : Type} (question : System → Nat → α) : Act α := do
  let s ← look
  change fun s => { s with system := { s.system with asked := s.system.asked + 1 } }
  return question s.system s.system.asked

/-- Opens an input and holds its port; or gives the reason why it does not open. -/
def openPort (name : String) : Act (Option String) := do
  match ← ask fun sys n => sys.opening n name with
  | some reason => return reason
  | none =>
    let port : Port := ⟨(← look).system.opened, name⟩
    change fun s => { s with system := { s.system with opened := s.system.opened + 1 } }
    write (.portOpened port)
    changeInputs fun i => { i with ports := i.ports.put name port }
    return none

/-- Closes a port. -/
def closePort (port : Port) : Act Unit := do
  write (.portClosed port)
  if (← ask fun sys n => sys.closing n port.name).isSome then
    log .debug "closing MIDI port failed"

/-- Closes every port that is held. -/
def closeInputs : Act Unit := do
  (← look).inputs.ports.forM fun (_, port) => closePort port
  changeInputs fun i => { i with ports := [], connected := false }

/-- Opens inputs one after the other, up to the first that does not open. -/
def openPorts : List String → Act (Option String)
  | [] => return none
  | name :: rest => do
    match ← openPort name with
    | some reason => return reason
    | none => openPorts rest

/-- The inputs to open: the one asked for, or all that the system lists. -/
def namesToOpen : Option String → Act (Except String (List String))
  | some name => if name.isEmpty then ask System.listing else return .ok [name]
  | none => ask System.listing

/-- Opens the inputs asked for; or gives the reason of the first failure. -/
def openNamed (name : Option String) : Act (Option String) := do
  match ← namesToOpen name with
  | .error reason => return reason
  | .ok names => openPorts names

/-- Says how many inputs are held. -/
def countInputs : Act Unit :=
  changeInputs fun i => { i with status := statusText i.ports.length }

/-- Lets everyone know how the connection stands. -/
def publishStatus (h : Hooks) : Act Unit := do
  publish h (.midiStatus (← look).inputs.status)

/-- Connects to one input, or to all. If anything fails, nothing stays open. -/
def connect (h : Hooks) (name : Option String) : Act Bool := do
  closeInputs
  changeInputs fun i => { i with wanted := name }
  match ← openNamed name with
  | none =>
    changeInputs fun i => { i with connected := true }
    countInputs
  | some reason =>
    log .warning s!"MIDI connect failed: {reason}"
    closeInputs
    changeInputs fun i => { i with status := s!"Failed to connect MIDI: {reason}" }
  let now := (← look).clock
  changeInputs fun i => { i with lastScan := now }
  publishStatus h
  return (← look).inputs.connected

/-- The names that matter when only one input is wanted. -/
def wantedAmong (wanted : Option String) (names : List String) : List String :=
  match wanted with
  | some w => if w.isEmpty then names else names.filter (· == w)
  | none => names

/-- Closes a port whose input is gone. -/
def dropPort (name : String) (port : Port) : Act Unit := do
  changeInputs fun i => { i with ports := i.ports.erase name }
  closePort port
  log .info s!"MIDI input removed: {name}"

/-- Opens an input that has come, if it is not held already; tells whether it did. -/
def addPort (name : String) : Act Bool := do
  if ((← look).inputs.ports.get? name).isSome then return false
  match ← openPort name with
  | some reason =>
    log .warning s!"MIDI input {name} could not be opened: {reason}"
    return false
  | none =>
    log .info s!"MIDI input added: {name}"
    return true

/-- Opens the inputs that have come; tells whether there were any. -/
def addPorts : List String → Act Bool
  | [] => return false
  | name :: rest => do
    let added ← addPort name
    return (← addPorts rest) || added

/-- Follows the system's list of inputs; tells whether anything changed. -/
def rescan (h : Hooks) : Act Bool := do
  match ← ask System.listing with
  | .error _ =>
    log .debug "MIDI rescan failed"
    return false
  | .ok listed =>
    let i := (← look).inputs
    let names := wantedAmong i.wanted listed
    let gone := i.ports.filter fun (name, _) => !names.contains name
    gone.forM fun (name, port) => dropPort name port
    let added ← addPorts names
    let changed := !gone.isEmpty || added
    if changed then
      countInputs
      publishStatus h
    return changed

/-- Passes a message on; tells whether it was one about a note. -/
def receive (h : Hooks) : Message → Act Bool
  | .noteOn note velocity => do
    if 0 < velocity then
      sound (.on (.whole note) (← orFail (Number.quotient velocity 127)))
      publish h (.noteOn note .midi (some velocity))
      return true
    else if velocity = 0 then noteOff note
    else return false
  | .noteOff note _ => noteOff note
  | .other _ => return false
where
  noteOff (note : Int) : Act Bool := do
    sound (.off (.whole note))
    publish h (.noteOff note .midi)
    return true

/-- Passes on the messages that wait on an input, and counts on from `handled`. The system is asked
for each of them and then once more, and may fail each time; `taken` were given before. -/
def readMessages (h : Hooks) (name : String) : (patience taken handled : Nat) → Act Nat
  | 0, _, _ => unfinished
  | n + 1, taken, handled => do
    match ← ask fun sys n => sys.reading n name taken with
    | some reason => throw (.device reason)
    | none =>
      match (← look).system.dequeue? name with
      | none => return handled
      | some (m, system) =>
        change fun s => { s with system }
        let did ← receive h m
        readMessages h name n (taken + 1) (if did then handled + 1 else handled)

/-- Reads ports one after the other, and counts on from `handled`. -/
def readPorts (h : Hooks) : List Port → Nat → Act Nat
  | [], handled => return handled
  | port :: rest, handled => do
    readPorts h rest (← readMessages h port.name h.patience 0 handled)

/-- Follows the system's list if it was not looked at for a while. -/
def rescanIfDue (h : Hooks) (now : Option Float) : Act Unit := do
  let i := (← look).inputs
  if i.connected then
    let now ← moment now
    if i.rescanSeconds ≤ now - i.lastScan then
      changeInputs fun i => { i with lastScan := now }
      discard (rescan h)

/-- Passes on everything that was played on the inputs, and tells how many messages were about
notes. -/
def poll (h : Hooks) (now : Option Float) : Act Nat := do
  rescanIfDue h now
  readPorts h ((← look).inputs.ports.map (·.2)) 0

end PianoRoll.Studio
