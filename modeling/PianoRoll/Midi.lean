import PianoRoll.Log
import PianoRoll.Table

/-!
MIDI inputs: messages, ports, and the system behind them, which may answer differently each time
it is asked.
-/

namespace PianoRoll.Midi

inductive Message
  | noteOn (note velocity : Int)
  | noteOff (note velocity : Int)
  | other (type : String)
  deriving DecidableEq, Repr

/-- An opened input. Ports are told apart by the order in which they were opened. -/
structure Port where
  serial : Nat
  name : String
  deriving DecidableEq, Repr

/-- What the system answers. The number is how often it was asked before; a text is the reason of a
failure. Whether reading an input fails may also depend on how many messages it has just given. -/
structure System where
  available : Nat → List String := fun _ => []
  refusal : Nat → Option String := fun _ => none
  opening : Nat → String → Option String := fun _ _ => none
  closing : Nat → String → Option String := fun _ _ => none
  reading : Nat → String → Nat → Option String := fun _ _ _ => none
  asked : Nat := 0
  opened : Nat := 0
  queues : Table String (List Message) := []

namespace System

def listing (s : System) (n : Nat) : Except String (List String) :=
  match s.refusal n with
  | some reason => .error reason
  | none => .ok (s.available n)

def enqueue (name : String) (ms : List Message) (s : System) : System :=
  { s with queues := s.queues.put name ((s.queues.get? name).getD [] ++ ms) }

/-- The first message that waits on an input, and the system without it. -/
def dequeue? (name : String) (s : System) : Option (Message × System) :=
  match s.queues.get? name with
  | some (m :: ms) => some (m, { s with queues := s.queues.put name ms })
  | _ => none

def backlog (s : System) : Nat := s.queues.foldl (fun n (_, ms) => n + ms.length) 0

end System

def statusText (count : Int) : String :=
  let s := if count = 1 then "" else "s"
  s!"MIDI connected: {count} input{s} available"

/-- The inputs that are held, by name, and how the connection stands. -/
structure Inputs where
  ports : Table String Port := []
  wanted : Option String := none
  connected : Bool := false
  status : String := "MIDI not connected"
  lastScan : Float := 0
  rescanSeconds : Float := 1

end PianoRoll.Midi
