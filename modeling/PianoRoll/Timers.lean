import PianoRoll.Heap
import PianoRoll.Number.Fixed
import PianoRoll.Number.Order

/-!
Timers: tasks that wait for a moment of the clock. A timer is known by its serial number, and a
queue holds the waiting ones by deadline, equal deadlines in the order of scheduling. Cancelling
a timer leaves it in the queue, where it is passed over.
-/

namespace PianoRoll

structure Timer (τ : Type) where
  deadline : Float
  task : τ
  cancelled : Bool := false
  fired : Bool := false

namespace Timer

variable {τ : Type}

/-- A timer that may still fire. -/
def active (t : Timer τ) : Bool := !(t.cancelled || t.fired)

/-- A timer as messages show it. -/
def describe (t : Timer τ) : String :=
  let state := if t.cancelled then "cancelled" else if t.fired then "fired" else "pending"
  s!"<TimerHandle {Number.fixed 3 t.deadline} {state}>"

end Timer

/-- A place in the queue. -/
structure Due where
  deadline : Float
  serial : Nat

/-- By deadline, then by serial number. -/
def Due.before (a b : Due) : Bool :=
  if a.deadline == b.deadline then a.serial < b.serial else a.deadline < b.deadline

/-- All timers ever scheduled, and the queue of those that have neither fired nor been passed
over. -/
structure Timers (τ : Type) where
  timers : Array (Timer τ) := #[]
  queue : Array Due := #[]

namespace Timers

variable {τ : Type}

/-- The moment a delay of milliseconds after another; a delay below zero, or of no value, is
none. -/
def deadline (base delay : Float) : Float := base + Number.larger 0 delay / 1000

/-- Adds a timer and gives its serial number. -/
def schedule (moment : Float) (task : τ) (ts : Timers τ) : Nat × Timers τ :=
  (ts.timers.size,
    ⟨ts.timers.push ⟨moment, task, false, false⟩,
     Heap.push Due.before ts.queue ⟨moment, ts.timers.size⟩⟩)

def get? (ts : Timers τ) (serial : Nat) : Option (Timer τ) := ts.timers[serial]?

/-- Whether a timer may still fire. -/
def isActive (ts : Timers τ) (serial : Nat) : Bool := (ts.get? serial).any Timer.active

/-- Keeps a timer from firing. -/
def cancel (serial : Nat) (ts : Timers τ) : Timers τ :=
  { ts with timers := ts.timers.modify serial fun t => { t with cancelled := true } }

/-- Notes that a timer has started its task. -/
def markFired (serial : Nat) (ts : Timers τ) : Timers τ :=
  { ts with timers := ts.timers.modify serial fun t => { t with fired := true } }

/-- Takes the first place of the queue if its moment has come. -/
def takeDue? (now : Float) (ts : Timers τ) : Option (Nat × Timers τ) :=
  match ts.queue[0]? with
  | none => none
  | some due =>
    if due.deadline ≤ now then
      (Heap.pop? Due.before ts.queue).map fun (d, queue) => (d.serial, { ts with queue })
    else none

/-- The serial numbers in the queue whose timers may still fire. -/
def waiting (ts : Timers τ) : List Nat :=
  (ts.queue.toList.map Due.serial).filter ts.isActive

/-- The number of timers that wait. -/
def pending (ts : Timers τ) : Nat := ts.waiting.length

/-- Cancels everything in the queue and empties it. -/
def clear (ts : Timers τ) : Timers τ :=
  { ts.queue.toList.foldl (fun ts d => ts.cancel d.serial) ts with queue := #[] }

end Timers

end PianoRoll
