import PianoRoll.Event

/-!
The bus: who listens to which kind of event, in the order of subscription. A listener that
subscribed twice hears an event twice.
-/

namespace PianoRoll

/-- What the program's own desk does with an event. -/
inductive Reaction
  /-- Lights the key of a note that begins. -/
  | light
  /-- Puts out the key of a note that ends. -/
  | unlight
  /-- Leaves only the held keys lit when playback ends. -/
  | settle
  /-- Shows the state of the MIDI inputs. -/
  | announce
  /-- Takes over the edited script. -/
  | recompile
  deriving DecidableEq, Repr

inductive Listener
  | scripted (name : String)
  | desk (r : Reaction)
  deriving DecidableEq, Repr

/-- A listener as messages show it. -/
def Listener.describe : Listener → String
  | scripted name => s!"<{name}>"
  | desk _ => "<desk>"

/-- The subscriptions, oldest first. -/
abbrev Bus := List (String × Listener)

namespace Bus

/-- Adds a subscription behind the others. -/
def subscribe (kind : String) (l : Listener) (bus : Bus) : Bus := bus ++ [(kind, l)]

/-- Takes out the oldest subscription of a listener to a kind. -/
def unsubscribe (kind : String) (l : Listener) (bus : Bus) : Bus := bus.erase (kind, l)

def listeners (kind : String) (bus : Bus) : List Listener :=
  (bus.filter (·.1 == kind)).map (·.2)

end Bus

end PianoRoll
