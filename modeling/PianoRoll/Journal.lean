import PianoRoll.Canvas.Shape
import PianoRoll.Command
import PianoRoll.Log

/-!
The journal: what a studio did to the world around it, in order.
-/

namespace PianoRoll

inductive Entry
  | log (line : LogLine)
  | event (e : Event)
  /-- A scripted listener heard an event. -/
  | heard (listener : String) (e : Event)
  /-- A command that a listener or a timer gave has finished. -/
  | answered (c : Command) (a : Answer)
  /-- A scheduled program has started. -/
  | started (timer : String)
  | sound (call : SoundCall)
  | deviceOpened (id : Int)
  | device (call : DeviceCall)
  | deviceReleased
  | portOpened (port : Midi.Port)
  | portClosed (port : Midi.Port)
  /-- A frame of so many notes was handed over for drawing. -/
  | shown (notes : Nat)
  | drawn (shape : Shape)

end PianoRoll
