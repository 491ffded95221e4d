import PianoRoll.Keymap

/-!
What a hand does: mouse buttons, motion, typed text and keys, and the wish to leave.
-/

namespace PianoRoll

inductive Input
  | down (x y : Int) (button : Int)
  | up (x y : Int) (button : Int)
  | motion (x y : Int)
  | text (s : String)
  | key (k : Key)
  | keyUp (k : Key)
  | quit
  deriving DecidableEq, Repr

end PianoRoll
