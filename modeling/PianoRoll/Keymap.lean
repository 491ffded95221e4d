import PianoRoll.Table

/-!
Keys of the computer keyboard and the pitches they play: one octave, white keys on the home row
and black keys on the row above it.
-/

namespace PianoRoll

/-- A key. `other` is a name that no key has. -/
inductive Key
  | character (c : Char)
  | returnKey | keypadEnter | escape | backspace | delete
  | up | down | left | right | space | tab | f1
  | other (name : String)
  deriving DecidableEq, Repr

def keyCharacters : List Char := "abcdefghijklmnopqrstuvwxyz0123456789-=[];',./".toList

def Key.ofName : String → Key
  | "return" => .returnKey
  | "kp_enter" => .keypadEnter
  | "escape" => .escape
  | "backspace" => .backspace
  | "delete" => .delete
  | "up" => .up
  | "down" => .down
  | "left" => .left
  | "right" => .right
  | "space" => .space
  | "tab" => .tab
  | "f1" => .f1
  | name =>
    match name.toList with
    | [c] => if keyCharacters.contains c then .character c else .other name
    | _ => .other name

def Key.label : Key → String
  | character c => c.toString
  | returnKey => "return"
  | keypadEnter => "enter"
  | escape => "escape"
  | backspace => "backspace"
  | delete => "delete"
  | up => "up"
  | down => "down"
  | left => "left"
  | right => "right"
  | space => "space"
  | tab => "tab"
  | f1 => "f1"
  | other _ => ""

abbrev Keymap := Table Key Int

namespace Keymap

/-- The octave from middle C. -/
def default : Keymap :=
  [('a', 60), ('w', 61), ('s', 62), ('e', 63), ('d', 64), ('f', 65), ('t', 66), ('g', 67),
   ('y', 68), ('h', 69), ('u', 70), ('j', 71)].map fun (c, p) => (.character c, p)

/-- The keymap in force: an empty one stands for the default. -/
def orDefault (m : Keymap) : Keymap := if m.isEmpty then default else m

def pitch? (m : Keymap) (k : Key) : Option Int := m.orDefault.get? k

/-- The label of the first key that plays a pitch; empty if there is none. -/
def label (m : Keymap) (pitch : Int) : String :=
  match m.orDefault.find? (·.2 == pitch) with
  | some (k, _) => k.label
  | none => ""

end Keymap

end PianoRoll
