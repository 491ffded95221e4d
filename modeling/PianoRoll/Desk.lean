import PianoRoll.PitchSet
import PianoRoll.Renderer
import PianoRoll.Songs

/-!
The desk: the window's own state beside the studio, which is the editor, the lit keys, a passing
message and the song that was picked.
-/

namespace PianoRoll

structure Desk where
  settings : Settings := {}
  renderer : Renderer := {}
  editor : Editor := { box := ⟨0, 0, 0, 0⟩ }
  /-- The pitches that sound, from whatever source. -/
  lit : PitchSet := .empty
  message : String := ""
  /-- The seconds for which the message stays. -/
  messageTime : Float := 0
  songIndex : Nat := 0
  /-- The status line and the title drawn last. -/
  status : String × String := ("", "")

namespace Desk

def toast (message : String) (seconds : Float) (d : Desk) : Desk :=
  { d with message, messageTime := Number.larger d.messageTime seconds }

/-- Lets seconds go by; a message whose time is over disappears. -/
def fade (seconds : Float) (d : Desk) : Desk :=
  if 0 < d.messageTime then
    let left := d.messageTime - seconds
    if left ≤ 0 then { d with message := "", messageTime := 0 } else { d with messageTime := left }
  else d

end Desk

end PianoRoll
