import PianoRoll.Fault

/-!
The songs that can be shown as ghost melodies, by name and script.
-/

namespace PianoRoll

/-- The songs in the order in which they are offered. -/
def songs : List (String × String) := [
  ("Scale", "step 1/8\nC\nD\nE\nF\nG\nA\nB\noctave 5\nC"),
  ("Twinkle Twinkle",
    "step 1/4\nC\nC\nG\nG\nA\nA\nstep 1/2\nG\nstep 1/4\nF\nF\nE\nE\nD\nD\nstep 1/2\nC\n"),
  ("Ode to Joy",
    "step 1/4\nE\nE\nF\nG\nG\nF\nE\nD\nC\nC\nD\nE\nstep 3/8\nE\nstep 1/8\nD\nstep 1/2\nD\n"),
  ("Mary Had a Little Lamb",
    "step 1/4\nE\nD\nC\nD\nE\nE\nstep 1/2\nE\nstep 1/4\nD\nD\nstep 1/2\nD\nstep 1/4\nE\nG\nstep 1/2\nG\n"),
  ("Frere Jacques",
    "step 1/4\nC\nD\nE\nC\nC\nD\nE\nC\nE\nF\nstep 1/2\nG\nstep 1/4\nE\nF\nstep 1/2\nG\n")]

def songNames : List String := songs.map (·.1)

def songScript (name : String) : Except Fault String :=
  match songs.lookup name with
  | some script => .ok script
  | none => .error (.unknownSong name)

end PianoRoll
