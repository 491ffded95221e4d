import PianoRoll.Melody.Note

/-!
A frame: everything that one refresh of the roll shows.
-/

namespace PianoRoll

/-- The creatures that stand for notes. -/
def monsterNames : List String :=
  ["slime", "bat", "ghost", "skull", "imp", "frog", "crab", "owl"]

/-- While playing, notes, ghosts and extent are those of the moment when playback began. -/
structure Frame where
  notes : List Note
  ghosts : List Note
  extent : Extent
  playing : Bool
  elapsed : Float
  elapsedBeats : Float
  viewStart : Float
  viewEnd : Float
  startDelay : Float
  swing : Bool := false
  marker : Float := 0
  struck : List Nat := []
  monsters : List String := monsterNames

end PianoRoll
