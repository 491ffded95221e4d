import PianoRoll.Studio.Publish

/-!
Notes played by hand. A pitch sounds from its first press to its first release, whatever plays
beside it.
-/

namespace PianoRoll.Studio

open Work

/-- Presses a key; a key that is held stays so. -/
def press (h : Hooks) (pitch : Int) (velocity : Option Float) : Act Unit := do
  let s ← look
  if pitch ∈ s.held then return
  change fun s => { s with held := s.held.insert pitch }
  sound (.on (.whole pitch) (velocity.getD s.liveVelocity))
  publish h (.noteOn pitch .live none)

/-- Releases a key that is held. -/
def release (h : Hooks) (pitch : Int) : Act Unit := do
  if pitch ∈ (← look).held then
    change fun s => { s with held := s.held.erase pitch }
    sound (.off (.whole pitch))
    publish h (.noteOff pitch .live)

/-- Releases every key that is held now, from the lowest. -/
def releaseAll (h : Hooks) : Act Unit := do
  (← look).held.toList.forM (release h)

end PianoRoll.Studio
