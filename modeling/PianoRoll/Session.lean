import PianoRoll.Frame
import PianoRoll.Melody.Extent
import PianoRoll.Melody.Strike
import PianoRoll.Number.Order
import PianoRoll.Transport

/-!
The session: the melody, the ghost melody beside it, and what follows from the two, which is the
extent and the window of beats in view.
-/

namespace PianoRoll

structure Session where
  notes : List Note := []
  ghosts : List Note := []
  extent : Option Extent := none
  viewStart : Float := 0
  viewEnd : Float := 0
  bpm : Float := 120
  song : Option String := none
  monsters : List String := monsterNames
  /-- The ghost melody of the current run. -/
  playedGhosts : List Note := []

namespace Session

/-- Extent and view follow the melodies. -/
def measure (s : Session) : Session :=
  { s with
    extent := Extent.of? (s.notes ++ s.ghosts)
    viewStart := 0
    viewEnd := totalBeats (s.notes ++ s.ghosts) }

def setNotes (notes : List Note) (s : Session) : Session := { s with notes }.measure

def setGhosts (ghosts : List Note) (s : Session) : Session := { s with ghosts }.measure

/-- The tempo asked for, held between the limits. -/
def setBpm (p : PlaybackSettings) (bpm : Float) (s : Session) : Session :=
  { s with bpm := Number.clamp p.minBpm p.maxBpm bpm }

/-- What is shown now. While playing these are the melodies and the extent of the run. -/
def shown (s : Session) (t : Transport) : List Note × List Note × Option Extent :=
  if t.playing then (t.notes, s.playedGhosts, t.extent) else (s.notes, s.ghosts, s.extent)

/-- The frame of this moment; there is none when nothing can be shown. -/
def frame? (s : Session) (t : Transport) (p : PlaybackSettings) (now : Float) :
    Except Fault (Option Frame) :=
  match s.shown t with
  | (_, _, none) => .ok none
  | (notes, ghosts, some extent) => do
    return some
      { notes, ghosts, extent
        playing := t.playing
        elapsed := t.elapsed now
        elapsedBeats := ← t.elapsedBeats p.referenceBpm now
        viewStart := s.viewStart
        viewEnd := s.viewEnd
        startDelay := p.startDelay
        swing := t.swing
        marker := t.marker
        struck := struckGhosts p.strikeTolerance ghosts notes
        monsters := s.monsters }

end Session

/-- The elements of a list in another order; places beyond its end give nothing. -/
def reorder {α : Type} (order : List Nat) (xs : List α) : List α := order.filterMap (xs[·]?)

end PianoRoll
