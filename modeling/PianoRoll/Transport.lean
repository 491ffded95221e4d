import PianoRoll.Melody.Extent
import PianoRoll.Number.Whole
import PianoRoll.Settings

/-!
The transport: whether playback runs, since when, and what it plays. Beats become milliseconds by
the tempo of the run, and a melody becomes triggers on the beats of its notes, the last of which
ends the run.
-/

namespace PianoRoll

/-- What happens at a moment of playback. -/
inductive Trigger
  | noteOn (n : Note)
  | noteOff (n : Note)
  | finish

structure Transport where
  playing : Bool := false
  /-- When the run began. -/
  start : Option Float := none
  /-- The timers of the run that are still to come. -/
  pending : List Nat := []
  /-- Which way the striker swings. -/
  swing : Bool := false
  /-- How far down the roll the striker stands, from zero to one. -/
  marker : Float := 0
  velocity : Float := 1
  bpm : Float := 120
  notes : List Note := []
  extent : Option Extent := none

/-- The milliseconds that beats last, over any numbers. -/
def millisecondsOf {α : Type} [Mul α] [Div α] [OfNat α 1000] (reference bpm beats : α) : α :=
  beats * 1000 * (reference / bpm)

/-- The beats that go by in seconds, when a beat lasts the given milliseconds. -/
def beatsOf {α : Type} [Mul α] [Div α] [OfNat α 1000] (msPerBeat seconds : α) : α :=
  seconds * 1000 / msPerBeat

/-- The seconds since a moment, none before it. -/
def secondsSince (start now : Float) : Float := Number.larger 0 (now - start)

/-- A tempo if one is given; no tempo and the tempo zero stand for the other one. -/
def orTempo (bpm : Option Float) (other : Float) : Float :=
  match bpm with
  | some x => if x == 0 then other else x
  | none => other

/-- The milliseconds that beats last at a tempo, which must not be zero. -/
def beatsToMs (reference bpm beats : Float) : Except Fault Float :=
  if bpm == 0 then .error .realDivision else .ok (millisecondsOf reference bpm beats)

/-- The triggers of a melody with their beats, each note's end behind its beginning and the end of
the run last. -/
def triggers (lead : Float) (notes : List Note) : List (Float × Trigger) :=
  notes.flatMap (fun n => [(n.start + lead, .noteOn n), (n.finish + lead, .noteOff n)])
    ++ [(totalBeats notes + lead, .finish)]

/-- How far down the lanes of an extent a pitch stands. -/
def markerOf (r : Extent) (pitch : Int) : Except Fault Float :=
  Number.quotient (r.high - pitch) r.rows

namespace Transport

/-- The seconds that the run has lasted, zero when there is none. -/
def elapsed (t : Transport) (now : Float) : Float :=
  match t.playing, t.start with
  | true, some start => secondsSince start now
  | _, _ => 0

/-- The beats that the run has lasted at its tempo. -/
def elapsedBeats (t : Transport) (reference now : Float) : Except Fault Float := do
  let msPerBeat ← beatsToMs reference t.bpm 1
  if msPerBeat == 0 then .error .realDivision else .ok (beatsOf msPerBeat (t.elapsed now))

end Transport

end PianoRoll
