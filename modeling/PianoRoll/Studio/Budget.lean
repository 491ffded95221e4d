import PianoRoll.Studio.Perform

/-!
Running commands to the end. Every command that a listener or a timer gives is written in some
command handed in, so the commands alone bound how deep calls nest and how long loops run.
-/

namespace PianoRoll

mutual

/-- How many commands a command can lead to, itself included. -/
def Command.reach : Command → Nat
  | .schedule _ _ _ program => 1 + reachAll program
  | .subscribe _ _ program times _ => 1 + times * reachAll program
  | _ => 1

/-- How many commands a program can lead to. -/
def reachAll : List Command → Nat
  | [] => 0
  | c :: cs => c.reach + reachAll cs

end

/-- A bound on the notes of a melody. -/
def Melody.bulk : Melody → Nat
  | .notes ns => ns.length
  | .script text => text.length + 1

mutual

/-- A bound on the notes and messages that a command brings in at once. -/
def Command.bulk : Command → Nat
  | .schedule _ _ _ program | .subscribe _ _ program _ _ => bulkOf program
  | .startPlayback melody _ _ | .togglePlayback melody _ | .setNotes melody | .setGhosts melody =>
    melody.bulk
  | .setScript text => text.length + 1
  | .queueMessages _ messages => messages.length
  | _ => 0

/-- A bound on the notes and messages that commands bring in at once. -/
def bulkOf : List Command → Nat
  | [] => 0
  | c :: cs => max c.bulk (bulkOf cs)

end

/-- The bound within which commands come to an end on a studio that has just been opened: each
command in reach sets at most two timers a note and two more. -/
def budget (program : List Command) : Nat :=
  (reachAll program + 1) * (2 * bulkOf program + 4)

/-- What one command came to: its answer or fault, the studio after it, and what was written to
the journal, oldest first. -/
structure Step where
  outcome : Except Fault Answer
  studio : Studio
  entries : List Entry

namespace Studio

/-- Carries out commands within a bound; a fault ends its own command only. -/
def performAll (bound : Nat) : List Command → Studio → Option (List Step)
  | [], _ => some []
  | c :: cs, s => do
    let (outcome, s, entries) ← runAct (perform bound c) s
    return ⟨outcome, s, entries⟩ :: (← performAll bound cs s)

/-- Carries out commands on a studio that has just been opened. -/
def rehearse (program : List Command) (s : Studio) : Option (List Step) :=
  performAll (budget program) program s

end Studio

end PianoRoll
