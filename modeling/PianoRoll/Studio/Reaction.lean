import PianoRoll.Studio.Rehearsal

/-!
What the desk does with the events of the studio. None of its reactions calls back.
-/

namespace PianoRoll.Studio

open Work

/-- Changes the desk. -/
def changeDesk (f : Desk → Desk) : Act Unit := change fun s => { s with desk := f s.desk }

/-- The notes of a script and what is wrong with it. -/
def checkScript {σ : Type} (text : String) : Work σ (List Note × Option Fault) := do
  let r := Script.compile text
  r.remarks.forM fun m => log .debug m.message
  match r.notes with
  | .ok notes => return (notes, none)
  | .error f => return ([], some f)

/-- Takes over the edited text. -/
def recompile (text : String) : Act Unit := do
  let (notes, fault) ← checkScript text
  changeDesk fun d => { d with editor := { d.editor with error := fault.map Fault.message } }
  changeSession (·.setNotes notes)

/-- What the desk does with an event. -/
def react : Reaction → Event → Act Unit
  | .light, .noteOn pitch _ _ => changeDesk fun d => { d with lit := d.lit.insert pitch }
  | .unlight, .noteOff pitch _ => changeDesk fun d => { d with lit := d.lit.erase pitch }
  | .settle, .transport false => change fun s => { s with desk := { s.desk with lit := s.held } }
  | .announce, .midiStatus status => changeDesk (·.toast status 5)
  | .recompile, .textChanged text => recompile text
  | _, _ => return

/-- The hooks of a studio that only the desk listens to. No reaction sets timers or queues
messages, so loops end within what waits when they begin. -/
def deskHooks (s : Studio) : Hooks where
  hear
    | .desk r, e => react r e
    | .scripted _, _ => return
  run _ _ := return
  patience := s.timers.queue.size + s.system.backlog + 1

end PianoRoll.Studio
