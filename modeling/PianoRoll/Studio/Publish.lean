import PianoRoll.Studio.State

/-!
Publishing: an event goes to everyone who listened when it was published, in order of
subscription. A listener that fails is logged and does not keep the others from hearing it.
-/

namespace PianoRoll.Studio

open Work

/-- Writes an event to the journal, as often as its kind is recorded. -/
def record (e : Event) : Act Unit := do
  ((← look).recorded.filter (· == e.kind)).forM fun _ => write (.event e)

/-- Lets one listener hear an event. -/
def deliver (h : Hooks) (e : Event) (l : Listener) : Act Unit :=
  tryCatch (h.hear l e) fun _ =>
    log .error s!"event handler failed: kind={e.kind} handler={l.describe}"

/-- Lets everyone who listens hear an event. -/
def publish (h : Hooks) (e : Event) : Act Unit := do
  record e
  ((← look).bus.listeners e.kind).forM (deliver h e)

/-- Asks the audio output for something. -/
def sound (c : SoundCall) : Act Unit :=
  within Studio.audio (fun audio s => { s with audio }) (Audio.call c)

/-- The given moment, or now. -/
def moment (now : Option Float) : Act Float := return now.getD (← look).clock

end PianoRoll.Studio
