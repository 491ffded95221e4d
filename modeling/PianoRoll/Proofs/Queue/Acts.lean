import PianoRoll.Proofs.Hereditary
import PianoRoll.Proofs.Queue.Recount

/-!
Everything that a studio can be asked for can be recounted, whatever listens to it. So can the
callbacks of a studio whose listeners and timers give commands themselves (`timely_scripted`).
-/

namespace PianoRoll.Studio

open Work Timers

variable {α β : Type}

namespace Tell

theorem aside {p : Act α} (same : ∀ ⦃b r b'⦄, p.on b = some (r, b') →
    b'.part.timers = b.part.timers) : Tell p := fun _ _ _ h => ⟨[], .aside h (same h)⟩

theorem pure (a : α) : Tell (pure a : Act α) := aside fun _ _ _ h => by cases h; rfl

theorem fail (e : Fault) : Tell (throw e : Act α) := aside fun _ _ _ h => by cases h; rfl

theorem giveUp : Tell (unfinished : Act α) := fun _ _ _ h => by cases h

theorem look : Tell look := aside fun _ _ _ h => by cases h; rfl

theorem write (e : Entry) : Tell (write e) := aside fun _ _ _ h => by cases h; rfl

/-- A change that leaves the timers alone. -/
theorem change (f : Studio → Studio) (hf : ∀ s, (f s).timers = s.timers) : Tell (change f) :=
  aside fun _ _ _ h => by cases h; exact hf _

theorem within {σ : Type} {get : Studio → σ} {set : σ → Studio → Studio}
    (hset : ∀ x s, (set x s).timers = s.timers) (p : Work σ α) : Tell (within get set p) := by
  refine aside fun b r b' h => ?_
  rw [on_within] at h
  obtain ⟨_, -, h⟩ := Option.map_eq_some_iff.1 h
  cases h
  exact hset _ _

theorem bind {p : Act α} {f : α → Act β} (hp : Tell p) (hf : ∀ a, Tell (f a)) :
    Tell (p >>= f) := by
  intro b r b' h
  rcases on_bind_inv h with ⟨a, b₁, h₁, h₂⟩ | ⟨e, h₁, rfl⟩
  · obtain ⟨hs, rec₁⟩ := hp h₁
    obtain ⟨hs', rec₂⟩ := hf a h₂
    exact ⟨hs ++ hs', rec₁.bind rec₂⟩
  · obtain ⟨hs, rec⟩ := hp h₁
    exact ⟨hs, rec.cut⟩

theorem rescue {p : Act α} {f : Fault → Act α} (hp : Tell p) (hf : ∀ e, Tell (f e)) :
    Tell (tryCatch p f) := by
  intro b r b' h
  rcases on_tryCatch_inv h with ⟨a, h₁, rfl⟩ | ⟨e, b₁, h₁, h₂⟩
  · obtain ⟨hs, rec⟩ := hp h₁
    exact ⟨hs, rec.keep⟩
  · obtain ⟨hs, rec₁⟩ := hp h₁
    obtain ⟨hs', rec₂⟩ := hf e h₂
    exact ⟨hs ++ hs', rec₁.rescue rec₂⟩

theorem hereditary : Hereditary Tell where
  pure := pure
  bind := bind
  fail := fail
  rescue := rescue
  look := look
  write e _ := write e
  aside f h := change f fun s => (h s).1.run.timers

/-! ## The timers themselves -/

theorem schedule (base delay : Float) (task : Task) :
    Tell (schedule (deadline base delay) task) := by
  intro b r b' h
  rw [Studio.schedule, on_bind_ok (on_look b)] at h
  cases h
  exact ⟨_, .schedule base delay task b⟩

theorem cancel (f : Studio → Studio) (ns : Studio → List Nat)
    (hf : ∀ s, (f s).timers = s.timers.cancelAll (ns s)) : Tell (Work.change f) := by
  intro b r b' h
  cases h
  exact ⟨_, .cancel f (ns b.part) b (hf _)⟩

theorem clear : Tell (Work.change fun s => { s with timers := s.timers.clear }) := by
  intro b r b' h
  cases h
  exact ⟨_, .clear _ b rfl⟩

theorem scheduleTrigger (start beats : Float) (t : Trigger) :
    Tell (scheduleTrigger start beats t) :=
  look.bind fun _ => (hereditary.orFail _).bind fun _ => schedule _ _ _

theorem scheduleAll (start : Float) (plan : List (Float × Trigger)) :
    Tell (scheduleAll start plan) := by
  induction plan with
  | nil => exact pure _
  | cons m plan ih => exact (scheduleTrigger _ _ _).bind fun _ => ih.bind fun _ => pure _

/-! ## Playing -/

section Listeners

variable {h : Hooks} (timely : Timely h)
include timely

theorem publish (e : Event) : Tell (publish h e) :=
  hereditary.publish (write _) fun l => timely.hear l e

theorem performs : Performs Tell h where
  sound c := by
    unfold Studio.sound
    refine within ?_ _
    exact fun _ _ => rfl
  publish e _ := publish timely e

theorem startPlayback (notes : List Note) (bpm : Option Float) (extent : Option Extent) :
    Tell (startPlayback h notes bpm extent) :=
  look.bind fun _ => hereditary.ite (pure _) <| (change _ fun _ => by rfl).bind fun _ =>
    (scheduleAll _ _).bind fun _ => (change _ fun _ => by rfl).bind fun _ => (write _).bind fun _ =>
      (publish timely _).bind fun _ => pure _

theorem stopPlayback : Tell (stopPlayback h) :=
  look.bind fun _ => (cancel _ (fun s => s.transport.pending) fun _ => by rfl).bind fun _ =>
    (change _ fun _ => by rfl).bind fun _ => ((performs timely).sound _).bind fun _ =>
      (change _ fun _ => by rfl).bind fun _ =>
        hereditary.allowsNeutral.publishEnd (performs timely) _

theorem trigger (t : Trigger) : Tell (trigger h t) := by
  by_cases ht : t = .finish
  · subst ht
    exact (write _).bind fun _ => stopPlayback timely
  · exact hereditary.allowsNeutral.note (performs timely) ht

theorem runTask (serial : Nat) (task : Task) : Tell (runTask h serial task) := by
  cases task with
  | playback t => exact (change _ fun _ => by rfl).bind fun _ => trigger timely t
  | program name commands => exact timely.run name commands

/-- What a pump does is told by what each timer does that it starts. -/
theorem drain (now : Float) (n fired : Nat) : Tell (drain h now n fired) := by
  induction n generalizing fired with
  | zero => exact giveUp
  | succ n ih =>
    intro b r b' hp
    rcases drain_cases hp with ⟨idle, rfl, rfl⟩ | ⟨serial, ts, due, dead, rest⟩ |
      ⟨serial, ts, t, due, here, alive, rest⟩
    · exact ⟨_, .rest idle⟩
    · obtain ⟨hs, rec⟩ := ih fired rest
      exact ⟨_, .pass due dead rec⟩
    · obtain ⟨hs, rec⟩ := ((runTask timely serial t.task).bind fun _ => ih (fired + 1)) rest
      exact ⟨_, .start due here alive rec⟩

theorem operates : Operates Tell h where
  start notes bpm extent _ := startPlayback timely notes bpm extent
  stop := stopPlayback timely
  pump now := (hereditary.moment now).bind fun _ => drain timely _ _ _

end Listeners

/-! ## Commands -/

theorem timerNamed (name : String) : Tell (timerNamed name) := by
  refine look.bind fun s => ?_
  split
  · exact pure _
  · exact fail _

theorem scheduleProgram (name : String) (delay : Float) (now : Option Float)
    (program : List Command) : Tell (scheduleProgram name delay now program) :=
  (hereditary.moment now).bind fun _ => (schedule _ _ _).bind fun _ => change _ fun _ => by rfl

/-- Every command can be recounted. -/
theorem carryOut {h : Hooks} (timely : Timely h) (c : Command) : Tell (carryOut h c) := by
  have attends : Attends Tell h := hereditary.allowsNeutral.attends (performs timely)
  have release := hereditary.allowsNeutral.release (performs timely) hereditary.holds
  cases c with
  | fail message => exact fail _
  | schedule name delay now program => exact (scheduleProgram _ _ _ _).bind fun _ => pure _
  | cancel name =>
    exact (timerNamed name).bind fun n =>
      (cancel _ (fun _ => [n]) fun _ => by rfl).bind fun _ => pure _
  | clearTimers => exact clear.bind fun _ => pure _
  | describeTimer name => exact (timerNamed name).bind fun _ => look.bind fun _ => pure _
  | startPlayback melody bpm extent =>
    exact (hereditary.readMelody melody).bind fun _ =>
      (startPlayback timely _ _ _).bind fun _ => pure _
  | press pitch velocity =>
    exact (hereditary.allowsNeutral.press (performs timely) hereditary.holds _ _).bind
      fun _ => pure _
  | release pitch => exact (release pitch).bind fun _ => pure _
  | releaseAll => exact (hereditary.allowsNeutral.releaseAll release).bind fun _ => pure _
  | changeSystem change => exact (hereditary.allowsNeutral.changeSystem _).bind fun _ => pure _
  | queueMessages port messages =>
    exact (hereditary.allowsNeutral.changeSystem _).bind fun _ => pure _
  | connect name => exact (hereditary.allowsNeutral.connect attends name).bind fun _ => pure _
  | rescan => exact (hereditary.allowsNeutral.rescan attends).bind fun _ => pure _
  | poll now =>
    exact (hereditary.allowsNeutral.poll attends (fun _ => giveUp) now).bind fun _ => pure _
  | receive message => exact (attends.receive message).bind fun _ => pure _
  | closeInputs => exact hereditary.allowsNeutral.closeInputs.bind fun _ => pure _
  | subscribe listener kind program times failure =>
    exact (change _ fun _ => by rfl).bind fun _ => pure _
  | unsubscribe listener kind => exact (change _ fun _ => by rfl).bind fun _ => pure _
  | publish e =>
    rw [Studio.carryOut]
    cases e.takenName? with
    | some name => exact (fail _).bind fun _ => pure _
    | none => exact (publish timely e).bind fun _ => pure _
  | sound call => exact ((performs timely).sound call).bind fun _ => pure _
  | setRefusals refuses => exact (change _ fun _ => by rfl).bind fun _ => pure _
  | _ => exact hereditary.carryOut (operates timely) rfl

end Tell

/-! ## Listeners and timers that give commands -/

section Scripted

variable {perform : Command → Act Answer} (each : ∀ c, Tell (perform c))
include each

theorem tell_obey (program : List Command) : Tell (obey perform program) :=
  Tell.hereditary.forM (fun c => (each c).bind fun _ => Tell.write _) program

theorem tell_hearScripted (name : String) (e : Event) : Tell (hearScripted perform name e) := by
  refine (Tell.write _).bind fun _ => Tell.look.bind fun s => ?_
  split
  · exact Tell.pure _
  · split
    · exact Tell.fail _
    · refine Tell.hereditary.ite ?_ (Tell.pure _)
      exact (Tell.change _ fun _ => by rfl).bind fun _ => tell_obey each _

theorem timely_scriptedHooks (patience : Nat) : Timely (scriptedHooks perform patience) where
  hear l e := by
    cases l with
    | desk r => exact Tell.hereditary.react r e
    | scripted name => exact tell_hearScripted each name e
  run name program := (Tell.write _).bind fun _ => tell_obey each program

end Scripted

theorem tell_perform (n : Nat) (c : Command) : Tell (perform n c) := by
  induction n generalizing c with
  | zero => exact Tell.giveUp
  | succ n ih => exact Tell.carryOut (timely_scriptedHooks ih n) c

/-- The listeners and timers of a rehearsal, which give commands themselves, whatever these are. -/
theorem timely_scripted (n : Nat) : Timely (scriptedHooks (perform n) n) :=
  timely_scriptedHooks (tell_perform n) n

end PianoRoll.Studio
