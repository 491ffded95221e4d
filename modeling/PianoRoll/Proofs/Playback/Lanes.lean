import PianoRoll.Proofs.Callback
import PianoRoll.Proofs.Playback.Rendition
import PianoRoll.Proofs.Playback.Runs
import PianoRoll.Proofs.Queue.Recount

/-!
Studios whose striker never leaves its lanes. When the extent of every run is left to the session or
to its melody, it holds every note of the run, so there is a place for each of them (`Playable`).
Whatever a session is asked for keeps it so, also when those who listen ask for more in the middle
of it (`Callback.keeps`).
-/

namespace PianoRoll

namespace Studio

open Work Timers

/-- A studio in which nobody but playback uses the timers, and whose striker has a place for every
note that is still to come. -/
structure Playable (s : Studio) : Prop where
  steady : ∃ run, Steady run s
  onlyPlayback : OnlyPlayback s.timers
  reaches : ∀ n ∈ s.timers.waiting, ∀ t note, s.timers.get? n = some t →
    t.task = .playback (.noteOn note) → Reaches s.transport.extent note.pitch

theorem Fresh.playable {s : Studio} (h : Fresh s) : Playable s where
  steady := ⟨none, h.steady⟩
  onlyPlayback := h.onlyPlayback
  reaches := by simp [h.timers, waiting]

/-- The triggers of a melody begin no other notes. -/
theorem mem_of_mem_triggers {lead beat : Float} {notes : List Note} {n : Note}
    (h : (beat, .noteOn n) ∈ triggers lead notes) : n ∈ notes := by
  simp only [triggers, List.mem_append, List.mem_flatMap, List.mem_cons, Prod.mk.injEq,
    Trigger.noteOn.injEq, reduceCtorEq, and_false, List.not_mem_nil, or_false] at h
  obtain ⟨m, hm, -, rfl⟩ := h
  exact hm

namespace Playable

variable {s s' : Studio} (p : Playable s)
include p

/-- What differs in other parts alone is as playable. -/
theorem aside (same : SameRun s s') (extent : s'.transport.extent = s.transport.extent) :
    Playable s' where
  steady := p.steady.imp fun _ h => h.aside same
  onlyPlayback := by rw [same.timers]; exact p.onlyPlayback
  reaches := by rw [same.timers, extent]; exact p.reaches

/-- The striker has a place for the note of a timer that is due. -/
theorem reaches_due {now : Float} {serial : Nat} {t : Timer Task} {ts : Timers Task} {note : Note}
    (due : s.timers.takeDue? now = some (serial, ts)) (here : s.timers.get? serial = some t)
    (alive : t.cancelled = false) (task : t.task = .playback (.noteOn note)) :
    Reaches s.transport.extent note.pitch := by
  obtain ⟨run, h⟩ := p.steady
  have waits : serial ∈ s.timers.waiting :=
    h.kept.mem_waiting_iff.2 ⟨(h.kept.mem_of_takeDue? due).1, t, here, alive⟩
  exact p.reaches serial waits t note here task

theorem waiting_eq_nil (rests : s.transport.playing = false) : s.timers.waiting = [] := by
  obtain ⟨run, h⟩ := p.steady
  have hperm := h.waiting
  rw [h.pending_eq_nil rests] at hperm
  exact hperm.symm.eq_nil

theorem prepared (rests : s.transport.playing = false) (notes : List Note) (bpm : Float)
    (extent : Option Extent) : Playable (s.prepared notes bpm extent) where
  steady := p.steady.imp fun _ h => h.aside ⟨rfl, rfl, rfl, rfl⟩
  onlyPlayback := p.onlyPlayback
  reaches := by
    intro n hn
    rw [show (s.prepared notes bpm extent).timers.waiting = [] from p.waiting_eq_nil rests] at hn
    exact absurd hn List.not_mem_nil

/-- A run whose extent holds its notes begins. -/
theorem begun (rests : s.transport.playing = false) {notes : List Note} (bpm : Float)
    {extent : Option Extent} (covers : ∀ r, extent = some r → r.Covers notes) :
    Playable (s.begun notes bpm extent) := by
  obtain ⟨run, h⟩ := p.steady
  refine ⟨⟨_, h.begun rests notes bpm extent⟩, p.onlyPlayback.enter _ _ _, ?_⟩
  let plan := triggers s.settings.startDelay notes
  let tasks := plan.map ((s.prepared notes bpm extent).placed s.clock)
  intro n hn t note hget htask
  change n ∈ (s.timers.enter tasks).waiting at hn
  change (s.timers.enter tasks).get? n = some t at hget
  rw [h.kept.mem_waiting_enter, p.waiting_eq_nil rests, List.mem_range'_1] at hn
  simp only [List.not_mem_nil, or_false] at hn
  obtain ⟨i, rfl⟩ := Nat.exists_eq_add_of_le hn.1
  have hi : i < tasks.length := by omega
  rw [get?_enter, List.getElem?_eq_getElem hi] at hget
  cases hget
  -- the timer is that of a trigger of the run, so its note is one of the run
  have hmem : tasks[i].2 ∈ plan.map fun m => Task.playback m.2 := by
    have hin := List.mem_map_of_mem (f := Prod.snd) (List.getElem_mem hi)
    rwa [List.map_map] at hin
  obtain ⟨⟨beat, trigger⟩, hm, he⟩ := List.mem_map.1 hmem
  obtain rfl : trigger = .noteOn note := Task.playback.inj (he.trans htask)
  exact reaches_of_covers covers (mem_of_mem_triggers hm)

theorem stopped (a : Audio) : Playable (s.stopped a) := by
  obtain ⟨run, h⟩ := p.steady
  have rests := h.stopped a
  refine ⟨⟨none, rests⟩, p.onlyPlayback.cancelAll _, fun n hn => ?_⟩
  rw [← rests.mem_pending] at hn
  exact absurd hn List.not_mem_nil

/-- A cancelled timer leaves the queue. -/
theorem passed {now : Float} {serial : Nat} {ts : Timers Task}
    (due : s.timers.takeDue? now = some (serial, ts))
    (dead : ∀ t, s.timers.get? serial = some t → t.cancelled = true) :
    Playable { s with timers := ts } := by
  obtain ⟨run, h⟩ := p.steady
  refine ⟨⟨run, h.passed due dead⟩, p.onlyPlayback.takeDue? due, fun n hn t note hget => ?_⟩
  have hwaits := ((h.kept.mem_waiting_takeDue? due n).1 hn).1
  rw [show ({ s with timers := ts } : Studio).timers.get? n = s.timers.get? n from
    get?_congr (takeDue?_inv due).1 n] at hget
  exact p.reaches n hwaits t note hget

section Firing

variable {serial : Nat} {t : Trigger} (fires : Fires s serial t s')
include fires

/-- The trigger of a note is taken out of the queue. -/
theorem played (ht : t ≠ .finish) : Playable s' := by
  obtain ⟨run, h⟩ := p.steady
  obtain ⟨-, -, hwaits, hget⟩ := h.fired_waiting fires
  have steady := h.played fires ht
  have only := fires.onlyPlayback p.onlyPlayback
  obtain ⟨now, ts, -, rfl⟩ := fires.due
  refine ⟨⟨run, steady⟩, only, fun n hn u note hu => ?_⟩
  obtain ⟨hn, hne⟩ := (hwaits n).1 hn
  rw [hget n hne] at hu
  exact p.reaches n hn u note hu

theorem finished (a : Audio) : Playable (s'.stopped a) := by
  obtain ⟨run, h⟩ := p.steady
  have rests := h.finished fires a
  refine ⟨⟨none, rests⟩, (fires.onlyPlayback p.onlyPlayback).cancelAll _, fun n hn => ?_⟩
  rw [← rests.mem_pending] at hn
  exact absurd hn List.not_mem_nil

end Firing

end Playable

/-! ## Acts that keep a studio playable -/

def Keeps {α : Type} (p : Act α) : Prop := Leads (fun s s' => Playable s → Playable s') p

namespace Keeps

variable {α β : Type}

theorem chains : Chains fun s s' => Playable s → Playable s' := ⟨fun _ => id, fun h h' => h' ∘ h⟩

/-- A change that leaves the run and its extent alone. -/
theorem change (f : Studio → Studio) (hf : ∀ s, SameRun s (f s) ∧
    (f s).transport.extent = s.transport.extent) : Keeps (change f) :=
  leads_change f fun s hs => hs.aside (hf s).1 (hf s).2

theorem hereditary : Hereditary Keeps where
  toCompositional := compositional_leads chains
  aside f h := change f fun s => ⟨(h s).1.run, (h s).2⟩

theorem sound (c : SoundCall) : Keeps (sound c) := by
  intro b r b' h hb
  obtain ⟨a, es, rfl, -⟩ := sound_inv h
  exact hb.aside ⟨rfl, rfl, rfl, rfl⟩ rfl

section Listeners

variable {h : Hooks} (hears : ∀ l e, Keeps (h.hear l e))
include hears

theorem performs : Performs Keeps h where
  sound := sound
  publish e _ := hereditary.publish (chains.write _) fun l => hears l e

theorem stopPlayback : Keeps (stopPlayback h) := by
  intro b r b' hp hb
  obtain ⟨a, es, hon, -⟩ := stopPlayback_on h b
  rw [hon] at hp
  exact hereditary.allowsNeutral.publishEnd (performs hears) _ hp (hb.stopped a)

theorem startPlayback {notes : List Note} (bpm : Option Float) {extent : Option Extent}
    (covers : ∀ r, extent = some r → r.Covers notes) :
    Keeps (startPlayback h notes bpm extent) := by
  intro b r b' hp hb
  cases hr : (b.part.transport.playing || notes.isEmpty)
  · have rests : b.part.transport.playing = false := (Bool.or_eq_false_iff.1 hr).1
    cases ht : (orTempo bpm b.part.settings.tempo == 0)
    · rw [startPlayback_on h extent hr ht] at hp
      have told := (performs hears).publish (.transport true) nofun
      exact hereditary.bind told (fun _ => hereditary.pure true) hp (hb.begun rests _ covers)
    · rw [startPlayback_on_fault h extent hr ht] at hp
      cases hp
      exact hb.prepared rests _ _ _
  · rw [startPlayback_on_refused h bpm extent hr] at hp
    cases hp
    exact hb

/-- A timer that was not cancelled does its task. -/
theorem runTask {b b' : Bench Studio} {now : Float} {serial : Nat} {t : Timer Task}
    {ts : Timers Task} {r : Except Fault Unit} (hb : Playable b.part)
    (due : b.part.timers.takeDue? now = some (serial, ts))
    (here : b.part.timers.get? serial = some t) (alive : t.cancelled = false)
    (hp : (runTask h serial t.task).on (left (ts.markFired serial) b) = some (r, b')) :
    Playable b'.part := by
  obtain ⟨x, htask⟩ := hb.onlyPlayback t (Array.mem_of_getElem? here)
  have fires : Fires b.part serial x (taken serial { b.part with timers := ts }) :=
    ⟨⟨now, ts, due, rfl⟩, t, here, alive, htask⟩
  rw [htask] at hp
  change (trigger h x).on ⟨taken serial { b.part with timers := ts }, b.journal⟩ = _ at hp
  by_cases hx : x = .finish
  · subst hx
    rw [trigger, Work.log, on_bind_ok (on_write _ _)] at hp
    obtain ⟨a, es, hon, -⟩ := stopPlayback_on h _
    rw [hon] at hp
    exact hereditary.allowsNeutral.publishEnd (performs hears) _ hp (hb.finished fires a)
  · have taken : Playable (taken serial { b.part with timers := ts }) := hb.played fires hx
    exact hereditary.allowsNeutral.note (performs hears) hx hp taken

theorem drain (now : Float) (n fired : Nat) : Keeps (drain h now n fired) :=
  leads_drain (fun _ _ _ hb due dead => hb.passed due dead)
    (fun _ _ _ _ _ _ hb due here alive => runTask hears hb due here alive) n fired

theorem operates : Operates Keeps h where
  start _ _ _ := startPlayback hears _
  stop := stopPlayback hears
  pump now := hereditary.bind (hereditary.moment now) fun _ => drain hears _ _ _

/-- Whatever a session is asked for keeps it playable. -/
theorem carryOut {c : Command} (hc : c.inLanes = true) : Keeps (carryOut h c) :=
  hereditary.carryOut (operates hears) hc

end Listeners

end Keeps

/-! ## Listeners that ask a session for more -/

/-- What those may do who listen to a session that is to stay playable: ask for more of what it can
be asked for, and touch neither transport nor timers otherwise. -/
def Scope.lanes : Scope where
  changes s s' := s'.transport = s.transport ∧ s'.timers = s.timers
  chains := ⟨fun _ => ⟨rfl, rfl⟩, fun h h' => ⟨h'.1.trans h.1, h'.2.trans h.2⟩⟩
  asks c := c.inLanes = true

theorem Callback.keeps {α : Type} {p : Act α} (callback : Callback .lanes p) : Keeps p := by
  refine Callback.leads Keeps.chains ?_ Keeps.hereditary.react (fun _ => trivial) (fun _ => id)
    (fun hears _ may => Keeps.carryOut hears may) callback
  rintro s s' ⟨transport, timers⟩ hs
  exact hs.aside ⟨by rw [transport], by rw [transport], by rw [transport], timers⟩
    (by rw [transport])

/-- A session that begins playable stays so, whatever it is asked for. -/
theorem playable_inTurn {h : Hooks} (hears : ∀ l e, Callback .lanes (h.hear l e))
    {cs : List Command} (hcs : ∀ c ∈ cs, c.inLanes = true) {s : Studio} (hs : Playable s)
    {steps : List Step} (hrun : inTurn h cs s = some steps) : Playable (s.after steps) :=
  leads_inTurn Keeps.chains (fun c hc => Keeps.carryOut (fun l e => (hears l e).keeps) (hcs c hc))
    hrun hs

/-- The studios that a session comes to from a fresh one. -/
inductive Reached : Studio → Prop
  | after {h : Hooks} (hears : ∀ l e, Callback .lanes (h.hear l e)) {cs : List Command}
      (hcs : ∀ c ∈ cs, c.inLanes = true) {s : Studio} (fresh : Fresh s) {steps : List Step}
      (hrun : inTurn h cs s = some steps) : Reached (s.after steps)

theorem Reached.playable {s : Studio} (reached : Reached s) : Playable s := by
  cases reached with
  | after hears hcs fresh hrun => exact playable_inTurn hears hcs fresh.playable hrun

end Studio

end PianoRoll
