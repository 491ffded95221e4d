import PianoRoll.Proofs.Playback.Waiting

/-!
The course of a studio, told by its deeds. A `Move` is a stretch between two publications, and a
`Course` is a row of moves. The moves are all that may happen to a run and to the timers, while
other parts of the studio may change freely in between. `Traced` ties a course to the journal: what
it shows of sounds and events are the deeds that can be heard. In between the timers stay with
playback, if nobody else has set any (`OnlyPlayback`).
-/

namespace PianoRoll

def Trigger.call (velocity : Float) : Trigger → SoundCall
  | .noteOn n => .on (.whole n.pitch) velocity
  | .noteOff n => .off (.whole n.pitch)
  | .finish => .silence

def Trigger.event : Trigger → Event
  | .noteOn n => .noteOn n.pitch .playback none
  | .noteOff n => .noteOff n.pitch .playback
  | .finish => .transport false

inductive Deed
  /-- A run has begun, for which these timers were set. -/
  | begun (timers : List Nat)
  /-- Everything is to be stopped, whether or not a run is under way. -/
  | halted
  /-- A timer of the run executes its trigger. -/
  | fired (timer : Nat) (t : Trigger)
  | sounded (c : SoundCall)
  /-- An event was published by a studio that stood so. -/
  | published (e : Event) (s : Studio)

namespace Studio

structure SameRun (s s' : Studio) : Prop where
  playing : s'.transport.playing = s.transport.playing
  start : s'.transport.start = s.transport.start
  pending : s'.transport.pending = s.transport.pending
  timers : s'.timers = s.timers

theorem SameRun.refl (s : Studio) : SameRun s s := ⟨rfl, rfl, rfl, rfl⟩

theorem SameRun.trans {s s' s'' : Studio} (h : SameRun s s') (h' : SameRun s' s'') :
    SameRun s s'' :=
  ⟨h'.playing.trans h.playing, h'.start.trans h.start, h'.pending.trans h.pending,
    h'.timers.trans h.timers⟩

/-- A change of a studio that leaves its run, its timers and its witnesses alone. -/
structure Aside (s s' : Studio) : Prop where
  run : SameRun s s'
  audio : s'.audio = s.audio
  recorded : s'.recorded = s.recorded

theorem Aside.refl (s : Studio) : Aside s s := ⟨.refl s, rfl, rfl⟩

theorem chains_aside : Work.Chains Aside where
  refl := .refl
  trans h h' :=
    ⟨h.run.trans h'.run, h'.audio.trans h.audio, h'.recorded.trans h.recorded⟩

/-- A studio that has stopped; its audio output has heard of it. -/
def stopped (a : Audio) (s : Studio) : Studio := { s.calledOff.ended with audio := a }

def stopDeeds (a : Audio) (s : Studio) : List Deed :=
  [.halted, .sounded .silence] ++
    if s.transport.playing then [.published (.transport false) (s.stopped a)] else []

/-- A timer of the run that has left the queue and executes its trigger. -/
structure Fires (s : Studio) (serial : Nat) (t : Trigger) (s' : Studio) : Prop where
  due : ∃ now ts, s.timers.takeDue? now = some (serial, ts) ∧
    s' = { s with timers := ts }.taken serial
  alive : ∃ timer, s.timers.get? serial = some timer ∧ timer.cancelled = false ∧
    timer.task = .playback t

end Studio

open Studio

/-- A stretch of playback up to its publication. -/
inductive Move : Studio → List Deed → Studio → Prop
  /-- What leaves the run and the timers alone. -/
  | aside {s s' : Studio} (same : SameRun s s') : Move s [] s'
  /-- A run begins and this is published. -/
  | begin {s : Studio} (notes : List Note) (bpm : Float) (extent : Option Extent)
      (rests : s.transport.playing = false) (some : notes ≠ []) :
      Move s [.begun (s.begun notes bpm extent).transport.pending,
        .published (.transport true) (s.begun notes bpm extent)] (s.begun notes bpm extent)
  /-- The studio is stopped from outside or by a listener. -/
  | stop {s : Studio} (a : Audio) : Move s (s.stopDeeds a) (s.stopped a)
  /-- A timer that was cancelled leaves the queue. -/
  | pass {s : Studio} (now : Float) (serial : Nat) (ts : Timers Task)
      (due : s.timers.takeDue? now = some (serial, ts))
      (dead : ∀ timer, s.timers.get? serial = some timer → timer.cancelled = true) :
      Move s [] { s with timers := ts }
  /-- A note begins or ends; a fault may come before it is told. -/
  | play {s s₁ s' : Studio} (serial : Nat) (t : Trigger) (velocity : Float) (told : Bool)
      (ht : t ≠ .finish) (fires : Fires s serial t s₁) (same : SameRun s₁ s') :
      Move s (.fired serial t :: .sounded (t.call velocity) ::
        if told then [.published t.event s'] else []) s'
  /-- The run has come to its end. -/
  | finish {s s₁ : Studio} (serial : Nat) (a : Audio) (fires : Fires s serial .finish s₁) :
      Move s (.fired serial .finish :: s₁.stopDeeds a) (s₁.stopped a)

/-- A row of moves, with the deeds in their order. -/
inductive Course : Studio → List Deed → Studio → Prop
  | still (s : Studio) : Course s [] s
  | step {s s' s'' : Studio} {ds es : List Deed} :
      Course s ds s' → Move s' es s'' → Course s (ds ++ es) s''

theorem Move.course {s s' : Studio} {ds : List Deed} (h : Move s ds s') : Course s ds s' :=
  List.nil_append ds ▸ (Course.still s).step h

theorem Course.trans {s s' s'' : Studio} {ds es : List Deed} (h : Course s ds s')
    (h' : Course s' es s'') : Course s (ds ++ es) s'' := by
  induction h' with
  | still => rwa [List.append_nil]
  | step _ hm ih =>
    rw [← List.append_assoc]
    exact ih.step hm

/-! ## Timers of playback -/

namespace Studio

def OnlyPlayback (ts : Timers Task) : Prop := ∀ t ∈ ts.timers, ∃ x, t.task = .playback x

theorem OnlyPlayback.schedule {ts : Timers Task} (h : OnlyPlayback ts) (m : Float) (x : Trigger) :
    OnlyPlayback (ts.schedule m (.playback x)).2 := by
  intro t ht
  rcases Array.mem_push.1 ht with ht | rfl
  · exact h t ht
  · exact ⟨x, rfl⟩

theorem OnlyPlayback.enter {ts : Timers Task} (h : OnlyPlayback ts)
    (plan : List (Float × Trigger)) (s : Studio) (start : Float) :
    OnlyPlayback (ts.enter (plan.map (s.placed start))) := by
  induction plan generalizing ts with
  | nil => exact h
  | cons m plan ih => exact ih (h.schedule _ _)

theorem OnlyPlayback.modify {ts ts' : Timers Task} (h : OnlyPlayback ts) {n : Nat}
    {f : Timer Task → Timer Task} (hm : ts'.timers = ts.timers.modify n f)
    (hf : ∀ t, (f t).task = t.task) : OnlyPlayback ts' := by
  intro t ht
  rw [hm] at ht
  obtain ⟨i, hi, rfl⟩ := Array.mem_iff_getElem.1 ht
  rw [Array.getElem_modify]
  split
  · rw [hf]; exact h _ (Array.getElem_mem _)
  · exact h _ (Array.getElem_mem _)

theorem OnlyPlayback.cancelAll {ts : Timers Task} (h : OnlyPlayback ts) (ns : List Nat) :
    OnlyPlayback (ts.cancelAll ns) := by
  induction ns generalizing ts with
  | nil => exact h
  | cons n ns ih =>
    exact ih (h.modify (f := fun t => { t with cancelled := true }) rfl fun _ => rfl)

theorem OnlyPlayback.takeDue? {now : Float} {ts ts' : Timers Task} {n : Nat}
    (h : OnlyPlayback ts) (hd : ts.takeDue? now = some (n, ts')) : OnlyPlayback ts' := by
  unfold OnlyPlayback
  rw [(Timers.takeDue?_inv hd).1]
  exact h

theorem Fires.onlyPlayback {s s' : Studio} {n : Nat} {t : Trigger} (h : Fires s n t s')
    (hs : OnlyPlayback s.timers) : OnlyPlayback s'.timers := by
  obtain ⟨now, ts, hd, rfl⟩ := h.due
  exact (hs.takeDue? hd).modify (f := fun t => { t with fired := true }) rfl fun _ => rfl

theorem onlyPlayback_move {s s' : Studio} {ds : List Deed} (h : Move s ds s')
    (hs : OnlyPlayback s.timers) : OnlyPlayback s'.timers := by
  cases h with
  | aside same => rw [same.timers]; exact hs
  | begin => exact hs.enter _ _ _
  | stop => exact hs.cancelAll _
  | pass now serial ts due => exact hs.takeDue? due
  | play serial t velocity told ht fires same =>
    rw [same.timers]
    exact fires.onlyPlayback hs
  | finish serial a fires => exact (fires.onlyPlayback hs).cancelAll _

theorem onlyPlayback_course {s s' : Studio} {ds : List Deed} (h : Course s ds s')
    (hs : OnlyPlayback s.timers) : OnlyPlayback s'.timers := by
  induction h with
  | still => exact hs
  | step _ hm ih => exact onlyPlayback_move hm ih

end Studio

/-! ## Traces in the journal -/

def Deed.heard (s : Studio) : Deed → List Entry
  | .sounded c => s.audio.heard c
  | .published e _ => shown s.recorded e
  | _ => []

/-- A course that a piece of work took, with its traces in the journal. -/
structure Traced (b : Bench Studio) (ds : List Deed) (b' : Bench Studio) : Prop where
  course : Course b.part ds b'.part
  recorded : b'.part.recorded = b.part.recorded
  tape : b'.part.audio.isTape = b.part.audio.isTape
  journal : ∃ es, b'.journal = es ++ b.journal ∧
    (es.filter Entry.audible).reverse = ds.flatMap (Deed.heard b.part)

namespace Traced

/-- One move, after which the journal shows no more than its deeds. -/
theorem move {b b' : Bench Studio} {ds : List Deed} (h : Move b.part ds b'.part)
    (recorded : b'.part.recorded = b.part.recorded)
    (tape : b'.part.audio.isTape = b.part.audio.isTape) (es : List Entry)
    (he : b'.journal = es ++ b.journal)
    (hes : (es.filter Entry.audible).reverse = ds.flatMap (Deed.heard b.part)) :
    Traced b ds b' :=
  ⟨h.course, recorded, tape, es, he, hes⟩

theorem heard_eq {s s' : Studio} (hr : s'.recorded = s.recorded)
    (ht : s'.audio.isTape = s.audio.isTape) : Deed.heard s' = Deed.heard s := by
  funext d
  cases d <;> simp only [Deed.heard, Audio.heard, hr, ht]

theorem trans {b b' b'' : Bench Studio} {ds es : List Deed} (h : Traced b ds b')
    (h' : Traced b' es b'') : Traced b (ds ++ es) b'' := by
  obtain ⟨j₁, e₁, k₁⟩ := h.journal
  obtain ⟨j₂, e₂, k₂⟩ := h'.journal
  refine ⟨h.course.trans h'.course, h'.recorded.trans h.recorded, h'.tape.trans h.tape,
    j₂ ++ j₁, by rw [e₂, e₁, List.append_assoc], ?_⟩
  rw [List.filter_append, List.reverse_append, k₁, k₂, heard_eq h.recorded h.tape,
    List.flatMap_append]

end Traced

end PianoRoll
