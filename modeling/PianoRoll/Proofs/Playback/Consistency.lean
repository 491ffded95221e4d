import PianoRoll.Proofs.Playback.Course

/-!
What every move keeps. The deeds of a course tell which run is under way (`currentRun`). A studio
is `Consistent` with it if its transport and its timers tell the same. Every move leads from
consistent studios to consistent ones, publishes from consistent ones alone, and fires timers of the
current run alone; by induction so does every course.
-/

namespace PianoRoll

open Studio

/-- The run that is under way after a deed, by the timers that were set for it. -/
def follow : Option (List Nat) → Deed → Option (List Nat)
  | _, .begun timers => some timers
  | _, .halted => none
  | run, _ => run

/-- The run that is under way after some deeds: the last one that has begun, unless it was stopped
since. -/
def currentRun (ds : List Deed) : Option (List Nat) := ds.foldl follow none

namespace Studio

/-- Transport and timers tell of the given run, or of none, and of nothing else. -/
structure Consistent (run : Option (List Nat)) (s : Studio) : Prop where
  playing : s.transport.playing = true ↔ run.isSome = true
  start : s.transport.playing = true ↔ s.transport.start.isSome = true
  pending : s.transport.playing = true ↔ s.transport.pending ≠ []
  nodup : s.transport.pending.Nodup
  waiting : s.transport.pending.Perm s.timers.waiting
  /-- What is still to come was set when the run began, its end among it as the last. -/
  own : ∀ timers, run = some timers → s.transport.pending ⊆ timers ∧
    ∃ n ∈ s.transport.pending, timers.getLast? = some n ∧
      ∃ timer, s.timers.get? n = some timer ∧ timer.task = .playback .finish

/-- As many timers wait as are still to come. -/
theorem Consistent.count {run : Option (List Nat)} {s : Studio} (h : Consistent run s) :
    s.timers.pending = s.transport.pending.length := h.waiting.length_eq.symm

/-- Whether the end of a run is among what is still to come. -/
def endsLater (s : Studio) : Bool :=
  s.transport.pending.any fun n => (s.timers.get? n).any fun timer =>
    match timer.task with
    | .playback .finish => true
    | _ => false

/-- Transport and timers tell the same, whichever run is under way. -/
def Coherent (s : Studio) : Prop :=
  (s.transport.playing = true ↔ s.transport.start.isSome = true) ∧
  (s.transport.playing = true ↔ s.transport.pending ≠ []) ∧
  s.transport.pending.Perm s.timers.waiting ∧
  (s.transport.playing = true → s.endsLater = true)

instance : DecidablePred Coherent := fun s => by
  unfold Coherent
  infer_instance

theorem Consistent.coherent {run : Option (List Nat)} {s : Studio} (h : s.Consistent run) :
    s.Coherent := by
  refine ⟨h.start, h.pending, h.waiting, fun plays => ?_⟩
  obtain ⟨timers, under⟩ := Option.isSome_iff_exists.1 (h.playing.1 plays)
  obtain ⟨-, n, hn, -, timer, here, task⟩ := h.own timers under
  exact List.any_eq_true.2 ⟨n, hn, by simp [here, task]⟩

/-- A consistent studio whose queue is kept well. -/
structure Steady (run : Option (List Nat)) (s : Studio) : Prop extends Consistent run s where
  kept : s.timers.Kept

structure Fresh (s : Studio) : Prop where
  playing : s.transport.playing = false
  start : s.transport.start = none
  pending : s.transport.pending = []
  timers : s.timers = {}

theorem Fresh.steady {s : Studio} (h : Fresh s) : Steady none s where
  playing := by simp [h.playing]
  start := by simp [h.playing, h.start]
  pending := by simp [h.playing, h.pending]
  nodup := by simp [h.pending]
  waiting := by simp [h.pending, h.timers, Timers.waiting]
  own := nofun
  kept := h.timers ▸ Timers.kept_empty

namespace Steady

variable {run : Option (List Nat)} {s s' : Studio}

theorem mem_pending (h : Steady run s) (n : Nat) :
    n ∈ s.transport.pending ↔ n ∈ s.timers.waiting := h.waiting.mem_iff

/-- What differs in other parts alone is as steady. -/
theorem aside (h : Steady run s) (same : SameRun s s') : Steady run s' where
  playing := by rw [same.playing]; exact h.playing
  start := by rw [same.playing, same.start]; exact h.start
  pending := by rw [same.playing, same.pending]; exact h.pending
  nodup := by rw [same.pending]; exact h.nodup
  waiting := by rw [same.pending, same.timers]; exact h.waiting
  own := by rw [same.pending, same.timers]; exact h.own
  kept := by rw [same.timers]; exact h.kept

theorem pending_eq_nil (h : Steady run s) (rests : s.transport.playing = false) :
    s.transport.pending = [] := by
  have hn := h.pending
  rw [rests] at hn
  simpa using hn

/-! ## Beginning -/

theorem getLast?_plan (lead : Float) (notes : List Note) :
    (triggers lead notes).getLast? = some (totalBeats notes + lead, .finish) :=
  List.getLast?_concat

/-- When a run begins, its timers are all that waits. -/
theorem begun (h : Steady run s) (rests : s.transport.playing = false) (notes : List Note)
    (bpm : Float) (extent : Option Extent) :
    Steady (some (s.begun notes bpm extent).transport.pending) (s.begun notes bpm extent) := by
  let plan := triggers s.settings.startDelay notes
  let tasks := plan.map ((s.prepared notes bpm extent).placed s.clock)
  have none_waits : s.timers.waiting = [] := by
    have hp := h.waiting
    rw [h.pending_eq_nil rests] at hp
    exact hp.symm.eq_nil
  have hlen : tasks.length = plan.length := List.length_map _
  have hpos : 0 < plan.length := by simp [plan, triggers]
  have hlast : plan[plan.length - 1]? =
      some (totalBeats notes + s.settings.startDelay, .finish) := by
    rw [← List.getLast?_eq_getElem?]
    exact getLast?_plan _ _
  have hend : (List.range' s.timers.timers.size plan.length).getLast? =
      some (s.timers.timers.size + (plan.length - 1)) := by
    rw [List.getLast?_range', if_neg (by omega)]
    congr 1
    omega
  have hmem (n : Nat) : n ∈ (s.timers.enter tasks).waiting ↔
      n ∈ List.range' s.timers.timers.size plan.length := by
    rw [h.kept.mem_waiting_enter, none_waits, hlen]
    simp
  have hkept : (s.timers.enter tasks).Kept := h.kept.enter tasks
  refine ⟨⟨⟨fun _ => rfl, fun _ => rfl⟩, ⟨fun _ => rfl, fun _ => rfl⟩,
    ⟨fun _ => ?_, fun _ => rfl⟩, List.nodup_range', ?_, ?_⟩, hkept⟩
  · exact List.ne_nil_of_length_pos (List.length_range' ▸ hpos)
  · exact (List.perm_ext_iff_of_nodup List.nodup_range' hkept.nodup_waiting).2 fun n =>
      (hmem n).symm
  · intro timers e
    cases e
    refine ⟨fun _ hn => hn, s.timers.timers.size + (plan.length - 1), ?_, hend, ?_⟩
    · have hlt : plan.length - 1 < plan.length := by omega
      exact List.mem_range'_1.2 ⟨Nat.le_add_right _ _, Nat.add_lt_add_left hlt _⟩
    · have hget := s.timers.get?_enter tasks (plan.length - 1)
      rw [List.getElem?_map, hlast] at hget
      exact ⟨_, hget, rfl⟩

/-! ## Stopping -/

/-- When everything that waits is called off, nothing is left of a run. -/
theorem of_stopped (hkept : s.timers.Kept)
    (all : ∀ n ∈ s.timers.waiting, n ∈ s.transport.pending) (a : Audio) :
    Steady none (s.stopped a) := by
  have none_waits : (s.timers.cancelAll s.transport.pending).waiting = [] := by
    refine List.eq_nil_iff_forall_not_mem.2 fun n hn => ?_
    obtain ⟨hw, hp⟩ := (hkept.mem_waiting_cancelAll _ n).1 hn
    exact hp (all n hw)
  refine ⟨⟨?_, ?_, ?_, List.nodup_nil, ?_, nofun⟩, hkept.cancelAll _⟩
  · exact ⟨nofun, nofun⟩
  · exact ⟨nofun, nofun⟩
  · exact ⟨nofun, fun he => absurd rfl he⟩
  · exact .of_eq none_waits.symm

theorem stopped (h : Steady run s) (a : Audio) : Steady none (s.stopped a) :=
  of_stopped h.kept (fun n hn => (h.mem_pending n).2 hn) a

/-! ## Firing -/

/-- A cancelled timer leaves the queue unnoticed. -/
theorem passed (h : Steady run s) {now : Float} {serial : Nat} {ts : Timers Task}
    (due : s.timers.takeDue? now = some (serial, ts))
    (dead : ∀ timer, s.timers.get? serial = some timer → timer.cancelled = true) :
    Steady run { s with timers := ts } := by
  have hkept := h.kept.takeDue? due
  have absent : serial ∉ s.timers.waiting := by
    intro hn
    obtain ⟨_, timer, ht, hc⟩ := h.kept.mem_waiting_iff.1 hn
    rw [dead timer ht] at hc
    cases hc
  refine ⟨⟨h.playing, h.start, h.pending, h.nodup, ?_, ?_⟩, hkept⟩
  · refine (List.perm_ext_iff_of_nodup h.nodup hkept.nodup_waiting).2 fun n => ?_
    rw [h.mem_pending, h.kept.mem_waiting_takeDue? due]
    exact ⟨fun hn => ⟨hn, fun e => absent (e ▸ hn)⟩, And.left⟩
  · intro timers e
    obtain ⟨sub, n, hn, hl, timer, ht, htask⟩ := h.own timers e
    refine ⟨sub, n, hn, hl, timer, ?_, htask⟩
    rw [Timers.get?_congr (Timers.takeDue?_inv due).1]
    exact ht

variable {serial : Nat} {t : Trigger} (h : Steady run s) (fires : Fires s serial t s')
include h fires

/-- Who fires was still to come. -/
theorem mem_of_fires : serial ∈ s.transport.pending := by
  obtain ⟨now, ts, hd, rfl⟩ := fires.due
  obtain ⟨timer, ht, hc, _⟩ := fires.alive
  exact (h.mem_pending serial).2
    (h.kept.mem_waiting_iff.2 ⟨(h.kept.mem_of_takeDue? hd).1, timer, ht, hc⟩)

/-- Who fires was set by the current run. -/
theorem run_of_fires : ∃ timers, run = some timers ∧ serial ∈ timers := by
  have hn := h.mem_of_fires fires
  have plays := h.pending.2 (List.ne_nil_of_mem hn)
  obtain ⟨timers, e⟩ := Option.isSome_iff_exists.1 (h.playing.1 plays)
  exact ⟨timers, e, (h.own timers e).1 hn⟩

/-- A timer of the run is all that is taken out of the queue when one fires. -/
theorem fired_waiting :
    s'.transport.pending = s.transport.pending.erase serial ∧ s'.timers.Kept ∧
      (∀ n, n ∈ s'.timers.waiting ↔ n ∈ s.timers.waiting ∧ n ≠ serial) ∧
      ∀ n, n ≠ serial → s'.timers.get? n = s.timers.get? n := by
  obtain ⟨now, ts, hd, rfl⟩ := fires.due
  have gone := (h.kept.mem_of_takeDue? hd).2.1
  have hkept := h.kept.takeDue? hd
  refine ⟨rfl, hkept.markFired gone, fun n => ?_, fun n hn => ?_⟩
  · change n ∈ (ts.markFired serial).waiting ↔ _
    rw [hkept.mem_waiting_markFired gone, h.kept.mem_waiting_takeDue? hd]
  · change (ts.markFired serial).get? n = _
    rw [Timers.get?_markFired, if_neg (Ne.symm hn), Timers.get?_congr (Timers.takeDue?_inv hd).1]

theorem fired_perm : s'.transport.pending.Nodup ∧
    s'.transport.pending.Perm s'.timers.waiting := by
  obtain ⟨hp, hkept, hw, _⟩ := h.fired_waiting fires
  have hnodup : s'.transport.pending.Nodup := by rw [hp]; exact h.nodup.erase _
  refine ⟨hnodup, (List.perm_ext_iff_of_nodup hnodup hkept.nodup_waiting).2 fun n => ?_⟩
  rw [hp, h.nodup.mem_erase_iff, hw, h.mem_pending, and_comm]

/-- A note that begins or ends leaves the end of the run to come. -/
theorem played (ht : t ≠ .finish) : Steady run s' := by
  obtain ⟨hp, hkept, hw, hget⟩ := h.fired_waiting fires
  obtain ⟨hnodup, hperm⟩ := h.fired_perm fires
  obtain ⟨hplaying, hstart⟩ : s'.transport.playing = s.transport.playing ∧
      s'.transport.start = s.transport.start := by
    obtain ⟨now, ts, hd, rfl⟩ := fires.due
    exact ⟨rfl, rfl⟩
  obtain ⟨timers, e, _⟩ := h.run_of_fires fires
  have plays : s.transport.playing = true := h.playing.2 (by rw [e]; rfl)
  obtain ⟨sub, n, hn, hl, timer, hg, htask⟩ := h.own timers e
  have other : n ≠ serial := by
    rintro rfl
    obtain ⟨timer', hg', _, htask'⟩ := fires.alive
    rw [hg] at hg'
    cases hg'
    rw [htask] at htask'
    cases htask'
    exact ht rfl
  have hn' : n ∈ s'.transport.pending := by
    rw [hp, h.nodup.mem_erase_iff]
    exact ⟨other, hn⟩
  refine ⟨⟨?_, ?_, ?_, hnodup, hperm, ?_⟩, hkept⟩
  · rw [hplaying]; exact h.playing
  · rw [hplaying, hstart]; exact h.start
  · rw [hplaying]
    exact ⟨fun _ => List.ne_nil_of_mem hn', fun _ => plays⟩
  · intro timers' e'
    rw [e] at e'
    cases e'
    refine ⟨fun k hk => sub ?_, n, hn', hl, timer, ?_, htask⟩
    · rw [hp] at hk
      exact List.mem_of_mem_erase hk
    · rw [hget n other]
      exact hg

/-- When the end of the run fires, it is called off like any run. -/
theorem finished (a : Audio) : Steady none (s'.stopped a) :=
  of_stopped (h.fired_waiting fires).2.1 (fun _ hn => (h.fired_perm fires).2.mem_iff.2 hn) a

end Steady

end Studio

/-! ## Deeds in their order -/

/-- What is done for a moment of a run: a trigger, its sound, or what is told of its note. -/
def Deed.plays : Deed → Bool
  | .fired _ _ => true
  | .sounded (.on _ _) | .sounded (.off _) => true
  | .published (.noteOn ..) _ | .published (.noteOff ..) _ => true
  | _ => false

def Deed.publishes : Deed → Bool
  | .published _ _ => true
  | _ => false

/-- A deed in its place: it plays only while a run is under way, fires a timer of that run alone,
and is published only when transport and timers tell of that run. -/
structure Proper (run : Option (List Nat)) (d : Deed) : Prop where
  own : d.plays = true → ∃ timers, run = some timers ∧ ∀ n t, d = .fired n t → n ∈ timers
  consistent : ∀ e s, d = .published e s → s.Consistent run

def AllProper : Option (List Nat) → List Deed → Prop
  | _, [] => True
  | run, d :: ds => Proper run d ∧ AllProper (follow run d) ds

theorem AllProper.append {run : Option (List Nat)} {ds es : List Deed} (h : AllProper run ds)
    (h' : AllProper (ds.foldl follow run) es) : AllProper run (ds ++ es) := by
  induction ds generalizing run with
  | nil => exact h'
  | cons d ds ih => exact ⟨h.1, ih h.2 h'⟩

theorem AllProper.proper {run : Option (List Nat)} {ds es : List Deed} {d : Deed}
    (h : AllProper run (ds ++ d :: es)) : Proper (ds.foldl follow run) d := by
  induction ds generalizing run with
  | nil => exact h.1
  | cons d ds ih => exact ih h.2

/-- What does not play and is not published is in its place anywhere. -/
theorem proper_of_still {run : Option (List Nat)} {d : Deed} (hd : d.plays = false)
    (hp : d.publishes = false) : Proper run d := by
  refine ⟨fun h => ?_, fun e s h => ?_⟩
  · rw [hd] at h
    cases h
  · rw [h] at hp
    cases hp

/-- What is published of the transport is in its place when the studio is consistent. -/
theorem proper_transport {run : Option (List Nat)} {s : Studio} (h : s.Consistent run)
    (playing : Bool) : Proper run (.published (.transport playing) s) := by
  refine ⟨fun hd => ?_, fun e s' hd => ?_⟩
  · cases hd
  · cases hd
    exact h

theorem allProper_stopDeeds (run : Option (List Nat)) {s : Studio} (a : Audio)
    (h : Steady none (s.stopped a)) :
    AllProper run (s.stopDeeds a) ∧ (s.stopDeeds a).foldl follow run = none := by
  have halted : Proper run .halted := proper_of_still rfl rfl
  have silent : Proper none (.sounded .silence) := proper_of_still rfl rfl
  unfold stopDeeds
  split
  · exact ⟨⟨halted, silent, proper_transport h.toConsistent false, trivial⟩, rfl⟩
  · exact ⟨⟨halted, silent, trivial⟩, rfl⟩

theorem Studio.Steady.proper_fired {run : Option (List Nat)} {s s' : Studio} {n : Nat}
    {t : Trigger} (h : Steady run s) (fires : Fires s n t s') : Proper run (.fired n t) := by
  obtain ⟨timers, e, hn⟩ := h.run_of_fires fires
  refine ⟨fun _ => ⟨timers, e, fun n' t' hd => ?_⟩, fun _ _ hd => by cases hd⟩
  cases hd
  exact hn

/-- What one move keeps. -/
theorem Move.steady {run : Option (List Nat)} {s s' : Studio} {ds : List Deed}
    (hm : Move s ds s') (h : Steady run s) :
    Steady (ds.foldl follow run) s' ∧ AllProper run ds := by
  cases hm with
  | aside same => exact ⟨h.aside same, trivial⟩
  | begin notes bpm extent rests some =>
    have hb := h.begun rests notes bpm extent
    exact ⟨hb, proper_of_still rfl rfl, proper_transport hb.toConsistent true, trivial⟩
  | stop a =>
    have hs := h.stopped a
    obtain ⟨proper, halts⟩ := allProper_stopDeeds run a hs
    rw [halts]
    exact ⟨hs, proper⟩
  | pass now serial ts due dead => exact ⟨h.passed due dead, trivial⟩
  | play serial t velocity told ht fires same =>
    have hp := (h.played fires ht).aside same
    obtain ⟨timers, e, _⟩ := h.run_of_fires fires
    have proper_fired : Proper run (.fired serial t) := h.proper_fired fires
    have proper_sounded : Proper run (.sounded (t.call velocity)) :=
      ⟨fun _ => ⟨timers, e, fun _ _ hd => by cases hd⟩, fun _ _ hd => by cases hd⟩
    have proper_told : Proper run (.published t.event s') := by
      refine ⟨fun _ => ⟨timers, e, fun _ _ hd => by cases hd⟩, fun e' s' hd => ?_⟩
      cases hd
      exact hp.toConsistent
    cases told
    · exact ⟨hp, proper_fired, proper_sounded, trivial⟩
    · exact ⟨hp, proper_fired, proper_sounded, proper_told, trivial⟩
  | finish serial a fires =>
    have hs := h.finished fires a
    obtain ⟨proper, halts⟩ := allProper_stopDeeds run a hs
    rw [List.foldl_cons, show follow run (.fired serial .finish) = run from rfl, halts]
    exact ⟨hs, h.proper_fired fires, proper⟩

/-- What a course keeps. -/
theorem Course.steady {run : Option (List Nat)} {s s' : Studio} {ds : List Deed}
    (hc : Course s ds s') (h : Steady run s) :
    Steady (ds.foldl follow run) s' ∧ AllProper run ds := by
  induction hc with
  | still => exact ⟨h, trivial⟩
  | step _ hm ih =>
    obtain ⟨hs, proper⟩ := ih
    obtain ⟨hs', proper'⟩ := hm.steady hs
    rw [List.foldl_append]
    exact ⟨hs', proper.append proper'⟩

/-- A studio in which nobody but playback uses the timers, and which is steady with some run. -/
structure Studio.Orderly (s : Studio) : Prop where
  onlyPlayback : OnlyPlayback s.timers
  steady : ∃ run, Steady run s

namespace Studio.Orderly

variable {s s' : Studio} {ds : List Deed} (h : s.Orderly)
include h

theorem move (hm : Move s ds s') : s'.Orderly := by
  obtain ⟨run, steady⟩ := h.steady
  exact ⟨onlyPlayback_move hm h.onlyPlayback, _, (hm.steady steady).1⟩

theorem course (hc : Course s ds s') : s'.Orderly := by
  obtain ⟨run, steady⟩ := h.steady
  exact ⟨onlyPlayback_course hc h.onlyPlayback, _, (hc.steady steady).1⟩

theorem coherent : s.Coherent := by
  obtain ⟨run, steady⟩ := h.steady
  exact steady.coherent

end Studio.Orderly

theorem Studio.Fresh.onlyPlayback {s : Studio} (h : Fresh s) : OnlyPlayback s.timers := by
  rw [h.timers]
  exact fun _ ht => absurd ht (Array.not_mem_empty _)

theorem Studio.Fresh.orderly {s : Studio} (h : Fresh s) : s.Orderly :=
  ⟨h.onlyPlayback, none, h.steady⟩

/-! ## Publications of the transport -/

def transports (ds : List Deed) : List Bool := ds.filterMap fun
  | .published (.transport playing) _ => some playing
  | _ => none

/-- Values that change each time, from `b` before the first to `b'` at last. -/
def Alternating : Bool → List Bool → Bool → Prop
  | b, [], b' => b' = b
  | b, x :: xs, b' => x = !b ∧ Alternating x xs b'

theorem Alternating.append {b b' b'' : Bool} {xs ys : List Bool} (h : Alternating b xs b')
    (h' : Alternating b' ys b'') : Alternating b (xs ++ ys) b'' := by
  induction xs generalizing b with
  | nil =>
    cases h
    exact h'
  | cons x xs ih => exact ⟨h.1, ih h.2⟩

theorem alternating_stopDeeds (s : Studio) (a : Audio) :
    Alternating s.transport.playing (transports (s.stopDeeds a)) false := by
  unfold stopDeeds
  cases s.transport.playing
  · rfl
  · exact ⟨rfl, rfl⟩

theorem Move.alternating {s s' : Studio} {ds : List Deed} (hm : Move s ds s') :
    Alternating s.transport.playing (transports ds) s'.transport.playing := by
  cases hm with
  | aside same => exact same.playing
  | begin notes bpm extent rests some =>
    rw [rests]
    exact ⟨rfl, rfl⟩
  | stop a => exact alternating_stopDeeds s a
  | pass => rfl
  | play serial t velocity told ht fires same =>
    obtain ⟨now, ts, hd, rfl⟩ := fires.due
    have silent : transports (.fired serial t :: .sounded (t.call velocity) ::
        if told then [.published t.event s'] else []) = [] := by
      cases told
      · rfl
      · cases t with
        | noteOn n => rfl
        | noteOff n => rfl
        | finish => exact absurd rfl ht
    rw [silent]
    exact same.playing
  | finish serial a fires =>
    obtain ⟨now, ts, hd, rfl⟩ := fires.due
    exact alternating_stopDeeds (taken serial { s with timers := ts }) a

theorem Course.alternating {s s' : Studio} {ds : List Deed} (hc : Course s ds s') :
    Alternating s.transport.playing (transports ds) s'.transport.playing := by
  induction hc with
  | still => rfl
  | step _ hm ih =>
    rw [transports, List.filterMap_append]
    exact ih.append hm.alternating

end PianoRoll
