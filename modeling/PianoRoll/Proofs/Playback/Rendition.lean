import PianoRoll.Proofs.Callback
import PianoRoll.Proofs.Melody.Extents
import PianoRoll.Proofs.Playback.Consistency
import PianoRoll.Proofs.Playback.Turns

/-!
Renditions: what a run asks the audio output for from its beginning to its end, when nobody disturbs
it. When a run begins, the queue holds its turns, its end and what was left of runs before, which
has been cancelled (`inLine_begun`). From there every note is played once, each one ends behind its
beginning, and one silence behind them all ends the run (`plays_every_note`).
-/

namespace PianoRoll

open Number Studio Work

namespace Timers

variable {τ : Type}

/-- Tasks take their places behind those that are in the queue. -/
theorem enter_perm (ts : Timers τ) (tasks : List (Float × τ)) :
    (ts.enter tasks).queue.toList.Perm
      (ts.queue.toList ++ (tasks.zipIdx ts.timers.size).map fun m => ⟨m.1.1, m.2⟩) := by
  induction tasks generalizing ts with
  | nil => simp [Timers.enter]
  | cons m tasks ih =>
    have hfirst : (ts.schedule m.1 m.2).2.queue.toList.Perm
        (ts.queue.toList ++ [⟨m.1, ts.timers.size⟩]) := by
      have hp := (Heap.push_perm Due.before ts.queue ⟨m.1, ts.timers.size⟩).toList
      rw [Array.toList_push] at hp
      exact hp
    have hrest := ih (ts.schedule m.1 m.2).2
    rw [size_schedule] at hrest
    rw [enter_cons, List.zipIdx_cons, List.map_cons, List.append_cons]
    exact hrest.trans (hfirst.append_right _)

/-- The timer of a task, by its number. -/
theorem get?_enter_of_mem {ts : Timers τ} {tasks : List (Float × τ)} {m : Float × τ} {n : Nat}
    (h : (m, n) ∈ tasks.zipIdx ts.timers.size) :
    (ts.enter tasks).get? n = some ⟨m.1, m.2, false, false⟩ := by
  obtain ⟨hle, hm⟩ := List.mk_mem_zipIdx_iff_le_and_getElem?_sub.1 h
  have hget := ts.get?_enter tasks (n - ts.timers.size)
  rw [Nat.add_sub_cancel' hle, hm] at hget
  exact hget

end Timers

/-! ## The line of a run that begins -/

def stale (s : Studio) : List Slot := s.timers.queue.toList.map fun d => ⟨d, none⟩

def fresh (s : Studio) (bpm : Float) (notes : List Note) : List Slot :=
  (turnsOf notes).map (Turn.slot s bpm) ++ [lastSlot s bpm notes]

noncomputable def lineOf (s : Studio) (bpm : Float) (notes : List Note) : List Slot :=
  byKey (fun x => x.due.rank) (stale s ++ fresh s bpm notes)

def tasksOf (s : Studio) (bpm : Float) (extent : Option Extent) (notes : List Note) :
    List (Float × Task) :=
  (triggers s.settings.startDelay notes).map ((s.prepared notes bpm extent).placed s.clock)

section Begun

variable {s : Studio} {bpm : Float} {notes : List Note}

/-- A run sets its tasks for its turns and for its end. -/
theorem tasksOf_eq (extent : Option Extent) : tasksOf s bpm extent notes =
    (turnsOf notes).map (fun t => (s.dueAt bpm t.beat, .playback t.trigger)) ++
      [(s.dueAt bpm (totalBeats notes), .playback .finish)] := by
  rw [tasksOf, triggers_eq_turns, List.map_append, List.map_map]
  rfl

/-- The tasks of a run with their numbers. -/
theorem zipIdx_tasksOf (extent : Option Extent) :
    (tasksOf s bpm extent notes).zipIdx s.timers.timers.size =
      (turnsOf notes).map (fun t => ((s.dueAt bpm t.beat, .playback t.trigger),
        s.timers.timers.size + t.place)) ++
      [((s.dueAt bpm (totalBeats notes), .playback .finish),
        s.timers.timers.size + 2 * notes.length)] := by
  have hzip : (turnsOf notes).zipIdx s.timers.timers.size =
      (turnsOf notes).map fun t => (t, s.timers.timers.size + t.place) :=
    zipIdx_turnsFrom s.timers.timers.size 0 notes
  rw [tasksOf_eq, List.zipIdx_append, List.zipIdx_map, List.length_map, length_turnsOf, hzip,
    List.map_map]
  rfl

/-- The queue of a run that begins holds what was there and the slots of the run. -/
theorem queue_begun (extent : Option Extent) :
    (s.begun notes bpm extent).timers.queue.toList.Perm
      ((stale s ++ fresh s bpm notes).map Slot.due) := by
  have hperm := s.timers.enter_perm (tasksOf s bpm extent notes)
  have hstale : (stale s).map Slot.due = s.timers.queue.toList := by
    rw [stale, List.map_map]
    exact List.map_id _
  rw [zipIdx_tasksOf, List.map_append, List.map_map] at hperm
  rw [fresh, List.map_append, hstale, List.map_append, List.map_map]
  exact hperm

/-- Each slot of a run that begins has its timer. -/
theorem stands_fresh (extent : Option Extent) :
    ∀ x ∈ fresh s bpm notes, x.Stands (s.begun notes bpm extent).timers := by
  have hget {m : Float × Task} {n : Nat}
      (hm : (m, n) ∈ (tasksOf s bpm extent notes).zipIdx s.timers.timers.size) :
      (s.begun notes bpm extent).timers.get? n = some ⟨m.1, m.2, false, false⟩ :=
    Timers.get?_enter_of_mem hm
  intro x hx
  rcases List.mem_append.1 hx with hx | hx
  · obtain ⟨t, ht, rfl⟩ := List.mem_map.1 hx
    have hm : ((s.dueAt bpm t.beat, .playback t.trigger), s.timers.timers.size + t.place) ∈
        (tasksOf s bpm extent notes).zipIdx s.timers.timers.size := by
      rw [zipIdx_tasksOf]
      exact List.mem_append_left _ (List.mem_map_of_mem ht)
    exact ⟨_, hget hm, rfl, rfl⟩
  · rw [List.mem_singleton.1 hx]
    have hm : ((s.dueAt bpm (totalBeats notes), .playback .finish),
        s.timers.timers.size + 2 * notes.length) ∈
          (tasksOf s bpm extent notes).zipIdx s.timers.timers.size := by
      rw [zipIdx_tasksOf]
      exact List.mem_append_right _ List.mem_cons_self
    exact ⟨_, hget hm, rfl, rfl⟩

/-- Timers that were there before stand for nothing. -/
theorem stands_stale (steady : Steady none s) (rests : s.transport.playing = false)
    (extent : Option Extent) :
    ∀ x ∈ stale s, x.Stands (s.begun notes bpm extent).timers := by
  intro x hx
  obtain ⟨d, hd, rfl⟩ := List.mem_map.1 hx
  have hserial : d.serial ∈ s.timers.serials := List.mem_map_of_mem hd
  obtain ⟨timer, hget, _⟩ := steady.kept.unfired d.serial hserial
  have hsame : (s.begun notes bpm extent).timers.get? d.serial = s.timers.get? d.serial :=
    Timers.get?_enter_of_lt _ (steady.kept.lt_size hserial)
  have hnone : s.timers.waiting = [] := by
    have hp := steady.waiting
    rw [steady.pending_eq_nil rests] at hp
    exact hp.symm.eq_nil
  refine ⟨timer, hsame.trans hget, ?_⟩
  cases hc : timer.cancelled with
  | true => rfl
  | false =>
    have hwaits := steady.kept.mem_waiting_iff.2 ⟨hserial, timer, hget, hc⟩
    rw [hnone] at hwaits
    cases hwaits

theorem numeric_tasksOf (extent : Option Extent)
    (numeric : ∀ x ∈ fresh s bpm notes, Numeric x.due.deadline) :
    ∀ m ∈ tasksOf s bpm extent notes, Numeric m.1 := by
  intro m hm
  rw [tasksOf_eq] at hm
  rcases List.mem_append.1 hm with hm | hm
  · obtain ⟨t, ht, rfl⟩ := List.mem_map.1 hm
    exact numeric (t.slot s bpm) (List.mem_append_left _ (List.mem_map_of_mem ht))
  · rw [List.mem_singleton.1 hm]
    exact numeric (lastSlot s bpm notes) (List.mem_append_right _ List.mem_cons_self)

/-- When a run begins, its timers and those that were there before are in line. -/
theorem inLine_begun (steady : Steady none s) (rests : s.transport.playing = false)
    (ranked : s.timers.Ranked) (extent : Option Extent)
    (numeric : ∀ x ∈ fresh s bpm notes, Numeric x.due.deadline) :
    InLine (s.begun notes bpm extent).timers (lineOf s bpm notes) := by
  have hline := byKey_perm (fun x => x.due.rank) (stale s ++ fresh s bpm notes)
  have hqueue : (s.begun notes bpm extent).timers.queue.toList.Perm
      ((stale s ++ fresh s bpm notes).map Slot.due) := queue_begun extent
  have hserials : ((stale s ++ fresh s bpm notes).map fun x => x.due.serial).Nodup := by
    have hnodup := (steady.kept.enter (tasksOf s bpm extent notes)).nodup
    have hperm := hqueue.map Due.serial
    rw [List.map_map] at hperm
    exact hperm.nodup_iff.1 hnodup
  have apart : (stale s ++ fresh s bpm notes).Pairwise fun x y => x.due.rank ≠ y.due.rank := by
    refine (List.pairwise_map.1 hserials).imp fun hne e => hne ?_
    exact congrArg (fun r => (ofLex r).2) e
  refine ⟨⟨?_, hqueue.trans (hline.map Slot.due).symm, ?_⟩, ?_, fun x hx => ?_⟩
  · exact ranked.enter (numeric_tasksOf extent numeric)
  · exact List.pairwise_map.2 (pairwise_byKey _ apart)
  · exact (hline.map fun x => x.due.serial).nodup_iff.2 hserials
  · rcases List.mem_append.1 (hline.mem_iff.1 hx) with hx | hx
    · exact stands_stale steady rests extent x hx
    · exact stands_fresh extent x hx

theorem lastSlot_deadline :
    (lastSlot s bpm notes).due.deadline = s.dueAt bpm (totalBeats notes) := rfl

/-- What was there before stands for nothing, and what is fresh for its triggers. -/
theorem filter_stale_fresh : (stale s ++ fresh s bpm notes).filter (fun x => x.trigger.isSome) =
    fresh s bpm notes := by
  have hstale : (stale s).filter (fun x => x.trigger.isSome) = [] := by
    refine List.filter_eq_nil_iff.2 fun x hx => ?_
    obtain ⟨d, _, rfl⟩ := List.mem_map.1 hx
    exact Bool.false_ne_true
  have hfresh : (fresh s bpm notes).filter (fun x => x.trigger.isSome) = fresh s bpm notes := by
    refine List.filter_eq_self.2 fun x hx => ?_
    rcases List.mem_append.1 hx with hx | hx
    · obtain ⟨t, _, rfl⟩ := List.mem_map.1 hx
      rfl
    · rw [List.mem_singleton.1 hx]
      rfl
  rw [List.filter_append, hstale, hfresh]
  rfl

section Ending

variable (paced : s.Paced bpm) (inTime : ∀ n ∈ notes, n.InTime)
  (ends : Numeric (s.dueAt bpm (totalBeats notes)))
include paced inTime ends

theorem numeric_fresh : ∀ x ∈ fresh s bpm notes, Numeric x.due.deadline := by
  intro x hx
  rcases List.mem_append.1 hx with hx | hx
  · obtain ⟨t, ht, rfl⟩ := List.mem_map.1 hx
    exact (t.due_le_last paced inTime ends ht).1
  · rw [List.mem_singleton.1 hx]
    exact ends

/-- What the line of a run stands for: its turns by rank, and then its end. -/
theorem live_lineOf (sorted : (lineOf s bpm notes).Pairwise fun x y => x.due.rank < y.due.rank) :
    live (lineOf s bpm notes) = (rankedTurns s bpm notes).map Turn.trigger ++ [.finish] := by
  let own : List Slot := (rankedTurns s bpm notes).map (Turn.slot s bpm) ++ [lastSlot s bpm notes]
  have hown : own.Pairwise fun x y => x.due.rank < y.due.rank := by
    refine List.pairwise_append.2 ⟨List.pairwise_map.2 (rankedTurns_sorted s bpm notes),
      List.pairwise_singleton _ _, fun x hx y hy => ?_⟩
    obtain ⟨t, ht, rfl⟩ := List.mem_map.1 hx
    rw [List.mem_singleton.1 hy]
    exact Turn.rank_lt_last paced inTime ends ((rankedTurns_perm s bpm notes).mem_iff.1 ht)
  have hfilter : (lineOf s bpm notes).filter (fun x => x.trigger.isSome) = own := by
    refine eq_of_pairwise_key (fun x : Slot => x.due.rank) (sorted.filter _) hown ?_
    have hperm := (byKey_perm (fun x : Slot => x.due.rank) (stale s ++ fresh s bpm notes)).filter
      fun x => x.trigger.isSome
    rw [filter_stale_fresh] at hperm
    exact hperm.trans (((rankedTurns_perm s bpm notes).map _).symm.append_right _)
  rw [← live_filter, hfilter, live, List.filterMap_append, List.filterMap_map]
  exact congrArg (· ++ [Trigger.finish]) (congrFun List.filterMap_eq_map' _)

end Ending

/-- Only notes of the run begin in it. -/
theorem mem_of_noteOn {n : Note}
    (h : .noteOn n ∈ (rankedTurns s bpm notes).map Turn.trigger ++ [.finish]) : n ∈ notes := by
  rw [List.mem_append, List.mem_singleton] at h
  obtain ⟨t, ht, htrigger⟩ := List.mem_map.1 (h.resolve_right fun e => by cases e)
  have hnote := note_mem_of_turn ((rankedTurns_perm s bpm notes).mem_iff.1 ht)
  unfold Turn.trigger at htrigger
  split at htrigger <;> cases htrigger
  exact hnote

end Begun

/-! ## The rendition -/

def Turn.call (velocity : Float) (t : Turn) : SoundCall := t.trigger.call velocity

theorem Turn.trigger_ne_finish (t : Turn) : t.trigger ≠ .finish := by
  unfold Turn.trigger
  split <;> exact fun h => by cases h

/-- The calls of notes that are played one after the other. -/
def inSequence (velocity : Float) (notes : List Note) : List SoundCall :=
  notes.flatMap fun n => [.on (.whole n.pitch) velocity, .off (.whole n.pitch)]

theorem map_call_turnsOf (velocity : Float) (notes : List Note) :
    (turnsOf notes).map (Turn.call velocity) = inSequence velocity notes := by
  have each : ∀ k, (turnsFrom k notes).map (Turn.call velocity) = inSequence velocity notes := by
    induction notes with
    | nil => exact fun _ => rfl
    | cons n notes ih =>
      intro k
      rw [turnsFrom_cons, List.map_cons, List.map_cons, ih]
      rfl
  exact each 0

/-- What stands behind the one element that a list ends with is nothing. -/
theorem eq_nil_of_last_mem {α : Type} {xs ys zs : List α} {x : α} (h : xs ++ ys = zs ++ [x])
    (hx : x ∈ xs) (hz : x ∉ zs) : ys = [] := by
  rcases List.eq_nil_or_concat ys with hnil | ⟨us, u, rfl⟩
  · exact hnil
  · rw [List.concat_eq_append, ← List.append_assoc] at h
    exact absurd ((List.append_inj_left' h rfl) ▸ List.mem_append_left us hx) hz

/-- Plays a melody while the timers are pumped at the given times and nothing else happens. -/
def playThrough (h : Hooks) (notes : List Note) (bpm : Option Float) (extent : Option Extent)
    (times : List Float) : Act Bool := do
  let began ← startPlayback h notes bpm extent
  pumpAll h times
  return began

/-- The striker has a place for every note of a run whose extent holds them. -/
theorem reaches_of_covers {notes : List Note} {extent : Option Extent}
    (covers : ∀ r, extent = some r → r.Covers notes) {n : Note} (hn : n ∈ notes) :
    Reaches (extent.or (Extent.of? notes)) n.pitch := by
  intro r hr
  cases extent with
  | none => exact (Extent.covers_of? hr).markerOf hn
  | some r' => exact (covers r hr).markerOf hn

section Rendition

variable {h : Hooks} (discreet : Discreet h) {s : Studio} (tape : s.audio = .tape)
  (steady : Steady none s) (ranked : s.timers.Ranked) {notes : List Note} (nonempty : notes ≠ [])
  (inTime : ∀ n ∈ notes, n.InTime) {bpm : Option Float}
  (paced : s.Paced (orTempo bpm s.settings.tempo)) {extent : Option Extent}
  (covers : ∀ r, extent = some r → r.Covers notes)
include discreet tape steady ranked nonempty inTime paced covers

/-- When a run begins, it goes on with the line of its timers. -/
theorem startPlayback_underway
    (ends : Numeric (s.dueAt (orTempo bpm s.settings.tempo) (totalBeats notes))) :
    ∃ b, (startPlayback h notes bpm extent).on ⟨s, []⟩ = some (.ok true, b) ∧
      Underway s.transport.velocity b.part (lineOf s (orTempo bpm s.settings.tempo) notes) ∧
      b.sounds = [] := by
  let tempo := orTempo bpm s.settings.tempo
  have rests : s.transport.playing = false := by
    have hplaying := steady.playing
    simpa using hplaying
  have hb : (s.transport.playing || notes.isEmpty) = false := by simp [rests, nonempty]
  let b₀ : Bench Studio := ⟨s.begun notes tempo extent, [startedLine notes tempo]⟩
  have hstart : (startPlayback h notes bpm extent).on ⟨s, []⟩ =
      (do publish h (.transport true); return true : Act Bool).on b₀ :=
    startPlayback_on h extent hb paced.tempo_ne_zero
  obtain ⟨b, hpublish, beside⟩ := publish_on discreet (.transport true) b₀
  have inLine := inLine_begun steady rests ranked extent (numeric_fresh paced inTime ends)
  have hlive : live (lineOf s tempo notes) =
      (rankedTurns s tempo notes).map Turn.trigger ++ [.finish] :=
    live_lineOf paced inTime ends ((List.pairwise_map (f := Slot.due)).1 inLine.lines.sorted)
  refine ⟨b, hstart.trans ((on_bind_ok hpublish).trans (on_pure true b)),
    ⟨beside.audio.trans tape, ?_, fun n hn => ?_, ?_, Or.inr ⟨_, hlive, fun t ht => ?_⟩⟩, ?_⟩
  · rw [beside.transport]
    rfl
  · rw [hlive] at hn
    rw [beside.transport]
    exact reaches_of_covers covers (mem_of_noteOn hn)
  · rw [beside.timers]
    exact inLine
  · obtain ⟨u, _, rfl⟩ := List.mem_map.1 ht
    exact u.trigger_ne_finish
  · rw [beside.sounds]
    exact sounds_cons _ _ []

/-- Once the pumps have come to the end of the run, all that was left of its line has been
played. -/
theorem playThrough_on {times : List Float} (complete : ∃ now ∈ times,
      s.dueAt (orTempo bpm s.settings.tempo) (totalBeats notes) ≤ now)
    (patient : s.timers.queue.size + 2 * notes.length + 1 < h.patience) :
    ∃ b, (playThrough h notes bpm extent times).on ⟨s, []⟩ = some (.ok true, b) ∧
      b.part.transport.Rests ∧
      b.sounds = (rankedTurns s (orTempo bpm s.settings.tempo) notes).map
        (Turn.call s.transport.velocity) ++ [.silence] := by
  let tempo := orTempo bpm s.settings.tempo
  obtain ⟨now, hnow, hdue⟩ := complete
  have ends : Numeric (s.dueAt tempo (totalBeats notes)) := (numeric_of_le hdue).1
  obtain ⟨b₁, hstart, under, silent⟩ :=
    startPlayback_underway discreet tape steady ranked nonempty inTime paced covers ends
  have hperm := byKey_perm (fun x : Slot => x.due.rank) (stale s ++ fresh s tempo notes)
  have hlen : (lineOf s tempo notes).length < h.patience := by
    rw [lineOf, hperm.length_eq, stale, fresh]
    simpa [length_turnsOf, Nat.add_assoc] using patient
  obtain ⟨rest, b, hpump, passed, later⟩ := pumpAll_on discreet under times hlen
  obtain ⟨front, hfront, sounds⟩ := passed.front
  have hlive : live front ++ live rest =
      (rankedTurns s tempo notes).map Turn.trigger ++ [.finish] := by
    have hsorted := (List.pairwise_map (f := Slot.due)).1 under.inLine.lines.sorted
    rw [← live_lineOf paced inTime ends hsorted, live, live, live, hfront, List.filterMap_append]
  -- the end of the run has left the line, and with it everything else
  have hlast : Trigger.finish ∈ live front := by
    have hmem : lastSlot s tempo notes ∈ front ++ rest := by
      rw [← hfront]
      exact hperm.mem_iff.2 (List.mem_append_right _ (List.mem_append_right _ List.mem_cons_self))
    rcases List.mem_append.1 hmem with hmem | hmem
    · exact List.mem_filterMap.2 ⟨_, hmem, rfl⟩
    · have hnot := later now hnow _ hmem
      rw [lastSlot_deadline] at hnot
      exact absurd hdue hnot
  have hnone : live rest = [] := by
    refine eq_nil_of_last_mem hlive hlast fun hmem => ?_
    obtain ⟨t, _, ht⟩ := List.mem_map.1 hmem
    exact t.trigger_ne_finish ht
  have rests : live rest = [] ∧ b.part.transport.Rests := by
    refine passed.under.ends.resolve_right fun later => ?_
    obtain ⟨ts, hts, _⟩ := later
    rw [hnone] at hts
    exact List.append_ne_nil_of_right_ne_nil _ (List.cons_ne_nil _ _) hts.symm
  refine ⟨b, ?_, rests.2, ?_⟩
  · exact (on_bind_ok hstart).trans ((on_bind_ok hpump).trans (on_pure true b))
  · rw [hnone, List.append_nil] at hlive
    rw [sounds, silent, hlive, List.map_append, List.map_map]
    rfl

end Rendition

/-- From its beginning to its end a run plays each note once, ending it behind its beginning, and
then silences everything and comes to rest, at whatever times the timers are pumped. Notes without
overlaps, as those of a script, are played one after the other, each one ended before the next
begins. -/
theorem plays_every_note {h : Hooks} (discreet : Discreet h) {s : Studio} (tape : s.audio = .tape)
    (steady : Steady none s) (ranked : s.timers.Ranked) {notes : List Note} (nonempty : notes ≠ [])
    (inTime : ∀ n ∈ notes, n.InTime) {bpm : Option Float}
    (paced : s.Paced (orTempo bpm s.settings.tempo)) {extent : Option Extent}
    (covers : ∀ r, extent = some r → r.Covers notes) {times : List Float}
    (complete : ∃ now ∈ times,
      s.dueAt (orTempo bpm s.settings.tempo) (totalBeats notes) ≤ now)
    (patient : s.timers.queue.size + 2 * notes.length + 1 < h.patience) :
    ∃ s' es turns,
      runAct (playThrough h notes bpm extent times) s =
        some (.ok true, s', es) ∧
      s'.transport.Rests ∧
      soundsOf es = turns.map (Turn.call s.transport.velocity) ++ [.silence] ∧
      turns.Perm (turnsOf notes) ∧
      (∀ n i, (n, i) ∈ notes.zipIdx → List.Sublist [⟨n, i, true⟩, ⟨n, i, false⟩] turns) ∧
      (InOrder notes ∨ (∃ text, notes = Script.notesOf text) →
        soundsOf es = inSequence s.transport.velocity notes ++ [.silence]) := by
  obtain ⟨now, hnow, hdue⟩ := id complete
  have ends := (numeric_of_le hdue).1
  obtain ⟨b, hrun, rests, sounds⟩ :=
    playThrough_on discreet tape steady ranked nonempty inTime paced covers complete patient
  refine ⟨b.part, b.journal.reverse, rankedTurns s (orTempo bpm s.settings.tempo) notes, ?_, rests,
    sounds, rankedTurns_perm _ _ _, fun n i hn => pair_rankedTurns paced inTime ends hn,
    fun h => ?_⟩
  · rw [runAct, hrun]
    rfl
  · have order : InOrder notes := by
      rcases h with order | ⟨text, rfl⟩
      · exact order
      · exact Script.notesOf_inOrder text
    rw [← map_call_turnsOf, ← rankedTurns_inOrder paced inTime ends order]
    exact sounds

/-- Two notes of one pitch, the second from the end of the first. -/
def repeated : List Note := [⟨60, "C4", 0, 1⟩, ⟨60, "C4", 1, 2⟩]

theorem discreet_unheard : Discreet unheard := fun _ _ b => ⟨.ok (), b, rfl, .refl b⟩

theorem plays_every_note_repeated : ∃ s' es turns,
    runAct (playThrough unheard repeated none none [100, 101.6, 103]) {} =
        some (.ok true, s', es) ∧
      s'.transport.Rests ∧
      soundsOf es = turns.map (Turn.call 1) ++ [.silence] ∧
      turns.Perm (turnsOf repeated) ∧
      (∀ n i, (n, i) ∈ repeated.zipIdx → List.Sublist [⟨n, i, true⟩, ⟨n, i, false⟩] turns) ∧
      (InOrder repeated ∨ (∃ text, repeated = Script.notesOf text) →
        soundsOf es = inSequence 1 repeated ++ [.silence]) := by
  have fresh : Fresh {} := ⟨rfl, rfl, rfl, rfl⟩
  have inTime : ∀ n ∈ repeated, n.InTime := by
    unfold repeated Note.InTime
    decide +kernel
  have paced : Paced {} (orTempo none (Studio.settings {}).tempo) :=
    ⟨by decide +kernel, by decide +kernel, by decide +kernel⟩
  have complete : Studio.dueAt {} (orTempo none (Studio.settings {}).tempo) (totalBeats repeated) ≤
      103 := by decide +kernel
  exact plays_every_note discreet_unheard rfl fresh.steady Timers.ranked_empty (by decide) inTime
    paced (fun _ h => by cases h) ⟨103, by simp, complete⟩ (by decide)

end PianoRoll
