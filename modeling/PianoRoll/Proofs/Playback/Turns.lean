import Mathlib.Data.List.Sort
import PianoRoll.Proofs.Melody.InTime
import PianoRoll.Proofs.Playback.Deadlines
import PianoRoll.Proofs.Playback.Passing

/-!
The turns of a melody: the beginnings and the ends of its notes, numbered so that equal notes are
told apart. A run sets a timer for each turn in the order of the notes, and one for its end behind
them all. By rank a note begins before it ends, every turn comes before the end of the run, and the
turns of a melody without overlaps stay in the order of its notes.
-/

namespace PianoRoll

open Number

structure Turn where
  note : Note
  number : Nat
  begins : Bool

namespace Turn

def trigger (t : Turn) : Trigger := if t.begins then .noteOn t.note else .noteOff t.note

def beat (t : Turn) : Float := if t.begins then t.note.start else t.note.finish

/-- The place of a turn in the order of scheduling. -/
def place (t : Turn) : Nat := 2 * t.number + if t.begins then 0 else 1

end Turn

/-- The turns of notes that are numbered from `k` on. -/
def turnsFrom (k : Nat) (notes : List Note) : List Turn :=
  (notes.zipIdx k).flatMap fun (n, i) => [⟨n, i, true⟩, ⟨n, i, false⟩]

/-- The turns of a melody, each note's end behind its beginning. -/
def turnsOf (notes : List Note) : List Turn := turnsFrom 0 notes

theorem turnsFrom_cons (k : Nat) (n : Note) (notes : List Note) :
    turnsFrom k (n :: notes) = ⟨n, k, true⟩ :: ⟨n, k, false⟩ :: turnsFrom (k + 1) notes := rfl

theorem mem_turnsOf {notes : List Note} {t : Turn} :
    t ∈ turnsOf notes ↔ (t.note, t.number) ∈ notes.zipIdx := by
  obtain ⟨n, i, b⟩ := t
  simp only [turnsOf, turnsFrom, List.mem_flatMap, List.mem_cons, List.not_mem_nil, or_false]
  constructor
  · rintro ⟨⟨m, j⟩, hm, h | h⟩ <;> cases h <;> exact hm
  · intro h
    refine ⟨(n, i), h, ?_⟩
    cases b
    · exact Or.inr rfl
    · exact Or.inl rfl

theorem note_mem_of_turn {notes : List Note} {t : Turn} (h : t ∈ turnsOf notes) :
    t.note ∈ notes := List.fst_mem_of_mem_zipIdx (mem_turnsOf.1 h)

/-- The triggers of a run are those of the turns, and its end. -/
theorem triggers_eq_turns (lead : Float) (notes : List Note) :
    triggers lead notes = (turnsOf notes).map (fun t => (t.beat + lead, t.trigger)) ++
      [(totalBeats notes + lead, .finish)] := by
  have each : ∀ k, notes.flatMap (fun n => [(n.start + lead, Trigger.noteOn n),
      (n.finish + lead, .noteOff n)]) =
        (turnsFrom k notes).map fun t => (t.beat + lead, t.trigger) := by
    induction notes with
    | nil => exact fun _ => rfl
    | cons n notes ih =>
      intro k
      rw [List.flatMap_cons, ih (k + 1), turnsFrom_cons]
      rfl
  rw [triggers, each 0]
  rfl

/-- The turns are counted by their places. -/
theorem zipIdx_turnsFrom (base k : Nat) (notes : List Note) :
    (turnsFrom k notes).zipIdx (base + 2 * k) =
      (turnsFrom k notes).map fun t => (t, base + t.place) := by
  induction notes generalizing k with
  | nil => rfl
  | cons n notes ih =>
    have hnext : base + 2 * k + 1 + 1 = base + 2 * (k + 1) := by omega
    rw [turnsFrom_cons, List.zipIdx_cons, List.zipIdx_cons, hnext, ih (k + 1)]
    rfl

theorem length_turnsOf (notes : List Note) : (turnsOf notes).length = 2 * notes.length := by
  have each : ∀ k, (turnsFrom k notes).length = 2 * notes.length := by
    induction notes with
    | nil => exact fun _ => rfl
    | cons n notes ih =>
      intro k
      rw [turnsFrom_cons, List.length_cons, List.length_cons, ih, List.length_cons]
      omega
  exact each 0

/-- In the order of the notes the places go up. -/
theorem places_ascend (notes : List Note) :
    (turnsOf notes).Pairwise fun t u => t.place < u.place := by
  have hplaces := congrArg (List.map Prod.snd) (zipIdx_turnsFrom 0 0 notes)
  rw [List.zipIdx_map_snd, List.map_map] at hplaces
  have hsorted := List.pairwise_lt_range' (s := 0 + 2 * 0) (n := (turnsFrom 0 notes).length)
  rw [hplaces, List.pairwise_map] at hsorted
  exact hsorted.imp fun h => by simpa using h

theorem place_lt {notes : List Note} {t : Turn} (h : t ∈ turnsOf notes) :
    t.place < 2 * notes.length := by
  have hlt : t.number < notes.length := by
    have := List.snd_lt_of_mem_zipIdx (mem_turnsOf.1 h)
    omega
  unfold Turn.place
  split <;> omega

/-! ## Beats -/

section Beats

variable {notes : List Note} (inTime : ∀ n ∈ notes, n.InTime)
include inTime

theorem Turn.beat_nonneg {t : Turn} (h : t ∈ turnsOf notes) : 0 ≤ t.beat := by
  obtain ⟨hstart, hfinish⟩ := inTime t.note (note_mem_of_turn h)
  unfold Turn.beat
  split
  · exact hstart
  · exact float_le_trans hstart hfinish

theorem Turn.beat_le_totalBeats {t : Turn} (h : t ∈ turnsOf notes) :
    t.beat ≤ totalBeats notes := by
  have hlast := finish_le_totalBeats inTime (note_mem_of_turn h)
  unfold Turn.beat
  split
  · exact float_le_trans (inTime t.note (note_mem_of_turn h)).2 hlast
  · exact hlast

end Beats

/-- Behind a note all turns are later. -/
theorem finish_le_beat {n : Note} {notes : List Note} (inTime : ∀ m ∈ notes, m.InTime)
    (order : InOrder (n :: notes)) (k : Nat) : ∀ t ∈ turnsFrom k notes, n.finish ≤ t.beat := by
  induction notes generalizing n k with
  | nil => exact fun t ht => absurd ht List.not_mem_nil
  | cons m notes ih =>
    obtain ⟨hfirst, hrest⟩ := List.isChain_cons_cons.1 order
    have hm := (inTime m List.mem_cons_self).2
    have hfinish := float_le_trans hfirst hm
    intro t ht
    rw [turnsFrom_cons, List.mem_cons, List.mem_cons] at ht
    rcases ht with rfl | rfl | ht
    · exact hfirst
    · exact hfinish
    · have hlater := ih (fun j hj => inTime j (List.mem_cons_of_mem m hj)) hrest (k + 1) t ht
      exact float_le_trans hfinish hlater

/-- The turns of notes without overlaps go up. -/
theorem beats_ascend {notes : List Note} (inTime : ∀ n ∈ notes, n.InTime)
    (order : InOrder notes) (k : Nat) :
    (turnsFrom k notes).Pairwise fun t u => t.beat ≤ u.beat := by
  induction notes generalizing k with
  | nil => exact List.Pairwise.nil
  | cons n notes ih =>
    have hrest : ∀ m ∈ notes, m.InTime := fun m hm => inTime m (List.mem_cons_of_mem n hm)
    have hn := (inTime n List.mem_cons_self).2
    have hlater := finish_le_beat hrest order (k + 1)
    rw [turnsFrom_cons, List.pairwise_cons, List.pairwise_cons]
    refine ⟨fun t ht => ?_, hlater, ih hrest order.tail (k + 1)⟩
    rcases List.mem_cons.1 ht with rfl | ht
    · exact hn
    · exact float_le_trans hn (hlater t ht)

/-! ## Ranks -/

/-- Tempos above zero, and a lead-in that is not below it. -/
structure Studio.Paced (s : Studio) (bpm : Float) : Prop where
  reference : 0 < s.settings.referenceBpm
  tempo : 0 < bpm
  lead : 0 ≤ s.settings.startDelay

theorem Studio.Paced.tempo_ne_zero {s : Studio} {bpm : Float} (paced : s.Paced bpm) :
    (bpm == 0) = false := by
  refine Bool.eq_false_iff.2 fun heq => ?_
  have hpos := worth_lt paced.tempo
  have hzero := (beq_iff (numeric_of_lt paced.tempo).2 numeric_zero).1 heq
  rw [hzero] at hpos
  exact lt_irrefl _ hpos

def Turn.slot (s : Studio) (bpm : Float) (t : Turn) : Slot :=
  ⟨⟨s.dueAt bpm t.beat, s.timers.timers.size + t.place⟩, some t.trigger⟩

def lastSlot (s : Studio) (bpm : Float) (notes : List Note) : Slot :=
  ⟨⟨s.dueAt bpm (totalBeats notes), s.timers.timers.size + 2 * notes.length⟩, some .finish⟩

noncomputable def Turn.rank (s : Studio) (bpm : Float) (t : Turn) : EReal ×ₗ ℕ :=
  (t.slot s bpm).due.rank

section Ranks

variable {s : Studio} {bpm : Float} {notes : List Note} (paced : s.Paced bpm)
  (inTime : ∀ n ∈ notes, n.InTime) (ends : Numeric (s.dueAt bpm (totalBeats notes)))
include paced inTime ends

theorem Turn.due_le_last {t : Turn} (h : t ∈ turnsOf notes) :
    Numeric (s.dueAt bpm t.beat) ∧
      worth (s.dueAt bpm t.beat) ≤ worth (s.dueAt bpm (totalBeats notes)) :=
  Studio.dueAt_mono paced.reference paced.tempo paced.lead (t.beat_nonneg inTime h)
    (t.beat_le_totalBeats inTime h) ends

/-- Every turn comes before the end of the run. -/
theorem Turn.rank_lt_last {t : Turn} (h : t ∈ turnsOf notes) :
    t.rank s bpm < (lastSlot s bpm notes).due.rank :=
  Due.rank_lt_of_le (t.due_le_last paced inTime ends h).2 (Nat.add_lt_add_left (place_lt h) _)

/-- Of two turns, the one that is no later and was scheduled first ranks first. -/
theorem Turn.rank_lt {t u : Turn} (ht : t ∈ turnsOf notes) (hu : u ∈ turnsOf notes)
    (hbeat : t.beat ≤ u.beat) (hplace : t.place < u.place) : t.rank s bpm < u.rank s bpm := by
  have hdue := Studio.dueAt_mono paced.reference paced.tempo paced.lead (t.beat_nonneg inTime ht)
    hbeat (u.due_le_last paced inTime ends hu).1
  exact Due.rank_lt_of_le hdue.2 (Nat.add_lt_add_left hplace _)

/-- Without overlaps the turns rank in the order of the notes. -/
theorem ranks_ascend (order : InOrder notes) :
    (turnsOf notes).Pairwise fun t u => t.rank s bpm < u.rank s bpm := by
  have hboth := (beats_ascend inTime order 0).and (places_ascend notes)
  refine hboth.imp_of_mem fun {t u} ht hu h => ?_
  exact Turn.rank_lt paced inTime ends ht hu h.1 h.2

end Ranks

/-! ## By rank -/

section Sorting

variable {α κ : Type} [LinearOrder κ] (f : α → κ)

open scoped Classical in
/-- A list in the order of a key, equal ones as they stood. -/
noncomputable def byKey (xs : List α) : List α := xs.insertionSort fun a b => f a ≤ f b

theorem byKey_perm (xs : List α) : (byKey f xs).Perm xs := List.perm_insertionSort _ _

open scoped Classical in
/-- By a key that tells all elements apart, the order is strict. -/
theorem pairwise_byKey {xs : List α} (apart : xs.Pairwise fun a b => f a ≠ f b) :
    (byKey f xs).Pairwise fun a b => f a < f b := by
  have : Std.Total fun a b => f a ≤ f b := ⟨fun a b => le_total (f a) (f b)⟩
  have : IsTrans α fun a b => f a ≤ f b := ⟨fun _ _ _ => le_trans⟩
  have hle := List.pairwise_insertionSort (fun a b => f a ≤ f b) xs
  have hne := (byKey_perm f xs).symm.pairwise apart fun h => h.symm
  exact (hle.and hne).imp fun h => lt_of_le_of_ne h.1 h.2

/-- Lists in the strict order of a key are equal if they hold the same elements. -/
theorem eq_of_pairwise_key {xs ys : List α} (hx : xs.Pairwise fun a b => f a < f b)
    (hy : ys.Pairwise fun a b => f a < f b) (h : xs.Perm ys) : xs = ys :=
  h.eq_of_pairwise (fun _ _ _ _ hab hba => absurd hab (lt_asymm hba)) hx hy

end Sorting

noncomputable def rankedTurns (s : Studio) (bpm : Float) (notes : List Note) : List Turn :=
  byKey (Turn.rank s bpm) (turnsOf notes)

theorem rankedTurns_perm (s : Studio) (bpm : Float) (notes : List Note) :
    (rankedTurns s bpm notes).Perm (turnsOf notes) := byKey_perm _ _

theorem rankedTurns_sorted (s : Studio) (bpm : Float) (notes : List Note) :
    (rankedTurns s bpm notes).Pairwise fun t u => t.rank s bpm < u.rank s bpm := by
  refine pairwise_byKey _ ((places_ascend notes).imp fun {t u} h e => ?_)
  have hserial : s.timers.timers.size + t.place = s.timers.timers.size + u.place :=
    congrArg (fun r => (ofLex r).2) e
  omega

/-- Every note begins before it ends. -/
theorem pair_rankedTurns {s : Studio} {bpm : Float} {notes : List Note} (paced : s.Paced bpm)
    (inTime : ∀ n ∈ notes, n.InTime) (ends : Numeric (s.dueAt bpm (totalBeats notes))) {n : Note}
    {i : Nat} (h : (n, i) ∈ notes.zipIdx) :
    List.Sublist [⟨n, i, true⟩, ⟨n, i, false⟩] (rankedTurns s bpm notes) := by
  have hpair : List.Sublist [⟨n, i, true⟩, ⟨n, i, false⟩] (turnsOf notes) :=
    List.sublist_flatten_of_mem (List.mem_map_of_mem h)
  have hon : ⟨n, i, true⟩ ∈ turnsOf notes := mem_turnsOf.2 h
  have hoff : ⟨n, i, false⟩ ∈ turnsOf notes := mem_turnsOf.2 h
  have hbeat := (inTime n (note_mem_of_turn hon)).2
  have hrank := Turn.rank_lt paced inTime ends hon hoff hbeat (Nat.lt_succ_self _)
  exact List.pair_sublist_insertionSort hrank.le hpair

/-- Without overlaps the turns come in the order of the notes. -/
theorem rankedTurns_inOrder {s : Studio} {bpm : Float} {notes : List Note} (paced : s.Paced bpm)
    (inTime : ∀ n ∈ notes, n.InTime) (ends : Numeric (s.dueAt bpm (totalBeats notes)))
    (order : InOrder notes) : rankedTurns s bpm notes = turnsOf notes :=
  eq_of_pairwise_key (Turn.rank s bpm) (rankedTurns_sorted s bpm notes)
    (ranks_ascend paced inTime ends order) (rankedTurns_perm s bpm notes)

end PianoRoll
