import PianoRoll.Proofs.Melody.Extents
import PianoRoll.Script.Compile

/-!
Notes in time: they begin no earlier than the melody and end no earlier than they begin, and no note
ends behind the last beat. The notes of a script are in time and stand one behind the other, for the
pen never goes back and each note ends where the pen goes on (`notesOf_inOrder`).
-/

namespace PianoRoll

open Number

def Note.InTime (n : Note) : Prop := 0 ≤ n.start ∧ n.start ≤ n.finish

/-- Notes without overlaps, in their order. -/
def InOrder (notes : List Note) : Prop := notes.IsChain fun n m => n.finish ≤ m.start

/-- No note ends behind the last beat. -/
theorem finish_le_totalBeats {notes : List Note} (h : ∀ n ∈ notes, n.InTime) {n : Note}
    (hn : n ∈ notes) : n.finish ≤ totalBeats notes :=
  finish_le_total (fun m hm => (numeric_of_le (h m hm).2).2) hn

/-! ## Scripts -/

namespace Script

structure Pen.Forward (pen : Pen) : Prop where
  cursor : 0 ≤ pen.cursor
  step : 0 < pen.step

theorem stepOf?_pos {arg : List Char} {x : Float} (h : stepOf? arg = some x) : 0 < x := by
  unfold stepOf? at h
  split at h
  · split at h
    · next hx =>
      cases h
      exact of_decide_eq_true (Bool.and_eq_true_iff.1 hx).2
    · cases h
  · cases h

theorem Pen.Forward.le_moved {pen : Pen} (h : pen.Forward) : pen.cursor ≤ pen.cursor + pen.step :=
  float_le_add h.cursor (float_le_of_lt h.step)

/-- A directive moves the pen forward, if at all. -/
theorem Pen.Forward.after {pen : Pen} (h : pen.Forward) (d : Directive) :
    (pen.after d).Forward ∧ pen.cursor ≤ (pen.after d).cursor := by
  have stays : pen.cursor ≤ pen.cursor :=
    (le_iff (numeric_of_le h.cursor).2 (numeric_of_le h.cursor).2).2 le_rfl
  have moved : 0 ≤ pen.cursor + pen.step := float_le_trans h.cursor h.le_moved
  cases d with
  | blank => exact ⟨h, stays⟩
  | octave arg => exact ⟨⟨h.cursor, h.step⟩, stays⟩
  | step arg =>
    refine ⟨⟨h.cursor, ?_⟩, stays⟩
    change 0 < (stepOf? arg).getD pen.step
    cases hs : stepOf? arg with
    | none => exact h.step
    | some x => exact stepOf?_pos hs
  | idle => exact ⟨h, stays⟩
  | rest => exact ⟨⟨moved, h.step⟩, h.le_moved⟩
  | pitch p => exact ⟨⟨moved, h.step⟩, h.le_moved⟩
  | unknown => exact ⟨h, stays⟩

/-- Notes that were written from where the pen stands on. -/
structure Behind (pen : Pen) (notes : List Note) : Prop where
  inTime : ∀ n ∈ notes, n.InTime
  behind : ∀ n ∈ notes, pen.cursor ≤ n.start
  order : InOrder notes

/-- What a directive plays stands in front of what comes after it. -/
theorem Behind.cons {pen : Pen} (h : pen.Forward) {d : Directive} {notes : List Note}
    (later : Behind (pen.after d) notes) : Behind pen (pen.notes d ++ notes) := by
  have hmoved := (h.after d).2
  have hbehind : ∀ n ∈ notes, pen.cursor ≤ n.start :=
    fun n hn => float_le_trans hmoved (later.behind n hn)
  have silent : Behind pen notes := ⟨later.inTime, hbehind, later.order⟩
  cases d with
  | pitch p =>
    have stays : pen.cursor ≤ pen.cursor :=
      (le_iff (numeric_of_le h.cursor).2 (numeric_of_le h.cursor).2).2 le_rfl
    refine ⟨fun n hn => ?_, fun n hn => ?_, ?_⟩
    · rcases List.mem_cons.1 hn with rfl | hn
      · exact ⟨h.cursor, h.le_moved⟩
      · exact later.inTime n hn
    · rcases List.mem_cons.1 hn with rfl | hn
      · exact stays
      · exact hbehind n hn
    · refine List.isChain_cons.2 ⟨fun m hm => ?_, later.order⟩
      exact later.behind m (List.mem_of_mem_head? hm)
  | blank => exact silent
  | octave arg => exact silent
  | step arg => exact silent
  | idle => exact silent
  | rest => exact silent
  | unknown => exact silent

/-- The notes of lines that are accepted: those of the first line, then those of the others. -/
theorem read_cons_ok {pen : Pen} {number : Nat} {raw : List Char} {rest : List (List Char)}
    {notes : List Note} (h : (read pen number (raw :: rest)).notes = .ok notes) :
    ∃ later, (read (pen.after (.ofLine (Text.trim raw))) (number + 1) rest).notes = .ok later ∧
      notes = pen.notes (.ofLine (Text.trim raw)) ++ later := by
  unfold read at h
  dsimp only at h
  generalize Directive.ofLine (Text.trim raw) = d at h ⊢
  split at h
  · cases h
  · change (read (pen.after d) (number + 1) rest).notes.map (pen.notes d ++ ·) = _ at h
    cases hrest : (read (pen.after d) (number + 1) rest).notes with
    | error f =>
      rw [hrest] at h
      cases h
    | ok later =>
      rw [hrest] at h
      cases h
      exact ⟨later, rfl, rfl⟩

/-- The first of some lines that are accepted is some directive. -/
theorem read_cons_inv {pen : Pen} {number : Nat} {raw : List Char} {rest : List (List Char)}
    {notes : List Note} (h : (read pen number (raw :: rest)).notes = .ok notes) :
    ∃ d later, (read (pen.after d) (number + 1) rest).notes = .ok later ∧
      notes = pen.notes d ++ later := ⟨_, read_cons_ok h⟩

/-- A script is rejected and has no notes, or has the notes of its lines. -/
theorem notesOf_eq (text : String) : notesOf text = [] ∨
    (read {} 1 (Text.lines text.toList)).notes = .ok (notesOf text) := by
  unfold notesOf
  split
  · next notes hnotes => exact .inr hnotes
  · exact .inl rfl

theorem behind_read {pen : Pen} (h : pen.Forward) (number : Nat) (lines : List (List Char))
    {notes : List Note} (hread : (read pen number lines).notes = .ok notes) :
    Behind pen notes := by
  induction lines generalizing pen number notes with
  | nil =>
    cases hread
    exact ⟨by simp, by simp, List.IsChain.nil⟩
  | cons raw rest ih =>
    obtain ⟨d, later, hlater, rfl⟩ := read_cons_inv hread
    exact Behind.cons h (ih (h.after d).1 (number + 1) hlater)

theorem forward_start : Pen.Forward {} := ⟨by decide +kernel, by decide +kernel⟩

theorem behind_notesOf (text : String) : Behind {} (notesOf text) := by
  rcases notesOf_eq text with h | h
  · rw [h]
    exact ⟨by simp, by simp, List.IsChain.nil⟩
  · exact behind_read forward_start 1 _ h

/-- The notes of a script do not overlap. -/
theorem notesOf_inOrder (text : String) : InOrder (notesOf text) := (behind_notesOf text).order

end Script

end PianoRoll
