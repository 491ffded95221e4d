import PianoRoll.Proofs.Melody.InTime

/-!
What a script can write: notes that bear the name of their pitch and the number of an octave that
keys have, and that end behind the beginning of the melody (`notesOf_written`). So their pitches
are keys from 0 to 119.
-/

namespace PianoRoll

open Number

/-- A note with the name of its pitch, in an octave that keys have. -/
structure Note.Written (n : Note) : Prop where
  named : ∃ (p : PitchClass) (octave : Int), (-1 ≤ octave ∧ octave ≤ 8) ∧
    n.pitch = p.inOctave octave ∧ n.label = p.label octave
  inTime : n.InTime
  finish : 0 < n.finish

theorem PitchClass.semitone_lt (p : PitchClass) : p.semitone < 12 := by
  cases p <;> decide

namespace Note.Written

variable {n : Note} (h : n.Written)
include h

theorem pitch_bounds : 0 ≤ n.pitch ∧ n.pitch ≤ 119 := by
  obtain ⟨p, octave, hoctave, hpitch, -⟩ := h.named
  have hp := p.semitone_lt
  rw [hpitch, PitchClass.inOctave]
  omega

end Note.Written

namespace Script

structure Pen.Steady (pen : Pen) : Prop where
  forward : pen.Forward
  octave : -1 ≤ pen.octave ∧ pen.octave ≤ 8

theorem octaveOf?_bounds {arg : List Char} {octave : Int} (h : octaveOf? arg = some octave) :
    -1 ≤ octave ∧ octave ≤ 8 := by
  unfold octaveOf? at h
  split at h
  · split at h
    · next hn =>
      cases h
      exact hn
    · cases h
  · cases h

theorem Pen.Steady.after {pen : Pen} (h : pen.Steady) (d : Directive) : (pen.after d).Steady := by
  refine ⟨(h.forward.after d).1, ?_⟩
  cases d with
  | octave arg =>
    change -1 ≤ (octaveOf? arg).getD pen.octave ∧ (octaveOf? arg).getD pen.octave ≤ 8
    cases ho : octaveOf? arg with
    | none => exact h.octave
    | some octave => exact octaveOf?_bounds ho
  | _ => exact h.octave

/-- What a directive plays is written. -/
theorem Pen.Steady.written {pen : Pen} (h : pen.Steady) (d : Directive) :
    ∀ n ∈ pen.notes d, n.Written := by
  cases d with
  | pitch p =>
    intro n hn
    obtain rfl := List.mem_singleton.1 hn
    exact ⟨⟨p, pen.octave, h.octave, rfl, rfl⟩, ⟨h.forward.cursor, h.forward.le_moved⟩,
      float_add_pos h.forward.cursor h.forward.step⟩
  | _ => exact fun n hn => absurd hn List.not_mem_nil

theorem written_read {pen : Pen} (h : pen.Steady) (number : Nat) (lines : List (List Char))
    {notes : List Note} (hread : (read pen number lines).notes = .ok notes) :
    ∀ n ∈ notes, n.Written := by
  induction lines generalizing pen number notes with
  | nil =>
    cases hread
    exact fun n hn => absurd hn List.not_mem_nil
  | cons raw rest ih =>
    obtain ⟨d, later, hlater, rfl⟩ := read_cons_inv hread
    intro n hn
    rcases List.mem_append.1 hn with hn | hn
    · exact h.written d n hn
    · exact ih (h.after d) (number + 1) hlater n hn

theorem notesOf_written (text : String) : ∀ n ∈ notesOf text, n.Written := by
  rcases notesOf_eq text with h | h
  · rw [h]
    exact fun n hn => absurd hn List.not_mem_nil
  · exact written_read ⟨forward_start, by decide⟩ 1 _ h

end Script

end PianoRoll
