/-!
Sets of pitches, listed in ascending order.
-/

namespace PianoRoll

def insertAscending (p : Int) : List Int → List Int
  | [] => [p]
  | q :: qs => if p < q then p :: q :: qs else if p = q then q :: qs else q :: insertAscending p qs

theorem mem_insertAscending {p q : Int} {qs : List Int} :
    q ∈ insertAscending p qs ↔ q = p ∨ q ∈ qs := by
  induction qs with
  | nil => simp [insertAscending]
  | cons r qs ih =>
    simp only [insertAscending]
    split
    · simp
    · split
      · simp_all
      · simp only [List.mem_cons, ih]
        constructor <;> intro h <;> rcases h with h | h | h <;> simp [h]

theorem insertAscending_pairwise {p : Int} {qs : List Int} (h : qs.Pairwise (· < ·)) :
    (insertAscending p qs).Pairwise (· < ·) := by
  induction qs with
  | nil => simp [insertAscending]
  | cons q qs ih =>
    rw [List.pairwise_cons] at h
    simp only [insertAscending]
    split
    · next hlt =>
      refine List.pairwise_cons.2 ⟨fun r hr => ?_, List.pairwise_cons.2 h⟩
      rcases List.mem_cons.1 hr with rfl | hr
      · exact hlt
      · exact Int.lt_trans hlt (h.1 r hr)
    · split
      · exact List.pairwise_cons.2 h
      · refine List.pairwise_cons.2 ⟨fun r hr => ?_, ih h.2⟩
        rcases mem_insertAscending.1 hr with rfl | hr
        · omega
        · exact h.1 r hr

/-- A finite set of pitches. -/
structure PitchSet where
  toList : List Int := []
  ascending : toList.Pairwise (· < ·) := by simp

namespace PitchSet

instance : Membership Int PitchSet := ⟨fun s p => p ∈ s.toList⟩

instance (p : Int) (s : PitchSet) : Decidable (p ∈ s) :=
  inferInstanceAs (Decidable (p ∈ s.toList))

def empty : PitchSet := {}

def insert (p : Int) (s : PitchSet) : PitchSet :=
  ⟨insertAscending p s.toList, insertAscending_pairwise s.ascending⟩

def erase (p : Int) (s : PitchSet) : PitchSet :=
  ⟨s.toList.filter (· != p), s.ascending.sublist List.filter_sublist⟩

@[simp] theorem mem_insert {p q : Int} {s : PitchSet} : q ∈ s.insert p ↔ q = p ∨ q ∈ s :=
  mem_insertAscending

@[simp] theorem mem_erase {p q : Int} {s : PitchSet} : q ∈ s.erase p ↔ q ∈ s ∧ q ≠ p := by
  show q ∈ s.toList.filter _ ↔ q ∈ s.toList ∧ q ≠ p
  simp

@[simp] theorem not_mem_empty {q : Int} : q ∉ empty := List.not_mem_nil

end PitchSet

end PianoRoll
