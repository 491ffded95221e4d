import Mathlib.Data.List.Perm.Basic
import PianoRoll.Melody.Strike
import PianoRoll.Number.Decimal

/-!
Ghosts that are struck. The bucket of a pitch holds the notes of that pitch in their order
(`Buckets.at?_ofNotes`), and a ghost is not struck by other notes. So looking into one bucket for
each ghost comes to what looking at every note comes to, in whatever order the notes are
(`struck_one_by_one`).
-/

namespace PianoRoll

/-! ## Buckets -/

namespace Buckets

theorem at?_cons (p pitch : Int) (ns : List Note) (bs : Buckets) :
    at? ((p, ns) :: bs) pitch = if p = pitch then ns else bs.at? pitch := by
  by_cases same : p = pitch
  · simp [at?, same]
  · have other : (pitch == p) = false := beq_false_of_ne (Ne.symm same)
    simp [at?, List.lookup_cons, other, same]

/-- A note goes into the bucket of its pitch, behind those that are there, and into no other. -/
theorem at?_add (n : Note) (bs : Buckets) (pitch : Int) :
    (bs.add n).at? pitch = bs.at? pitch ++ [n].filter (·.pitch == pitch) := by
  induction bs with
  | nil =>
    rw [add, at?_cons]
    by_cases same : n.pitch = pitch <;> simp [same, at?]
  | cons b bs ih =>
    obtain ⟨p, ns⟩ := b
    rw [add]
    by_cases here : p = n.pitch
    · subst here
      rw [if_pos rfl, at?_cons, at?_cons]
      by_cases same : n.pitch = pitch <;> simp [same]
    · rw [if_neg here, at?_cons, at?_cons, ih]
      by_cases same : p = pitch
      · have other : n.pitch ≠ pitch := fun e => here (same.trans e.symm)
        simp [same, other]
      · simp [same]

/-- No bucket loses, misplaces or mixes notes. -/
theorem at?_ofNotes (notes : List Note) (pitch : Int) :
    (ofNotes notes).at? pitch = notes.filter (·.pitch == pitch) := by
  have behind (bs : Buckets) : (notes.foldl (fun bs n => bs.add n) bs).at? pitch =
      bs.at? pitch ++ notes.filter (·.pitch == pitch) := by
    induction notes generalizing bs with
    | nil => simp
    | cons n notes ih =>
      rw [List.foldl_cons, ih, at?_add, List.append_assoc, ← List.filter_append]
      rfl
  exact behind []

end Buckets

/-! ## Striking -/

/-- A ghost is struck as by the notes of its own pitch alone. -/
theorem isStruck_filter (tolerance : Float) (notes : List Note) (g : Note) :
    isStruck tolerance (notes.filter (·.pitch == g.pitch)) g = isStruck tolerance notes g := by
  rw [isStruck, isStruck, List.any_filter]
  congr 1
  funext n
  rw [strikes, ← Bool.and_assoc, Bool.and_self]

theorem struckGhosts_eq (tolerance : Float) (ghosts notes : List Note) :
    struckGhosts tolerance ghosts notes =
      (ghosts.zipIdx.filter fun (g, _) => isStruck tolerance notes g).map (·.2) := by
  rw [struckGhosts]
  congr 2
  funext ⟨g, i⟩
  change isStruck tolerance ((Buckets.ofNotes notes).at? g.pitch) g = _
  rw [Buckets.at?_ofNotes, isStruck_filter]

theorem isStruck_perm (tolerance : Float) {notes notes' : List Note} (h : notes'.Perm notes)
    (g : Note) : isStruck tolerance notes' g = isStruck tolerance notes g := h.any_eq

/-- The struck ghosts are those that some note strikes when each is looked at alone. Every one is
named once, and the order of the notes makes no difference. -/
theorem struck_one_by_one (tolerance : Float) (ghosts notes : List Note) :
    (∀ i, i ∈ struckGhosts tolerance ghosts notes ↔
      ∃ g, ghosts[i]? = some g ∧ isStruck tolerance notes g = true) ∧
    (struckGhosts tolerance ghosts notes).Pairwise (· < ·) ∧
    ∀ notes', notes'.Perm notes →
      struckGhosts tolerance ghosts notes' = struckGhosts tolerance ghosts notes := by
  refine ⟨fun i => ?_, ?_, fun notes' order => ?_⟩
  · rw [struckGhosts_eq]
    simp [List.mem_zipIdx_iff_getElem?]
  · have places : (ghosts.zipIdx.map (·.2)).Pairwise (· < ·) := by
      rw [List.zipIdx_map_snd]
      exact List.pairwise_lt_range'
    rw [struckGhosts_eq]
    exact places.sublist (List.filter_sublist.map _)
  · rw [struckGhosts_eq, struckGhosts_eq]
    congr 2
    funext ⟨g, i⟩
    exact isStruck_perm tolerance order g

/-- Ghosts of two pitches, one twice and one that begins at no time at all. -/
def crowdedGhosts : List Note :=
  [⟨64, "E4", 0.5, 1⟩, ⟨60, "C4", Number.notANumber, 1⟩, ⟨62, "D4", 0, 1⟩, ⟨64, "E4", 0.5, 1⟩]

/-- Notes of the same pitches, some of which begin never or at no time. -/
def crowdedNotes : List Note :=
  [⟨64, "E4", Number.infinity false, 1⟩, ⟨60, "C4", Number.notANumber, 1⟩, ⟨64, "E4", 0.5005, 1⟩,
    ⟨62, "D4", 0.002, 1⟩, ⟨64, "E4", 0.5, 2⟩]

theorem struck_one_by_one_crowded : crowdedNotes.reverse.Perm crowdedNotes ∧
    struckGhosts 0.001 crowdedGhosts crowdedNotes.reverse =
      struckGhosts 0.001 crowdedGhosts crowdedNotes ∧
    struckGhosts 0.001 crowdedGhosts crowdedNotes = [0, 3] := by
  have order := crowdedNotes.reverse_perm
  obtain ⟨-, -, any⟩ := struck_one_by_one 0.001 crowdedGhosts crowdedNotes
  exact ⟨order, any _ order, by decide +kernel⟩

end PianoRoll
