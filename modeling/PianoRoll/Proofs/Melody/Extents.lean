import PianoRoll.Proofs.Number.Quotient
import PianoRoll.Transport

/-!
Extents that hold the pitches of a melody, as the one of the melody itself does. In such an extent
the striker has a place for every note. If the notes end, the extent of the melody is exact as well:
notes of it attain both bounds, with their labels, and the last beat (`Extent.exact_of?`).
-/

namespace PianoRoll

def Extent.Covers (r : Extent) (notes : List Note) : Prop :=
  ∀ n ∈ notes, r.low ≤ n.pitch ∧ n.pitch ≤ r.high

/-- What is picked by keeping the better one of two has the least key of all. -/
theorem picked_le (key : Note → Int) {pick : Note → List Note → Note}
    (single : ∀ n, pick n [] = n)
    (better : ∀ n k rest, ∃ best, pick n (k :: rest) = pick best rest ∧
      key best ≤ key n ∧ key best ≤ key k)
    (n : Note) (rest : List Note) : ∀ m ∈ n :: rest, key (pick n rest) ≤ key m := by
  induction rest generalizing n with
  | nil =>
    intro m hm
    rw [List.mem_singleton.1 hm, single]
  | cons k rest ih =>
    obtain ⟨best, hpick, hn, hk⟩ := better n k rest
    have htop := ih best best List.mem_cons_self
    intro m hm
    rw [hpick]
    rcases List.mem_cons.1 hm with rfl | hm
    · exact htop.trans hn
    rcases List.mem_cons.1 hm with rfl | hm
    · exact htop.trans hk
    · exact ih best m (List.mem_cons_of_mem _ hm)

theorem lowestNote_le (n : Note) (rest : List Note) :
    ∀ m ∈ n :: rest, (lowestNote n rest).pitch ≤ m.pitch := by
  refine picked_le Note.pitch (fun _ => rfl) (fun n k rest => ?_) n rest
  refine ⟨if k.pitch < n.pitch then k else n, rfl, ?_⟩
  split <;> omega

theorem le_highestNote (n : Note) (rest : List Note) :
    ∀ m ∈ n :: rest, m.pitch ≤ (highestNote n rest).pitch := by
  have hneg : ∀ m ∈ n :: rest, -(highestNote n rest).pitch ≤ -m.pitch := by
    refine picked_le (fun m => -m.pitch) (fun _ => rfl) (fun n k rest => ?_) n rest
    refine ⟨if n.pitch < k.pitch then k else n, rfl, ?_⟩
    split <;> omega
  exact fun m hm => Int.neg_le_neg_iff.1 (hneg m hm)

/-- What is picked by keeping one of two is one of all. -/
theorem foldl_choice_mem {α : Type} {keep : α → α → α} (h : ∀ a b, keep a b = a ∨ keep a b = b)
    (a : α) (rest : List α) : rest.foldl keep a ∈ a :: rest := by
  induction rest generalizing a with
  | nil => exact List.mem_cons_self
  | cons b rest ih =>
    have hmem := ih (keep a b)
    rw [List.foldl_cons]
    rcases h a b with hk | hk
    · rw [hk] at hmem ⊢
      rcases List.mem_cons.1 hmem with h | h
      · exact List.mem_cons.2 (.inl h)
      · exact List.mem_cons_of_mem a (List.mem_cons_of_mem b h)
    · rw [hk] at hmem ⊢
      exact List.mem_cons_of_mem a hmem

theorem lowestNote_mem (n : Note) (rest : List Note) : lowestNote n rest ∈ n :: rest :=
  foldl_choice_mem (fun _ _ => (ite_eq_or_eq _ _ _).symm) n rest

theorem highestNote_mem (n : Note) (rest : List Note) : highestNote n rest ∈ n :: rest :=
  foldl_choice_mem (fun _ _ => (ite_eq_or_eq _ _ _).symm) n rest

/-- The extent of a melody is that of its lowest and highest note and of its last beat. -/
theorem Extent.of?_inv {notes : List Note} {r : Extent} (h : Extent.of? notes = some r) :
    ∃ low ∈ notes, ∃ high ∈ notes,
      r = ⟨low.pitch, high.pitch, low.label, high.label, totalBeats notes⟩ ∧
        ∀ n ∈ notes, low.pitch ≤ n.pitch ∧ n.pitch ≤ high.pitch := by
  cases notes with
  | nil => cases h
  | cons n rest =>
    refine ⟨_, lowestNote_mem n rest, _, highestNote_mem n rest, (Option.some.inj h).symm, ?_⟩
    exact fun m hm => ⟨lowestNote_le n rest m hm, le_highestNote n rest m hm⟩

/-- The extent of a melody holds its pitches. -/
theorem Extent.covers_of? {notes : List Note} {r : Extent} (h : Extent.of? notes = some r) :
    r.Covers notes := by
  obtain ⟨low, -, high, -, rfl, covers⟩ := of?_inv h
  exact covers

theorem Extent.of?_eq_none_iff {notes : List Note} : Extent.of? notes = none ↔ notes = [] := by
  cases notes with
  | nil => exact iff_of_true rfl rfl
  | cons n rest => exact iff_of_false nofun nofun

/-- The striker has a place for every pitch of an extent. -/
theorem Extent.Covers.markerOf {notes : List Note} {r : Extent} (h : r.Covers notes) {n : Note}
    (hn : n ∈ notes) : ∃ x, markerOf r n.pitch = .ok x := by
  obtain ⟨hlow, hhigh⟩ := h n hn
  have hrows : r.rows = r.high - r.low + 1 := rfl
  exact Number.quotient_of_lt (by omega) (by omega)

/-! ## Exact extents -/

open Number

/-- No note ends behind the last beat. -/
theorem finish_le_total {notes : List Note} (h : ∀ n ∈ notes, Numeric n.finish) {n : Note}
    (hn : n ∈ notes) : n.finish ≤ totalBeats notes := by
  cases notes with
  | nil => cases hn
  | cons m rest =>
    have hfirst := h m List.mem_cons_self
    have hrest : ∀ x ∈ rest.map Note.finish, Numeric x := by
      intro x hx
      obtain ⟨k, hk, rfl⟩ := List.mem_map.1 hx
      exact h k (List.mem_cons_of_mem m hk)
    exact (le_iff (h n hn) (numeric_largest hfirst _)).2
      (worth_le_largest hfirst hrest (List.mem_map_of_mem hn))

/-- Some note ends on the last beat. -/
theorem exists_finish_eq_total {notes : List Note} (hne : notes ≠ []) :
    ∃ n ∈ notes, n.finish = totalBeats notes := by
  cases notes with
  | nil => exact absurd rfl hne
  | cons m rest =>
    have hmem : totalBeats (m :: rest) ∈ m.finish :: rest.map Note.finish :=
      foldl_choice_mem (fun _ _ => (ite_eq_or_eq _ _ _).symm) _ _
    rw [← List.map_cons] at hmem
    exact List.mem_map.1 hmem

/-- An extent that no note leaves and that notes attain on every side. -/
structure Extent.Exact (r : Extent) (notes : List Note) : Prop where
  covers : r.Covers notes
  lowest : ∃ n ∈ notes, n.pitch = r.low ∧ n.label = r.lowLabel
  highest : ∃ n ∈ notes, n.pitch = r.high ∧ n.label = r.highLabel
  last : ∃ n ∈ notes, n.finish = r.total
  latest : ∀ n ∈ notes, n.finish ≤ r.total

theorem Extent.exact_of? {notes : List Note} (h : ∀ n ∈ notes, Numeric n.finish) {r : Extent}
    (hr : Extent.of? notes = some r) : r.Exact notes := by
  obtain ⟨low, hlow, high, hhigh, rfl, covers⟩ := of?_inv hr
  exact
    { covers
      lowest := ⟨low, hlow, rfl, rfl⟩
      highest := ⟨high, hhigh, rfl, rfl⟩
      last := exists_finish_eq_total (List.ne_nil_of_mem hlow)
      latest := fun n hn => finish_le_total h hn }

theorem Extent.Exact.rows_pos {r : Extent} {notes : List Note} (h : r.Exact notes) :
    1 ≤ r.rows := by
  obtain ⟨n, hn, hlow, -⟩ := h.lowest
  have hhigh := (h.covers n hn).2
  rw [rows, span]
  omega

end PianoRoll
