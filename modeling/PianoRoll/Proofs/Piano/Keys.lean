import PianoRoll.Proofs.Number.Bounds
import PianoRoll.Proofs.Work
import PianoRoll.Layout

/-!
The keys of a piano. White keys stand side by side in the order of their pitches, all with the same
width, and the left edge of each is the whole part of its share of the width (`whites_keysFrom`).
As long as neither their width nor their number are too large, every key has a place
(`Moderate.keysFrom`).
-/

namespace PianoRoll.Layout

open Number

def countWhites (ps : List Int) : ℕ := ps.countP (!isBlack ·)

/-- A white key with so many white keys to its left. -/
structure WhiteAt (left whiteWidth : Float) (index : ℕ) (k : PianoKey) : Prop where
  white : k.black = false
  x : truncate (left + ofWhole index * whiteWidth) = .ok k.x
  w : truncate (whiteWidth - 1) = .ok k.w

section Places

variable {left whiteWidth : Float} {index : ℕ} {p : Int} {k : PianoKey}

theorem keyAt_black (h : isBlack p = true) (hk : keyAt left whiteWidth index p = .ok k) :
    k.black = true := by
  rw [keyAt, if_pos h] at hk
  obtain ⟨x, -, hk⟩ := ok_of_bind hk
  obtain ⟨w, -, hk⟩ := ok_of_bind hk
  cases hk
  rfl

theorem keyAt_white (h : isBlack p = false) (hk : keyAt left whiteWidth index p = .ok k) :
    WhiteAt left whiteWidth index k := by
  rw [keyAt, if_neg (by simp [h])] at hk
  obtain ⟨x, hx, hk⟩ := ok_of_bind hk
  obtain ⟨w, hw, hk⟩ := ok_of_bind hk
  cases hk
  exact ⟨rfl, hx, hw⟩

theorem keysFrom_cons_inv {ps : List Int} {keys : List PianoKey}
    (h : keysFrom left whiteWidth index (p :: ps) = .ok keys) : ∃ k rest,
      keys = k :: rest ∧ keyAt left whiteWidth index p = .ok k ∧
        keysFrom left whiteWidth (if isBlack p then index else index + 1) ps = .ok rest := by
  obtain ⟨k, hk, h⟩ := ok_of_bind h
  obtain ⟨rest, hrest, h⟩ := ok_of_bind h
  cases h
  exact ⟨k, rest, rfl, hk, hrest⟩

/-- The white keys among the keys of pitches, from left to right. -/
theorem whites_keysFrom {ps : List Int} {keys : List PianoKey}
    (h : keysFrom left whiteWidth index ps = .ok keys) :
    List.Forall₂ (WhiteAt left whiteWidth) (List.range' index (countWhites ps))
      (keys.filter (!·.black)) := by
  induction ps generalizing index keys with
  | nil =>
    cases h
    exact .nil
  | cons p ps ih =>
    obtain ⟨k, rest, rfl, hk, hrest⟩ := keysFrom_cons_inv h
    have later := ih hrest
    cases hp : isBlack p with
    | true =>
      rw [hp, if_pos rfl] at later
      have same : countWhites (p :: ps) = countWhites ps := by simp [countWhites, hp]
      rw [same, List.filter_cons_of_neg (by simp [keyAt_black hp hk])]
      exact later
    | false =>
      rw [hp, if_neg Bool.false_ne_true] at later
      have here := keyAt_white hp hk
      have more : countWhites (p :: ps) = countWhites ps + 1 := by simp [countWhites, hp]
      rw [more, List.range'_succ, List.filter_cons_of_pos (by simp [here.white])]
      exact .cons here later

/-! ## Places -/

/-- Keys have places from a left edge and with a width of moderate size. -/
structure Moderate (left whiteWidth : Float) : Prop where
  left : Bounded 62 left
  width : Bounded 31 whiteWidth

theorem Moderate.keyAt (h : Moderate left whiteWidth) (hi : index ≤ 2 ^ 31) (p : Int) :
    ∃ k, keyAt left whiteWidth index p = .ok k := by
  have part (i : ℕ) (hi : i ≤ 2 ^ 31) : Bounded 63 (left + ofWhole i * whiteWidth) := by
    have count : Bounded 31 (ofWhole i) := bounded_ofWhole (by decide) (by omega)
    exact h.left.add (count.mul h.width (by decide)) (by decide)
  have share {x : Float} (low : 0 ≤ x) (high : x ≤ 1) : Bounded 31 (whiteWidth * x) :=
    h.width.mul (bounded_unit low high) (by decide)
  unfold Layout.keyAt
  split
  · have base := part (index - 1) (by omega)
    have inset := share (x := 0.7) (by decide +kernel) (by decide +kernel)
    have narrow := share (x := 0.6) (by decide +kernel) (by decide +kernel)
    obtain ⟨x, hx⟩ := (base.add (inset.mono (by decide)) (by decide)).truncate
    obtain ⟨w, hw⟩ := narrow.truncate
    dsimp only
    rw [hx, hw]
    exact ⟨_, rfl⟩
  · have one : Bounded 0 1 := bounded_unit (by decide +kernel) (by decide +kernel)
    obtain ⟨x, hx⟩ := (part index hi).truncate
    obtain ⟨w, hw⟩ := (h.width.sub (one.mono (by decide)) (by decide)).truncate
    rw [hx, hw]
    exact ⟨_, rfl⟩

theorem Moderate.keysFrom (h : Moderate left whiteWidth) {ps : List Int}
    (hi : index + countWhites ps ≤ 2 ^ 31) :
    ∃ keys, keysFrom left whiteWidth index ps = .ok keys := by
  induction ps generalizing index with
  | nil => exact ⟨[], rfl⟩
  | cons p ps ih =>
    have now : index ≤ 2 ^ 31 := by omega
    obtain ⟨k, hk⟩ := h.keyAt now p
    have next : (if isBlack p then index else index + 1) + countWhites ps =
        index + countWhites (p :: ps) := by
      cases hp : isBlack p with
      | true => simp [countWhites, hp]
      | false =>
        simp [countWhites, hp]
        omega
    obtain ⟨keys, hkeys⟩ := ih (next ▸ hi)
    refine ⟨k :: keys, ?_⟩
    rw [Layout.keysFrom, hk]
    show (Layout.keysFrom _ _ _ _ >>= _) = _
    rw [hkeys]
    rfl

end Places

end PianoRoll.Layout
