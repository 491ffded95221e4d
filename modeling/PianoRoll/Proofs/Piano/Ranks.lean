import PianoRoll.Proofs.Piano.Keys

/-!
The ranks of keys. A key lies behind as many white keys as there are lower ones among the pitches
(`keysFrom_keyAt`), so of two white keys the higher one ranks behind the other. A black key lies on
the last white key below it, and there is only one black key on each. The first white key is the
exception: if the piano begins with a black key, that one lies on it as well (`rank_lt_of_black`).
-/

namespace PianoRoll.Layout

/-! ## Pitches -/

theorem isBlack_succ {p : Int} (h : isBlack p = true) : isBlack (p + 1) = false := by
  simp only [isBlack, List.contains_iff_mem, List.mem_cons, List.not_mem_nil, or_false,
    Bool.eq_false_iff, ne_eq] at h ⊢
  omega

theorem isBlack_pred {p : Int} (h : isBlack p = true) : isBlack (p - 1) = false := by
  simp only [isBlack, List.contains_iff_mem, List.mem_cons, List.not_mem_nil, or_false,
    Bool.eq_false_iff, ne_eq] at h ⊢
  omega

theorem mem_pitchesBetween {first last p : Int} :
    p ∈ pitchesBetween first last ↔ first ≤ p ∧ p ≤ last := by
  simp only [pitchesBetween, List.mem_map, List.mem_range]
  constructor
  · rintro ⟨i, hi, rfl⟩
    omega
  · intro h
    exact ⟨(p - first).toNat, by omega, by omega⟩

theorem pitchesBetween_cons {first last : Int} (h : first ≤ last) :
    pitchesBetween first last = first :: pitchesBetween (first + 1) last := by
  have count : (last + 1 - first).toNat = (last + 1 - (first + 1)).toNat + 1 := by omega
  rw [pitchesBetween, count, List.range_succ_eq_map, List.map_cons, List.map_map]
  refine congrArg₂ List.cons (Int.add_zero first) (List.map_congr_left fun i _ => ?_)
  simp only [Function.comp_apply, Nat.succ_eq_add_one]
  omega

theorem pitchesBetween_ascend (first last : Int) :
    (pitchesBetween first last).Pairwise (· < ·) := by
  refine List.pairwise_map.2 (List.pairwise_lt_range.imp ?_)
  intro i j h
  omega

/-! ## Ranks -/

/-- How many of the pitches are those of white keys below a pitch. -/
def rank (ps : List Int) (p : Int) : ℕ := ps.countP fun q => !isBlack q && decide (q < p)

theorem rank_le (ps : List Int) (p : Int) : rank ps p ≤ countWhites ps :=
  List.countP_mono_left fun _ _ h => (Bool.and_eq_true _ _ ▸ h).1

/-- A white key between two pitches, or at the lower one, sets their ranks apart. -/
theorem rank_lt {ps : List Int} {p q p' : Int} (mem : q ∈ ps) (white : isBlack q = false)
    (low : p ≤ q) (high : q < p') : rank ps p < rank ps p' := by
  obtain ⟨front, back, rfl⟩ := List.append_of_mem mem
  have part (l : List Int) : rank l p ≤ rank l p' := by
    refine List.countP_mono_left fun a _ h => ?_
    simp only [Bool.and_eq_true, decide_eq_true_eq] at h ⊢
    exact ⟨h.1, by omega⟩
  have before := part front
  have behind := part back
  unfold rank at *
  rw [List.countP_append, List.countP_append, List.countP_cons_of_neg (by simp [low]),
    List.countP_cons_of_pos (by simp [white, high])]
  omega

theorem rank_lt_countWhites {ps : List Int} {p : Int} (mem : p ∈ ps) (white : isBlack p = false) :
    rank ps p < countWhites ps :=
  (rank_lt mem white le_rfl (lt_add_one p)).trans_le (rank_le ps (p + 1))

theorem keyAt_pitch {left whiteWidth : Float} {index : ℕ} {p : Int} {k : PianoKey}
    (h : keyAt left whiteWidth index p = .ok k) : k.pitch = p := by
  unfold keyAt at h
  split at h <;>
    · obtain ⟨x, -, h⟩ := ok_of_bind h
      obtain ⟨w, -, h⟩ := ok_of_bind h
      cases h
      rfl

/-- The keys of ascending pitches, each behind the white keys of the lower ones. -/
theorem keysFrom_keyAt {left whiteWidth : Float} {index : ℕ} {ps : List Int}
    {keys : List PianoKey} (ascend : ps.Pairwise (· < ·))
    (h : keysFrom left whiteWidth index ps = .ok keys) :
    keys.map PianoKey.pitch = ps ∧
      ∀ k ∈ keys, keyAt left whiteWidth (index + rank ps k.pitch) k.pitch = .ok k := by
  induction ps generalizing index keys with
  | nil =>
    cases h
    exact ⟨rfl, nofun⟩
  | cons p ps ih =>
    obtain ⟨first, rest, rfl, found, hrest⟩ := keysFrom_cons_inv h
    obtain ⟨below, later⟩ := List.pairwise_cons.1 ascend
    obtain ⟨pitches, places⟩ := ih later hrest
    have pitch := keyAt_pitch found
    refine ⟨by rw [List.map_cons, pitch, pitches], fun k hk => ?_⟩
    rcases List.mem_cons.1 hk with rfl | hk
    · have lowest : rank (p :: ps) p = 0 := by
        refine List.countP_eq_zero.2 fun q hq => ?_
        rcases List.mem_cons.1 hq with rfl | hq
        · simp
        · simp [(below q hq).le]
      rw [pitch, lowest]
      exact found
    · have above : p < k.pitch := below _ (pitches ▸ List.mem_map_of_mem hk)
      have place := places k hk
      have step : (if isBlack p then index else index + 1) + rank ps k.pitch =
          index + rank (p :: ps) k.pitch := by
        unfold rank
        cases hp : isBlack p with
        | true => rw [if_pos rfl, List.countP_cons_of_neg (by simp [hp])]
        | false =>
          rw [if_neg Bool.false_ne_true, List.countP_cons_of_pos (by simp [hp, above])]
          omega
      rwa [step] at place

/-! ## Black keys -/

/-- A piano begins with two black keys that only one white key sets apart. -/
def Doubled (first last : Int) : Prop :=
  isBlack first = true ∧ isBlack (first + 2) = true ∧ first + 2 ≤ last

instance (first last : Int) : Decidable (Doubled first last) := instDecidableAnd

/-- But for the first two, black keys lie on white keys of their own. -/
theorem rank_lt_of_black {first last p p' : Int} (single : ¬Doubled first last) (low : first ≤ p)
    (high : p' ≤ last) (black : isBlack p = true) (black' : isBlack p' = true) (lt : p < p') :
    rank (pitchesBetween first last) p - 1 < rank (pitchesBetween first last) p' - 1 := by
  have next := isBlack_succ black
  have apart : p' ≠ p + 1 := by
    rintro rfl
    simp [next] at black'
  have above : rank (pitchesBetween first last) p < rank (pitchesBetween first last) p' :=
    rank_lt (mem_pitchesBetween.2 ⟨by omega, by omega⟩) next (by omega) (by omega)
  rcases low.lt_or_eq with inside | rfl
  · -- the white key below the lower one counts for both
    have below : rank (pitchesBetween first last) (p - 1) < rank (pitchesBetween first last) p :=
      rank_lt (mem_pitchesBetween.2 ⟨by omega, by omega⟩) (isBlack_pred black) le_rfl (by omega)
    omega
  · have white : p' ≠ first + 2 ∧ isBlack (first + 2) = false := by
      refine ⟨?_, Bool.eq_false_iff.2 fun two => single ⟨black, two, by omega⟩⟩
      rintro rfl
      exact single ⟨black, black', high⟩
    have one : rank (pitchesBetween first last) first <
        rank (pitchesBetween first last) (first + 2) :=
      rank_lt (mem_pitchesBetween.2 ⟨by omega, by omega⟩) next (by omega) (by omega)
    have two : rank (pitchesBetween first last) (first + 2) < rank (pitchesBetween first last) p' :=
      rank_lt (mem_pitchesBetween.2 ⟨by omega, by omega⟩) white.2 le_rfl (by omega)
    omega

end PianoRoll.Layout
