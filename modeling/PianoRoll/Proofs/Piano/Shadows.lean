import PianoRoll.Proofs.Piano.Coverage
import PianoRoll.Proofs.Piano.Gaps
import PianoRoll.Proofs.Piano.Ranks

/-!
Keys in the shadow of others. Where each white key gets four pixels, keys of one colour share no
column (`Laid.keysApart`), so a point in the column where a key begins plays that key: in the upper
row of the piano for black keys, below the black keys for white ones. The exception is a piano that
begins with two black keys around a white one. They are at the same place, and the second one is
found nowhere (`no_key_shadowed_iff`).
-/

namespace PianoRoll

namespace Renderer

open Number Layout

/-- No column belongs to two keys of one colour. -/
def KeysApart (r : Renderer) : Prop :=
  ∀ k ∈ r.piano, ∀ k' ∈ r.piano, k ≠ k' → k.black = k'.black →
    ∀ x, ¬(covers x k = true ∧ covers x k' = true)

/-- A pitch is played from some point of the piano. A piano more than two pixels tall has such a
point inside the window. -/
def Reachable (r : Renderer) (p : Int) : Prop :=
  ∃ x y, 0 ≤ x ∧ x < r.settings.windowWidth ∧ r.pianoTop ≤ y ∧
    (2 < r.settings.pianoHeight → y < r.settings.windowHeight) ∧ r.keyUnder x y = .ok (some p)

/-- The order in which keys are tried decides nothing. -/
def Orderless (r : Renderer) : Prop :=
  ∀ piano, piano.Perm r.piano → ∀ x y, ({ r with piano }).keyUnder x y = r.keyUnder x y

/-- A renderer whose piano gives each white key four pixels at least. -/
structure Laid (r : Renderer) (share : Float) (w : ℝ) : Prop where
  found : keysFrom 0 share 0 r.settings.pitches = .ok r.piano
  roomy : Roomy r.settings.windowWidth (whiteKeys r.settings.pitches) share w

namespace Laid

variable {r : Renderer} {share : Float} {w : ℝ} (h : r.Laid share w)
include h

theorem pitches : r.piano.map PianoKey.pitch = r.settings.pitches :=
  (keysFrom_keyAt (pitchesBetween_ascend _ _) h.found).1

theorem eq_of_pitch {k k' : PianoKey} (hk : k ∈ r.piano) (hk' : k' ∈ r.piano)
    (same : k.pitch = k'.pitch) : k = k' := by
  have nodup : (r.piano.map PianoKey.pitch).Nodup := by
    rw [h.pitches]
    exact (pitchesBetween_ascend _ _).imp ne_of_lt
  exact List.inj_on_of_nodup_map nodup hk hk' same

/-- What a key of the piano is: between the first and the last one, with a rank of its own. -/
theorem place {k : PianoKey} (hk : k ∈ r.piano) : k.pitch ∈ r.settings.pitches ∧
    (isBlack k.pitch = true → BlackAt 0 share (rank r.settings.pitches k.pitch - 1) k) ∧
    (isBlack k.pitch = false → WhiteAt 0 share (rank r.settings.pitches k.pitch) k) := by
  have found := (keysFrom_keyAt (pitchesBetween_ascend _ _) h.found).2 k hk
  rw [Nat.zero_add] at found
  exact ⟨h.pitches ▸ List.mem_map_of_mem hk, fun black => blackAt_of_keyAt black found,
    fun white => keyAt_white white found⟩

theorem black_eq {k : PianoKey} (hk : k ∈ r.piano) : k.black = isBlack k.pitch := by
  obtain ⟨-, black, white⟩ := h.place hk
  cases hp : isBlack k.pitch with
  | true => exact (black hp).black
  | false => exact (white hp).white

theorem inside {k : PianoKey} (hk : k ∈ r.piano) :
    0 ≤ k.x ∧ k.x < r.settings.windowWidth ∧ 0 ≤ k.w := by
  obtain ⟨mem, black, white⟩ := h.place hk
  have some := h.roomy.shared.some
  have most : countWhites r.settings.pitches ≤ whiteKeys r.settings.pitches := le_max_right _ _
  cases hp : isBlack k.pitch with
  | true =>
    have := rank_le r.settings.pitches k.pitch
    exact h.roomy.black_inside (by omega) (black hp)
  | false =>
    have := rank_lt_countWhites mem hp
    exact h.roomy.white_inside (by omega) (white hp)

/-- A key belongs to the column of its left edge. -/
theorem covers_edge {k : PianoKey} (hk : k ∈ r.piano) : covers k.x k = true := by
  have := (h.inside hk).2.2
  simp only [covers, Bool.and_eq_true, decide_eq_true_eq]
  omega

/-! ## Keys with a place of their own -/

section Single

variable (single : ¬Doubled r.settings.firstPitch r.settings.lastPitch)
include single

/-- A key ends before the next one of its colour begins. -/
theorem gap {k k' : PianoKey} (hk : k ∈ r.piano) (hk' : k' ∈ r.piano) (same : k.black = k'.black)
    (lt : k.pitch < k'.pitch) : k.x + k.w < k'.x := by
  obtain ⟨mem, black, white⟩ := h.place hk
  obtain ⟨mem', black', white'⟩ := h.place hk'
  rw [h.black_eq hk, h.black_eq hk'] at same
  have most : countWhites r.settings.pitches ≤ whiteKeys r.settings.pitches := le_max_right _ _
  have rank_le' := rank_le r.settings.pitches k'.pitch
  cases hp : isBlack k.pitch with
  | true =>
    have ranks : rank r.settings.pitches k.pitch - 1 < rank r.settings.pitches k'.pitch - 1 :=
      rank_lt_of_black single (mem_pitchesBetween.1 mem).1 (mem_pitchesBetween.1 mem').2 hp
        (same ▸ hp) lt
    exact h.roomy.black_gap ranks (by omega) (black hp) (black' (same ▸ hp))
  | false =>
    exact h.roomy.white_gap (rank_lt mem hp le_rfl lt) (by omega) (white hp) (white' (same ▸ hp))

theorem keysApart : r.KeysApart := by
  intro k hk k' hk' ne same x ⟨above, above'⟩
  simp only [covers, Bool.and_eq_true, decide_eq_true_eq] at above above'
  rcases lt_trichotomy k.pitch k'.pitch with lt | eq | gt
  · have := h.gap single hk hk' same lt
    omega
  · exact ne (h.eq_of_pitch hk hk' eq)
  · have := h.gap single hk' hk same.symm gt
    omega

end Single

end Laid

/-! ## Points of keys -/

theorem find?_eq_some_of_unique {α : Type} {p : α → Bool} {l : List α} {a : α} (ha : a ∈ l)
    (holds : p a = true) (unique : ∀ b ∈ l, p b = true → b = a) : l.find? p = some a := by
  obtain ⟨b, hb⟩ := Option.isSome_iff_exists.1 (List.find?_isSome.2 ⟨a, ha, holds⟩)
  rw [hb, unique b (List.mem_of_find?_eq_some hb) (List.find?_some hb)]

/-- Where no two hold, the order decides nothing. -/
theorem find?_eq_of_perm {α : Type} {p : α → Bool} {l l' : List α} (perm : l'.Perm l)
    (unique : ∀ a ∈ l, ∀ b ∈ l, p a = true → p b = true → b = a) : l'.find? p = l.find? p := by
  cases h : l.find? p with
  | none =>
    rw [List.find?_eq_none] at h ⊢
    exact fun a ha => h a (perm.subset ha)
  | some a =>
    have ha := List.mem_of_find?_eq_some h
    have holds := List.find?_some h
    exact find?_eq_some_of_unique (perm.mem_iff.2 ha) holds
      fun b hb => unique a ha b (perm.subset hb) holds

/-- A key that a column belongs to is the only one of its colour. -/
theorem KeysApart.eq_of_covers {r : Renderer} (apart : r.KeysApart) {x : Int} {k k' : PianoKey}
    (hk : k ∈ r.piano) (above : covers x k = true) (hk' : k' ∈ r.piano)
    (same : k'.black = k.black) (above' : covers x k' = true) : k' = k := by
  by_contra ne
  exact apart k' hk' k hk ne same x ⟨above', above⟩

theorem keyUnder_eq_none {r : Renderer} {x y : Int} (high : y < r.pianoTop) :
    r.keyUnder x y = .ok none := by
  rw [keyUnder, if_pos high]
  rfl

theorem keyUnder_head {r : Renderer} {x y : Int} {reach : Float} (low : r.pianoTop ≤ y)
    (found : r.blackReach = .ok reach) {k : PianoKey} {rest : List PianoKey}
    (piano : r.piano = k :: rest) (black : k.black = true) (above : covers x k = true)
    (high : reaches reach y = true) : r.keyUnder x y = .ok (some k.pitch) := by
  rw [keyUnder_eq low found, if_pos high, piano,
    List.find?_cons_of_pos (by rw [black, above]; rfl)]
  rfl

section Points

variable {r : Renderer} {x y : Int} {reach : Float} (low : r.pianoTop ≤ y)
  (found : r.blackReach = .ok reach) (apart : r.KeysApart) {k : PianoKey} (hk : k ∈ r.piano)
  (above : covers x k = true)
include low found apart hk above

theorem keyUnder_eq_black (black : k.black = true) (high : reaches reach y = true) :
    r.keyUnder x y = .ok (some k.pitch) := by
  have first : r.piano.find? (fun k => k.black && covers x k) = some k := by
    refine find?_eq_some_of_unique hk (by rw [black, above]; rfl) fun k' hk' holds => ?_
    rw [Bool.and_eq_true] at holds
    exact apart.eq_of_covers hk above hk' (holds.1.trans black.symm) holds.2
  rw [keyUnder_eq low found, if_pos high, first]
  rfl

theorem keyUnder_eq_white (white : k.black = false) (deep : reaches reach y = false) :
    r.keyUnder x y = .ok (some k.pitch) := by
  have first : r.piano.find? (fun k => !k.black && covers x k) = some k := by
    refine find?_eq_some_of_unique hk (by rw [white, above]; rfl) fun k' hk' holds => ?_
    rw [Bool.and_eq_true, Bool.not_eq_true'] at holds
    exact apart.eq_of_covers hk above hk' (holds.1.trans white.symm) holds.2
  rw [keyUnder_eq low found, if_neg (by simp [deep]), first]
  rfl

end Points

/-! ## Rows -/

section Rows

variable {r : Renderer} (sized : Sized { settings := r.settings })
include sized

/-- How far down black keys reach, but for the errors of rounding. -/
theorem near_blackReach : ∃ reach narrow, r.blackReach = .ok reach ∧
    Near (1 / 2 ^ 18) reach (r.pianoTop + r.settings.pianoHeight * narrow) ∧
      0 ≤ narrow ∧ narrow ≤ 0.61 := by
  obtain ⟨-, c, -, near, -, -, low, high⟩ := near_black_shares
  have top_small := pianoTop_bound sized
  have height_small : r.settings.pianoHeight.natAbs < 2 ^ 31 := sized.pianoHeight
  have whole {n : Int} (hn : n.natAbs ≤ 2 ^ 32) : Near 0 (ofWhole n) n := by
    obtain ⟨numeric, eq⟩ := worth_ofWhole (hn.trans (by decide))
    exact .of_worth numeric eq
  have bound {n : Int} {k : ℕ} (hn : n.natAbs ≤ 2 ^ k) : |(n : ℝ)| ≤ 2 ^ k := by
    rw [← Int.cast_abs, Int.abs_eq_natAbs]
    exact_mod_cast hn
  have tall : |(r.settings.pianoHeight : ℝ) * c| ≤ 2 ^ 31 := by
    rw [abs_mul, abs_of_nonneg (by linarith : 0 ≤ c)]
    calc _ ≤ 2 ^ 31 * 1 :=
          mul_le_mul (bound height_small.le) (by linarith) (by linarith) (by positivity)
      _ = 2 ^ 31 := mul_one _
  have lower := (whole (n := r.settings.pianoHeight) (by omega)).mul near
    (tall.trans (by norm_num))
  have sum := (whole top_small).add lower (by
    have := abs_add_le (r.pianoTop : ℝ) (r.settings.pianoHeight * c)
    linarith [bound top_small])
  have error : (0 : ℝ) + 1 / 2 ^ 19 + 1 / 2 ^ 19 = 1 / 2 ^ 18 := by norm_num
  rw [error] at sum
  exact ⟨_, c, blackReach_eq sized, sum, by linarith, by linarith⟩

/-- Black keys begin at the upper edge of the piano. -/
theorem reaches_top (tall : 0 ≤ r.settings.pianoHeight) :
    ∃ reach, r.blackReach = .ok reach ∧ reaches reach r.pianoTop = true := by
  have height_small : r.settings.pianoHeight.natAbs ≤ 2 ^ 53 :=
    sized.pianoHeight.le.trans (by decide)
  obtain ⟨numeric_top, worth_top⟩ := worth_ofWhole ((pianoTop_bound sized).trans (by decide))
  obtain ⟨-, worth_height⟩ := worth_ofWhole height_small
  obtain ⟨-, c, -, near, -, -, low, -⟩ := near_black_shares
  obtain ⟨reach, found, finite⟩ := exists_blackReach sized
  refine ⟨reach, found, (reaches_iff finite).2 ?_⟩
  obtain rfl := Except.ok.inj ((blackReach_eq sized).symm.trans found)
  have lower_numeric := numeric_mul (isFinite_ofWhole height_small) near.isFinite
  have lower : 0 ≤ worth (ofWhole r.settings.pianoHeight * 0.6) := by
    obtain ⟨q, eq, close⟩ := near.close
    rw [worth_mul, worth_height, eq, ← EReal.coe_mul]
    have tall' : (0 : ℝ) ≤ r.settings.pianoHeight := by exact_mod_cast tall
    have share : 0 ≤ q := by linarith [(abs_le.1 close).1]
    exact fit_nonneg (EReal.coe_nonneg.2 (by positivity))
  have apart := not_opposite_of_finite (isFinite_of_worth_coe numeric_top worth_top)
    (worth (ofWhole r.settings.pianoHeight * 0.6))
  rw [worth_add numeric_top lower_numeric apart, ← worth_top]
  calc worth (ofWhole r.pianoTop) = fit (worth (ofWhole r.pianoTop)) :=
        (Valued.fit_value numeric_top).symm
    _ ≤ _ := fit_mono (le_add_of_nonneg_right lower)

/-- A row below the black keys, which the window has if the piano is more than two pixels tall. -/
theorem exists_deep : ∃ y, r.pianoTop ≤ y ∧
    (2 < r.settings.pianoHeight → y < r.settings.windowHeight) ∧
      ∃ reach, r.blackReach = .ok reach ∧ reaches reach y = false := by
  obtain ⟨reach, narrow, found, near, nonneg, slim⟩ := near_blackReach sized
  have finite := near.isFinite
  by_cases tall : 2 < r.settings.pianoHeight
  · refine ⟨r.settings.windowHeight - 1, by unfold pianoTop; omega, fun _ => by omega, reach, found,
      ?_⟩
    rw [Bool.eq_false_iff, ne_eq, reaches_iff finite]
    obtain ⟨q, eq, close⟩ := near.close
    rw [eq, EReal.coe_le_coe_iff, not_le]
    have top : ((r.settings.windowHeight - 1 : ℤ) : ℝ) =
        r.pianoTop + r.settings.pianoHeight - 1 := by
      rw [pianoTop]
      push_cast
      ring
    have three : (3 : ℝ) ≤ r.settings.pianoHeight := by exact_mod_cast tall
    rw [top]
    nlinarith [(abs_le.1 close).2]
  · obtain ⟨n₀, beyond⟩ := exists_not_reaches finite
    exact ⟨max r.pianoTop n₀, le_max_left _ _, fun h => absurd h tall, reach, found,
      beyond _ (le_max_right _ _)⟩

end Rows

/-! ## Keys that stand apart -/

section Apart

variable {r : Renderer} (apart : r.KeysApart) (sized : Sized { settings := r.settings })
include apart sized

theorem KeysApart.reachable {share : Float} {w : ℝ} (h : r.Laid share w)
    (tall : 0 ≤ r.settings.pianoHeight) : ∀ p ∈ r.settings.pitches, r.Reachable p := by
  intro p hp
  rw [← h.pitches] at hp
  obtain ⟨k, hk, rfl⟩ := List.mem_map.1 hp
  obtain ⟨left, right, -⟩ := h.inside hk
  cases hblack : k.black with
  | true =>
    obtain ⟨reach, found, high⟩ := reaches_top sized tall
    refine ⟨k.x, r.pianoTop, left, right, le_rfl, fun _ => by unfold pianoTop; omega, ?_⟩
    exact keyUnder_eq_black le_rfl found apart hk (h.covers_edge hk) hblack high
  | false =>
    obtain ⟨y, low, above, reach, found, deep⟩ := exists_deep sized
    refine ⟨k.x, y, left, right, low, above, ?_⟩
    exact keyUnder_eq_white low found apart hk (h.covers_edge hk) hblack deep

theorem KeysApart.orderless : r.Orderless := by
  intro piano perm x y
  obtain ⟨reach, found, -⟩ := exists_blackReach sized
  rcases lt_or_ge y r.pianoTop with high | low
  · rw [keyUnder_eq_none high]
    exact keyUnder_eq_none (r := { r with piano }) high
  · rw [keyUnder_eq low found]
    rw [keyUnder_eq (r := { r with piano }) low found]
    -- of each colour there is one key at most to be found
    have black : piano.find? (fun k => k.black && covers x k) =
        r.piano.find? (fun k => k.black && covers x k) := by
      refine find?_eq_of_perm perm fun k hk k' hk' holds holds' => ?_
      rw [Bool.and_eq_true] at holds holds'
      exact apart.eq_of_covers hk holds.2 hk' (holds'.1.trans holds.1.symm) holds'.2
    have white : piano.find? (fun k => !k.black && covers x k) =
        r.piano.find? (fun k => !k.black && covers x k) := by
      refine find?_eq_of_perm perm fun k hk k' hk' holds holds' => ?_
      rw [Bool.and_eq_true, Bool.not_eq_true'] at holds holds'
      exact apart.eq_of_covers hk holds.2 hk' (holds'.1.trans holds.1.symm) holds'.2
    rw [black, white]

end Apart

/-! ## Doubled keys -/

/-- The piano begins with a black key, and another one behind it is at the same place. -/
structure Shadowed (r : Renderer) (k k' : PianoKey) (rest : List PianoKey) : Prop where
  piano : r.piano = k :: rest
  mem : k' ∈ rest
  black : k.black = true
  black' : k'.black = true
  pitch : k.pitch = r.settings.firstPitch
  pitch' : k'.pitch = r.settings.firstPitch + 2
  same : ∀ x, covers x k' = covers x k

theorem Laid.shadowed {r : Renderer} {share : Float} {w : ℝ} (h : r.Laid share w)
    (twice : Doubled r.settings.firstPitch r.settings.lastPitch) :
    ∃ k k' rest, r.Shadowed k k' rest := by
  obtain ⟨black, black', three⟩ := twice
  have found := h.found
  rw [RenderSettings.pitches, pitchesBetween_cons (by omega), pitchesBetween_cons (by omega),
    pitchesBetween_cons (by omega), add_assoc, one_add_one_eq_two] at found
  obtain ⟨k, rest, piano, hk, found⟩ := keysFrom_cons_inv found
  rw [if_pos black] at found
  obtain ⟨between, rest, rfl, -, found⟩ := keysFrom_cons_inv found
  rw [if_neg (by simp [isBlack_succ black])] at found
  obtain ⟨k', rest, rfl, hk', -⟩ := keysFrom_cons_inv found
  have place := blackAt_of_keyAt black hk
  have place' := blackAt_of_keyAt black' hk'
  have x_eq : k'.x = k.x := Except.ok.inj (place'.x.symm.trans place.x)
  have w_eq : k'.w = k.w := Except.ok.inj (place'.w.symm.trans place.w)
  refine ⟨k, k', _, piano, by simp, place.black, place'.black, keyAt_pitch hk, keyAt_pitch hk',
    fun x => ?_⟩
  rw [covers, covers, x_eq, w_eq]

namespace Shadowed

variable {r : Renderer} {k k' : PianoKey} {rest : List PianoKey} (s : r.Shadowed k k' rest)
include s

theorem ne : k.pitch ≠ k'.pitch := by
  rw [s.pitch, s.pitch']
  omega

theorem not_keysApart (above : covers k.x k = true) : ¬r.KeysApart := by
  intro apart
  refine apart k ?_ k' ?_ (fun eq => s.ne (congrArg _ eq)) (s.black.trans s.black'.symm) k.x
    ⟨above, (s.same k.x).trans above⟩
  · simp [s.piano]
  · simp [s.piano, s.mem]

/-- The key behind the first is found under no point. -/
theorem not_found (sized : Sized { settings := r.settings })
    (unique : ∀ b ∈ r.piano, b.pitch = k'.pitch → b = k') (x y : Int) :
    r.keyUnder x y ≠ .ok (some k'.pitch) := by
  intro under
  obtain ⟨reach, found, -⟩ := exists_blackReach sized
  rcases lt_or_ge y r.pianoTop with high | low
  · rw [keyUnder_eq_none high] at under
    cases under
  rw [keyUnder_eq low found] at under
  obtain ⟨b, hb, pitch⟩ := Option.map_eq_some_iff.1 (Except.ok.inj under)
  rcases Option.or_eq_some_iff.1 hb with hb | ⟨-, hb⟩
  · split at hb
    · have holds := List.find?_some hb
      obtain rfl := unique b (List.mem_of_find?_eq_some hb) pitch
      rw [s.same, s.black'] at holds
      rw [s.piano, List.find?_cons_of_pos (by rw [s.black]; exact holds)] at hb
      exact s.ne (congrArg PianoKey.pitch (Option.some.inj hb))
    · cases hb
  · have holds := List.find?_some hb
    obtain rfl := unique b (List.mem_of_find?_eq_some hb) pitch
    simp [s.black'] at holds

/-- With the key behind the first put in front, that one is found. -/
theorem not_orderless (sized : Sized { settings := r.settings })
    (tall : 0 ≤ r.settings.pianoHeight) (above : covers k.x k = true) : ¬r.Orderless := by
  intro orderless
  obtain ⟨reach, found, high⟩ := reaches_top sized tall
  have mem : k' ∈ r.piano := by simp [s.piano, s.mem]
  have other := orderless (k' :: r.piano.erase k') (List.perm_cons_erase mem).symm k.x r.pianoTop
  have ahead : ({ r with piano := k' :: r.piano.erase k' }).keyUnder k.x r.pianoTop =
      .ok (some k'.pitch) :=
    keyUnder_head (r := { r with piano := k' :: r.piano.erase k' }) le_rfl found rfl s.black'
      ((s.same k.x).trans above) high
  rw [ahead, keyUnder_head le_rfl found s.piano s.black above high] at other
  exact s.ne (Option.some.inj (Except.ok.inj other)).symm

end Shadowed

/-- Where each white key gets four pixels at least, no key is in the shadow of another one: keys of
one colour share no column, each key is played from some point of the piano, and the order in which
they are tried decides nothing. Each of the three fails just if the piano begins with two black keys
that only one white key sets apart. -/
theorem no_key_shadowed_iff (fonts : Fonts) {settings : RenderSettings} (sized : Sized { settings })
    (wide : 4 * whiteKeys settings.pitches ≤ settings.windowWidth)
    (tall : 0 ≤ settings.pianoHeight) :
    ∃ r, create fonts settings = .ok r ∧ r.piano.map PianoKey.pitch = settings.pitches ∧
      (r.KeysApart ↔ ¬Doubled settings.firstPitch settings.lastPitch) ∧
      ((∀ p ∈ settings.pitches, r.Reachable p) ↔
        ¬Doubled settings.firstPitch settings.lastPitch) ∧
      (r.Orderless ↔ ¬Doubled settings.firstPitch settings.lastPitch) := by
  obtain ⟨r, share, created, rfl, shared, found⟩ := exists_piano fonts sized (by omega)
  obtain ⟨w, roomy⟩ := shared.exists_roomy wide
  have laid : r.Laid share w := ⟨found, roomy⟩
  refine ⟨r, created, laid.pitches, ?_⟩
  by_cases twice : Doubled r.settings.firstPitch r.settings.lastPitch
  · obtain ⟨k, k', rest, shadowed⟩ := laid.shadowed twice
    have first : k ∈ r.piano := by simp [shadowed.piano]
    have behind : k' ∈ r.piano := by simp [shadowed.piano, shadowed.mem]
    have above := laid.covers_edge first
    refine ⟨iff_of_false (shadowed.not_keysApart above) (not_not.2 twice), iff_of_false ?_
      (not_not.2 twice), iff_of_false (shadowed.not_orderless sized tall above) (not_not.2 twice)⟩
    intro reachable
    obtain ⟨x, y, -, -, -, -, under⟩ := reachable k'.pitch (laid.place behind).1
    exact shadowed.not_found sized (fun b hb => laid.eq_of_pitch hb behind) x y under
  · have apart := laid.keysApart twice
    exact ⟨iff_of_true apart twice, iff_of_true (apart.reachable sized laid tall) twice,
      iff_of_true (apart.orderless sized) twice⟩

/-- Eleven keys from a black one to a black one, with four pixels for each white one and one
over. -/
def elevenKeys : RenderSettings := { windowWidth := 25, firstPitch := 63, lastPitch := 73 }

theorem no_key_shadowed_iff_elevenKeys : Sized { settings := elevenKeys } ∧
    4 * whiteKeys elevenKeys.pitches ≤ elevenKeys.windowWidth ∧ 0 ≤ elevenKeys.pianoHeight ∧
    ∃ r, create .fixedWidth elevenKeys = .ok r ∧ r.KeysApart ∧
      (∀ p ∈ elevenKeys.pitches, r.Reachable p) ∧ r.Orderless := by
  have sized : Sized { settings := elevenKeys } :=
    ⟨by decide, by decide, by decide, by decide, nofun⟩
  have wide : 4 * whiteKeys elevenKeys.pitches ≤ elevenKeys.windowWidth := by decide
  have tall : 0 ≤ elevenKeys.pianoHeight := by decide
  have single : ¬Doubled elevenKeys.firstPitch elevenKeys.lastPitch := by decide
  obtain ⟨r, created, -, apart, reachable, orderless⟩ :=
    no_key_shadowed_iff .fixedWidth sized wide tall
  exact ⟨sized, wide, tall, r, created, apart.2 single, reachable.2 single, orderless.2 single⟩

/-- Two black keys and the white one between them. -/
def threeKeys : RenderSettings := { windowWidth := 12, firstPitch := 61, lastPitch := 63 }

/-- The upper one of the two black keys is nowhere found. -/
theorem shadowed_key : 4 * whiteKeys threeKeys.pitches ≤ threeKeys.windowWidth ∧
    63 ∈ threeKeys.pitches ∧ ∃ r, create .fixedWidth threeKeys = .ok r ∧ ¬r.KeysApart ∧
      ¬r.Orderless ∧ ∀ x y, r.keyUnder x y ≠ .ok (some 63) := by
  have sized : Sized { settings := threeKeys } :=
    ⟨by decide, by decide, by decide, by decide, nofun⟩
  refine ⟨by decide, by decide, ?_⟩
  obtain ⟨r, share, created, same, shared, found⟩ := exists_piano .fixedWidth sized (by decide)
  obtain ⟨w, roomy⟩ := shared.exists_roomy (by decide)
  have laid : r.Laid share w := ⟨same ▸ found, same ▸ roomy⟩
  have twice : Doubled r.settings.firstPitch r.settings.lastPitch := by
    rw [same]
    decide
  obtain ⟨k, k', rest, shadowed⟩ := laid.shadowed twice
  have above := laid.covers_edge (k := k) (by simp [shadowed.piano])
  have behind : k' ∈ r.piano := by simp [shadowed.piano, shadowed.mem]
  have pitch : k'.pitch = 63 := by
    rw [shadowed.pitch', same]
    rfl
  refine ⟨r, created, shadowed.not_keysApart above, shadowed.not_orderless (same ▸ sized)
    (by rw [same]; decide) above, fun x y => ?_⟩
  rw [← pitch]
  exact shadowed.not_found (same ▸ sized) (fun b hb => laid.eq_of_pitch hb behind) x y

end Renderer

end PianoRoll
