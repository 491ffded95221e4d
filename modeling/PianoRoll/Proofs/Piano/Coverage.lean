import PianoRoll.Proofs.Piano.Keys
import PianoRoll.Proofs.Piano.Shares
import PianoRoll.Proofs.Renderer.Lineless

/-!
The columns that white keys cover. Both edges belong to a key, so it covers one column more than it
is wide, and this closes the pixel left free behind it if nothing else was cut off. So the keys
cover all columns if they share the width without a remainder. Otherwise they are too narrow
together, and some column below the black keys belongs to no key (`no_dead_spots_iff`).
-/

namespace PianoRoll

namespace Layout

open Number

/-- Keys of one width cover no more columns than these and one more for each of them. -/
theorem le_of_covered {ks : List PianoKey} {w : ℕ} {width : Int} (hw : ∀ k ∈ ks, k.w = w)
    (covered : ∀ c, 0 ≤ c → c < width → ∃ k ∈ ks, Renderer.covers c k = true) :
    width ≤ ks.length * (w + 1) := by
  have columns : Finset.Ico 0 width ⊆
      ks.toFinset.biUnion fun k => Finset.Icc k.x (k.x + k.w) := by
    intro c hc
    obtain ⟨low, high⟩ := Finset.mem_Ico.1 hc
    obtain ⟨k, hk, above⟩ := covered c low high
    refine Finset.mem_biUnion.2 ⟨k, List.mem_toFinset.2 hk, Finset.mem_Icc.2 ?_⟩
    simpa [Renderer.covers] using above
  have each (k : PianoKey) (hk : k ∈ ks.toFinset) :
      (Finset.Icc k.x (k.x + k.w)).card ≤ w + 1 := by
    rw [Int.card_Icc, hw k (List.mem_toFinset.1 hk)]
    omega
  have count : (Finset.Ico 0 width).card ≤ ks.length * (w + 1) :=
    calc (Finset.Ico 0 width).card ≤ ks.toFinset.card * (w + 1) :=
          (Finset.card_le_card columns).trans (Finset.card_biUnion_le_card_mul _ _ _ each)
      _ ≤ ks.length * (w + 1) := Nat.mul_le_mul_right _ ks.toFinset_card_le
  rw [Int.card_Ico] at count
  have : ((width - 0).toNat : Int) ≤ (ks.length * (w + 1) : ℕ) := by exact_mod_cast count
  push_cast at this
  omega

/-- White keys that share a width cover all of its columns just if they leave no remainder. -/
theorem covered_iff {width : Int} {n : ℕ} {x : Float} (h : Shared width n x) {ks : List PianoKey}
    (places : List.Forall₂ (WhiteAt 0 x) (List.range' 0 n) ks) :
    (∀ c, 0 ≤ c → c < width → ∃ k ∈ ks, Renderer.covers c k = true) ↔ (n : Int) ∣ width := by
  have length : ks.length = n := by rw [← places.length_eq, List.length_range']
  have place {j : ℕ} (hj : j < n) : WhiteAt 0 x j (ks.get ⟨j, by omega⟩) := by
    have := places.get (by simpa using hj) (by omega : j < ks.length)
    simpa using this
  constructor
  · intro covered
    obtain ⟨w, hw, fits⟩ := h.white_width
    have widths (k : PianoKey) (hk : k ∈ ks) : k.w = w := by
      obtain ⟨⟨j, hj⟩, rfl⟩ := List.mem_iff_get.1 hk
      have := (place (length ▸ hj)).w
      rw [hw] at this
      exact (Except.ok.inj this).symm
    -- keys of this width cover too few columns unless their shares leave no remainder
    have most := le_of_covered widths covered
    rw [length] at most
    exact ⟨w + 1, le_antisymm most fits⟩
  · rintro ⟨q, hq⟩ c low high
    have some : (0 : Int) < n := by exact_mod_cast h.some
    lift q to ℕ using (pos_of_mul_pos_right (hq ▸ some.trans_le h.le) some.le).le
    lift c to ℕ using low
    have inside : c / q < n := Nat.div_lt_of_lt_mul (by rw [mul_comm]; exact_mod_cast hq ▸ high)
    obtain ⟨-, hx, hw⟩ := place inside
    rw [h.edge_exact hq inside] at hx
    rw [h.width_exact hq] at hw
    refine ⟨_, List.get_mem ks ⟨c / q, by omega⟩, ?_⟩
    have split := Nat.div_add_mod c q
    have rest := Nat.mod_lt c (h.pixels_bounds hq).1
    rw [mul_comm] at split
    rw [Renderer.covers, ← Except.ok.inj hx, ← Except.ok.inj hw]
    simp only [Bool.and_eq_true, decide_eq_true_eq]
    omega

end Layout

def RenderSettings.pitches (s : RenderSettings) : List Int :=
  Layout.pitchesBetween s.firstPitch s.lastPitch

namespace Renderer

open Number Layout

/-! ## Points -/

section Points

variable {r : Renderer} {x y : Int} {reach : Float} (low : r.pianoTop ≤ y)
  (found : r.blackReach = .ok reach)
include low found

theorem keyUnder_eq : r.keyUnder x y = .ok (((if reaches reach y then
    r.piano.find? fun k => k.black && covers x k else none).or
      (r.piano.find? fun k => !k.black && covers x k)).map PianoKey.pitch) := by
  rw [keyUnder, if_neg (by omega), found]
  rfl

/-- Wherever a white key is, there is a key, be it a black one that lies over it. -/
theorem keyUnder_of_white (white : ∃ k ∈ r.piano.filter (!·.black), covers x k = true) :
    ∃ p, r.keyUnder x y = .ok (some p) := by
  obtain ⟨k, hk, above⟩ := white
  obtain ⟨hk, hwhite⟩ := List.mem_filter.1 hk
  have some : (r.piano.find? fun k => !k.black && covers x k).isSome := by
    rw [List.find?_isSome]
    exact ⟨k, hk, by rw [hwhite, above]; rfl⟩
  obtain ⟨found', hfound⟩ := Option.isSome_iff_exists.1 some
  rw [keyUnder_eq low found, hfound]
  cases (if reaches reach y then r.piano.find? fun k => k.black && covers x k else none) with
  | none => exact ⟨_, rfl⟩
  | some black => exact ⟨_, rfl⟩

/-- Below the black keys there is nothing but white ones. -/
theorem white_of_keyUnder (deep : reaches reach y = false) {p : Int}
    (hp : r.keyUnder x y = .ok (some p)) :
    ∃ k ∈ r.piano.filter (!·.black), covers x k = true := by
  rw [keyUnder_eq low found, if_neg (by simp [deep]), Option.none_or] at hp
  obtain ⟨k, hk, -⟩ := Option.map_eq_some_iff.1 (Except.ok.inj hp)
  have holds := List.find?_some hk
  rw [Bool.and_eq_true] at holds
  exact ⟨k, List.mem_filter.2 ⟨List.mem_of_find?_eq_some hk, holds.1⟩, holds.2⟩

end Points

theorem pianoTop_bound {r : Renderer} (sized : Sized { settings := r.settings }) :
    r.pianoTop.natAbs ≤ 2 ^ 32 := by
  have height : r.settings.windowHeight.natAbs < 2 ^ 31 := sized.windowHeight
  have tall : r.settings.pianoHeight.natAbs < 2 ^ 31 := sized.pianoHeight
  unfold pianoTop
  omega

theorem blackReach_eq {r : Renderer} (sized : Sized { settings := r.settings }) :
    r.blackReach = .ok (ofWhole r.pianoTop + ofWhole r.settings.pianoHeight * 0.6) := by
  have tall : r.settings.pianoHeight.natAbs < 2 ^ 31 := sized.pianoHeight
  have small {n : Int} (hn : n.natAbs ≤ 2 ^ 32) : Small n := by
    unfold Small
    omega
  rw [blackReach, (small (pianoTop_bound sized)).ofWhole?, (small (by omega)).ofWhole?]
  rfl

/-- The black keys end somewhere. -/
theorem exists_blackReach {r : Renderer} (sized : Sized { settings := r.settings }) :
    ∃ reach, r.blackReach = .ok reach ∧ isFinite reach = true := by
  have tall : r.settings.pianoHeight.natAbs < 2 ^ 31 := sized.pianoHeight
  have share : Bounded 0 0.6 := bounded_unit (by decide +kernel) (by decide +kernel)
  have upper : Bounded 32 (ofWhole r.pianoTop) :=
    bounded_ofWhole (by decide) (pianoTop_bound sized)
  have lower : Bounded 31 (ofWhole r.settings.pianoHeight) := bounded_ofWhole (by decide) tall.le
  have sum := upper.add ((lower.mul share (by decide)).mono (by decide)) (by decide)
  exact ⟨_, blackReach_eq sized, sum.isFinite⟩

/-! ## The piano -/

/-- Keys whose white ones get a pixel each at least have a piano. -/
theorem exists_piano {settings : RenderSettings} (fonts : Fonts) (sized : Sized { settings })
    (wide : whiteKeys settings.pitches ≤ settings.windowWidth) : ∃ r x,
      create fonts settings = .ok r ∧ r.settings = settings ∧
        Shared settings.windowWidth (whiteKeys settings.pitches) x ∧
          keysFrom 0 x 0 settings.pitches = .ok r.piano := by
  have size : settings.windowWidth.natAbs < 2 ^ 31 := sized.windowWidth
  have some : 0 < whiteKeys settings.pitches := Nat.lt_of_succ_le (le_max_left _ _)
  have count : countWhites settings.pitches ≤ whiteKeys settings.pitches := le_max_right _ _
  obtain ⟨x, found⟩ := Small.quotient (a := settings.windowWidth)
    (b := whiteKeys settings.pitches) (by unfold Small; omega) (by omega)
  have shared : Shared settings.windowWidth (whiteKeys settings.pitches) x :=
    ⟨some, wide, by omega, found⟩
  have zero : Bounded 0 0 := bounded_unit (by decide +kernel) (by decide +kernel)
  have moderate : Moderate 0 x := ⟨zero.mono (by decide), shared.bounded⟩
  have few : 0 + countWhites settings.pitches ≤ 2 ^ 31 := by omega
  obtain ⟨keys, hkeys⟩ := moderate.keysFrom few
  refine ⟨{ settings, fonts, piano := keys }, x, ?_, rfl, shared, hkeys⟩
  have across : pianoAcross settings.firstPitch settings.lastPitch settings.windowWidth =
      .ok keys := by
    unfold pianoAcross
    dsimp only
    rw [← RenderSettings.pitches, found]
    exact hkeys
  rw [create, across]
  rfl

theorem exists_create {settings : RenderSettings} (fonts : Fonts) (sized : Sized { settings })
    (white : ∃ p ∈ settings.pitches, isBlack p = false)
    (wide : whiteKeys settings.pitches ≤ settings.windowWidth) : ∃ r x,
      create fonts settings = .ok r ∧ r.settings = settings ∧
        Shared settings.windowWidth (whiteKeys settings.pitches) x ∧
          List.Forall₂ (WhiteAt 0 x) (List.range' 0 (whiteKeys settings.pitches))
            (r.piano.filter (!·.black)) := by
  obtain ⟨p, hp, hwhite⟩ := white
  have some : 0 < countWhites settings.pitches :=
    List.countP_pos_iff.2 ⟨p, hp, by rw [hwhite]; rfl⟩
  have count : whiteKeys settings.pitches = countWhites settings.pitches := max_eq_right some
  obtain ⟨r, x, created, same, shared, found⟩ := exists_piano fonts sized wide
  exact ⟨r, x, created, same, shared, count ▸ whites_keysFrom found⟩

/-- Where there is a white key, and a pixel of the window for each, the piano has a key under each
point from its upper edge down and over the width of the window, just if the white keys share that
width without a remainder. -/
theorem no_dead_spots_iff (fonts : Fonts) {settings : RenderSettings} (sized : Sized { settings })
    (white : ∃ p ∈ settings.pitches, isBlack p = false)
    (wide : whiteKeys settings.pitches ≤ settings.windowWidth) :
    ∃ r, create fonts settings = .ok r ∧
      ((∀ x y, 0 ≤ x → x < settings.windowWidth → r.pianoTop ≤ y →
          ∃ p, r.keyUnder x y = .ok (some p)) ↔
        (whiteKeys settings.pitches : Int) ∣ settings.windowWidth) := by
  obtain ⟨r, share, created, rfl, shared, places⟩ := exists_create fonts sized white wide
  obtain ⟨reach, found, finite⟩ := exists_blackReach sized
  refine ⟨r, created, (Iff.trans ?_ (covered_iff shared places))⟩
  constructor
  · -- a point so deep that no black key reaches it
    intro all c low high
    obtain ⟨n₀, beyond⟩ := exists_not_reaches finite
    obtain ⟨p, hp⟩ := all c (max r.pianoTop n₀) low high (le_max_left _ _)
    exact white_of_keyUnder (le_max_left _ _) found (beyond _ (le_max_right _ _)) hp
  · intro covered x y low high top
    exact keyUnder_of_white top found (covered x low high)

/-- A row of five keys, three of them white, over nine pixels. -/
def fiveKeys : RenderSettings := { windowWidth := 9, firstPitch := 60, lastPitch := 64 }

theorem no_dead_spots_iff_fiveKeys : Sized { settings := fiveKeys } ∧
    (∃ p ∈ fiveKeys.pitches, isBlack p = false) ∧
    whiteKeys fiveKeys.pitches ≤ fiveKeys.windowWidth ∧
    ∃ r, create .fixedWidth fiveKeys = .ok r ∧ ∀ x y, 0 ≤ x → x < 9 → r.pianoTop ≤ y →
      ∃ p, r.keyUnder x y = .ok (some p) := by
  have sized : Sized { settings := fiveKeys } :=
    ⟨by decide, by decide, by decide, by decide, nofun⟩
  have white : ∃ p ∈ fiveKeys.pitches, isBlack p = false := ⟨60, by decide, by decide⟩
  have wide : whiteKeys fiveKeys.pitches ≤ fiveKeys.windowWidth := by decide
  obtain ⟨r, created, covered⟩ := no_dead_spots_iff .fixedWidth sized white wide
  exact ⟨sized, white, wide, r, created, covered.2 (by decide)⟩

/-- By default the white keys, which begin with the first key and get more than two pixels each,
leave a column that belongs to none of them. -/
theorem dead_column : isBlack ({} : RenderSettings).firstPitch = false ∧
    2 * whiteKeys ({} : RenderSettings).pitches ≤ ({} : RenderSettings).windowWidth ∧
    ∃ r, create .fixedWidth {} = .ok r ∧ r.pianoTop ≤ 700 ∧ r.keyUnder 348 700 = .ok none := by
  have dead : ((create .fixedWidth {}).bind fun r => r.keyUnder 348 700).toOption = some none := by
    decide +kernel
  refine ⟨by decide, by decide, ?_⟩
  have sized : Sized { settings := {} } := ⟨by decide, by decide, by decide, by decide, nofun⟩
  obtain ⟨r, -, created, settings, -⟩ :=
    exists_create .fixedWidth sized ⟨48, by decide, by decide⟩ (by decide)
  refine ⟨r, created, by rw [pianoTop, settings]; decide, ?_⟩
  rw [created] at dead
  cases under : r.keyUnder 348 700 with
  | error e => simp [Except.bind, under, Except.toOption] at dead
  | ok key => simpa [Except.bind, under, Except.toOption] using dead

end Renderer

end PianoRoll
