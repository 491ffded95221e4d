import PianoRoll.Proofs.Script.Grammar

/-!
Scripts in small letters. Whatever is read from a script is read from the same script in small
letters: no capital is a blank, a digit or the end of a line, and the letters of keywords, pitch
names and powers of ten count in either case.
-/

namespace PianoRoll

open Text Number

/-- The capitals that have small letters. -/
def Text.alphabet : List Char :=
  ['A', 'B', 'C', 'D', 'E', 'F', 'G', 'H', 'I', 'J', 'K', 'L', 'M', 'N', 'O', 'P', 'Q', 'R', 'S',
    'T', 'U', 'V', 'W', 'X', 'Y', 'Z']

namespace Text

theorem mem_alphabet {c : Char} (h : c.isUpper) : c ∈ alphabet := by
  have hc : 65 ≤ c.toNat ∧ c.toNat ≤ 90 := by
    simpa [Char.isUpper, UInt32.le_iff_toNat_le, ← Char.toNat_val] using h
  obtain ⟨low, high⟩ := hc
  rw [← Char.ofNat_toNat c]
  generalize c.toNat = n at low high
  interval_cases n <;> decide

/-- What does not change for a capital does not change for any character. -/
theorem toLower_congr {α : Type} {f : Char → α}
    (h : alphabet.map (fun k => f k.toLower) = alphabet.map f) (c : Char) :
    f c.toLower = f c := by
  by_cases hc : c.isUpper
  · exact List.map_inj_left.1 h c (mem_alphabet hc)
  · rw [Char.toLower_eq_of_not_isUpper hc]

@[simp] theorem isBlank_toLower (c : Char) : isBlank c.toLower = isBlank c :=
  toLower_congr rfl c

@[simp] theorem isBoundary_toLower (c : Char) : isBoundary c.toLower = isBoundary c :=
  toLower_congr rfl c

@[simp] theorem digitValue?_toLower (c : Char) : digitValue? c.toLower = digitValue? c :=
  toLower_congr rfl c

@[simp] theorem isDigit_toLower (c : Char) : isDigit c.toLower = isDigit c := by
  rw [isDigit, digitValue?_toLower, isDigit]

end Text

/-! ## Numbers -/

theorem dropWhile_small {p : Char → Bool} (hp : ∀ c, p c.toLower = p c) (s : List Char) :
    (s.map Char.toLower).dropWhile p = (s.dropWhile p).map Char.toLower := by
  rw [List.dropWhile_map]
  congr 2
  exact funext hp

theorem takeWhile_small {p : Char → Bool} (hp : ∀ c, p c.toLower = p c) (s : List Char) :
    (s.map Char.toLower).takeWhile p = (s.takeWhile p).map Char.toLower := by
  rw [List.takeWhile_map]
  congr 2
  exact funext hp

theorem trimStart_small (s : List Char) :
    trimStart (s.map Char.toLower) = (trimStart s).map Char.toLower :=
  dropWhile_small isBlank_toLower s

theorem trim_small (s : List Char) : trim (s.map Char.toLower) = (trim s).map Char.toLower := by
  rw [trim, trimStart_small, trimEnd, ← List.map_reverse, dropWhile_small isBlank_toLower,
    ← List.map_reverse]
  rfl

theorem natOfDigits_small (acc : Nat) (ds : List Char) :
    natOfDigits acc (ds.map Char.toLower) = natOfDigits acc ds := by
  rw [natOfDigits, List.foldl_map]
  simp only [digitValue?_toLower]
  rfl

namespace Number

/-- A character that is no letter is not the small letter of another one. -/
theorem toLower_eq_sign_iff {c k : Char} (hk : ¬k.isUpper) (hk' : k.toUpper = k) :
    c.toLower = k ↔ c = k := by
  rw [Script.toLower_eq_iff hk, hk', or_self]

theorem takeSign_of_ne {c : Char} (minus : c ≠ '-') (plus : c ≠ '+') (s : List Char) :
    takeSign (c :: s) = (false, c :: s) := by
  unfold takeSign
  split <;> simp_all

theorem takeSign_small (s : List Char) :
    takeSign (s.map Char.toLower) = ((takeSign s).1, (takeSign s).2.map Char.toLower) := by
  cases s with
  | nil => rfl
  | cons c s =>
    by_cases minus : c = '-'
    · subst minus
      rfl
    by_cases plus : c = '+'
    · subst plus
      rfl
    rw [List.map_cons, takeSign_of_ne minus plus, takeSign_of_ne]
    · rfl
    · rwa [Ne, toLower_eq_sign_iff (by decide) (by decide)]
    · rwa [Ne, toLower_eq_sign_iff (by decide) (by decide)]

theorem leadingWhole?_small (s : List Char) :
    leadingWhole? (s.map Char.toLower) = leadingWhole? s := by
  simp only [leadingWhole?, trimStart_small, takeSign_small, takeWhile_small isDigit_toLower,
    natOfDigits_small, List.isEmpty_map, List.length_map]

theorem takeMantissa?_small (s : List Char) : takeMantissa? (s.map Char.toLower) =
    (takeMantissa? s).map fun (ds, fs, r) =>
      (ds.map Char.toLower, fs.map Char.toLower, r.map Char.toLower) := by
  unfold takeMantissa?
  simp only [List.span_eq_takeWhile_dropWhile, takeWhile_small isDigit_toLower,
    dropWhile_small isDigit_toLower]
  generalize s.takeWhile isDigit = ds
  generalize s.dropWhile isDigit = r
  cases r with
  | nil => cases ds <;> rfl
  | cons c r =>
    by_cases point : c = '.'
    · subst point
      have still : ('.' : Char).toLower = '.' := rfl
      cases ds with
      | nil =>
        simp only [List.map_nil, List.map_cons, still, takeWhile_small isDigit_toLower,
          dropWhile_small isDigit_toLower]
        cases r.takeWhile isDigit <;> rfl
      | cons d ds =>
        simp [still, takeWhile_small isDigit_toLower, dropWhile_small isDigit_toLower]
    · have none : c.toLower ≠ '.' := by rwa [Ne, toLower_eq_sign_iff (by decide) (by decide)]
      cases ds with
      | nil => simp [point, none]
      | cons d ds => simp [point, none]

theorem takePower_small (s : List Char) :
    takePower (s.map Char.toLower) = ((takePower s).1, (takePower s).2.map Char.toLower) := by
  cases s with
  | nil => rfl
  | cons c s =>
    have either : (c.toLower = 'e' ∨ c.toLower = 'E') ↔ (c = 'e' ∨ c = 'E') := by
      have small : c.toLower ≠ 'E' := fun h => by simpa using congrArg Char.isUpper h
      rw [or_iff_left small, Script.toLower_eq_iff (by decide)]
      rfl
    simp only [List.map_cons, takePower, either, takeSign_small, List.span_eq_takeWhile_dropWhile,
      takeWhile_small isDigit_toLower, dropWhile_small isDigit_toLower]
    split
    · cases (takeSign s).2.takeWhile isDigit with
      | nil => rfl
      | cons d ds =>
        have digits := natOfDigits_small 0 (d :: ds)
        rw [List.map_cons] at digits
        simp [digits]
    · rfl

theorem takeNumeral?_small (s : List Char) : takeNumeral? (s.map Char.toLower) =
    (takeNumeral? s).map fun (x, r) => (x, r.map Char.toLower) := by
  unfold takeNumeral?
  rw [takeSign_small]
  dsimp only
  rw [takeMantissa?_small]
  cases takeMantissa? (takeSign s).2 with
  | none => rfl
  | some parts =>
    obtain ⟨ds, fs, r⟩ := parts
    simp [takePower_small, ← List.map_append, natOfDigits_small]

theorem leadingNumber?_small (s : List Char) :
    leadingNumber? (s.map Char.toLower) = leadingNumber? s := by
  rw [leadingNumber?, trimStart_small, takeNumeral?_small, Option.map_map]
  rfl

end Number

/-! ## Lines -/

namespace Script

theorem octaveOf?_small (arg : List Char) : octaveOf? (arg.map Char.toLower) = octaveOf? arg := by
  rw [octaveOf?, leadingWhole?_small, octaveOf?]

theorem fractionOf?_small (arg : List Char) :
    fractionOf? (arg.map Char.toLower) = fractionOf? arg := by
  have slash (c : Char) : (c.toLower != '/') = (c != '/') :=
    toLower_congr (f := fun c => c != '/') rfl c
  unfold fractionOf?
  simp only [List.span_eq_takeWhile_dropWhile, takeWhile_small (p := (· != '/')) slash,
    dropWhile_small (p := (· != '/')) slash]
  cases arg.dropWhile (· != '/') with
  | nil => exact leadingNumber?_small arg
  | cons c den => simp [leadingNumber?_small]

theorem stepOf?_small (arg : List Char) : stepOf? (arg.map Char.toLower) = stepOf? arg := by
  rw [stepOf?, fractionOf?_small, stepOf?]

theorem afterKeyword?_small (word s : List Char) :
    afterKeyword? word (s.map Char.toLower) = (afterKeyword? word s).map (·.map Char.toLower) := by
  induction word generalizing s with
  | nil => rfl
  | cons k word ih =>
    cases s with
    | nil => rfl
    | cons c s =>
      rw [List.map_cons, afterKeyword?, afterKeyword?, ih, Char.toLower_toLower_eq_toLower]
      split <;> rfl

theorem ofName?_small (s : List Char) :
    PitchClass.ofName? (s.map Char.toLower) = PitchClass.ofName? s := by
  have capitals : (s.map Char.toLower).map Char.toUpper = s.map Char.toUpper := by simp
  rw [PitchClass.ofName?, capitals, PitchClass.ofName?]

end Script

end PianoRoll
