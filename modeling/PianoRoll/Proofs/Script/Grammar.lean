import Mathlib
import PianoRoll.Proofs.Work
import PianoRoll.Studio.Reaction

/-!
The scripts that are accepted. `Grammatical` describes the lines of a script without reading them,
and a script is accepted when all of its lines, without the blanks around them, are grammatical.
Otherwise its rejection names the first line that is not, whatever stands on the others.
-/

namespace PianoRoll.Script

open Text Work

/-- A text spells a word of small letters, each of them small or capital. -/
def Spells (word s : List Char) : Prop := List.Forall₂ (fun k c => c = k ∨ c = k.toUpper) word s

def pitchNames : List (List Char) :=
  [['c'], ['c', '#'], ['d'], ['d', '#'], ['e'], ['f'], ['f', '#'], ['g'], ['g', '#'], ['a'],
    ['a', '#'], ['b']]

/-- The lines a script may have, without the blanks around them. -/
inductive Grammatical : List Char → Prop
  | blank : Grammatical []
  | octave {word} (arg : List Char) (h : Spells ['o', 'c', 't', 'a', 'v', 'e'] word) :
    Grammatical (word ++ arg)
  | step {word} (arg : List Char) (h : Spells ['s', 't', 'e', 'p'] word) : Grammatical (word ++ arg)
  | rest {word} (h : Spells ['r', 'e', 's', 't'] word) : Grammatical word
  | pitch {name word} (hn : name ∈ pitchNames) (h : Spells name word) : Grammatical word

/-- The line at an index is the first one that a script may not have. -/
structure FirstUnknown (ls : List (List Char)) (i : Nat) (raw : List Char) : Prop where
  here : ls[i]? = some raw
  unknown : ¬Grammatical (trim raw)
  before : ∀ l ∈ ls.take i, Grammatical (trim l)

/-! ## Letters small and capital -/

theorem toLower_eq_iff {c k : Char} (hk : ¬k.isUpper) : c.toLower = k ↔ c = k ∨ c = k.toUpper := by
  constructor
  · rintro rfl
    by_cases hc : c.isUpper
    · right
      simp [Char.toUpper_eq_of_not_isLower (Char.not_isLower_of_isUpper hc)]
    · left
      simp [Char.toLower_eq_of_not_isUpper hc]
  · rintro (rfl | rfl)
    · exact Char.toLower_eq_of_not_isUpper hk
    · simp [Char.toLower_eq_of_not_isUpper hk]

theorem toUpper_eq_toUpper_iff {c k : Char} : c.toUpper = k.toUpper ↔ c.toLower = k.toLower := by
  constructor <;> intro h
  · simpa using congrArg Char.toLower h
  · simpa using congrArg Char.toUpper h

variable {word s : List Char}

/-- A text spells a word if it is the word once its capitals are small. -/
theorem spells_iff (hw : ∀ k ∈ word, ¬k.isUpper) : Spells word s ↔ s.map Char.toLower = word := by
  unfold Spells
  induction word generalizing s with
  | nil => simp
  | cons k word ih =>
    simp only [List.mem_cons, forall_eq_or_imp] at hw
    cases s with
    | nil => simp
    | cons c s => simp [ih hw.2, toLower_eq_iff hw.1]

theorem map_toUpper_eq_iff : s.map Char.toUpper = word.map Char.toUpper ↔
    s.map Char.toLower = word.map Char.toLower := by
  induction s generalizing word with
  | nil => cases word <;> simp
  | cons c s ih =>
    cases word with
    | nil => simp
    | cons k word => simp [ih, toUpper_eq_toUpper_iff]

theorem map_toLower_of_small (hw : ∀ k ∈ word, ¬k.isUpper) : word.map Char.toLower = word := by
  rw [List.map_congr_left fun k hk => Char.toLower_eq_of_not_isUpper (hw k hk), List.map_id']

/-! ## Lines -/

theorem afterKeyword?_eq_some_iff {rest : List Char} (hw : ∀ k ∈ word, ¬k.isUpper) :
    afterKeyword? word s = some rest ↔ ∃ front, Spells word front ∧ s = front ++ rest := by
  induction word generalizing s with
  | nil => simp [afterKeyword?, Spells]
  | cons k word ih =>
    simp only [List.mem_cons, forall_eq_or_imp] at hw
    cases s with
    | nil => simp [afterKeyword?, Spells, List.forall₂_cons_left_iff]
    | cons c s =>
      have first : (∃ front, Spells (k :: word) front ∧ c :: s = front ++ rest) ↔
          c.toLower = k ∧ ∃ front, Spells word front ∧ s = front ++ rest := by
        rw [toLower_eq_iff hw.1]
        constructor
        · rintro ⟨_, hf, he⟩
          obtain ⟨d, front, hd, hf', rfl⟩ := List.forall₂_cons_left_iff.1 hf
          obtain ⟨rfl, he'⟩ := List.cons.inj he
          exact ⟨hd, front, hf', he'⟩
        · rintro ⟨hc, front, hf, rfl⟩
          exact ⟨c :: front, .cons hc hf, rfl⟩
      rw [first, ← ih hw.2]
      simp [afterKeyword?]

/-- A pitch has a name in capitals, and the same name in small letters. -/
theorem map_name_all : PitchClass.all.map PitchClass.name = pitchNames.map (·.map Char.toUpper) :=
  rfl

theorem not_isUpper_of_mem_pitchNames : ∀ name ∈ pitchNames, ∀ k ∈ name, ¬k.isUpper := by
  simp [pitchNames]

theorem ofName?_isSome_iff :
    (PitchClass.ofName? s).isSome ↔ ∃ name ∈ pitchNames, Spells name s := by
  have hmem : (PitchClass.ofName? s).isSome ↔
      s.map Char.toUpper ∈ PitchClass.all.map PitchClass.name := by
    simp [PitchClass.ofName?, List.find?_isSome]
  rw [hmem, map_name_all, List.mem_map]
  refine exists_congr fun name => and_congr_right fun hn => ?_
  have small := not_isUpper_of_mem_pitchNames name hn
  rw [spells_iff small, eq_comm, map_toUpper_eq_iff, map_toLower_of_small small]

/-- A line may stand in a script if one of the tests that read it says so. -/
theorem grammatical_iff {line : List Char} : Grammatical line ↔
    line = [] ∨ (∃ arg, afterKeyword? ['o', 'c', 't', 'a', 'v', 'e'] line = some arg) ∨
      (∃ arg, afterKeyword? ['s', 't', 'e', 'p'] line = some arg) ∨
      line.map Char.toLower = ['r', 'e', 's', 't'] ∨ (PitchClass.ofName? line).isSome := by
  have octave (arg) : afterKeyword? ['o', 'c', 't', 'a', 'v', 'e'] line = some arg ↔ _ :=
    afterKeyword?_eq_some_iff (by simp)
  have step (arg) : afterKeyword? ['s', 't', 'e', 'p'] line = some arg ↔ _ :=
    afterKeyword?_eq_some_iff (by simp)
  rw [← spells_iff (by simp), ofName?_isSome_iff]
  simp only [octave, step]
  constructor
  · rintro (_ | ⟨arg, h⟩ | ⟨arg, h⟩ | h | ⟨hn, h⟩)
    · exact .inl rfl
    · exact .inr (.inl ⟨arg, _, h, rfl⟩)
    · exact .inr (.inr (.inl ⟨arg, _, h, rfl⟩))
    · exact .inr (.inr (.inr (.inl h)))
    · exact .inr (.inr (.inr (.inr ⟨_, hn, h⟩)))
  · rintro (rfl | ⟨arg, _, h, rfl⟩ | ⟨arg, _, h, rfl⟩ | h | ⟨_, hn, h⟩)
    · exact .blank
    · exact .octave arg h
    · exact .step arg h
    · exact .rest h
    · exact .pitch hn h

theorem withArgument_ne_unknown {make : List Char → Directive} (hm : ∀ arg, make arg ≠ .unknown)
    (s : List Char) : Directive.withArgument make s ≠ .unknown := by
  unfold Directive.withArgument
  split
  · exact hm _
  · nofun

/-- The lines that are not understood are those that a script may not have. -/
theorem ofLine_eq_unknown_iff {line : List Char} :
    Directive.ofLine line = .unknown ↔ ¬Grammatical line := by
  rw [grammatical_iff]
  unfold Directive.ofLine
  split
  · simp [*]
  · split
    · simp [*, withArgument_ne_unknown]
    · split
      · simp [*, withArgument_ne_unknown]
      · split
        · simp [*]
        · split <;> simp [*]

/-! ## Scripts -/

/-- Lines that may all stand in a script have notes. -/
theorem read_ok {ls : List (List Char)} (h : ∀ raw ∈ ls, Grammatical (trim raw)) (pen : Pen)
    (number : Nat) : ∃ notes, (read pen number ls).notes = .ok notes := by
  induction ls generalizing pen number with
  | nil => exact ⟨[], rfl⟩
  | cons raw ls ih =>
    simp only [List.mem_cons, forall_eq_or_imp] at h
    rw [read]
    split
    · next hd => exact absurd h.1 (ofLine_eq_unknown_iff.1 hd)
    · obtain ⟨notes, hr⟩ := ih h.2 (pen.after (Directive.ofLine (trim raw))) (number + 1)
      exact ⟨_, by rw [Reading.after, hr]; rfl⟩

/-- The first line that may not stand in a script is the one it is rejected for. -/
theorem read_error {ls : List (List Char)} {i : Nat} {raw : List Char} (h : FirstUnknown ls i raw)
    (pen : Pen) (number : Nat) : (read pen number ls).notes =
      .error (.badToken ((number + i : Nat) : Int) (String.ofList (trim raw))) := by
  induction ls generalizing pen number i with
  | nil => simpa using h.here
  | cons l ls ih =>
    cases i with
    | zero =>
      obtain rfl : l = raw := by simpa using h.here
      simp [read, ofLine_eq_unknown_iff.2 h.unknown]
    | succ i =>
      have hb := h.before
      simp only [List.take_succ_cons, List.mem_cons, forall_eq_or_imp] at hb
      have hr := ih ⟨by simpa using h.here, h.unknown, hb.2⟩
        (pen.after (Directive.ofLine (trim l))) (number + 1)
      rw [read]
      split
      · next hd => exact absurd hb.1 (ofLine_eq_unknown_iff.1 hd)
      · rw [Reading.after, hr]
        simp [Except.map, Nat.add_assoc, Nat.add_comm 1]

/-- If not all lines may stand in a script, one of them is the first that may not. -/
theorem exists_firstUnknown {ls : List (List Char)} (h : ¬∀ raw ∈ ls, Grammatical (trim raw)) :
    ∃ i raw, FirstUnknown ls i raw := by
  induction ls with
  | nil => simp at h
  | cons l ls ih =>
    by_cases hl : Grammatical (trim l)
    · obtain ⟨i, raw, hf⟩ := ih fun hall => h (by simpa using ⟨hl, hall⟩)
      refine ⟨i + 1, raw, by simpa using hf.here, hf.unknown, ?_⟩
      simpa using ⟨hl, hf.before⟩
    · exact ⟨0, l, rfl, hl, by simp⟩

/-- The remarks on a script go to the journal and change nothing else. -/
theorem on_remarks {σ : Type} (ms : List Remark) (b : Bench σ) : ∃ b' : Bench σ,
    (ms.forM fun m => log .debug m.message : Work σ Unit).on b = some (.ok (), b') ∧
      b'.part = b.part := by
  induction ms generalizing b with
  | nil => exact ⟨b, rfl, rfl⟩
  | cons m ms ih =>
    obtain ⟨b', h, hp⟩ := ih { b with journal := .log ⟨.debug, m.message⟩ :: b.journal }
    refine ⟨b', ?_, hp⟩
    rw [forM_cons, log, on_bind_ok (on_write _ b), h]

/-- What the two readings that never fail come to: the session is given notes, the editor the same
notes and what is wrong with the script. Nothing but the journal changes. -/
structure Gives {σ : Type} (text : String) (b : Bench σ) (notes : List Note)
    (fault : Option Fault) : Prop where
  readScript : ∃ b' : Bench σ,
    (Studio.readScript text).on b = some (.ok notes, b') ∧ b'.part = b.part
  checkScript : ∃ b' : Bench σ,
    (Studio.checkScript text).on b = some (.ok (notes, fault), b') ∧ b'.part = b.part

theorem gives_of_ok {σ : Type} {text : String} {notes : List Note}
    (h : (compile text).notes = .ok notes) (b : Bench σ) : Gives text b notes none := by
  obtain ⟨b', hb, hp⟩ := on_remarks (compile text).remarks b
  constructor
  · simp only [Studio.readScript, on_bind_ok hb, h]
    exact ⟨b', rfl, hp⟩
  · simp only [Studio.checkScript, on_bind_ok hb, h]
    exact ⟨b', rfl, hp⟩

theorem gives_of_error {σ : Type} {text : String} {f : Fault}
    (h : (compile text).notes = .error f) (b : Bench σ) : Gives text b [] (some f) := by
  obtain ⟨b', hb, hp⟩ := on_remarks (compile text).remarks b
  constructor
  · simp only [Studio.readScript, on_bind_ok hb, h]
    exact ⟨_, rfl, hp⟩
  · simp only [Studio.checkScript, on_bind_ok hb, h]
    exact ⟨b', rfl, hp⟩

/-- A script is accepted if and only if all of its lines may stand in a script. It is rejected for
no other reason than the first line that may not, which the fault names with its number. -/
theorem accepts_its_grammar {σ : Type} (text : String) (b : Bench σ) :
    ((∃ notes, (compile text).notes = .ok notes) ↔
      ∀ raw ∈ lines text.toList, Grammatical (trim raw)) ∧
    (∀ notes, (compile text).notes = .ok notes → Gives text b notes none) ∧
    ∀ f, (compile text).notes = .error f → Gives text b [] (some f) ∧
      ∃ i raw, FirstUnknown (lines text.toList) i raw ∧
        f = .badToken (i + 1 : Nat) (String.ofList (trim raw)) := by
  have rejected (h : ¬∀ raw ∈ lines text.toList, Grammatical (trim raw)) :
      ∃ i raw, FirstUnknown (lines text.toList) i raw ∧
        (compile text).notes = .error (.badToken (i + 1 : Nat) (String.ofList (trim raw))) := by
    obtain ⟨i, raw, hf⟩ := exists_firstUnknown h
    exact ⟨i, raw, hf, by rw [compile, read_error hf, Nat.add_comm]⟩
  have accepted (h : ∀ raw ∈ lines text.toList, Grammatical (trim raw)) :
      ∃ notes, (compile text).notes = .ok notes := read_ok h {} 1
  refine ⟨⟨fun ⟨notes, h⟩ => ?_, accepted⟩, fun notes h => gives_of_ok h b, fun f h => ?_⟩
  · by_contra hg
    obtain ⟨i, raw, -, he⟩ := rejected hg
    simp [he] at h
  · refine ⟨gives_of_error h b, ?_⟩
    by_cases hg : ∀ raw ∈ lines text.toList, Grammatical (trim raw)
    · obtain ⟨notes, hn⟩ := accepted hg
      simp [hn] at h
    · obtain ⟨i, raw, hf, he⟩ := rejected hg
      rw [he] at h
      exact ⟨i, raw, hf, (Except.error.inj h).symm⟩

end PianoRoll.Script
