import PianoRoll.Proofs.Script.Effects

/-!
The layout of a script. A text may be edited in ways that its notes do not show: letters may be
small or capital, blanks may stand around a line, lines may be told apart by a feed, a return or
both, and lines that ask for nothing may stand anywhere (`Edit`). Whatever edits of these kinds lead
from one text to another, both are accepted with the same notes or both are rejected
(`same_outcome`).
-/

namespace PianoRoll.Script

open Text Number

/-! ## Lines that ask for nothing -/

/-- What stands behind the blanks at the start of a text and a sign. -/
def unsigned (s : List Char) : List Char := (takeSign (trimStart s)).2

/-- A text that begins with a number, after blanks and a sign. -/
inductive Numbered (s : List Char) : Prop
  | digit {c r} (h : unsigned s = c :: r) (hc : isDigit c = true)
  | point {c r} (h : unsigned s = '.' :: c :: r) (hc : isDigit c = true)

/-- The arguments that do not set the octave: no number, more digits than are read, and no octave
that keys have. -/
inductive NoOctave (arg : List Char) : Prop
  | unnumbered (h : ∀ c ∈ (unsigned arg).head?, isDigit c = false)
  | tooLong (h : digitLimit < ((unsigned arg).takeWhile isDigit).length)
  | outside {n} (h : leadingWhole? arg = some n) (out : n < -1 ∨ 8 < n)

/-- The arguments that do not set the step: no number or no fraction of two, zero in a fraction, and
no length that notes can have. -/
inductive NoStep (arg : List Char) : Prop
  | unnumbered (whole : '/' ∉ arg) (h : ¬Numbered arg)
  | half {num den} (first : '/' ∉ num) (cut : arg = num ++ '/' :: den)
    (h : ¬Numbered num ∨ ¬Numbered den)
  | zero {num den a b} (first : '/' ∉ num) (cut : arg = num ++ '/' :: den)
    (ha : leadingNumber? num = some a) (hb : leadingNumber? den = some b)
    (h : (a == 0) = true ∨ (b == 0) = true)
  | unfit {x} (hx : fractionOf? arg = some x) (h : isFinite x = false ∨ ¬0 < x)

/-- The lines that ask for nothing, without the blanks around them: nothing at all, a keyword alone
or with something glued to it, and a keyword with an argument that cannot be used. -/
inductive Idle : List Char → Prop
  | blank : Idle []
  | octaveGlued {word tail} (h : Spells ['o', 'c', 't', 'a', 'v', 'e'] word)
    (glued : tail.head? ≠ some ' ') : Idle (word ++ tail)
  | stepGlued {word tail} (h : Spells ['s', 't', 'e', 'p'] word) (glued : tail.head? ≠ some ' ') :
    Idle (word ++ tail)
  | octave {word arg} (h : Spells ['o', 'c', 't', 'a', 'v', 'e'] word) (no : NoOctave arg) :
    Idle (word ++ ' ' :: arg)
  | step {word arg} (h : Spells ['s', 't', 'e', 'p'] word) (no : NoStep arg) :
    Idle (word ++ ' ' :: arg)

theorem leadingWhole?_eq_none_iff {arg : List Char} : leadingWhole? arg = none ↔
    (∀ c ∈ (unsigned arg).head?, isDigit c = false) ∨
      digitLimit < ((unsigned arg).takeWhile isDigit).length := by
  have empty (s : List Char) :
      (s.takeWhile isDigit).isEmpty = true ↔ ∀ c ∈ s.head?, isDigit c = false := by
    cases s with
    | nil => simp
    | cons c s => cases h : isDigit c <;> simp [h]
  simp only [leadingWhole?, unsigned, ← empty, ite_eq_left_iff, reduceCtorEq, imp_false, not_not,
    Bool.or_eq_true, decide_eq_true_eq, gt_iff_lt]

theorem octaveOf?_eq_none_iff {arg : List Char} : octaveOf? arg = none ↔ NoOctave arg := by
  constructor
  · intro h
    cases hn : leadingWhole? arg with
    | none =>
      rcases leadingWhole?_eq_none_iff.1 hn with hn | hn
      · exact .unnumbered hn
      · exact .tooLong hn
    | some n =>
      rw [octaveOf?, hn] at h
      refine .outside hn ?_
      by_contra inside
      simp only at h
      rw [if_pos (by omega)] at h
      cases h
  · rintro (h | h | ⟨hn, out⟩)
    · rw [octaveOf?, leadingWhole?_eq_none_iff.2 (.inl h)]
    · rw [octaveOf?, leadingWhole?_eq_none_iff.2 (.inr h)]
    · rw [octaveOf?, hn]
      exact if_neg (by omega)

theorem takeMantissa?_eq_none_iff {s : List Char} : takeMantissa? s = none ↔
    ¬((∃ c r, s = c :: r ∧ isDigit c = true) ∨ ∃ c r, s = '.' :: c :: r ∧ isDigit c = true) := by
  have point : isDigit '.' = false := rfl
  cases s with
  | nil => simp [takeMantissa?, List.span_eq_takeWhile_dropWhile]
  | cons c s =>
    cases hc : isDigit c with
    | true =>
      simp only [takeMantissa?, List.span_eq_takeWhile_dropWhile, List.takeWhile_cons, hc]
      split <;> simp_all
    | false =>
      by_cases hp : c = '.'
      · subst hp
        cases s with
        | nil => simp [takeMantissa?, List.span_eq_takeWhile_dropWhile, point]
        | cons d s =>
          cases hd : isDigit d <;>
            simp [takeMantissa?, List.span_eq_takeWhile_dropWhile, point, hd]
      · simp [takeMantissa?, List.span_eq_takeWhile_dropWhile, hc, hp]

theorem leadingNumber?_eq_none_iff {s : List Char} : leadingNumber? s = none ↔ ¬Numbered s := by
  have parts : leadingNumber? s = none ↔ takeMantissa? (unsigned s) = none := by
    rw [leadingNumber?, Option.map_eq_none_iff, takeNumeral?, unsigned]
    cases h : takeMantissa? (takeSign (trimStart s)).2 <;> simp [h]
  rw [parts, takeMantissa?_eq_none_iff, not_iff_not]
  constructor
  · rintro (⟨c, r, h, hc⟩ | ⟨c, r, h, hc⟩)
    · exact .digit h hc
    · exact .point h hc
  · rintro (⟨h, hc⟩ | ⟨h, hc⟩)
    · exact .inl ⟨_, _, h, hc⟩
    · exact .inr ⟨_, _, h, hc⟩

theorem fractionOf?_whole {arg : List Char} (whole : '/' ∉ arg) :
    fractionOf? arg = leadingNumber? arg := by
  have all : ∀ c ∈ arg, (c != '/') = true := fun c hc => bne_iff_ne.2 fun e => whole (e ▸ hc)
  rw [fractionOf?, List.span_eq_takeWhile_dropWhile, List.dropWhile_eq_nil_iff.2 all]

theorem fractionOf?_cut {num : List Char} (first : '/' ∉ num) (den : List Char) :
    fractionOf? (num ++ '/' :: den) = (leadingNumber? num).bind fun a =>
      (leadingNumber? den).bind fun b => if a == 0 || b == 0 then none else some (a / b) := by
  have all : ∀ c ∈ num, (c != '/') = true := fun c hc => bne_iff_ne.2 fun e => first (e ▸ hc)
  rw [fractionOf?, List.span_eq_takeWhile_dropWhile, List.takeWhile_append_of_pos all,
    List.dropWhile_append_of_pos all]
  cases ha : leadingNumber? num <;> cases hb : leadingNumber? den <;> simp [ha, hb]

theorem fractionOf?_eq_none {arg : List Char} (h : fractionOf? arg = none) : NoStep arg := by
  by_cases hm : '/' ∈ arg
  · obtain ⟨num, den, rfl, first⟩ := List.eq_append_cons_of_mem hm
    rw [fractionOf?_cut first] at h
    cases ha : leadingNumber? num with
    | none => exact .half first rfl (.inl (leadingNumber?_eq_none_iff.1 ha))
    | some a =>
      cases hb : leadingNumber? den with
      | none => exact .half first rfl (.inr (leadingNumber?_eq_none_iff.1 hb))
      | some b =>
        refine .zero first rfl ha hb ?_
        simpa [ha, hb, or_iff_not_imp_left] using h
  · rw [fractionOf?_whole hm] at h
    exact .unnumbered hm (leadingNumber?_eq_none_iff.1 h)

theorem stepOf?_eq_none_iff {arg : List Char} : stepOf? arg = none ↔ NoStep arg := by
  constructor
  · intro h
    cases hx : fractionOf? arg with
    | none => exact fractionOf?_eq_none hx
    | some x =>
      refine .unfit hx ?_
      simpa [stepOf?, hx, Classical.or_iff_not_imp_left] using h
  · have unread (h : fractionOf? arg = none) : stepOf? arg = none := by rw [stepOf?, h]
    rintro (⟨whole, h⟩ | ⟨first, rfl, h⟩ | ⟨first, rfl, ha, hb, h⟩ | ⟨hx, h⟩)
    · exact unread ((fractionOf?_whole whole).trans (leadingNumber?_eq_none_iff.2 h))
    · refine unread ?_
      rw [fractionOf?_cut first]
      rcases h with h | h <;> simp [leadingNumber?_eq_none_iff.2 h]
    · refine unread ?_
      rw [fractionOf?_cut first, ha, hb]
      simp [h]
    · rw [stepOf?, hx]
      rcases h with h | h <;> simp [h]

theorem ofLine_octave {word : List Char} (h : Spells ['o', 'c', 't', 'a', 'v', 'e'] word)
    (tail : List Char) : Directive.ofLine (word ++ tail) = .withArgument .octave tail := by
  have keyword : afterKeyword? ['o', 'c', 't', 'a', 'v', 'e'] (word ++ tail) = some tail :=
    (afterKeyword?_eq_some_iff (by simp)).2 ⟨word, h, rfl⟩
  cases h with
  | cons hc h => rw [Directive.ofLine, if_neg (by simp), keyword]

theorem ofLine_step {word : List Char} (h : Spells ['s', 't', 'e', 'p'] word) (tail : List Char) :
    Directive.ofLine (word ++ tail) = .withArgument .step tail := by
  have keyword : afterKeyword? ['s', 't', 'e', 'p'] (word ++ tail) = some tail :=
    (afterKeyword?_eq_some_iff (by simp)).2 ⟨word, h, rfl⟩
  cases h with
  | @cons _ c _ word hc h =>
    have other : afterKeyword? ['o', 'c', 't', 'a', 'v', 'e'] (c :: word ++ tail) = none := by
      rcases hc with rfl | rfl <;> rfl
    rw [Directive.ofLine, if_neg (by simp), other, keyword]

/-- What follows a keyword that has no effect: nothing, something glued to it, or an argument that
cannot be used. -/
theorem effect?_withArgument_eq_none_iff {make : List Char → Directive} {no : List Char → Prop}
    (hm : ∀ arg, (make arg).effect? = none ↔ no arg) (empty : no []) (s : List Char) :
    (Directive.withArgument make s).effect? = none ↔
      s.head? ≠ some ' ' ∨ ∃ arg, s = ' ' :: arg ∧ no arg := by
  cases s with
  | nil => simp [Directive.withArgument, Directive.effect?]
  | cons c s =>
    by_cases hc : c = ' '
    · subst hc
      cases s with
      | nil => simpa [Directive.withArgument, Directive.effect?] using empty
      | cons d arg => simp [Directive.withArgument, hm]
    · simp [Directive.withArgument, Directive.effect?, hc]

theorem octave_idle_iff (tail : List Char) :
    (Directive.withArgument .octave tail).effect? = none ↔
      tail.head? ≠ some ' ' ∨ ∃ arg, tail = ' ' :: arg ∧ NoOctave arg := by
  refine effect?_withArgument_eq_none_iff (fun arg => ?_) (octaveOf?_eq_none_iff.1 rfl) tail
  rw [Directive.effect?, Option.map_eq_none_iff, octaveOf?_eq_none_iff]

theorem step_idle_iff (tail : List Char) :
    (Directive.withArgument .step tail).effect? = none ↔
      tail.head? ≠ some ' ' ∨ ∃ arg, tail = ' ' :: arg ∧ NoStep arg := by
  refine effect?_withArgument_eq_none_iff (fun arg => ?_) (stepOf?_eq_none_iff.1 rfl) tail
  rw [Directive.effect?, Option.map_eq_none_iff, stepOf?_eq_none_iff]

/-- The lines without an effect are those that ask for nothing. -/
theorem effect?_eq_none_iff {line : List Char} :
    (Directive.ofLine line).effect? = none ↔ Idle line := by
  constructor
  · intro h
    by_cases hline : line = []
    · exact hline ▸ .blank
    rw [Directive.ofLine, if_neg hline] at h
    split at h
    · next tail keyword =>
      obtain ⟨word, hw, rfl⟩ := (afterKeyword?_eq_some_iff (by simp)).1 keyword
      rcases (octave_idle_iff tail).1 h with glued | ⟨arg, rfl, no⟩
      · exact .octaveGlued hw glued
      · exact .octave hw no
    split at h
    · next tail keyword =>
      obtain ⟨word, hw, rfl⟩ := (afterKeyword?_eq_some_iff (by simp)).1 keyword
      rcases (step_idle_iff tail).1 h with glued | ⟨arg, rfl, no⟩
      · exact .stepGlued hw glued
      · exact .step hw no
    split at h
    · cases h
    · split at h <;> cases h
  · intro h
    cases h with
    | blank => rfl
    | octaveGlued hw glued => rw [ofLine_octave hw, octave_idle_iff]; exact .inl glued
    | stepGlued hw glued => rw [ofLine_step hw, step_idle_iff]; exact .inl glued
    | octave hw no => rw [ofLine_octave hw, octave_idle_iff]; exact .inr ⟨_, rfl, no⟩
    | step hw no => rw [ofLine_step hw, step_idle_iff]; exact .inr ⟨_, rfl, no⟩

/-! ## Edits -/

def separators : List (List Char) := [['\n'], ['\r', '\n'], ['\r']]

/-- The edits of a text that its notes do not show. -/
inductive Edit : List Char → List Char → Prop
  | letters {s t} (h : s.map Char.toLower = t.map Char.toLower) : Edit s t
  | blanks {front before line after rest} (opens : Opens front) (closes : Closes rest)
    (unbroken : Unbroken line) (hbefore : ∀ c ∈ before, isBlank c = true)
    (hafter : ∀ c ∈ after, isBlank c = true) :
    Edit (front ++ line ++ rest) (front ++ (before ++ line ++ after) ++ rest)
  | separator {front sep sep' rest} (h : sep ∈ separators) (h' : sep' ∈ separators) :
    Edit (front ++ sep ++ rest) (front ++ sep' ++ rest)
  | above {front line sep rest} (opens : Opens front) (unbroken : Unbroken line)
    (idle : Idle (trim line)) (h : sep ∈ separators) :
    Edit (front ++ rest) (front ++ (line ++ sep) ++ rest)
  | below {front line sep rest} (closes : Closes rest) (unbroken : Unbroken line)
    (idle : Idle (trim line)) (h : sep ∈ separators) :
    Edit (front ++ rest) (front ++ (sep ++ line) ++ rest)

theorem effects_separator {sep : List Char} (h : sep ∈ separators) (front rest : List Char) :
    effects (front ++ sep ++ rest) = effects front ++ effects rest := by
  have feed : effects ('\n' :: rest) = effects rest := effects_cut rfl [] rest
  simp only [separators, List.mem_cons, List.not_mem_nil, or_false] at h
  rw [List.append_assoc]
  rcases h with rfl | rfl | rfl
  · exact effects_cut rfl front rest
  · exact (effects_cut rfl front ('\n' :: rest)).trans (congrArg _ feed)
  · exact effects_cut rfl front rest

theorem effects_idle {line : List Char} (unbroken : Unbroken line) (idle : Idle (trim line)) :
    effects line = [] := by
  rw [effects_line unbroken, lineEffect?, effect?_eq_none_iff.2 idle]
  rfl

/-- A blank at the start of a line has no effect. -/
theorem effects_blank_cons {b : Char} (hb : isBlank b = true) (s : List Char) :
    effects (b :: s) = effects s := by
  have trimmed (l : List Char) : lineEffect? (b :: l) = lineEffect? l := by
    rw [lineEffect?, trim, trimStart, List.dropWhile_cons_of_pos hb]
    rfl
  rw [effects_eq, effects_eq, List.splitOnP_cons_eq_if_modifyHead]
  split
  · rfl
  · cases s.splitOnP isBoundary with
    | nil => rfl
    | cons l ps => rw [List.modifyHead_cons, List.filterMap_cons, List.filterMap_cons, trimmed]

theorem effects_blanks_append {before : List Char} (hbefore : ∀ c ∈ before, isBlank c = true)
    (s : List Char) : effects (before ++ s) = effects s := by
  induction before with
  | nil => rfl
  | cons b before ih =>
    rw [List.cons_append, effects_blank_cons (hbefore b List.mem_cons_self)]
    exact ih fun c hc => hbefore c (List.mem_cons_of_mem b hc)

theorem trim_append_blank {b : Char} (hb : isBlank b = true) (l : List Char) :
    trim (l ++ [b]) = trim l := by
  have ends (s : List Char) : trimEnd (s ++ [b]) = trimEnd s := by
    rw [trimEnd, List.reverse_append, List.reverse_singleton, List.singleton_append,
      List.dropWhile_cons_of_pos hb, trimEnd]
  rw [trim, trim, trimStart, trimStart, List.dropWhile_append]
  split
  · next h =>
    rw [List.isEmpty_iff.1 h, List.dropWhile_cons_of_pos hb]
    rfl
  · exact ends _

/-- Blanks at the end of a line have no effect. -/
theorem effects_append_blanks {after : List Char} (hafter : ∀ c ∈ after, isBlank c = true)
    {line : List Char} (unbroken : Unbroken line) : effects (line ++ after) = effects line := by
  induction after generalizing line with
  | nil => rw [List.append_nil]
  | cons b after ih =>
    have hb : isBlank b = true := hafter b List.mem_cons_self
    have later : ∀ c ∈ after, isBlank c = true := fun c hc => hafter c (List.mem_cons_of_mem b hc)
    cases hc : isBoundary b with
    | true =>
      have rest := effects_blanks_append later []
      rw [List.append_nil] at rest
      rw [effects_cut hc, rest]
      exact List.append_nil _
    | false =>
      have unbroken' : Unbroken (line ++ [b]) := by
        rw [Unbroken, List.forall_mem_append, List.forall_mem_singleton]
        exact ⟨unbroken, hc⟩
      rw [← List.singleton_append, ← List.append_assoc, ih later unbroken', effects_line unbroken',
        effects_line unbroken, lineEffect?, trim_append_blank hb, lineEffect?]

theorem effects_of_edit {s t : List Char} (h : Edit s t) : effects s = effects t := by
  cases h with
  | letters h => rw [← effects_small s, h, effects_small]
  | @blanks front before line after rest opens closes unbroken hbefore hafter =>
    rw [effects_append (.inr closes), effects_append (.inr closes), effects_append (.inl opens),
      effects_append (.inl opens), List.append_assoc before, effects_blanks_append hbefore,
      effects_append_blanks hafter unbroken]
  | separator h h' => rw [effects_separator h, effects_separator h']
  | @above front line sep rest opens unbroken idle h =>
    rw [effects_append (.inl opens), List.append_assoc front, effects_append (.inl opens),
      effects_separator h, effects_idle unbroken idle, List.nil_append]
  | @below front line sep rest closes unbroken idle h =>
    rw [effects_append (.inr closes), effects_append (.inr closes), ← List.append_assoc front,
      effects_separator h, effects_idle unbroken idle, List.append_nil]

/-- Texts that edits lead to from one another are accepted with the same notes or rejected alike. -/
theorem same_outcome {text text' : String}
    (h : Relation.EqvGen Edit text.toList text'.toList) :
    (compile text).notes.toOption = (compile text').notes.toOption := by
  rw [toOption_compile, toOption_compile]
  congr 1
  generalize text.toList = s at h
  generalize text'.toList = t at h
  induction h with
  | rel s t h => exact effects_of_edit h
  | refl s => rfl
  | symm s t _ ih => exact ih.symm
  | trans s t u _ _ ih ih' => exact ih.trans ih'

/-- A script in capitals, with another separator, an octave that no key has, and blanks. -/
theorem same_outcome_edited :
    Relation.EqvGen Edit "octave 5\nC".toList "OCTAVE 5\r\nOctave 9\n  c\t".toList ∧
      (compile "octave 5\nC").notes.toOption =
        (compile "OCTAVE 5\r\nOctave 9\n  c\t").notes.toOption := by
  have letters : Edit "octave 5\nC".toList "OCTAVE 5\nc".toList := .letters (by decide +kernel)
  have separator : Edit "OCTAVE 5\nc".toList "OCTAVE 5\r\nc".toList :=
    @Edit.separator "OCTAVE 5".toList ['\n'] ['\r', '\n'] ['c'] (by decide) (by decide)
  have idle : Idle "Octave 9".toList :=
    @Idle.octave "Octave".toList ['9'] ((spells_iff (by simp)).2 (by rfl))
      (@NoOctave.outside ['9'] 9 (by rfl) (by decide))
  have above : Edit "OCTAVE 5\r\nc".toList "OCTAVE 5\r\nOctave 9\nc".toList :=
    @Edit.above "OCTAVE 5\r\n".toList "Octave 9".toList ['\n'] ['c'] (by simp [Opens]; rfl)
      (by simp [Unbroken]; decide) idle (by decide)
  have blanks : Edit "OCTAVE 5\r\nOctave 9\nc".toList "OCTAVE 5\r\nOctave 9\n  c\t".toList :=
    @Edit.blanks "OCTAVE 5\r\nOctave 9\n".toList [' ', ' '] ['c'] ['\t'] [] (by simp [Opens]; rfl)
      (by simp [Closes]) (by simp [Unbroken]; rfl) (by simp; rfl) (by simp; rfl)
  have edited : Relation.EqvGen Edit "octave 5\nC".toList "OCTAVE 5\r\nOctave 9\n  c\t".toList :=
    (((Relation.EqvGen.rel _ _ letters).trans _ _ _ (.rel _ _ separator)).trans _ _ _
      (.rel _ _ above)).trans _ _ _ (.rel _ _ blanks)
  exact ⟨edited, same_outcome edited⟩

end PianoRoll.Script
