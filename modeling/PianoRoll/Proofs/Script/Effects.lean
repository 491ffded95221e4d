import PianoRoll.Proofs.Script.Letters

/-!
What the lines of a script come to. A line has one effect on the pen or none, and all that the
outcome of a script depends on is the effects of its lines, one after the other
(`toOption_compile`). They are the same in small letters, they do not depend on how the lines are
told apart, and those of a text that is cut at the end of a line are the effects of its parts
(`effects_append`).
-/

namespace PianoRoll

open Text Number

/-! ## Lines -/

namespace Text

/-- A text behind which a new line begins. -/
def Opens (front : List Char) : Prop := ∀ c ∈ front.getLast?, isBoundary c = true

/-- A text in front of which a line is at its end. -/
def Closes (rest : List Char) : Prop := ∀ c ∈ rest.head?, isBoundary c = true

def Unbroken (s : List Char) : Prop := ∀ c ∈ s, isBoundary c = false

/-- Lines and pieces of one text: they begin alike, and but for empty ones they go on alike. -/
inductive Aligned : List (List Char) → List (List Char) → Prop
  | none : Aligned [] [[]]
  | cons (l : List Char) {ls ps : List (List Char)}
    (later : ls.filter (· ≠ []) = ps.filter (· ≠ [])) : Aligned (l :: ls) (l :: ps)

theorem Aligned.filter_eq {ls ps : List (List Char)} (h : Aligned ls ps) :
    ls.filter (· ≠ []) = ps.filter (· ≠ []) := by
  cases h with
  | none => rfl
  | cons l later => rw [List.filter_cons, List.filter_cons, later]

/-- A character within a line stands in front of the first line and of the first piece. -/
theorem Aligned.consFirst {ls ps : List (List Char)} (h : Aligned ls ps) (c : Char) :
    Aligned (consFirst c ls) (ps.modifyHead (c :: ·)) := by
  cases h with
  | none => exact .cons [c] rfl
  | cons l later => exact .cons (c :: l) later

theorem lines_aligned (s : List Char) : Aligned (lines s) (s.splitOnP isBoundary) := by
  induction s using lines.induct with
  | case1 => exact .none
  | case2 s ih =>
    have split : List.splitOnP isBoundary ('\r' :: '\n' :: s) =
        [] :: [] :: List.splitOnP isBoundary s := by
      rw [List.splitOnP_cons_eq_if_modifyHead, List.splitOnP_cons_eq_if_modifyHead]
      rfl
    rw [split]
    exact .cons [] ih.filter_eq
  | case3 c s hne hc ih =>
    rw [lines, if_pos hc, List.splitOnP_cons_eq_if_modifyHead, if_pos hc]
    · exact .cons [] ih.filter_eq
    · exact hne
  | case4 c s hne hc ih =>
    rw [lines, if_neg hc, List.splitOnP_cons_eq_if_modifyHead, if_neg hc]
    · exact ih.consFirst c
    · exact hne

/-- What is found on lines and not on empty ones is found on the pieces between boundaries. -/
theorem filterMap_lines {α : Type} {f : List Char → Option α} (hf : f [] = none) (s : List Char) :
    (lines s).filterMap f = (s.splitOnP isBoundary).filterMap f := by
  have filled (ls : List (List Char)) : ls.filterMap f = (ls.filter (· ≠ [])).filterMap f := by
    rw [List.filterMap_filter]
    congr 1
    funext l
    cases l <;> simp [hf]
  rw [filled, (lines_aligned s).filter_eq, ← filled]

theorem splitOnP_small (s : List Char) :
    (s.map Char.toLower).splitOnP isBoundary =
      (s.splitOnP isBoundary).map (·.map Char.toLower) := by
  induction s with
  | nil => rfl
  | cons c s ih =>
    rw [List.map_cons, List.splitOnP_cons_eq_if_modifyHead, List.splitOnP_cons_eq_if_modifyHead,
      isBoundary_toLower, ih]
    split
    · rfl
    · cases s.splitOnP isBoundary <;> rfl

end Text

/-! ## Effects -/

namespace Script

/-- What a line does with the pen, or that it is not understood. -/
inductive Effect
  | octave (n : Int)
  | step (x : Float)
  | rest
  | pitch (p : PitchClass)
  | unknown

def Directive.effect? : Directive → Option Effect
  | .blank | .idle => none
  | .octave arg => (octaveOf? arg).map .octave
  | .step arg => (stepOf? arg).map .step
  | .rest => some .rest
  | .pitch p => some (.pitch p)
  | .unknown => some .unknown

def lineEffect? (raw : List Char) : Option Effect := (Directive.ofLine (trim raw)).effect?

def effects (s : List Char) : List Effect := (lines s).filterMap lineEffect?

/-- The notes that effects come to; one that is not understood leaves none. -/
def perform (pen : Pen) : List Effect → Option (List Note)
  | [] => some []
  | .octave n :: es => perform { pen with octave := n } es
  | .step x :: es => perform { pen with step := x } es
  | .rest :: es => perform (pen.after .rest) es
  | .pitch p :: es => (perform (pen.after (.pitch p)) es).map (pen.notes (.pitch p) ++ ·)
  | .unknown :: _ => none

/-- What comes of lines behind one that is understood. -/
theorem toOption_after (r : Reading) (said : List Remark) (played : List Note) :
    (r.after said played).notes.toOption = r.notes.toOption.map (played ++ ·) := by
  rw [Reading.after]
  cases r.notes <;> rfl

theorem toOption_read (pen : Pen) (number : Nat) (ls : List (List Char)) :
    (read pen number ls).notes.toOption = perform pen (ls.filterMap lineEffect?) := by
  induction ls generalizing pen number with
  | nil => rfl
  | cons raw ls ih =>
    have silent (es : List Effect) (pen : Pen) : (perform pen es).map ([] ++ ·) = perform pen es :=
      Option.map_id'
    rw [read, List.filterMap_cons, lineEffect?]
    cases Directive.ofLine (trim raw) with
    | unknown => rfl
    | octave arg =>
      rw [toOption_after, ih, Pen.after, Directive.effect?]
      cases octaveOf? arg <;> exact silent _ _
    | step arg =>
      rw [toOption_after, ih, Pen.after, Directive.effect?]
      cases stepOf? arg <;> exact silent _ _
    | pitch p => rw [toOption_after, ih]; rfl
    | blank => rw [toOption_after, ih]; exact silent _ _
    | idle => rw [toOption_after, ih]; exact silent _ _
    | rest => rw [toOption_after, ih]; exact silent _ _

/-- A script is accepted with its notes, or rejected, for the effects of its lines. -/
theorem toOption_compile (text : String) :
    (compile text).notes.toOption = perform {} (effects text.toList) := toOption_read {} 1 _

/-! ## Small letters -/

theorem effect?_withArgument {f : List Char → Directive}
    (hm : ∀ arg, (f (arg.map Char.toLower)).effect? = (f arg).effect?) (s : List Char) :
    (Directive.withArgument f (s.map Char.toLower)).effect? =
      (Directive.withArgument f s).effect? := by
  have glued (c : Char) (hc : c ≠ ' ') (r : List Char) :
      Directive.withArgument f (c :: r) = .idle := by
    unfold Directive.withArgument
    split <;> simp_all
  cases s with
  | nil => rfl
  | cons c s =>
    by_cases blank : c = ' '
    · subst blank
      cases s with
      | nil => rfl
      | cons d arg => exact hm (d :: arg)
    · rw [List.map_cons, glued c blank, glued]
      rwa [Ne, toLower_eq_sign_iff (by decide) (by decide)]

theorem effect?_ofLine_small (line : List Char) :
    (Directive.ofLine (line.map Char.toLower)).effect? = (Directive.ofLine line).effect? := by
  have octave := effect?_withArgument (f := .octave) fun arg => by
    simp only [Directive.effect?, octaveOf?_small]
  have step := effect?_withArgument (f := .step) fun arg => by
    simp only [Directive.effect?, stepOf?_small]
  have letters : (line.map Char.toLower).map Char.toLower = line.map Char.toLower := by simp
  unfold Directive.ofLine
  simp only [List.map_eq_nil_iff, afterKeyword?_small, letters, ofName?_small]
  split
  · rfl
  · cases afterKeyword? ['o', 'c', 't', 'a', 'v', 'e'] line with
    | some s => exact octave s
    | none =>
      cases afterKeyword? ['s', 't', 'e', 'p'] line with
      | some s => exact step s
      | none => rfl

theorem effects_small (s : List Char) : effects (s.map Char.toLower) = effects s := by
  rw [effects, effects, filterMap_lines rfl, filterMap_lines rfl, splitOnP_small,
    List.filterMap_map]
  congr 1
  funext raw
  rw [Function.comp_apply, lineEffect?, trim_small, effect?_ofLine_small, lineEffect?]

/-! ## Parts of a text -/

theorem effects_eq (s : List Char) : effects s = (s.splitOnP isBoundary).filterMap lineEffect? :=
  filterMap_lines rfl s

/-- An end of a line has no effect, on either side of it. -/
theorem effects_cut {c : Char} (hc : isBoundary c = true) (front rest : List Char) :
    effects (front ++ c :: rest) = effects front ++ effects rest := by
  rw [effects_eq, List.splitOnP_append_cons _ _ hc, List.filterMap_append, ← effects_eq,
    ← effects_eq]

theorem effects_append {front rest : List Char} (h : Opens front ∨ Closes rest) :
    effects (front ++ rest) = effects front ++ effects rest := by
  rcases h with h | h
  · rcases List.eq_nil_or_concat' front with rfl | ⟨front, c, rfl⟩
    · rfl
    · have hc : isBoundary c = true := h c (by simp)
      have last : effects (front ++ [c]) = effects front := by
        rw [effects_cut hc]
        exact List.append_nil _
      rw [last, List.append_assoc, List.singleton_append, effects_cut hc]
  · cases rest with
    | nil =>
      rw [List.append_nil]
      exact (List.append_nil _).symm
    | cons c rest =>
      have hc : isBoundary c = true := h c rfl
      rw [effects_cut hc]
      exact congrArg _ (effects_cut hc [] rest).symm

/-- A text within one line has the effect of that line. -/
theorem effects_line {l : List Char} (h : Unbroken l) : effects l = (lineEffect? l).toList := by
  rw [effects_eq, List.splitOnP_eq_singleton h, List.filterMap_cons]
  cases lineEffect? l <;> rfl

end Script

end PianoRoll
