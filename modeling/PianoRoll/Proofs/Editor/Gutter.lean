import PianoRoll.Proofs.Editor.Typing
import PianoRoll.Proofs.Script.Effects

/-!
The line that an error names and the row that the gutter numbers. An editor breaks its text at line
feeds alone, a script ends its lines at other characters as well, so one row may hold several lines.
The lines of a text are those of its rows, one row after the other (`lines_unrows`), and an error
counts the lines of all rows above. It names the row by its number in the gutter if no row holds
such a character, and else just if no row above holds several lines and its own line is the first
(`error_located`).
-/

namespace PianoRoll

namespace Text

/-- The lines that a script finds in a row. -/
def rowLines (row : List Char) : List (List Char) := lines (row ++ ['\n'])

/-- A character ends a line or stands in front of the first one, unless a line feed behind it makes
a pair with it. -/
theorem lines_cons {c : Char} {s : List Char} (h : c = '\r' → s.head? ≠ some '\n') :
    lines (c :: s) = if isBoundary c then [] :: lines s else consFirst c (lines s) := by
  rw [lines]
  rintro s' rfl rfl
  exact h rfl rfl

/-- A row ends with a carriage return, or its first character is read in the same way whatever
stands behind the row. -/
theorem row_induction {P : List Char → Prop} (nil : P []) (carriage : P ['\r'])
    (pair : ∀ s, P s → P ('\r' :: '\n' :: s))
    (cons : ∀ c s, (∀ more, lines (c :: (s ++ more)) =
      if isBoundary c then [] :: lines (s ++ more) else consFirst c (lines (s ++ more))) →
        P s → P (c :: s)) (row : List Char) : P row := by
  induction row using lines.induct with
  | case1 => exact nil
  | case2 s ih => exact pair s ih
  | case3 c s hne hc ih =>
    -- a carriage return may pair up with what stands behind the row only if the row ends with it
    cases s with
    | nil =>
      by_cases hr : c = '\r'
      · exact hr ▸ carriage
      · exact cons c [] (fun more => lines_cons fun h => absurd h hr) ih
    | cons d s =>
      refine cons c (d :: s) (fun more => lines_cons fun hr hd => ?_) ih
      exact hne s hr (congrArg (· :: s) (Option.some.inj hd))
  | case4 c s hne hc ih =>
    have hr : c ≠ '\r' := fun h => hc (h ▸ rfl)
    exact cons c s (fun more => lines_cons fun h => absurd h hr) ih

theorem rowLines_ne_nil (row : List Char) : rowLines row ≠ [] := by
  unfold rowLines
  induction row using row_induction with
  | nil => nofun
  | carriage => nofun
  | pair s ih => nofun
  | cons c s apart ih =>
    rw [List.cons_append, apart]
    split
    · nofun
    · cases lines (s ++ ['\n']) <;> nofun

theorem consFirst_append {ls : List (List Char)} (h : ls ≠ []) (c : Char) (ms : List (List Char)) :
    consFirst c (ls ++ ms) = consFirst c ls ++ ms := by
  cases ls with
  | nil => exact absurd rfl h
  | cons l ls => rfl

/-- A line feed ends the lines before it, whatever stands behind it. -/
theorem lines_append_feed (row rest : List Char) :
    lines (row ++ '\n' :: rest) = rowLines row ++ lines rest := by
  induction row using row_induction with
  | nil => rfl
  | carriage => rfl
  | pair s ih => exact congrArg ([] :: ·) ih
  | cons c s apart ih =>
    rw [rowLines, List.cons_append, List.cons_append, apart, apart, ih]
    split
    · rfl
    · exact consFirst_append (rowLines_ne_nil s) c _

/-- Without the line feed the last line is missing if it is empty. -/
theorem rowLines_eq (row : List Char) :
    rowLines row = lines row ∨ rowLines row = lines row ++ [[]] := by
  unfold rowLines
  induction row using row_induction with
  | nil => exact .inr rfl
  | carriage => exact .inl rfl
  | pair s ih => exact ih.imp (congrArg ([] :: ·)) (congrArg ([] :: ·))
  | cons c s apart ih =>
    have bare := apart []
    rw [List.append_nil] at bare
    rw [List.cons_append, apart, bare]
    split
    · exact ih.imp (congrArg ([] :: ·)) (congrArg ([] :: ·))
    · rcases ih with same | more
      · exact .inl (congrArg (consFirst c) same)
      · rw [more]
        rcases eq_or_ne (lines s) [] with none | some
        · exact .inl (by rw [none]; rfl)
        · exact .inr (consFirst_append some c _)

theorem lines_prefix (row : List Char) : lines row <+: rowLines row := by
  rcases rowLines_eq row with same | more
  · exact same ▸ List.prefix_rfl
  · exact more ▸ List.prefix_append _ _

/-- The lines of rows are those of each row, but for an empty one at the end. -/
theorem lines_unrows (rows : List (List Char)) : lines (unrows rows) <+: rows.flatMap rowLines := by
  induction rows with
  | nil => exact List.prefix_rfl
  | cons row below ih =>
    cases below with
    | nil =>
      rw [List.flatMap_singleton]
      exact lines_prefix row
    | cons next below =>
      rw [unrows, lines_append_feed, List.flatMap_cons]
      exact (List.prefix_append_right_inj _).2 ih

/-- A row without boundaries is one line. -/
theorem rowLines_of_unbroken {row : List Char} (h : Unbroken row) : rowLines row = [row] := by
  induction row with
  | nil => rfl
  | cons c s ih =>
    have hc := h c List.mem_cons_self
    have hr : c ≠ '\r' := fun e => by rw [e] at hc; cases hc
    rw [rowLines, List.cons_append, lines_cons fun e => absurd e hr, if_neg (by simp [hc])]
    exact congrArg (consFirst c) (ih fun d hd => h d (List.mem_cons_of_mem c hd))

/-- A line in a row: the rows above, the row, the lines of the row before it, and the line. -/
structure Located (rows above : List (List Char)) (row : List Char) (before : List (List Char))
    (line : List Char) : Prop where
  inRows : above ++ [row] <+: rows
  inRow : before ++ [line] <+: rowLines row

/-- Each line stands in one of the rows, and is counted with the lines of all rows above. -/
theorem exists_located {rows : List (List Char)} {i : ℕ} {line : List Char}
    (h : (rows.flatMap rowLines)[i]? = some line) : ∃ above row before,
      Located rows above row before line ∧ (above.flatMap rowLines).length + before.length = i := by
  induction rows generalizing i with
  | nil => simp at h
  | cons row rows ih =>
    rw [List.flatMap_cons] at h
    rcases Nat.lt_or_ge i (rowLines row).length with here | below
    · rw [List.getElem?_append_left here, List.getElem?_eq_getElem here] at h
      refine ⟨[], row, (rowLines row).take i, ⟨List.prefix_append _ _, ?_⟩, by simp [here.le]⟩
      rw [← Option.some.inj h, List.take_concat_get' _ _ here]
      exact List.take_prefix _ _
    · rw [List.getElem?_append_right below] at h
      obtain ⟨above, row', before, located, length⟩ := ih h
      refine ⟨row :: above, row', before, ⟨?_, located.inRow⟩, ?_⟩
      · exact List.cons_prefix_cons.2 ⟨rfl, located.inRows⟩
      · rw [List.flatMap_cons, List.length_append]
        omega

/-- There are no fewer lines than rows, and just as many if each row is one line. -/
theorem length_rowLines (rows : List (List Char)) : rows.length ≤ (rows.flatMap rowLines).length ∧
    ((rows.flatMap rowLines).length = rows.length ↔ ∀ row ∈ rows, (rowLines row).length = 1) := by
  induction rows with
  | nil => simp
  | cons row rows ih =>
    have first : 0 < (rowLines row).length := List.length_pos_iff.2 (rowLines_ne_nil row)
    obtain ⟨least, equal⟩ := ih
    rw [List.flatMap_cons, List.length_append, List.length_cons, List.forall_mem_cons, ← equal]
    omega

end Text

open Text

namespace Script

/-- A script is rejected for the first of its lines that it may not have. -/
theorem firstUnknown_of_error {text : String} {f : Fault} (h : errorOf? text = some f) :
    ∃ i raw, FirstUnknown (lines text.toList) i raw ∧
      f = .badToken (i + 1 : ℕ) (String.ofList (trim raw)) := by
  unfold errorOf? compile at h
  by_cases all : ∀ raw ∈ lines text.toList, Grammatical (trim raw)
  · obtain ⟨notes, accepted⟩ := read_ok all {} 1
    simp [accepted] at h
  · obtain ⟨i, raw, first⟩ := exists_firstUnknown all
    rw [read_error first, Nat.add_comm] at h
    exact ⟨i, raw, first, (Option.some.inj h).symm⟩

end Script

namespace Editor

/-- The fault that names a row, or a line, by a number. -/
def rowFault (number : ℕ) (row : List Char) : Fault := .badToken number (String.ofList (trim row))

theorem rowFault_inj {n m : ℕ} {row line : List Char} :
    rowFault n row = rowFault m line ↔ n = m ∧ trim row = trim line := by
  rw [rowFault, rowFault, Fault.badToken.injEq, Int.natCast_inj, String.ofList_inj]

/-- A text that is rejected is rejected for a line in one of the rows. -/
theorem rejected_located {e : Editor} {f : Fault}
    (h : Script.errorOf? (String.ofList e.text) = some f) : ∃ above row before line,
      Located e.rows above row before line ∧
        f = rowFault ((above.flatMap rowLines).length + before.length + 1) line := by
  obtain ⟨i, line, first, rfl⟩ := Script.firstUnknown_of_error h
  have here := first.here
  rw [String.toList_ofList, text] at here
  obtain ⟨rest, split⟩ := lines_unrows e.rows
  have found : (e.rows.flatMap rowLines)[i]? = some line := by
    rw [← split, List.getElem?_append_left (List.getElem?_eq_some_iff.1 here).1, here]
  obtain ⟨above, row, before, located, rfl⟩ := exists_located found
  exact ⟨above, row, before, line, located, rfl⟩

/-- The row is named by its number in the gutter just if each row above is one line, and the line
is the first one of the row and, but for blanks, all of it. -/
theorem rowFault_eq_iff {above before : List (List Char)} {row line : List Char} :
    rowFault ((above.flatMap rowLines).length + before.length + 1) line =
        rowFault (above.length + 1) row ↔
      (∀ r ∈ above, (rowLines r).length = 1) ∧ before = [] ∧ trim line = trim row := by
  obtain ⟨least, equal⟩ := length_rowLines above
  rw [rowFault_inj, ← equal, ← List.length_eq_zero_iff, ← and_assoc]
  exact and_congr_left fun _ => by omega

/-- Where no row holds a boundary, the error names its row. -/
theorem named_of_unbroken {e : Editor} {f : Fault}
    (h : Script.errorOf? (String.ofList e.text) = some f)
    (unbroken : ∀ row ∈ e.rows, Text.Unbroken row) :
    ∃ n row, e.rows[n]? = some row ∧ f = rowFault (n + 1) row := by
  obtain ⟨above, row, before, line, located, rfl⟩ := rejected_located h
  obtain ⟨below, rows⟩ := located.inRows
  have whole (r : List Char) (hr : r ∈ above ++ [row]) : rowLines r = [r] :=
    rowLines_of_unbroken (unbroken r (rows ▸ List.mem_append_left below hr))
  obtain ⟨after, single⟩ := located.inRow
  rw [whole row (by simp), List.append_assoc, List.singleton_append] at single
  refine ⟨above.length, row, by rw [← rows]; simp, rowFault_eq_iff.2 ⟨fun r hr => ?_, ?_⟩⟩
  · rw [whole r (List.mem_append_left _ hr)]
    rfl
  · cases before with
    | nil => exact ⟨rfl, congrArg trim (List.cons.inj single).1⟩
    | cons => simp at single

/-- The text of an editor is rejected for a line in one of its rows, with a number that counts the
lines of the rows above. The error names that row by its number in the gutter just if each row above
is one line and the line is the first one of its row and, but for blanks, all of it. So it does
where no row holds a character that ends a line of scripts. -/
theorem error_located {σ : Type} {e : Editor} {b b' : Bench σ} {notes : List Note} {f : Fault}
    (rejected : (Studio.checkScript (String.ofList e.text)).on b =
      some (.ok (notes, some f), b')) :
    (∃ above row before line, Located e.rows above row before line ∧
      f = rowFault ((above.flatMap rowLines).length + before.length + 1) line ∧
      (f = rowFault (above.length + 1) row ↔
        (∀ r ∈ above, (rowLines r).length = 1) ∧ before = [] ∧ trim line = trim row)) ∧
    ((∀ row ∈ e.rows, Text.Unbroken row) →
      ∃ n row, e.rows[n]? = some row ∧ f = rowFault (n + 1) row) := by
  obtain ⟨_, checked, -⟩ := Studio.checkScript_on (String.ofList e.text) b
  have error : Script.errorOf? (String.ofList e.text) = some f := by
    rw [checked] at rejected
    simp only [Option.some.injEq, Prod.mk.injEq, Except.ok.injEq] at rejected
    exact rejected.1.2
  refine ⟨?_, named_of_unbroken error⟩
  obtain ⟨above, row, before, line, located, rfl⟩ := rejected_located error
  exact ⟨above, row, before, line, located, rfl, rowFault_eq_iff⟩

/-- A text whose second line is no part of a script. -/
theorem error_located_second : ∃ n row,
    (create .fixedWidth ⟨0, 0, 0, 0⟩ "C\n X".toList).rows[n]? = some row ∧
      .badToken 2 "X" = rowFault (n + 1) row := by
  have rows : (create .fixedWidth ⟨0, 0, 0, 0⟩ "C\n X".toList).rows = [['C'], [' ', 'X']] := by
    rfl
  have rejected : (Studio.checkScript (String.ofList
      (create .fixedWidth ⟨0, 0, 0, 0⟩ "C\n X".toList).text)).on (⟨(), []⟩ : Bench Unit) =
        some (.ok ([], some (.badToken 2 "X")), ⟨(), []⟩) := by rfl
  refine (error_located rejected).2 ?_
  rw [rows]
  simp [Text.Unbroken]
  decide

/-- A text in one row, which is rejected for its second line. -/
theorem row_misnamed : ∃ e : Editor, e.Reached (fun _ => True) ∧
    e.rows = ["C\x0cX".toList] ∧
      (Studio.checkScript (String.ofList e.text)).on (⟨(), []⟩ : Bench Unit) =
        some (.ok ([], some (.badToken 2 "X")), ⟨(), []⟩) :=
  ⟨create .fixedWidth ⟨0, 0, 0, 0⟩ "C\x0cX".toList, .created _ _ _, by decide, by rfl⟩

end Editor

end PianoRoll
