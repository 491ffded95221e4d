import PianoRoll.Editor

/-!
The editor as a flat text with a caret in it. `Editor.At` takes the rows apart at the caret: into
those above, the characters of the caret's row before and behind it, and the rows below. In this
form each operation is one that is plain on a flat text (`Call.refines`), for a line feed between
two rows is a character like any other.
-/

namespace PianoRoll

/-- A text with a caret before one of its characters or behind the last one. -/
structure Flat where
  text : List Char
  caret : Nat

namespace Flat

def insert (s : List Char) (f : Flat) : Flat :=
  ⟨f.text.take f.caret ++ s ++ f.text.drop f.caret, f.caret + s.length⟩

def removeBefore? (f : Flat) : Option Flat :=
  if 0 < f.caret then
    some ⟨f.text.take (f.caret - 1) ++ f.text.drop f.caret, f.caret - 1⟩
  else none

def removeAfter? (f : Flat) : Option Flat :=
  if f.caret < f.text.length then
    some ⟨f.text.take f.caret ++ f.text.drop (f.caret + 1), f.caret⟩
  else none

/-- What an input makes of a text; nothing new if it does not type, break a row or delete. -/
def edit? (f : Flat) : Input → Option Flat
  | .text s => some (f.insert s.toList)
  | .key .returnKey | .key .keypadEnter => some (f.insert ['\n'])
  | .key .backspace => f.removeBefore?
  | .key .delete => f.removeAfter?
  | _ => none

def between (before behind : List Char) : Flat := ⟨before ++ behind, before.length⟩

variable (before behind : List Char)

theorem insert_between (s : List Char) :
    (between before behind).insert s = between (before ++ s) behind := by
  simp [insert, between]

theorem removeBefore?_between (c : Char) :
    (between (before ++ [c]) behind).removeBefore? = some (between before behind) := by
  simp [removeBefore?, between]

theorem removeAfter?_between (c : Char) :
    (between before (c :: behind)).removeAfter? = some (between before behind) := by
  simp [removeAfter?, between]

theorem removeAfter?_between_nil : (between before []).removeAfter? = none := by
  simp [removeAfter?, between]

end Flat

namespace Text

/-- Rows with a line feed behind each. -/
def front (above : List (List Char)) : List Char := above.flatMap (· ++ ['\n'])

/-- Rows with a line feed before each. -/
def back (below : List (List Char)) : List Char := below.flatMap ('\n' :: ·)

theorem unrows_cons (l : List Char) (below : List (List Char)) :
    unrows (l :: below) = l ++ back below := by
  induction below generalizing l with
  | nil => simp [unrows, back]
  | cons l' below ih => simp [unrows, ih, back]

/-- A row in a text stands behind the rows above it and before the rows below it. -/
theorem unrows_append (above : List (List Char)) (l : List Char) (below : List (List Char)) :
    unrows (above ++ l :: below) = front above ++ l ++ back below := by
  induction above with
  | nil => exact unrows_cons l below
  | cons a above ih =>
    have more :
        unrows (a :: (above ++ l :: below)) = a ++ '\n' :: unrows (above ++ l :: below) := by
      cases above <;> rfl
    rw [List.cons_append, more, ih]
    simp [front]

theorem front_concat (above : List (List Char)) (l : List Char) :
    front (above ++ [l]) = front above ++ l ++ ['\n'] := by
  simp [front]

theorem not_mem_of_mem_rows {s l : List Char} (h : l ∈ rows s) : '\n' ∉ l := by
  induction s generalizing l with
  | nil => simp_all [rows]
  | cons c s ih =>
    simp only [rows] at h
    split at h
    · rcases List.mem_cons.1 h with rfl | h
      · exact List.not_mem_nil
      · exact ih h
    · next hc =>
      cases hr : rows s with
      | nil => exact absurd hr (rows_ne_nil s)
      | cons r rs =>
        rw [hr] at h ih
        rcases List.mem_cons.1 h with rfl | h
        · have := ih List.mem_cons_self
          simp_all [eq_comm]
        · exact ih (List.mem_cons_of_mem _ h)

end Text

namespace Editor

open Text

/-- How many characters of the text stand before the caret: the rows above it with their line
feeds, and the columns before it. -/
def offset (e : Editor) : Nat := (front (e.rows.take e.row)).length + e.col

def flat (e : Editor) : Flat := ⟨e.text, e.offset⟩

/-- The caret stands in a row of the text, before one of its characters or behind the last. -/
structure Stands (e : Editor) : Prop where
  row : e.row < e.rows.length
  col : e.col ≤ e.current.length

theorem Stands.focus {e : Editor} (h : e.Stands) (focused : Bool) : Stands { e with focused } :=
  ⟨h.row, h.col⟩

def Unbroken (e : Editor) : Prop := ∀ l ∈ e.rows, '\n' ∉ l

/-- The rows above the caret, the characters of its row before and behind it, and the rows
below. -/
structure At (e : Editor) (above : List (List Char)) (left right : List Char)
    (below : List (List Char)) : Prop where
  rows : e.rows = above ++ (left ++ right) :: below
  row : e.row = above.length
  col : e.col = left.length

theorem Stands.split {e : Editor} (h : e.Stands) :
    ∃ above left right below, At e above left right below := by
  have hrow := h.row
  have current : e.current = e.rows[e.row] := by simp [current, List.getElem?_eq_getElem hrow]
  refine ⟨e.rows.take e.row, e.current.take e.col, e.current.drop e.col, e.rows.drop (e.row + 1),
    ?_, ?_, ?_⟩
  · rw [List.take_append_drop, current, ← List.drop_eq_getElem_cons hrow, List.take_append_drop]
  · simp; omega
  · simp [h.col]

namespace At

variable {e : Editor} {above below : List (List Char)} {left right : List Char}
variable (h : At e above left right below)
include h

theorem current : e.current = left ++ right := by simp [Editor.current, h.rows, h.row]

theorem stands : e.Stands where
  row := by simp [h.rows, h.row]
  col := by simp [h.current, h.col]

theorem take_row : e.rows.take e.row = above := by simp [h.rows, h.row]

theorem drop_row : e.rows.drop (e.row + 1) = below := by simp [h.rows, h.row]

theorem text : e.text = front above ++ left ++ (right ++ back below) := by
  rw [Editor.text, h.rows, unrows_append]
  simp

/-- The caret of the flat text is between what is before and what is behind the editor's. -/
theorem flat : e.flat = .between (front above ++ left) (right ++ back below) := by
  rw [Editor.flat, h.text, offset, h.take_row, h.col, Flat.between, List.length_append]

theorem unbroken : e.Unbroken ↔ (∀ l ∈ above, '\n' ∉ l) ∧ ('\n' ∉ left ∧ '\n' ∉ right) ∧
    ∀ l ∈ below, '\n' ∉ l := by
  simp [Unbroken, h.rows, or_imp, forall_and]

/-! ## Operations -/

theorem insert (s : List Char) : At (e.insert s) above (left ++ s) right below where
  rows := by simp [Editor.insert, h.current, h.rows, h.row, h.col]
  row := h.row
  col := by simp [Editor.insert, h.col]

theorem breakRow : At e.breakRow (above ++ [left]) [] right below where
  rows := by simp [Editor.breakRow, h.current, h.take_row, h.drop_row, h.col]
  row := by simp [Editor.breakRow, h.row]
  col := rfl

end At

section Deleting

variable {e : Editor} {above below : List (List Char)} {left right row : List Char}

/-- A character before the caret is taken out of the caret's row. -/
theorem At.deleteBefore? {c : Char} (h : At e above (left ++ [c]) right below) :
    ∃ e', e.deleteBefore? = some e' ∧ At e' above left right below := by
  have hc : 0 < e.col := by simp [h.col]
  refine ⟨_, if_pos hc, ?_, h.row, ?_⟩
  · simp [h.current, h.rows, h.row, h.col]
  · simp [h.col]

/-- At the beginning of a row the line feed is taken out that parts it from the row above. -/
theorem At.deleteBefore?_join (h : At e (above ++ [row]) [] right below) :
    ∃ e', e.deleteBefore? = some e' ∧ At e' above row right below := by
  have hc : ¬0 < e.col := by simp [h.col]
  have hr : 0 < e.row := by simp [h.row]
  refine ⟨_, (if_neg hc).trans (if_pos hr), ?_, ?_, ?_⟩
  · simp [h.current, h.drop_row]
    simp [h.rows, h.row]
  · simp [h.row]
  · simp [h.rows, h.row]

theorem At.deleteBefore?_none (h : At e [] [] right below) : e.deleteBefore? = none := by
  simp [Editor.deleteBefore?, h.row, h.col]

/-- A character behind the caret is taken out of the caret's row. -/
theorem At.deleteAfter? {c : Char} (h : At e above left (c :: right) below) :
    ∃ e', e.deleteAfter? = some e' ∧ At e' above left right below := by
  have hc : e.col < e.current.length := by simp [h.col, h.current]
  refine ⟨_, if_pos hc, ?_, h.row, h.col⟩
  simp [h.current, h.rows, h.row, h.col]

/-- At the end of a row the line feed is taken out that parts it from the row below. -/
theorem At.deleteAfter?_join (h : At e above left [] (row :: below)) :
    ∃ e', e.deleteAfter? = some e' ∧ At e' above left row below := by
  have hc : ¬e.col < e.current.length := by simp [h.col, h.current]
  have hr : e.row + 1 < e.rows.length := by simp [h.rows, h.row]
  refine ⟨_, (if_neg hc).trans (if_pos hr), ?_, h.row, h.col⟩
  simp [h.current, h.take_row]
  simp [h.rows, h.row]

theorem At.deleteAfter?_none (h : At e above left [] []) : e.deleteAfter? = none := by
  simp [Editor.deleteAfter?, h.current, h.rows, h.row, h.col]

end Deleting

/-! ## Inputs -/

/-- The text that an input types. -/
def typed : Input → List Char
  | .text s => s.toList
  | _ => []

/-- An editor and its flat text that change alike as some text is typed. -/
structure Mirrors (e : Editor) (typed : List Char) (e' : Editor) (f : Flat) : Prop where
  stands : e'.Stands
  flat : e'.flat = f
  unbroken : '\n' ∉ typed → e.Unbroken → e'.Unbroken

/-- What becomes of an editor is what becomes of its flat text, or nothing that the text shows. -/
inductive Agrees (e : Editor) (typed : List Char) : Editor → Bool → Option Flat → Prop
  | edited {e' : Editor} {f : Flat} (h : Mirrors e typed e' f) : Agrees e typed e' true (some f)
  | moved {e' : Editor} (stands : e'.Stands) (rows : e'.rows = e.rows) :
    Agrees e typed e' false none

namespace Agrees

variable {e e' : Editor} {typed : List Char} {edited : Bool} {after : Option Flat}
variable (h : Agrees e typed e' edited after)
include h

theorem stands : e'.Stands := by
  cases h with
  | edited h => exact h.stands
  | moved stands => exact stands

theorem unbroken (ht : '\n' ∉ typed) (he : e.Unbroken) : e'.Unbroken := by
  cases h with
  | edited h => exact h.unbroken ht he
  | moved _ rows => exact fun l hl => he l (rows ▸ hl)

theorem edited_eq : edited = after.isSome := by cases h <;> rfl

theorem flat {f : Flat} (hf : after = some f) : e'.flat = f := by
  cases h with
  | edited h => exact h.flat.trans (Option.some.inj hf)
  | moved => cases hf

theorem rows (hf : after = none) : e'.rows = e.rows := by
  cases h with
  | edited => cases hf
  | moved _ rows => exact rows

end Agrees

theorem moveTo_stands {e : Editor} {row : Nat} (hr : row < e.rows.length) :
    (e.moveTo row).Stands := ⟨hr, Nat.min_le_right _ _⟩

section Agreeing

variable {e : Editor} (h : e.Stands) {s : List Char}
include h

theorem deleteBefore?_mirrors : Option.Rel (Mirrors e s) e.deleteBefore? e.flat.removeBefore? := by
  obtain ⟨above, left, right, below, h⟩ := h.split
  rcases List.eq_nil_or_concat left with rfl | ⟨left, c, rfl⟩
  · rcases List.eq_nil_or_concat above with rfl | ⟨above, row, rfl⟩
    · rw [h.deleteBefore?_none, h.flat]
      exact .none
    · rw [List.concat_eq_append] at h
      obtain ⟨e', he, h'⟩ := h.deleteBefore?_join
      rw [he, h.flat, List.append_nil, front_concat, Flat.removeBefore?_between]
      refine .some ⟨h'.stands, h'.flat, fun _ => ?_⟩
      rw [h.unbroken, h'.unbroken]
      simp +contextual
  · rw [List.concat_eq_append] at h
    obtain ⟨e', he, h'⟩ := h.deleteBefore?
    rw [he, h.flat, ← List.append_assoc, Flat.removeBefore?_between]
    refine .some ⟨h'.stands, h'.flat, fun _ => ?_⟩
    rw [h.unbroken, h'.unbroken]
    simp +contextual

theorem deleteAfter?_mirrors : Option.Rel (Mirrors e s) e.deleteAfter? e.flat.removeAfter? := by
  obtain ⟨above, left, right, below, h⟩ := h.split
  cases right with
  | cons c right =>
    obtain ⟨e', he, h'⟩ := h.deleteAfter?
    rw [he, h.flat, List.cons_append, Flat.removeAfter?_between]
    refine .some ⟨h'.stands, h'.flat, fun _ => ?_⟩
    rw [h.unbroken, h'.unbroken]
    simp +contextual
  | nil =>
    cases below with
    | nil =>
      rw [h.deleteAfter?_none, h.flat]
      simp [back, Flat.removeAfter?_between_nil]
    | cons row below =>
      obtain ⟨e', he, h'⟩ := h.deleteAfter?_join
      have feed : back (row :: below) = '\n' :: (row ++ back below) := by simp [back]
      rw [he, h.flat, feed, List.nil_append, Flat.removeAfter?_between]
      refine .some ⟨h'.stands, h'.flat, fun _ => ?_⟩
      rw [h.unbroken, h'.unbroken]
      simp +contextual

theorem breakRow_mirrors : Mirrors e s e.breakRow (e.flat.insert ['\n']) := by
  obtain ⟨above, left, right, below, h⟩ := h.split
  have h' := h.breakRow
  refine ⟨h'.stands, ?_, fun _ => ?_⟩
  · rw [h.flat, h'.flat, Flat.insert_between, front_concat, List.append_nil]
  · rw [h.unbroken, h'.unbroken]
    simp +contextual [or_imp]

theorem insert_mirrors (s : List Char) : Mirrors e s (e.insert s) (e.flat.insert s) := by
  obtain ⟨above, left, right, below, h⟩ := h.split
  have h' := h.insert s
  refine ⟨h'.stands, ?_, fun hs => ?_⟩
  · rw [h.flat, h'.flat, Flat.insert_between, List.append_assoc]
  · rw [h.unbroken, h'.unbroken]
    simp +contextual [hs]

/-- Taking something out, if anything is there, agrees with the flat text. -/
theorem Agrees.removed {r : Option Editor} {f : Option Flat} (hr : Option.Rel (Mirrors e s) r f) :
    Agrees e s (r.getD e) r.isSome f := by
  cases hr with
  | some h' => exact .edited h'
  | none => exact .moved h rfl

theorem placeCaret_stands (y : Int) : (e.placeCaret y).Stands := by
  have := h.row
  exact ⟨Nat.lt_of_le_of_lt (Nat.min_le_right _ _) (Nat.sub_one_lt (by omega)), Nat.le_refl _⟩

theorem press_agrees (k : Key) :
    Agrees e [] (e.press k).1 (e.press k).2 (e.flat.edit? (.key k)) := by
  have hrow := h.row
  have hcol := h.col
  cases k with
  | returnKey => exact .edited (breakRow_mirrors h)
  | keypadEnter => exact .edited (breakRow_mirrors h)
  | backspace => exact .removed h (deleteBefore?_mirrors h)
  | delete => exact .removed h (deleteAfter?_mirrors h)
  | up =>
    refine .moved ?_ ?_ <;> dsimp only [press] <;> split
    · exact moveTo_stands (by omega)
    · exact h
    · rfl
    · rfl
  | down =>
    refine .moved ?_ ?_ <;> dsimp only [press] <;> split
    · next hr => exact moveTo_stands hr
    · exact h
    · rfl
    · rfl
  | left => exact .moved ⟨hrow, Nat.le_trans (Nat.sub_le _ _) hcol⟩ rfl
  | right => exact .moved ⟨hrow, Nat.min_le_left _ _⟩ rfl
  | escape => exact .moved (h.focus _) rfl
  | _ => exact .moved h rfl

omit h in
theorem Agrees.rests {e' : Editor} {i : Input} (stands : e'.Stands) (rows : e'.rows = e.rows)
    (hi : e.flat.edit? i = none) :
    Agrees e s e' false (if e.focused then e.flat.edit? i else none) := by
  rw [hi, ite_self]
  exact .moved stands rows

/-- Whatever an editor is given, its text changes as the flat text does while it has the focus, and
not at all without the focus. -/
theorem handle_agrees (i : Input) :
    Agrees e (typed i) (e.handle i).editor (e.handle i).edited
      (if e.focused then e.flat.edit? i else none) := by
  cases i with
  | text s =>
    by_cases focused : e.focused <;> simp only [handle, focused]
    · exact .edited (insert_mirrors h _)
    · exact .moved h rfl
  | key k =>
    by_cases focused : e.focused <;> simp only [handle, focused]
    · exact press_agrees h k
    · exact .moved h rfl
  | down x y button =>
    unfold handle
    split
    · refine .rests ?_ ?_ rfl <;> dsimp only <;> split
      · exact placeCaret_stands (h.focus _) _
      · exact h.focus _
      · rfl
      · rfl
    · contradiction
    · contradiction
    · contradiction
    · exact .rests h rfl rfl
  | _ => exact .rests h rfl rfl

end Agreeing

/-! ## Calls -/

/-- What an editor can be asked for: to take over a text, or to handle an input. -/
inductive Call
  | setText (text : String)
  | input (i : Input)

namespace Call

def outcome (e : Editor) : Call → Outcome
  | setText text => ⟨e.setText text.toList, true, true⟩
  | input i => e.handle i

/-- What a call makes of the flat text; an input does nothing without the focus. -/
def edit? (e : Editor) : Call → Option Flat
  | setText text => some (.between text.toList [])
  | input i => if e.focused then e.flat.edit? i else none

/-- The text that is typed in a call. -/
def typed : Call → List Char
  | setText _ => []
  | input i => Editor.typed i

end Call

theorem setText_mirrors (e : Editor) (typed s : List Char) :
    Mirrors e typed (e.setText s) (.between s []) := by
  have at' : At (e.setText s) (Text.rows s).dropLast
      ((Text.rows s).getLast (rows_ne_nil s)) [] [] := by
    refine ⟨?_, ?_, ?_⟩
    · rw [List.append_nil, List.dropLast_concat_getLast]
      rfl
    · simp [setText]
    · simp [setText, List.getLast?_eq_some_getLast, rows_ne_nil s]
  have text : (e.setText s).text = s := unrows_rows s
  refine ⟨at'.stands, ?_, fun _ _ l hl => not_mem_of_mem_rows hl⟩
  rw [at'.text, List.nil_append, back, List.flatMap_nil, List.append_nil] at text
  rw [at'.flat, text]
  rfl

/-- Whatever an editor is asked for, its text changes as the flat text does. -/
theorem call_agrees {e : Editor} (h : e.Stands) (c : Call) :
    Agrees e c.typed (c.outcome e).editor (c.outcome e).edited (c.edit? e) := by
  cases c with
  | setText text => exact .edited (setText_mirrors e _ _)
  | input i => exact handle_agrees h i

/-- A deletion that finds nothing to take out leaves the editor as it is. -/
theorem handle_of_edit?_none {e : Editor} (h : e.Stands) {k : Key}
    (hk : k = .backspace ∨ k = .delete) (rests : Call.edit? e (.input (.key k)) = none) :
    (e.handle (.key k)).editor = e := by
  have stays {r : Option Editor} {f : Option Flat} (hr : Option.Rel (Mirrors e []) r f)
      (hf : f = none) : r.getD e = e := by
    cases hr with
    | some => cases hf
    | none => rfl
  by_cases focused : e.focused
  · simp only [Call.edit?, focused, ↓reduceIte] at rests
    simp only [handle, focused, ↓reduceIte]
    rcases hk with rfl | rfl
    · exact stays (deleteBefore?_mirrors h) rests
    · exact stays (deleteAfter?_mirrors h) rests
  · simp [handle, focused]

/-- Bringing the caret into view moves the view alone. -/
theorem scrollToCaret_eq (e : Editor) : ∃ scroll, e.scrollToCaret = { e with scroll } := by
  unfold scrollToCaret
  split
  · exact ⟨_, rfl⟩
  · split
    · exact ⟨_, rfl⟩
    · exact ⟨e.scroll, rfl⟩

/-- The editors that one comes to by setting texts and handling inputs, as long as typed texts are
of some kind. In between the caret is brought into view, and errors are shown. -/
inductive Reached (types : String → Prop) : Editor → Prop
  | created (fonts : Fonts) (box : Box) (s : List Char) : Reached types (create fonts box s)
  | called {e : Editor} (c : Call) (h : Reached types e)
      (ht : ∀ s, c = .input (.text s) → types s) : Reached types (c.outcome e).editor
  | scrolled {e : Editor} (h : Reached types e) : Reached types e.scrollToCaret
  | remarked {e : Editor} (error : Option String) (h : Reached types e) :
    Reached types { e with error }

namespace Reached

variable {types : String → Prop} {e : Editor}

theorem stands (h : Reached types e) : e.Stands := by
  induction h with
  | created fonts box s => exact (setText_mirrors _ [] s).stands
  | called c h ht ih => exact (call_agrees ih c).stands
  | @scrolled e h ih =>
    obtain ⟨scroll, he⟩ := e.scrollToCaret_eq
    exact he ▸ ⟨ih.row, ih.col⟩
  | remarked error h ih => exact ⟨ih.row, ih.col⟩

/-- Rows never have line feeds in them if none are typed. -/
theorem unbroken (hf : ∀ s, types s → '\n' ∉ s.toList) (h : Reached types e) : e.Unbroken := by
  induction h with
  | created fonts box s => exact fun l hl => not_mem_of_mem_rows hl
  | called c h ht ih =>
    refine (call_agrees h.stands c).unbroken ?_ ih
    cases c with
    | setText text => exact List.not_mem_nil
    | input i =>
      cases i with
      | text s => exact hf s (ht s rfl)
      | _ => exact List.not_mem_nil
  | @scrolled e h ih =>
    obtain ⟨scroll, he⟩ := e.scrollToCaret_eq
    exact he ▸ ih
  | remarked error h ih => exact ih

/-- Then they are the pieces of the text between line feeds. -/
theorem rows_eq (hf : ∀ s, types s → '\n' ∉ s.toList) (h : Reached types e) :
    e.rows = Text.rows e.text := by
  have hne : e.rows ≠ [] := List.ne_nil_of_length_pos (Nat.zero_lt_of_lt h.stands.row)
  exact (rows_unrows hne (h.unbroken hf)).symm

/-- The caret stands in the flat text. -/
theorem offset_le (h : Reached types e) : e.offset ≤ e.text.length := by
  obtain ⟨above, left, right, below, h⟩ := h.stands.split
  have hf := congrArg Flat.caret h.flat
  have ht := congrArg List.length h.text
  simp only [Editor.flat, Flat.between, List.length_append] at hf ht
  omega

end Reached

end Editor

end PianoRoll
