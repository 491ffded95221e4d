/-!
Lines of a text. A carriage return directly followed by a line feed is one boundary, every
other boundary is one character, and a boundary at the very end opens no further line.
-/

namespace PianoRoll.Text

/-- The characters that end a line. -/
def isBoundary (c : Char) : Bool :=
  let n := c.toNat
  (0x0A ≤ n && n ≤ 0x0D) || (0x1C ≤ n && n ≤ 0x1E) || n == 0x85 || n == 0x2028 || n == 0x2029

/-- Puts a character in front of the first line. -/
def consFirst (c : Char) : List (List Char) → List (List Char)
  | [] => [[c]]
  | l :: ls => (c :: l) :: ls

/-- The lines of a text, without their boundaries. -/
def lines : List Char → List (List Char)
  | [] => []
  | '\r' :: '\n' :: s => [] :: lines s
  | c :: s => if isBoundary c then [] :: lines s else consFirst c (lines s)

/-- The pieces between line feeds; a text always has at least one. -/
def rows : List Char → List (List Char)
  | [] => [[]]
  | c :: s => if c = '\n' then [] :: rows s else consFirst c (rows s)

/-- The text of rows, with a line feed between neighbours. -/
def unrows : List (List Char) → List Char
  | [] => []
  | [l] => l
  | l :: l' :: ls => l ++ '\n' :: unrows (l' :: ls)

theorem rows_ne_nil (s : List Char) : rows s ≠ [] := by
  cases s with
  | nil => simp [rows]
  | cons c s =>
    simp only [rows]
    split
    · simp
    · cases rows s <;> simp [consFirst]

theorem unrows_consFirst (c : Char) {ls : List (List Char)} (h : ls ≠ []) :
    unrows (consFirst c ls) = c :: unrows ls := by
  match ls, h with
  | [l], _ => rfl
  | l :: l' :: ls, _ => rfl

/-- Nothing of a text is lost in its rows. -/
theorem unrows_rows (s : List Char) : unrows (rows s) = s := by
  induction s with
  | nil => rfl
  | cons c s ih =>
    simp only [rows]
    split
    · next h =>
      subst h
      cases hr : rows s with
      | nil => exact absurd hr (rows_ne_nil s)
      | cons l ls => rw [hr] at ih; simp [unrows, ih]
    · rw [unrows_consFirst c (rows_ne_nil s), ih]

theorem rows_append_feed (l s : List Char) (h : '\n' ∉ l) :
    rows (l ++ '\n' :: s) = l :: rows s := by
  induction l with
  | nil => simp [rows]
  | cons c l ih =>
    have hc : c ≠ '\n' := fun e => h (e ▸ List.mem_cons_self)
    simp [rows, hc, ih (fun m => h (List.mem_cons_of_mem _ m)), consFirst]

theorem rows_of_not_mem {l : List Char} (h : '\n' ∉ l) : rows l = [l] := by
  induction l with
  | nil => rfl
  | cons c l ih =>
    have hc : c ≠ '\n' := fun e => h (e ▸ List.mem_cons_self)
    simp [rows, hc, ih (fun m => h (List.mem_cons_of_mem _ m)), consFirst]

/-- Rows without line feeds are the rows of their text. -/
theorem rows_unrows {ls : List (List Char)} (hne : ls ≠ []) (h : ∀ l ∈ ls, '\n' ∉ l) :
    rows (unrows ls) = ls := by
  match ls, hne with
  | [l], _ => exact rows_of_not_mem (h l List.mem_cons_self)
  | l :: l' :: ls, _ =>
    rw [unrows, rows_append_feed _ _ (h l List.mem_cons_self),
      rows_unrows (List.cons_ne_nil _ _) fun m hm => h m (List.mem_cons_of_mem _ hm)]

/-- Every line feed, alone or after a carriage return, and every lone carriage return become
one line feed. -/
def unifyFeeds : List Char → List Char
  | [] => []
  | '\r' :: '\n' :: s => '\n' :: unifyFeeds s
  | c :: s => (if c = '\r' then '\n' else c) :: unifyFeeds s

end PianoRoll.Text
