/-!
Tables that remember the order in which their keys first arrived. A key put again keeps its
place and gets the new value.
-/

namespace PianoRoll

/-- Entries by key, oldest key first. -/
abbrev Table (κ α : Type) := List (κ × α)

namespace Table

variable {κ α : Type} [DecidableEq κ]

/-- Sets the value of a key. -/
def put (k : κ) (a : α) : Table κ α → Table κ α
  | [] => [(k, a)]
  | (k', a') :: t => if k' = k then (k, a) :: t else (k', a') :: put k a t

/-- The value of a key. -/
def get? (k : κ) : Table κ α → Option α
  | [] => none
  | (k', a) :: t => if k' = k then some a else get? k t

/-- The table without a key. -/
def erase (k : κ) : Table κ α → Table κ α
  | [] => []
  | (k', a) :: t => if k' = k then t else (k', a) :: erase k t

/-- The table that entries build one by one. -/
def ofEntries (es : List (κ × α)) : Table κ α := es.foldl (fun t e => put e.1 e.2 t) []

theorem get?_put_self (k : κ) (a : α) (t : Table κ α) : (t.put k a).get? k = some a := by
  induction t with
  | nil => simp [put, get?]
  | cons e t ih =>
    by_cases h : e.1 = k
    · simp [put, get?, h]
    · simp [put, get?, h, ih]

theorem get?_put_of_ne {k k' : κ} (h : k' ≠ k) (a : α) (t : Table κ α) :
    (t.put k a).get? k' = t.get? k' := by
  induction t with
  | nil => simp [put, get?, h.symm]
  | cons e t ih =>
    by_cases h' : e.1 = k
    · subst h'; simp [put, get?, h.symm]
    · simp [put, get?, h', ih]

end Table

end PianoRoll
