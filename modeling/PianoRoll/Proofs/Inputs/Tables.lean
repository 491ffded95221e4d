import Mathlib.Data.List.Nodup
import PianoRoll.Table

/-!
What a table holds after a key was put into it or erased from it. A table whose keys are distinct
is a function of its keys, and stays one.
-/

namespace PianoRoll.Table

variable {κ α : Type}

def keys (t : Table κ α) : List κ := t.map Prod.fst

theorem keys_nil : keys ([] : Table κ α) = [] := rfl

theorem keys_cons (e : κ × α) (t : Table κ α) : keys (e :: t) = e.1 :: t.keys := rfl

theorem keys_append (t t' : Table κ α) : keys (t ++ t') = t.keys ++ t'.keys := List.map_append

theorem mem_keys_of_mem {t : Table κ α} {e : κ × α} (h : e ∈ t) : e.1 ∈ t.keys :=
  List.mem_map_of_mem h

theorem nodup_keys_filter {t : Table κ α} (distinct : t.keys.Nodup) (keep : κ × α → Bool) :
    (keys (t.filter keep)).Nodup :=
  distinct.sublist (List.filter_sublist.map _)

variable [DecidableEq κ] {t : Table κ α} {k : κ} {a : α}

theorem mem_of_get? (h : t.get? k = some a) : (k, a) ∈ t := by
  induction t with
  | nil => cases h
  | cons e t ih =>
    rw [get?] at h
    split at h
    · next same =>
      cases h
      exact List.mem_cons.2 (.inl (same ▸ rfl))
    · exact List.mem_cons_of_mem _ (ih h)

theorem get?_eq_none_iff : t.get? k = none ↔ k ∉ t.keys := by
  induction t with
  | nil => simp [get?, keys]
  | cons e t ih =>
    rw [get?, keys_cons, List.mem_cons, not_or]
    split
    · next same => simp [same]
    · next other => exact ih.trans (by simp [Ne.symm other])

theorem get?_of_mem (distinct : t.keys.Nodup) (h : (k, a) ∈ t) : t.get? k = some a := by
  induction t with
  | nil => cases h
  | cons e t ih =>
    obtain ⟨new, distinct⟩ := List.nodup_cons.1 distinct
    rw [get?]
    rcases List.mem_cons.1 h with rfl | h
    · exact if_pos rfl
    · have other : e.1 ≠ k := fun same => new (same ▸ mem_keys_of_mem h)
      rw [if_neg other]
      exact ih distinct h

theorem keys_put (t : Table κ α) (k : κ) (a : α) :
    (t.put k a).keys = if k ∈ t.keys then t.keys else t.keys ++ [k] := by
  induction t with
  | nil => rfl
  | cons e t ih =>
    rw [put]
    split
    · next same => simp [keys_cons, same]
    · next other =>
      have here : k ∈ keys (e :: t) ↔ k ∈ keys t := by simp [keys_cons, Ne.symm other]
      change e.1 :: keys (put k a t) = _
      rw [ih, if_congr here rfl rfl]
      split <;> rfl

theorem put_of_new (new : k ∉ t.keys) (a : α) : t.put k a = t ++ [(k, a)] := by
  induction t with
  | nil => rfl
  | cons e t ih =>
    obtain ⟨other, new⟩ := not_or.1 (mt List.mem_cons.2 new)
    rw [put, if_neg (Ne.symm other), ih new]
    rfl

theorem nodup_keys_put (distinct : t.keys.Nodup) (k : κ) (a : α) : (t.put k a).keys.Nodup := by
  rw [keys_put]
  split
  · exact distinct
  · next new =>
    exact distinct.append (List.nodup_singleton k) fun x hx hk =>
      new (List.mem_singleton.1 hk ▸ hx)

theorem mem_put (distinct : t.keys.Nodup) {e : κ × α} :
    e ∈ t.put k a ↔ e = (k, a) ∨ e ∈ t ∧ e.1 ≠ k := by
  have holds (x : α) : (e.1, x) ∈ t ↔ t.get? e.1 = some x := ⟨get?_of_mem distinct, mem_of_get?⟩
  have held (x : α) : (e.1, x) ∈ t.put k a ↔ (t.put k a).get? e.1 = some x :=
    ⟨get?_of_mem (nodup_keys_put distinct k a), mem_of_get?⟩
  obtain ⟨j, x⟩ := e
  rw [held]
  by_cases same : j = k
  · subst same
    simp [get?_put_self, eq_comm]
  · simp [get?_put_of_ne same, ← holds, same]

/-- Erasing a key leaves all others, if the keys are distinct. -/
theorem erase_eq_filter (distinct : t.keys.Nodup) : t.erase k = t.filter (·.1 ≠ k) := by
  induction t with
  | nil => rfl
  | cons e t ih =>
    obtain ⟨new, distinct⟩ := List.nodup_cons.1 distinct
    rw [erase]
    split
    · next same =>
      have others : t.filter (·.1 ≠ k) = t :=
        List.filter_eq_self.2 fun x hx => decide_eq_true fun h =>
          new (same.trans h.symm ▸ mem_keys_of_mem hx)
      rw [List.filter_cons_of_neg (by simpa using same), others]
    · next other =>
      rw [List.filter_cons_of_pos (by simpa using other), ih distinct]

end PianoRoll.Table
