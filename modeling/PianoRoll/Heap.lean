/-!
Binary heaps: a list of elements in an array, each not behind its two children. The element on
top is the one that leaves; `before a b` says that `a` has to leave before `b`.
-/

namespace PianoRoll.Heap

variable {α : Type}

def parent (i : Nat) : Nat := (i - 1) / 2

/-- Moves an element up while it has to leave before the one above it. -/
def rise (before : α → α → Bool) (a : Array α) (i : Nat) : Array α :=
  if h : 0 < i ∧ i < a.size then
    have hi : i < a.size := h.2
    have hp : parent i < a.size := by unfold parent; omega
    if before a[i] a[parent i] then rise before (a.swap i (parent i)) (parent i) else a
  else a
termination_by i
decreasing_by unfold parent; omega

/-- Moves an element all the way down, each time past the child that leaves first, and gives the
place where it ends. -/
def sink (before : α → α → Bool) (a : Array α) (i : Nat) : Array α × Nat :=
  if h : 2 * i + 1 < a.size then
    if h' : 2 * i + 2 < a.size then
      if before a[2 * i + 1] a[2 * i + 2] then
        sink before (a.swap i (2 * i + 1)) (2 * i + 1)
      else sink before (a.swap i (2 * i + 2)) (2 * i + 2)
    else sink before (a.swap i (2 * i + 1)) (2 * i + 1)
  else (a, i)
termination_by a.size - i
decreasing_by all_goals simp only [Array.size_swap]; omega

def push (before : α → α → Bool) (a : Array α) (x : α) : Array α :=
  rise before (a.push x) a.size

/-- The element on top and the heap without it. The last element takes the free place, sinks to
the bottom and rises from there. -/
def pop? (before : α → α → Bool) (a : Array α) : Option (α × Array α) :=
  if h : 0 < a.size then
    let rest := a.pop
    if h' : 0 < rest.size then
      let (b, i) := sink before (rest.set 0 a[a.size - 1]) 0
      some (a[0], rise before b i)
    else some (a[0], rest)
  else none

theorem rise_perm (before : α → α → Bool) (a : Array α) (i : Nat) :
    (rise before a i).Perm a := by
  fun_induction rise before a i with
  | case1 a i h hi hp hb ih => exact ih.trans (Array.swap_perm hi hp)
  | case2 => exact .refl _
  | case3 => exact .refl _

theorem sink_perm (before : α → α → Bool) (a : Array α) (i : Nat) :
    (sink before a i).1.Perm a := by
  fun_induction sink before a i with
  | case1 a i h h' hb ih => exact ih.trans (Array.swap_perm _ _)
  | case2 a i h h' hb ih => exact ih.trans (Array.swap_perm _ _)
  | case3 a i h h' ih => exact ih.trans (Array.swap_perm _ _)
  | case4 => exact .refl _

/-- Putting the last element in the place of the first one takes the first one out. -/
theorem toList_perm_set_pop {a : Array α} (h : 0 < a.size) (h' : 0 < a.pop.size) :
    a.toList.Perm (a[0] :: (a.pop.set 0 a[a.size - 1]).toList) := by
  obtain ⟨b, x, rfl⟩ := Array.eq_push_of_size_ne_zero (Nat.ne_of_gt h)
  obtain ⟨bs⟩ := b
  match bs, h' with
  | [], h' => simp at h'
  | y :: ys, _ =>
    have hd : ((y :: ys) ++ [x]).dropLast = y :: ys := List.dropLast_concat
    rw [List.cons_append] at hd
    simp [hd]

/-- What leaves a heap and what stays are what was in it. -/
theorem toList_perm_pop? {before : α → α → Bool} {a b : Array α} {x : α}
    (h : pop? before a = some (x, b)) : a.toList.Perm (x :: b.toList) := by
  simp only [pop?] at h
  split at h
  · next hs =>
    split at h
    · next h' =>
      obtain ⟨rfl, rfl⟩ := Prod.mk.inj (Option.some.inj h)
      have hp := (rise_perm before (sink before (a.pop.set 0 a[a.size - 1]) 0).1
        (sink before (a.pop.set 0 a[a.size - 1]) 0).2).trans (sink_perm before _ 0)
      exact (toList_perm_set_pop hs h').trans (hp.toList.symm.cons _)
    · next h' =>
      obtain ⟨rfl, rfl⟩ := Prod.mk.inj (Option.some.inj h)
      obtain ⟨b, x, rfl⟩ := Array.eq_push_of_size_ne_zero (Nat.ne_of_gt hs)
      obtain ⟨bs⟩ := b
      match bs, h' with
      | [], _ => simp
      | y :: ys, h' => simp at h'
  · simp at h

/-- A push adds its element and nothing else. -/
theorem push_perm (before : α → α → Bool) (a : Array α) (x : α) :
    (push before a x).Perm (a.push x) := rise_perm before _ _

end PianoRoll.Heap
