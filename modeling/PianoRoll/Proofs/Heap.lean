import Mathlib.Order.Lattice
import Mathlib.Order.Nat
import PianoRoll.Heap

/-!
Heaps in order. Elements rank by a key, and in an ordered heap no element ranks behind its children.
An element that rises puts right a heap in which it alone may rank before the one above it; one that
has sunk leaves such a heap. So a push keeps the order, and what a pop takes out ranks first
(`ordered_push`, `ordered_pop?`).
-/

namespace PianoRoll.Heap

variable {α κ : Type} [LinearOrder κ] {before : α → α → Bool} {key : α → κ} {a : Array α}

/-- Whether the test of a heap agrees with the key of its elements. -/
def Agrees (before : α → α → Bool) (key : α → κ) (a : Array α) : Prop :=
  ∀ x ∈ a, ∀ y ∈ a, before x y = true ↔ key x < key y

/-- Whether the element at one place does not rank behind the one at another. -/
def Above (key : α → κ) (a : Array α) (i j : Nat) : Prop :=
  ∀ x y, a[i]? = some x → a[j]? = some y → key x ≤ key y

def Ordered (key : α → κ) (a : Array α) : Prop := ∀ j, 0 < j → Above key a (parent j) j

/-- An ordered heap, but for one element that may rank before the one above it. -/
structure Rising (key : α → κ) (a : Array α) (i : Nat) : Prop where
  others : ∀ j, 0 < j → j ≠ i → Above key a (parent j) j
  grand : ∀ j, 0 < i → 0 < j → parent j = i → Above key a (parent i) j

/-- An ordered heap, but for one element that may rank anyhow. -/
structure Sinking (key : α → κ) (a : Array α) (i : Nat) : Prop where
  others : ∀ j, 0 < j → j ≠ i → parent j ≠ i → Above key a (parent j) j
  grand : ∀ j, 0 < i → 0 < j → parent j = i → Above key a (parent i) j

theorem parent_lt {i : Nat} (h : 0 < i) : parent i < i := by
  unfold parent
  omega

theorem parent_child {i j : Nat} (h : 0 < j) : parent j = i ↔ j = 2 * i + 1 ∨ j = 2 * i + 2 := by
  unfold parent
  omega

theorem Agrees.perm {b : Array α} (h : Agrees before key a) (hp : b.Perm a) :
    Agrees before key b := fun x hx y hy => h x (hp.mem_iff.1 hx) y (hp.mem_iff.1 hy)

theorem Above.trans {i j k : Nat} (hij : Above key a i j) (hjk : Above key a j k)
    (hj : j < a.size) : Above key a i k := fun x y hx hy =>
  (hij x a[j] hx (Array.getElem?_eq_getElem hj)).trans
    (hjk a[j] y (Array.getElem?_eq_getElem hj) hy)

theorem above_of_le {i j : Nat} (hi : i < a.size) (hj : j < a.size) (h : key a[i] ≤ key a[j]) :
    Above key a i j := by
  intro x y hx hy
  rw [Array.getElem?_eq_getElem hi] at hx
  rw [Array.getElem?_eq_getElem hj] at hy
  cases hx
  cases hy
  exact h

theorem above_of_size_le {i j : Nat} (h : a.size ≤ j) : Above key a i j := by
  intro x y _ hy
  rw [Array.getElem?_eq_none h] at hy
  cases hy

/-! ## Swapping -/

section Swap

variable {i k : Nat} (hi : i < a.size) (hk : k < a.size)

theorem swap_left : (a.swap i k)[i]? = a[k]? := by
  rw [Array.getElem?_swap]
  split
  · next h =>
    subst h
    exact (Array.getElem?_eq_getElem hi).symm
  · rw [if_pos rfl]
    exact (Array.getElem?_eq_getElem hk).symm

theorem swap_right : (a.swap i k)[k]? = a[i]? := by
  rw [Array.getElem?_swap, if_pos rfl]
  exact (Array.getElem?_eq_getElem hi).symm

theorem swap_other {j : Nat} (hji : j ≠ i) (hjk : j ≠ k) : (a.swap i k)[j]? = a[j]? := by
  rw [Array.getElem?_swap, if_neg (Ne.symm hjk), if_neg (Ne.symm hji)]

end Swap

/-! ## Rising -/

/-- Where it stands right, the heap is in order. -/
theorem Rising.ordered {i : Nat} (h : Rising key a i) (hi : 0 < i → Above key a (parent i) i) :
    Ordered key a := by
  intro j hj
  by_cases hji : j = i
  · subst hji
    exact hi hj
  · exact h.others j hj hji

/-- A swap with the one above leaves the rest to put right. -/
theorem Rising.swap {i : Nat} (h : Rising key a i) (hi : i < a.size) (hp : parent i < a.size)
    (h0 : 0 < i) (hlt : key a[i] < key a[parent i]) :
    Rising key (a.swap i (parent i)) (parent i) := by
  have hpi := parent_lt h0
  have hup : Above key a i (parent i) := above_of_le hi hp hlt.le
  constructor
  · intro j hj hjp
    unfold Above
    by_cases hji : j = i
    · subst hji
      rw [swap_left hi hp, swap_right hi hp]
      exact hup
    · rw [swap_other hi hp hji hjp]
      by_cases hpj : parent j = i
      · rw [hpj, swap_left hi hp]
        exact h.grand j h0 hj hpj
      · by_cases hpp : parent j = parent i
        · rw [hpp, swap_right hi hp]
          have hs := h.others j hj hji
          rw [hpp] at hs
          exact hup.trans hs hp
        · rw [swap_other hi hp hpj hpp]
          exact h.others j hj hji
  · intro j hp0 hj hpj
    have hpp := parent_lt hp0
    have hgrand := h.others (parent i) hp0 hpi.ne
    unfold Above
    have hppi : parent (parent i) ≠ i := by omega
    rw [swap_other hi hp hppi hpp.ne]
    by_cases hji : j = i
    · subst hji
      rw [swap_left hi hp]
      exact hgrand
    · have hjp : j ≠ parent i := by
        intro e
        have hpj' := parent_lt hj
        omega
      rw [swap_other hi hp hji hjp]
      have hs := h.others j hj hji
      rw [hpj] at hs
      exact hgrand.trans hs hp

/-- Rising puts the heap in order. -/
theorem ordered_rise {i : Nat} (hb : Agrees before key a) (h : Rising key a i) :
    Ordered key (rise before a i) := by
  fun_induction rise before a i with
  | case1 a i hbound hi hp hbefore ih =>
    have hlt := (hb _ (Array.getElem_mem hi) _ (Array.getElem_mem hp)).1 hbefore
    exact ih (hb.perm (Array.swap_perm hi hp)) (h.swap hi hp hbound.1 hlt)
  | case2 a i hbound hi hp hbefore =>
    refine h.ordered fun _ => above_of_le hp hi (not_lt.1 fun hlt => hbefore ?_)
    exact (hb _ (Array.getElem_mem hi) _ (Array.getElem_mem hp)).2 hlt
  | case3 a i hbound =>
    exact h.ordered fun h0 => above_of_size_le (Nat.le_of_not_lt fun hi => hbound ⟨h0, hi⟩)

/-! ## Sinking -/

/-- A swap with the child that ranks first leaves the rest to put right. -/
theorem Sinking.swap {i c : Nat} (h : Sinking key a i) (hi : i < a.size) (hc : c < a.size)
    (hc0 : 0 < c) (hpc : parent c = i)
    (first : ∀ j, 0 < j → parent j = i → j ≠ c → Above key a c j) :
    Sinking key (a.swap i c) c := by
  have hic : i < c := hpc ▸ parent_lt hc0
  constructor
  · intro j hj hjc hpj
    unfold Above
    by_cases hji : j = i
    · subst hji
      have hup := parent_lt hj
      rw [swap_left hi hc, swap_other hi hc hup.ne (by omega)]
      exact h.grand c hj hc0 hpc
    · rw [swap_other hi hc hji hjc]
      by_cases hpi : parent j = i
      · rw [hpi, swap_left hi hc]
        exact first j hj hpi hjc
      · rw [swap_other hi hc hpi hpj]
        exact h.others j hj hji hpi
  · intro j _ hj hpj
    have hcj : c < j := hpj ▸ parent_lt hj
    unfold Above
    rw [hpc, swap_left hi hc, swap_other hi hc (by omega) (by omega)]
    have hs := h.others j hj (by omega) (by omega)
    rw [hpj] at hs
    exact hs

/-- Where an element has no children, it can only rank before the one above it. -/
theorem Sinking.rising {i : Nat} (h : Sinking key a i) (leaf : a.size ≤ 2 * i + 1) :
    Rising key a i := by
  refine ⟨fun j hj hji => ?_, h.grand⟩
  by_cases hpj : parent j = i
  · have hc := (parent_child hj).1 hpj
    exact above_of_size_le (by omega)
  · exact h.others j hj hji hpj

/-- What has sunk stands where it has no children. -/
theorem rising_sink {i : Nat} (hb : Agrees before key a) (h : Sinking key a i) :
    Rising key (sink before a i).1 (sink before a i).2 := by
  fun_induction sink before a i with
  | case1 a i hl hr hbefore ih =>
    have hlt := (hb _ (Array.getElem_mem hl) _ (Array.getElem_mem hr)).1 hbefore
    refine ih (hb.perm (Array.swap_perm _ hl)) (h.swap (by omega) hl (by omega) ?_ ?_)
    · exact (parent_child (by omega)).2 (Or.inl rfl)
    · intro j hj hpj hjl
      obtain rfl := ((parent_child hj).1 hpj).resolve_left hjl
      exact above_of_le hl hr hlt.le
  | case2 a i hl hr hbefore ih =>
    have hle : key a[2 * i + 2] ≤ key a[2 * i + 1] := not_lt.1 fun hlt =>
      hbefore ((hb _ (Array.getElem_mem hl) _ (Array.getElem_mem hr)).2 hlt)
    refine ih (hb.perm (Array.swap_perm _ hr)) (h.swap (by omega) hr (by omega) ?_ ?_)
    · exact (parent_child (by omega)).2 (Or.inr rfl)
    · intro j hj hpj hjr
      obtain rfl := ((parent_child hj).1 hpj).resolve_right hjr
      exact above_of_le hr hl hle
  | case3 a i hl hr ih =>
    refine ih (hb.perm (Array.swap_perm _ hl)) (h.swap (by omega) hl (by omega) ?_ ?_)
    · exact (parent_child (by omega)).2 (Or.inl rfl)
    · intro j hj hpj hjl
      obtain rfl := ((parent_child hj).1 hpj).resolve_left hjl
      exact above_of_size_le (by omega)
  | case4 a i hl => exact h.rising (by omega)

/-! ## The operations -/

theorem ordered_push (x : α) (hb : Agrees before key (a.push x)) (h : Ordered key a) :
    Ordered key (push before a x) := by
  refine ordered_rise hb ⟨fun j hj hne => ?_, fun j _ hj hpj => ?_⟩
  · by_cases hlt : j < a.size
    · have hp := parent_lt hj
      intro y z hy hz
      rw [Array.getElem?_push_lt (by omega), ← Array.getElem?_eq_getElem (by omega)] at hy
      rw [Array.getElem?_push_lt hlt, ← Array.getElem?_eq_getElem hlt] at hz
      exact h j hj y z hy hz
    · exact above_of_size_le (by rw [Array.size_push]; omega)
  · have hp := parent_lt hj
    exact above_of_size_le (by rw [Array.size_push]; omega)

/-- In an ordered heap nothing ranks before the element on top. -/
theorem Ordered.top (h : Ordered key a) (i : Nat) : Above key a 0 i := by
  induction i using Nat.strong_induction_on with
  | _ i ih =>
    rcases Nat.eq_zero_or_pos i with rfl | hpos
    · intro x y hx hy
      rw [hx] at hy
      cases hy
      exact le_rfl
    · by_cases hi : i < a.size
      · have hp := parent_lt hpos
        exact (ih _ hp).trans (h i hpos) (by omega)
      · exact above_of_size_le (by omega)

theorem Ordered.pop (h : Ordered key a) : Ordered key a.pop := by
  intro j hj x y hx hy
  rw [Array.getElem?_pop] at hx hy
  split at hx
  · split at hy
    · exact h j hj x y hx hy
    · cases hy
  · cases hx

/-- Whatever stands in the place of the top, the other elements are in order. -/
theorem Ordered.sinking (h : Ordered key a) (h0 : 0 < a.size) (x : α) :
    Sinking key (a.set 0 x) 0 := by
  refine ⟨fun j hj _ hpj => ?_, fun j h0' => absurd h0' (Nat.lt_irrefl 0)⟩
  intro y z hy hz
  rw [Array.getElem?_set, if_neg (Ne.symm hpj)] at hy
  rw [Array.getElem?_set, if_neg (Nat.ne_of_lt hj)] at hz
  exact h j hj y z hy hz

/-- What a pop takes out stood on top, and what it leaves is in order. -/
theorem ordered_pop? {b : Array α} {x : α} (hb : Agrees before key a) (h : Ordered key a)
    (hpop : pop? before a = some (x, b)) : a[0]? = some x ∧ Ordered key b := by
  simp only [pop?] at hpop
  split at hpop
  · next hs =>
    have htop : a[0]? = some a[0] := Array.getElem?_eq_getElem hs
    split at hpop
    · next h' =>
      obtain ⟨rfl, rfl⟩ := Prod.mk.inj (Option.some.inj hpop)
      have hset : Agrees before key (a.pop.set 0 a[a.size - 1]) := by
        intro y hy z hz
        have hmem : ∀ w ∈ a.pop.set 0 a[a.size - 1], w ∈ a := by
          intro w hw
          have hp := (toList_perm_set_pop hs h').mem_iff (a := w)
          rw [List.mem_cons, Array.mem_toList_iff, Array.mem_toList_iff] at hp
          exact hp.2 (Or.inr hw)
        exact hb y (hmem y hy) z (hmem z hz)
      have hrising := rising_sink hset (h.pop.sinking h' a[a.size - 1])
      exact ⟨htop, ordered_rise (hset.perm (sink_perm before _ 0)) hrising⟩
    · obtain ⟨rfl, rfl⟩ := Prod.mk.inj (Option.some.inj hpop)
      exact ⟨htop, h.pop⟩
  · cases hpop

/-- Whatever the order, a pop takes out what stood on top. -/
theorem top_of_pop? {b : Array α} {x : α} (h : pop? before a = some (x, b)) : a[0]? = some x := by
  simp only [pop?] at h
  split at h
  · next hs =>
    have htop : a[0]? = some a[0] := Array.getElem?_eq_getElem hs
    split at h <;> cases h <;> exact htop
  · cases h

/-- Something stands on top of a heap that is not empty. -/
theorem pop?_isSome (before : α → α → Bool) (h : 0 < a.size) :
    ∃ x b, pop? before a = some (x, b) := by
  simp only [pop?, dif_pos h]
  split
  · exact ⟨_, _, rfl⟩
  · exact ⟨_, _, rfl⟩

end PianoRoll.Heap
