import PianoRoll.Proofs.Playback.Segments

/-!
Which timers wait. In a queue that is kept well, no serial number stands twice and none of a timer
that has fired (`Kept`), so that a timer waits exactly if it stands in the queue and was not
cancelled. Each operation on the timers says whom it adds to those that wait, or takes away.
-/

namespace PianoRoll.Timers

variable {τ : Type} {ts ts' : Timers τ}

def serials (ts : Timers τ) : List Nat := ts.queue.toList.map Due.serial

/-- A queue without repetitions, in which only timers stand that have not fired. -/
structure Kept (ts : Timers τ) : Prop where
  nodup : ts.serials.Nodup
  unfired : ∀ n ∈ ts.serials, ∃ t, ts.get? n = some t ∧ t.fired = false

theorem kept_empty : Kept ({} : Timers τ) :=
  ⟨List.nodup_nil, fun _ h => absurd h List.not_mem_nil⟩

theorem isActive_iff {n : Nat} :
    ts.isActive n = true ↔ ∃ t, ts.get? n = some t ∧ t.cancelled = false ∧ t.fired = false := by
  cases h : ts.get? n <;> simp [isActive, h, Timer.active]

theorem mem_waiting {n : Nat} : n ∈ ts.waiting ↔ n ∈ ts.serials ∧ ts.isActive n = true :=
  List.mem_filter

theorem Kept.nodup_waiting (h : ts.Kept) : ts.waiting.Nodup := h.nodup.filter _

theorem Kept.mem_waiting_iff (h : ts.Kept) {n : Nat} :
    n ∈ ts.waiting ↔ n ∈ ts.serials ∧ ∃ t, ts.get? n = some t ∧ t.cancelled = false := by
  rw [mem_waiting, isActive_iff]
  refine and_congr_right fun hn => ⟨fun ⟨t, ht, hc, _⟩ => ⟨t, ht, hc⟩, fun ⟨t, ht, hc⟩ => ?_⟩
  obtain ⟨t', ht', hf⟩ := h.unfired n hn
  rw [ht] at ht'
  cases ht'
  exact ⟨t, ht, hc, hf⟩

theorem Kept.lt_size (h : ts.Kept) {n : Nat} (hn : n ∈ ts.serials) : n < ts.timers.size := by
  obtain ⟨t, ht, _⟩ := h.unfired n hn
  obtain ⟨hlt, _⟩ := Array.getElem?_eq_some_iff.1 ht
  exact hlt

/-! ## Scheduling -/

theorem serials_schedule (m : Float) (x : τ) :
    (ts.schedule m x).2.serials.Perm (ts.timers.size :: ts.serials) := by
  have hp := ((Heap.push_perm Due.before ts.queue ⟨m, ts.timers.size⟩).toList.map Due.serial)
  rw [Array.toList_push, List.map_append] at hp
  exact hp.trans List.perm_append_comm

theorem get?_schedule (m : Float) (x : τ) (n : Nat) :
    (ts.schedule m x).2.get? n =
      if n = ts.timers.size then some ⟨m, x, false, false⟩ else ts.get? n :=
  Array.getElem?_push

theorem size_schedule (m : Float) (x : τ) :
    (ts.schedule m x).2.timers.size = ts.timers.size + 1 := Array.size_push _

theorem Kept.schedule (h : ts.Kept) (m : Float) (x : τ) : (ts.schedule m x).2.Kept := by
  have hp := ts.serials_schedule m x
  refine ⟨hp.nodup_iff.2 (List.nodup_cons.2 ⟨fun hn => ?_, h.nodup⟩), fun n hn => ?_⟩
  · exact Nat.lt_irrefl _ (h.lt_size hn)
  · rw [get?_schedule]
    split
    · exact ⟨_, rfl, rfl⟩
    · next hne => exact h.unfired n ((List.mem_cons.1 (hp.mem_iff.1 hn)).resolve_left hne)

theorem Kept.mem_waiting_schedule (h : ts.Kept) (m : Float) (x : τ) (n : Nat) :
    n ∈ (ts.schedule m x).2.waiting ↔ n = ts.timers.size ∨ n ∈ ts.waiting := by
  rw [(h.schedule m x).mem_waiting_iff, h.mem_waiting_iff, get?_schedule,
    (ts.serials_schedule m x).mem_iff, List.mem_cons]
  by_cases hn : n = ts.timers.size
  · simp [hn]
  · simp [hn]

theorem Kept.enter (h : ts.Kept) (tasks : List (Float × τ)) : (ts.enter tasks).Kept := by
  induction tasks generalizing ts with
  | nil => exact h
  | cons m tasks ih => exact ih (h.schedule m.1 m.2)

theorem Kept.mem_waiting_enter (h : ts.Kept) (tasks : List (Float × τ)) (n : Nat) :
    n ∈ (ts.enter tasks).waiting ↔
      n ∈ List.range' ts.timers.size tasks.length ∨ n ∈ ts.waiting := by
  induction tasks generalizing ts with
  | nil => simp [Timers.enter]
  | cons m tasks ih =>
    rw [enter_cons, ih (h.schedule m.1 m.2), size_schedule, h.mem_waiting_schedule,
      List.length_cons, List.range'_succ, List.mem_cons]
    constructor
    · rintro (hn | hn | hn)
      · exact Or.inl (Or.inr hn)
      · exact Or.inl (Or.inl hn)
      · exact Or.inr hn
    · rintro ((hn | hn) | hn)
      · exact Or.inr (Or.inl hn)
      · exact Or.inl hn
      · exact Or.inr (Or.inr hn)

theorem get?_enter_of_lt (tasks : List (Float × τ)) {n : Nat} (hn : n < ts.timers.size) :
    (ts.enter tasks).get? n = ts.get? n := by
  induction tasks generalizing ts with
  | nil => rfl
  | cons m tasks ih =>
    rw [enter_cons, ih (by rw [size_schedule]; omega), get?_schedule, if_neg (by omega)]

/-- The tasks get the next serial numbers in their order. -/
theorem get?_enter (ts : Timers τ) (tasks : List (Float × τ)) (i : Nat) :
    (ts.enter tasks).get? (ts.timers.size + i) =
      tasks[i]?.elim (ts.get? (ts.timers.size + i)) fun m => some ⟨m.1, m.2, false, false⟩ := by
  induction tasks generalizing ts i with
  | nil => rfl
  | cons m tasks ih =>
    rw [enter_cons]
    cases i with
    | zero =>
      rw [Nat.add_zero, get?_enter_of_lt _ (by rw [size_schedule]; omega), get?_schedule,
        if_pos rfl]
      rfl
    | succ i =>
      have hi : ts.timers.size + (i + 1) = (ts.schedule m.1 m.2).2.timers.size + i := by
        rw [size_schedule]
        omega
      rw [hi, ih, List.getElem?_cons_succ, get?_schedule, size_schedule, if_neg (by omega)]

/-! ## Cancelling -/

theorem get?_cancel (k n : Nat) :
    (ts.cancel k).get? n =
      if k = n then (ts.get? n).map fun t => { t with cancelled := true } else ts.get? n :=
  Array.getElem?_modify

theorem Kept.cancel (h : ts.Kept) (k : Nat) : (ts.cancel k).Kept := by
  refine ⟨h.nodup, fun n hn => ?_⟩
  obtain ⟨t, ht, hf⟩ := h.unfired n hn
  rw [get?_cancel]
  split
  · exact ⟨{ t with cancelled := true }, by rw [ht]; rfl, hf⟩
  · exact ⟨t, ht, hf⟩

theorem Kept.mem_waiting_cancel (h : ts.Kept) (k n : Nat) :
    n ∈ (ts.cancel k).waiting ↔ n ∈ ts.waiting ∧ n ≠ k := by
  rw [(h.cancel k).mem_waiting_iff, h.mem_waiting_iff, get?_cancel]
  change (n ∈ ts.serials ∧ _) ↔ _
  by_cases hk : k = n
  · simp [hk]
  · simp [hk, Ne.symm hk]

theorem queue_cancelAll (ns : List Nat) : (ts.cancelAll ns).queue = ts.queue := by
  induction ns generalizing ts with
  | nil => rfl
  | cons n ns ih => exact ih

theorem Kept.cancelAll (h : ts.Kept) (ks : List Nat) : (ts.cancelAll ks).Kept := by
  induction ks generalizing ts with
  | nil => exact h
  | cons k ks ih => exact ih (h.cancel k)

theorem Kept.mem_waiting_cancelAll (h : ts.Kept) (ks : List Nat) (n : Nat) :
    n ∈ (ts.cancelAll ks).waiting ↔ n ∈ ts.waiting ∧ n ∉ ks := by
  induction ks generalizing ts with
  | nil => simp [Timers.cancelAll]
  | cons k ks ih =>
    change n ∈ ((ts.cancel k).cancelAll ks).waiting ↔ _
    rw [ih (h.cancel k), h.mem_waiting_cancel, List.mem_cons, not_or, and_assoc]

/-! ## Leaving the queue -/

theorem get?_congr (h : ts'.timers = ts.timers) (n : Nat) : ts'.get? n = ts.get? n := by
  rw [Timers.get?, h, ← Timers.get?]

/-- What is taken out of the queue is taken out of the queue alone. -/
theorem takeDue?_inv {now : Float} {k : Nat} (h : ts.takeDue? now = some (k, ts')) :
    ts'.timers = ts.timers ∧ ts.serials.Perm (k :: ts'.serials) := by
  unfold takeDue? at h
  split at h
  · cases h
  · split at h
    · obtain ⟨⟨d, q⟩, hd, h⟩ := Option.map_eq_some_iff.1 h
      cases h
      exact ⟨rfl, (Heap.toList_perm_pop? hd).map Due.serial⟩
    · cases h

section Leaving

variable {now : Float} {k : Nat} (h : ts.Kept) (hd : ts.takeDue? now = some (k, ts'))
include h hd

theorem Kept.mem_of_takeDue? : k ∈ ts.serials ∧ k ∉ ts'.serials ∧
    ∀ n, n ∈ ts'.serials ↔ n ∈ ts.serials ∧ n ≠ k := by
  have hp := (takeDue?_inv hd).2
  have hk : k ∉ ts'.serials := (List.nodup_cons.1 (hp.nodup_iff.1 h.nodup)).1
  refine ⟨hp.mem_iff.2 List.mem_cons_self, hk, fun n => ?_⟩
  rw [hp.mem_iff, List.mem_cons]
  constructor
  · intro hn
    exact ⟨Or.inr hn, fun e => hk (e ▸ hn)⟩
  · intro hn
    exact hn.1.resolve_left hn.2

theorem Kept.takeDue? : ts'.Kept := by
  obtain ⟨ht, hp⟩ := takeDue?_inv hd
  refine ⟨(List.nodup_cons.1 (hp.nodup_iff.1 h.nodup)).2, fun n hn => ?_⟩
  rw [get?_congr ht]
  exact h.unfired n (hp.mem_iff.2 (List.mem_cons_of_mem _ hn))

/-- Whoever is taken out of the queue waits no longer. -/
theorem Kept.mem_waiting_takeDue? (n : Nat) : n ∈ ts'.waiting ↔ n ∈ ts.waiting ∧ n ≠ k := by
  rw [(h.takeDue? hd).mem_waiting_iff, h.mem_waiting_iff, (h.mem_of_takeDue? hd).2.2,
    get?_congr (takeDue?_inv hd).1, and_right_comm]

end Leaving

theorem get?_markFired (k n : Nat) :
    (ts.markFired k).get? n =
      if k = n then (ts.get? n).map fun t => { t with fired := true } else ts.get? n :=
  Array.getElem?_modify

/-- A timer that has left the queue may fire without a trace in it. -/
theorem Kept.markFired (h : ts.Kept) {k : Nat} (hk : k ∉ ts.serials) : (ts.markFired k).Kept := by
  refine ⟨h.nodup, fun n hn => ?_⟩
  have hne : k ≠ n := fun e => hk (e ▸ hn)
  rw [get?_markFired, if_neg hne]
  exact h.unfired n hn

theorem Kept.mem_waiting_markFired (h : ts.Kept) {k : Nat} (hk : k ∉ ts.serials) (n : Nat) :
    n ∈ (ts.markFired k).waiting ↔ n ∈ ts.waiting := by
  rw [(h.markFired hk).mem_waiting_iff, h.mem_waiting_iff, get?_markFired]
  change (n ∈ ts.serials ∧ _) ↔ _
  refine and_congr_right fun hn => ?_
  have hne : k ≠ n := fun e => hk (e ▸ hn)
  rw [if_neg hne]

end PianoRoll.Timers
