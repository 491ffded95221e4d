import PianoRoll.Proofs.Playback.Ranks

/-!
What is done to timers, one thing after the other. A step (`Next`) schedules, cancels, clears, takes
a timer out of the queue to start it or to pass it over, or finds that nothing is due; a history is
a row of steps. From the history alone it is known which timers wait: those that were entered and
have not been settled since (`Accounted`).
-/

namespace PianoRoll.Timers

variable {τ : Type}

/-- Something that is done to timers, with their serial numbers. -/
inductive Happening (τ : Type)
  | scheduled (n : Nat) (base delay : Float) (task : τ)
  | cancelled (ns : List Nat)
  | cleared (ns : List Nat)
  | passed (n : Nat)
  | started (n : Nat) (now : Float) (task : τ)
  | rested (now : Float)

namespace Happening

def entered : Happening τ → List Nat
  | scheduled n .. => [n]
  | _ => []

def starts : Happening τ → List Nat
  | started n .. => [n]
  | _ => []

/-- The numbers of the timers that are not to be started. -/
def callsOff : Happening τ → List Nat
  | cancelled ns | cleared ns => ns
  | _ => []

/-- The numbers of the timers that wait no longer. -/
def settles : Happening τ → List Nat
  | cancelled ns | cleared ns => ns
  | started n .. => [n]
  | _ => []

theorem settles_eq (x : Happening τ) : x.settles = x.starts ++ x.callsOff := by
  cases x <;> rfl

end Happening

def startedIn (hs : List (Happening τ)) : List Nat := hs.flatMap Happening.starts

def calledOffIn (hs : List (Happening τ)) : List Nat := hs.flatMap Happening.callsOff

def settled (hs : List (Happening τ)) : List Nat := hs.flatMap Happening.settles

/-- One thing done to timers. What is taken out of the queue is passed over if it was cancelled,
and started if not. -/
inductive Next (ts : Timers τ) : Happening τ → Timers τ → Prop
  | schedule (base delay : Float) (task : τ) :
    Next ts (.scheduled ts.timers.size base delay task) (ts.schedule (deadline base delay) task).2
  | cancel (ns : List Nat) :
    Next ts (.cancelled (ns.filter (· < ts.timers.size))) (ts.cancelAll ns)
  | clear : Next ts (.cleared ts.serials) ts.clear
  | pass {now : Float} {n : Nat} {ts' : Timers τ} (due : ts.takeDue? now = some (n, ts'))
      (dead : ∀ t, ts.get? n = some t → t.cancelled = true) : Next ts (.passed n) ts'
  | start {now : Float} {n : Nat} {t : Timer τ} {ts' : Timers τ}
      (due : ts.takeDue? now = some (n, ts')) (here : ts.get? n = some t)
      (alive : t.cancelled = false) : Next ts (.started n now t.task) (ts'.markFired n)
  | rest {now : Float} (idle : ts.takeDue? now = none) : Next ts (.rested now) ts

/-- Things done to timers one after the other. -/
inductive History : Timers τ → List (Happening τ) → Timers τ → Prop
  | still (ts : Timers τ) : History ts [] ts
  | step {ts ts₁ ts' : Timers τ} {x : Happening τ} {hs : List (Happening τ)} :
    Next ts x ts₁ → History ts₁ hs ts' → History ts (x :: hs) ts'

variable {ts ts' ts₁ : Timers τ} {hs : List (Happening τ)} {x : Happening τ}

theorem History.one (h : Next ts x ts') : History ts [x] ts' := .step h (.still ts')

theorem History.append {hs' : List (Happening τ)} (h : History ts hs ts₁)
    (h' : History ts₁ hs' ts') : History ts (hs ++ hs') ts' := by
  induction h with
  | still => exact h'
  | step hx _ ih => exact .step hx (ih h')

/-- A history can be cut anywhere. -/
theorem History.split {hs' : List (Happening τ)} (h : History ts (hs ++ hs') ts') :
    ∃ ts₁, History ts hs ts₁ ∧ History ts₁ hs' ts' := by
  induction hs generalizing ts with
  | nil => exact ⟨ts, .still ts, h⟩
  | cons x hs ih =>
    cases h with
    | step hx h =>
      obtain ⟨ts₁, h₁, h₂⟩ := ih h
      exact ⟨ts₁, .step hx h₁, h₂⟩

/-! ## Clearing -/

theorem clear_eq : ts.clear = { ts.cancelAll ts.serials with queue := #[] } := by
  simp [clear, cancelAll, serials, List.foldl_map]

theorem Kept.clear : ts.clear.Kept := by
  rw [clear_eq]
  exact ⟨List.nodup_nil, fun n hn => absurd hn List.not_mem_nil⟩

@[simp] theorem waiting_clear : ts.clear.waiting = [] := by
  rw [clear_eq]
  rfl

theorem size_cancelAll (ns : List Nat) : (ts.cancelAll ns).timers.size = ts.timers.size := by
  induction ns generalizing ts with
  | nil => rfl
  | cons n ns ih => exact ih.trans (Array.size_modify ..)

/-! ## Leaving the queue -/

/-- What is taken out stood on top of the queue, and its moment had come. -/
theorem takeDue?_top {now : Float} {n : Nat} (h : ts.takeDue? now = some (n, ts')) :
    ∃ d, ts.queue[0]? = some d ∧ d.serial = n ∧ d.deadline ≤ now ∧
      ts.queue.toList.Perm (d :: ts'.queue.toList) := by
  unfold takeDue? at h
  split at h
  · cases h
  · next d htop =>
    split at h
    · next hle =>
      obtain ⟨⟨d', q⟩, hpop, h⟩ := Option.map_eq_some_iff.1 h
      cases h
      have hd := Heap.top_of_pop? hpop
      rw [htop] at hd
      cases hd
      exact ⟨d, htop, rfl, hle, Heap.toList_perm_pop? hpop⟩
    · cases h

/-! ## What one step does -/

/-- A timer keeps its deadline and its task. -/
theorem Next.keeps (h : Next ts x ts') {n : Nat} {t : Timer τ} (ht : ts.get? n = some t) :
    ∃ t', ts'.get? n = some t' ∧ t'.deadline = t.deadline ∧ t'.task = t.task := by
  have each {ts : Timers τ} {t : Timer τ} (ns : List Nat) (ht : ts.get? n = some t) :
      ∃ t', (ts.cancelAll ns).get? n = some t' ∧ t'.deadline = t.deadline ∧ t'.task = t.task := by
    induction ns generalizing ts t with
    | nil => exact ⟨t, ht, rfl, rfl⟩
    | cons k ns ih =>
      by_cases hk : k = n
      · exact ih (t := { t with cancelled := true }) (by simp [get?_cancel, hk, ht])
      · exact ih (by simp [get?_cancel, hk, ht])
  cases h with
  | schedule base delay task =>
    have hlt : n < ts.timers.size := (Array.getElem?_eq_some_iff.1 ht).1
    exact ⟨t, by simp [get?_schedule, ht, Nat.ne_of_lt hlt], rfl, rfl⟩
  | cancel ns => exact each ns ht
  | clear =>
    rw [clear_eq]
    exact each ts.serials ht
  | pass due dead => exact ⟨t, by rw [get?_congr (takeDue?_inv due).1, ht], rfl, rfl⟩
  | start due here alive =>
    rw [get?_markFired, get?_congr (takeDue?_inv due).1, ht]
    split
    · exact ⟨_, rfl, rfl, rfl⟩
    · exact ⟨t, rfl, rfl, rfl⟩
  | rest idle => exact ⟨t, ht, rfl, rfl⟩

theorem Next.kept (h : Next ts x ts') (k : ts.Kept) : ts'.Kept := by
  cases h with
  | schedule => exact k.schedule _ _
  | cancel ns => exact k.cancelAll ns
  | clear => exact .clear
  | pass due dead => exact k.takeDue? due
  | start due here alive => exact (k.takeDue? due).markFired (k.mem_of_takeDue? due).2.1
  | rest idle => exact k

/-- New timers get the next numbers. -/
theorem Next.range_size (h : Next ts x ts') :
    List.range ts'.timers.size = List.range ts.timers.size ++ x.entered := by
  cases h with
  | schedule base delay task => rw [size_schedule, List.range_succ]; rfl
  | cancel ns => simp [size_cancelAll, Happening.entered]
  | clear =>
    have hsize : ts.clear.timers.size = ts.timers.size := by rw [clear_eq]; exact size_cancelAll _
    simp [hsize, Happening.entered]
  | pass due dead => simp [(takeDue?_inv due).1, Happening.entered]
  | start due here alive => simp [markFired, (takeDue?_inv due).1, Happening.entered]
  | rest idle => simp [Happening.entered]

theorem Next.lt_size_iff (h : Next ts x ts') {n : Nat} :
    n < ts'.timers.size ↔ n < ts.timers.size ∨ n ∈ x.entered := by
  have hrange := congrArg (n ∈ ·) h.range_size
  simpa using hrange

theorem Next.size_le_of_entered (h : Next ts x ts') : ∀ n ∈ x.entered, ts.timers.size ≤ n := by
  intro n hn
  have hnodup := h.range_size ▸ List.nodup_range
  exact Nat.le_of_not_lt fun hlt =>
    (List.nodup_append.1 hnodup).2.2 n (List.mem_range.2 hlt) n hn rfl

/-- Only timers that came in are settled. -/
theorem Next.settles_lt (h : Next ts x ts') (k : ts.Kept) :
    ∀ n ∈ x.settles, n < ts.timers.size := by
  cases h with
  | cancel ns => simp [Happening.settles]
  | clear => exact fun n hn => k.lt_size hn
  | start due here alive =>
    have hlt := (Array.getElem?_eq_some_iff.1 here).1
    simpa [Happening.settles] using hlt
  | _ => simp [Happening.settles]

/-- After a step those wait that waited before and were not settled, and those that came in. -/
theorem Next.mem_waiting (h : Next ts x ts') (k : ts.Kept) {n : Nat} :
    n ∈ ts'.waiting ↔ n ∈ ts.waiting ∧ n ∉ x.settles ∨ n ∈ x.entered := by
  cases h with
  | schedule base delay task =>
    simp [k.mem_waiting_schedule, Happening.settles, Happening.entered, or_comm]
  | cancel ns =>
    rw [k.mem_waiting_cancelAll]
    simp only [Happening.settles, Happening.entered, List.mem_filter, decide_eq_true_eq,
      List.not_mem_nil, or_false]
    refine and_congr_right fun hn => not_congr ⟨fun hm => ⟨hm, ?_⟩, And.left⟩
    exact k.lt_size (mem_waiting.1 hn).1
  | clear =>
    have hserials : n ∈ ts.waiting → n ∈ ts.serials := fun hn => (mem_waiting.1 hn).1
    simpa [Happening.settles, Happening.entered] using hserials
  | pass due dead =>
    rw [k.mem_waiting_takeDue? due]
    simp only [Happening.settles, Happening.entered, List.not_mem_nil, not_false_eq_true, and_true,
      or_false, and_iff_left_iff_imp]
    rintro hn rfl
    obtain ⟨-, t, ht, hc⟩ := k.mem_waiting_iff.1 hn
    simp [dead t ht] at hc
  | start due here alive =>
    have hk := (k.mem_of_takeDue? due).2.1
    rw [(k.takeDue? due).mem_waiting_markFired hk, k.mem_waiting_takeDue? due]
    simp [Happening.settles, Happening.entered]
  | rest idle => simp [Happening.settles, Happening.entered]

/-- Only a timer that waits is started. -/
theorem Next.mem_waiting_of_starts (h : Next ts x ts') (k : ts.Kept) :
    ∀ n ∈ x.starts, n ∈ ts.waiting := by
  cases h with
  | start due here alive =>
    intro n hn
    rw [List.mem_singleton.1 hn]
    exact k.mem_waiting_iff.2 ⟨(k.mem_of_takeDue? due).1, _, here, alive⟩
  | _ => simp [Happening.starts]

/-- A place in the queue is that of a timer, and shows its deadline. -/
def Shown (ts : Timers τ) : Prop :=
  ∀ d ∈ ts.queue, ∃ t, ts.get? d.serial = some t ∧ t.deadline = d.deadline

theorem Next.shown (h : Next ts x ts') (k : ts.Shown) : ts'.Shown := by
  -- a place that stays in the queue shows the deadline that its timer keeps
  have stays {d : Due} (hd : d ∈ ts.queue) :
      ∃ t, ts'.get? d.serial = some t ∧ t.deadline = d.deadline := by
    obtain ⟨t, ht, hdue⟩ := k d hd
    obtain ⟨t', ht', hdue', -⟩ := h.keeps ht
    exact ⟨t', ht', hdue'.trans hdue⟩
  have taken {now : Float} {n : Nat} {ts₁ : Timers τ} (due : ts.takeDue? now = some (n, ts₁))
      {d : Due} (hd : d ∈ ts₁.queue) : d ∈ ts.queue := by
    obtain ⟨_, -, -, -, hp⟩ := takeDue?_top due
    exact Array.mem_toList_iff.1
      (hp.mem_iff.2 (List.mem_cons_of_mem _ (Array.mem_toList_iff.2 hd)))
  intro d hd
  cases h with
  | schedule base delay task =>
    rcases Array.mem_push.1 ((Heap.push_perm Due.before _ _).mem_iff.1 hd) with hd | rfl
    · exact stays hd
    · exact ⟨_, by rw [get?_schedule, if_pos rfl], rfl⟩
  | cancel ns => exact stays (queue_cancelAll ns ▸ hd)
  | clear =>
    rw [clear_eq] at hd
    exact absurd hd (Array.not_mem_empty d)
  | pass due dead => exact stays (taken due hd)
  | start due here alive => exact stays (taken due hd)
  | rest idle => exact stays hd

/-! ## What a history leads to -/

/-- What timers are after a history that began with none. -/
structure Accounted (hs : List (Happening τ)) (ts : Timers τ) : Prop where
  kept : ts.Kept
  shown : ts.Shown
  entered : hs.flatMap Happening.entered = List.range ts.timers.size
  once : (startedIn hs).Nodup
  settled_lt : ∀ n ∈ settled hs, n < ts.timers.size
  mem_waiting : ∀ n, n ∈ ts.waiting ↔ n < ts.timers.size ∧ n ∉ settled hs
  recorded : ∀ n base delay task, .scheduled n base delay task ∈ hs →
    ∃ t, ts.get? n = some t ∧ t.deadline = deadline base delay ∧ t.task = task

theorem accounted_nil : Accounted [] ({} : Timers τ) where
  kept := kept_empty
  shown := fun d hd => absurd hd (Array.not_mem_empty d)
  entered := rfl
  once := List.nodup_nil
  settled_lt := by simp [settled]
  mem_waiting := by simp [waiting]
  recorded := by simp

theorem mem_settled {n : Nat} : n ∈ settled hs ↔ n ∈ startedIn hs ∨ n ∈ calledOffIn hs := by
  simp only [settled, startedIn, calledOffIn, List.mem_flatMap, Happening.settles_eq,
    List.mem_append, and_or_left, exists_or]

/-- A timer that is started was not settled before. -/
theorem Accounted.once_next (a : Accounted hs ts) (h : Next ts x ts') :
    (startedIn (hs ++ [x])).Nodup := by
  have hone : startedIn [x] = x.starts := by simp [startedIn]
  rw [startedIn, List.flatMap_append]
  refine List.nodup_append.2 ⟨a.once, ?_, ?_⟩
  · change (startedIn [x]).Nodup
    rw [hone]
    cases x <;> simp [Happening.starts]
  · rintro n hn m hm rfl
    have hwaits := h.mem_waiting_of_starts a.kept n (hone ▸ hm)
    exact ((a.mem_waiting n).1 hwaits).2 (mem_settled.2 (.inl hn))

theorem mem_settled_concat {n : Nat} :
    n ∈ settled (hs ++ [x]) ↔ n ∈ settled hs ∨ n ∈ x.settles := by
  simp [settled]

/-- Only timers that came in have been settled. -/
theorem Accounted.settled_lt_next (a : Accounted hs ts) (h : Next ts x ts') :
    ∀ n ∈ settled (hs ++ [x]), n < ts'.timers.size := by
  intro n hn
  rw [h.lt_size_iff]
  rcases mem_settled_concat.1 hn with hn | hn
  · exact .inl (a.settled_lt n hn)
  · exact .inl (h.settles_lt a.kept n hn)

/-- Those wait that came in and have not been settled. -/
theorem Accounted.mem_waiting_next (a : Accounted hs ts) (h : Next ts x ts') (n : Nat) :
    n ∈ ts'.waiting ↔ n < ts'.timers.size ∧ n ∉ settled (hs ++ [x]) := by
  rw [h.mem_waiting a.kept, a.mem_waiting, h.lt_size_iff, mem_settled_concat, not_or]
  constructor
  · rintro (⟨⟨hlt, hn⟩, hx⟩ | hn)
    · exact ⟨.inl hlt, hn, hx⟩
    -- what has just come in is newer than all that has been settled
    · have hge := h.size_le_of_entered n hn
      exact ⟨.inr hn, fun hm => absurd (a.settled_lt n hm) (Nat.not_lt.2 hge),
        fun hm => absurd (h.settles_lt a.kept n hm) (Nat.not_lt.2 hge)⟩
  · rintro ⟨hlt | hn, hm, hx⟩
    · exact .inl ⟨⟨hlt, hm⟩, hx⟩
    · exact .inr hn

/-- What was scheduled is there. -/
theorem Accounted.recorded_next (a : Accounted hs ts) (h : Next ts x ts') {n : Nat}
    {base delay : Float} {task : τ} (hmem : .scheduled n base delay task ∈ hs ++ [x]) :
    ∃ t, ts'.get? n = some t ∧ t.deadline = deadline base delay ∧ t.task = task := by
  rcases List.mem_append.1 hmem with hmem | hmem
  · obtain ⟨t, ht, hdue, htask⟩ := a.recorded n base delay task hmem
    obtain ⟨t', ht', hdue', htask'⟩ := h.keeps ht
    exact ⟨t', ht', hdue'.trans hdue, htask'.trans htask⟩
  · cases List.mem_singleton.1 hmem
    cases h with
    | schedule => exact ⟨_, by rw [get?_schedule, if_pos rfl], rfl, rfl⟩

theorem Accounted.next (a : Accounted hs ts) (h : Next ts x ts') : Accounted (hs ++ [x]) ts' where
  kept := h.kept a.kept
  shown := h.shown a.shown
  entered := by simp [a.entered, h.range_size]
  once := a.once_next h
  settled_lt := a.settled_lt_next h
  mem_waiting := a.mem_waiting_next h
  recorded _ _ _ _ := a.recorded_next h

theorem Accounted.history {hs' : List (Happening τ)} (a : Accounted hs ts)
    (h : History ts hs' ts') : Accounted (hs ++ hs') ts' := by
  induction h generalizing hs with
  | still => simpa using a
  | step hx _ ih => simpa using ih (a.next hx)

theorem History.accounted (h : History {} hs ts) : Accounted hs ts := accounted_nil.history h

/-- Every timer was scheduled, with its task and for its deadline. -/
theorem Accounted.exists_scheduled {n : Nat} {t : Timer τ} (a : Accounted hs ts)
    (ht : ts.get? n = some t) :
    ∃ base delay, .scheduled n base delay t.task ∈ hs ∧ t.deadline = deadline base delay := by
  have hlt := (Array.getElem?_eq_some_iff.1 ht).1
  obtain ⟨y, hy, hin⟩ := List.mem_flatMap.1 (a.entered ▸ List.mem_range.2 hlt)
  cases y with
  | scheduled k base delay task =>
    cases List.mem_singleton.1 hin
    obtain ⟨t', ht', hdue, htask⟩ := a.recorded _ _ _ _ hy
    rw [ht] at ht'
    cases ht'
    exact ⟨base, delay, htask ▸ hy, hdue⟩
  | _ => simp [Happening.entered] at hin

/-- A timer that is started was not settled before, and was scheduled with its task for a moment
that has come. -/
theorem Accounted.started {n : Nat} {now : Float} {task : τ} (a : Accounted hs ts)
    (h : Next ts (.started n now task) ts') : n ∉ settled hs ∧ ∃ base delay,
      .scheduled n base delay task ∈ hs ∧ deadline base delay ≤ now := by
  have hwaits := h.mem_waiting_of_starts a.kept n List.mem_cons_self
  refine ⟨((a.mem_waiting n).1 hwaits).2, ?_⟩
  cases h with
  | start due here alive =>
    obtain ⟨base, delay, hmem, hdue⟩ := a.exists_scheduled here
    obtain ⟨d, htop, rfl, hle, -⟩ := takeDue?_top due
    obtain ⟨t, ht, hshown⟩ := a.shown d (Array.mem_of_getElem? htop)
    rw [here] at ht
    cases ht
    exact ⟨base, delay, hmem, by rwa [← hdue, hshown]⟩

end PianoRoll.Timers
