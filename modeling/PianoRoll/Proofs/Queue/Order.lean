import PianoRoll.Proofs.Number.Quotient
import PianoRoll.Proofs.Playback.Deadlines
import PianoRoll.Proofs.Queue.Acts

/-!
The order in which timers are started. As long as the clock is finite, every delay makes a deadline
that is a number, so the queue stays in order whatever is scheduled, cancelled and started in
between: a timer that is started comes before all others that wait at that moment, and a pump that
comes to rest has left none behind whose moment has come.
-/

namespace PianoRoll

open Number

namespace Timers

variable {τ : Type} {ts ts' : Timers τ} {hs : List (Happening τ)} {x : Happening τ}

/-! ## Deadlines -/

/-- From a finite moment every delay leads to a moment, even one that is infinite or no number. -/
theorem numeric_deadline {base : Float} (h : isFinite base = true) (delay : Float) :
    Numeric (deadline base delay) := by
  obtain ⟨hnum, hbot, htop⟩ := worth_finite h
  refine numeric_add hnum (numeric_pause delay) ?_
  rintro (⟨heq, -⟩ | ⟨heq, -⟩)
  · exact htop.ne heq
  · exact hbot.ne' heq

theorem isNaN_of_numeric {x : Float} (h : Numeric x) : x.isNaN = false := by
  change x.toModel.unpack.isNaN = false
  unfold Numeric at h
  generalize x.toModel.unpack = u at h
  cases h <;> rfl

/-! ## The queue stays in order -/

theorem Ranked.takeDue? {now : Float} {n : Nat} (r : ts.Ranked)
    (due : ts.takeDue? now = some (n, ts')) : ts'.Ranked := by
  unfold Timers.takeDue? at due
  split at due
  · cases due
  · split at due
    · obtain ⟨⟨d, q⟩, hpop, h⟩ := Option.map_eq_some_iff.1 due
      cases h
      have hperm := Heap.toList_perm_pop? hpop
      refine ⟨fun y hy => r.numeric y ?_, (Heap.ordered_pop? r.agrees r.ordered hpop).2⟩
      exact Array.mem_toList_iff.1
        (hperm.mem_iff.2 (List.mem_cons_of_mem _ (Array.mem_toList_iff.2 hy)))
    · cases due

theorem Ranked.of_queue (r : ts.Ranked) (same : ts'.queue = ts.queue) : ts'.Ranked := by
  obtain ⟨numeric, ordered⟩ := r
  rw [← same] at numeric ordered
  exact ⟨numeric, ordered⟩

/-- Timers that were all set while the clock was finite, whatever the delays. -/
def Clocked (ts : Timers τ) : Prop :=
  ∀ t ∈ ts.timers, ∃ base delay, isFinite base = true ∧ t.deadline = deadline base delay

theorem clocked_of_deadlines {moments : List (Float × Float)}
    (h : ts.timers.toList.map Timer.deadline = moments.map fun m => deadline m.1 m.2)
    (finite : ∀ m ∈ moments, isFinite m.1 = true) : ts.Clocked := by
  intro t ht
  have hmem : t.deadline ∈ ts.timers.toList.map Timer.deadline :=
    List.mem_map_of_mem (Array.mem_toList_iff.2 ht)
  rw [h] at hmem
  obtain ⟨m, hm, hdue⟩ := List.mem_map.1 hmem
  exact ⟨m.1, m.2, finite m hm, hdue.symm⟩

theorem Clocked.numeric (c : ts.Clocked) {n : Nat} {t : Timer τ} (ht : ts.get? n = some t) :
    Numeric t.deadline := by
  obtain ⟨base, delay, hbase, hdue⟩ := c t (Array.mem_of_getElem? ht)
  rw [hdue]
  exact numeric_deadline hbase delay

/-- Timers of which later ones were set while the clock was finite were so themselves. -/
theorem Next.clocked (h : Next ts x ts') (c : ts'.Clocked) : ts.Clocked := by
  intro t ht
  obtain ⟨n, hn, rfl⟩ := Array.getElem_of_mem ht
  obtain ⟨t', ht', hdue, -⟩ := h.keeps (Array.getElem?_eq_getElem hn)
  obtain ⟨base, delay, hbase, hdue'⟩ := c t' (Array.mem_of_getElem? ht')
  exact ⟨base, delay, hbase, hdue.symm.trans hdue'⟩

theorem History.clocked (h : History ts hs ts') (c : ts'.Clocked) : ts.Clocked := by
  induction h with
  | still => exact c
  | step hx _ ih => exact hx.clocked (ih c)

/-- Whatever is done to timers while the clock is finite, their queue stays in order. -/
theorem Next.ranked (h : Next ts x ts') (r : ts.Ranked) (c : ts'.Clocked) : ts'.Ranked := by
  cases h with
  | schedule base delay task =>
    have here : (ts.schedule (deadline base delay) task).2.get? ts.timers.size =
        some ⟨deadline base delay, task, false, false⟩ := by rw [get?_schedule, if_pos rfl]
    exact r.schedule (c.numeric here) task
  | cancel ns => exact r.of_queue (queue_cancelAll ns)
  | clear =>
    rw [clear_eq]
    exact (ranked_empty (τ := τ)).of_queue rfl
  | pass due dead => exact r.takeDue? due
  | start due here alive => exact (r.takeDue? due).of_queue rfl
  | rest idle => exact r

theorem History.ranked (h : History ts hs ts') (r : ts.Ranked) (c : ts'.Clocked) :
    ts'.Ranked := by
  induction h with
  | still => exact r
  | step hx h ih => exact ih (hx.ranked r (h.clocked c)) c

/-! ## Who is started -/

/-- Of two timers the first is due before the second, or at the same moment and was scheduled
before it. -/
def Precedes (ts : Timers τ) (n m : Nat) : Prop :=
  ∃ t u, ts.get? n = some t ∧ ts.get? m = some u ∧
    (t.deadline < u.deadline ∨ (t.deadline == u.deadline) = true ∧ n < m)

/-- A timer that waits, and comes before all others that wait. -/
structure First (ts : Timers τ) (n : Nat) : Prop where
  waits : n ∈ ts.waiting
  precedes : ∀ m ∈ ts.waiting, m ≠ n → ts.Precedes n m

theorem Precedes.asymm {n m : Nat} (h : ts.Precedes n m) : ¬ ts.Precedes m n := by
  rintro ⟨u', t', hu', ht', h'⟩
  obtain ⟨t, u, ht, hu, h⟩ := h
  obtain rfl : t = t' := Option.some.inj (ht.symm.trans ht')
  obtain rfl : u = u' := Option.some.inj (hu.symm.trans hu')
  have apart {x y : Float} (hlt : x < y) : ¬ (y == x) = true := fun heq =>
    (worth_lt hlt).ne' ((beq_iff (numeric_of_lt hlt).2 (numeric_of_lt hlt).1).1 heq)
  rcases h with hlt | ⟨heq, hnm⟩ <;> rcases h' with hlt' | ⟨heq', hmn⟩
  · exact lt_asymm (worth_lt hlt) (worth_lt hlt')
  · exact apart hlt heq'
  · exact apart hlt' heq
  · exact lt_asymm hnm hmn

/-- No two timers come first. -/
theorem First.unique {n m : Nat} (hn : ts.First n) (hm : ts.First m) : n = m := by
  by_contra hne
  exact (hn.precedes m hm.waits (Ne.symm hne)).asymm (hm.precedes n hn.waits hne)

theorem exists_place {n : Nat} (hn : n ∈ ts.waiting) : ∃ d ∈ ts.queue, d.serial = n := by
  obtain ⟨d, hd, hs⟩ := List.mem_map.1 (mem_waiting.1 hn).1
  exact ⟨d, Array.mem_toList_iff.1 hd, hs⟩

/-- Nothing in the queue ranks before the place on top. -/
theorem Ranked.rank_top_le (r : ts.Ranked) {top d : Due} (htop : ts.queue[0]? = some top)
    (hd : d ∈ ts.queue) : top.rank ≤ d.rank := by
  obtain ⟨i, hi, rfl⟩ := Array.getElem_of_mem hd
  exact r.ordered.top i _ _ htop (Array.getElem?_eq_getElem hi)

/-- A timer on top of the queue comes before all others that wait. -/
theorem Ranked.precedes_of_top (r : ts.Ranked) (shown : ts.Shown) {top : Due}
    (htop : ts.queue[0]? = some top) {m : Nat} (hm : m ∈ ts.waiting) (hne : m ≠ top.serial) :
    ts.Precedes top.serial m := by
  have htop' := Array.mem_of_getElem? htop
  obtain ⟨d, hd, rfl⟩ := exists_place hm
  obtain ⟨t, ht, htd⟩ := shown top htop'
  obtain ⟨u, hu, hud⟩ := shown d hd
  refine ⟨t, u, ht, hu, ?_⟩
  rw [htd, hud, lt_iff (r.numeric top htop') (r.numeric d hd),
    beq_iff (r.numeric top htop') (r.numeric d hd)]
  refine Due.rank_lt.1 (lt_of_le_of_ne (r.rank_top_le htop hd) fun heq => hne ?_)
  exact (congrArg (fun k => (ofLex k).2) heq).symm

/-- A timer that is started is the first of those that wait. -/
theorem Next.first {n : Nat} {now : Float} {task : τ} (h : Next ts (.started n now task) ts')
    (k : ts.Kept) (shown : ts.Shown) (r : ts.Ranked) : ts.First n := by
  refine ⟨h.mem_waiting_of_starts k n List.mem_cons_self, fun m hm hne => ?_⟩
  cases h with
  | start due here alive =>
    obtain ⟨top, htop, rfl, -, -⟩ := takeDue?_top due
    exact r.precedes_of_top shown htop hm hne

/-- When nothing is due, no timer waits whose moment has come. -/
theorem Ranked.not_due (r : ts.Ranked) (shown : ts.Shown) {now : Float}
    (idle : ts.takeDue? now = none) {n : Nat} {t : Timer τ} (hn : n ∈ ts.waiting)
    (ht : ts.get? n = some t) : ¬ t.deadline ≤ now := by
  intro hle
  obtain ⟨d, hd, rfl⟩ := exists_place hn
  obtain ⟨t', ht', htd⟩ := shown d hd
  rw [ht] at ht'
  cases ht'
  rw [htd] at hle
  have hsize : 0 < ts.queue.size := Array.size_pos_of_mem hd
  have htop := Array.getElem?_eq_getElem hsize
  have hworth : worth ts.queue[0].deadline ≤ worth d.deadline := by
    rcases Prod.Lex.toLex_le_toLex.1 (r.rank_top_le htop hd) with hlt | ⟨heq, -⟩
    · exact hlt.le
    · exact heq.le
  have hdue : ts.queue[0].deadline ≤ now :=
    (le_iff (r.numeric _ (Array.getElem_mem hsize)) (numeric_of_le hle).2).2
      (hworth.trans (worth_le hle))
  obtain ⟨top, q, hpop⟩ := Heap.pop?_isSome Due.before hsize
  rw [Timers.takeDue?, htop] at idle
  simp [hdue, hpop] at idle

end Timers

namespace Studio

open Work Timers

/-- A pump that ends well leaves nothing in the queue that is due. -/
theorem idle_of_drain {h : Hooks} {now : Float} {n fired k : Nat} {b b' : Bench Studio}
    (hp : (drain h now n fired).on b = some (.ok k, b')) : b'.part.timers.takeDue? now = none := by
  induction n generalizing fired b with
  | zero => cases hp
  | succ n ih =>
    rcases drain_cases hp with ⟨idle, -, rfl⟩ | ⟨serial, ts, due, dead, rest⟩ |
      ⟨serial, ts, t, due, here, alive, rest⟩
    · exact idle
    · exact ih rest
    · rcases on_bind_inv rest with ⟨_, b₁, -, rest⟩ | ⟨e, -, h⟩
      · exact ih rest
      · cases h

theorem idle_of_pump {h : Hooks} {now : Option Float} {k : Nat} {b b' : Bench Studio}
    (hp : (pump h now).on b = some (.ok k, b')) :
    b'.part.timers.takeDue? (now.getD b.part.clock) = none := by
  rw [pump, on_bind_ok (moment_on now b)] at hp
  exact idle_of_drain hp

/-- A pump on timers that have come about in any way while the clock was finite: whatever delays
were given, all deadlines are numbers; whatever is started in the pump, by itself or by another one
that its callbacks call for, is the first of those that wait at that moment; and when the pump ends
well, nothing waits any more whose moment has come. -/
theorem starts_in_order {h : Hooks} (timely : Timely h) {now : Option Float} {b b' : Bench Studio}
    {r : Except Fault Nat} {before : List (Happening Task)}
    (reached : History {} before b.part.timers) (hrun : (pump h now).on b = some (r, b'))
    (clocked : b'.part.timers.Clocked) :
    (∀ t ∈ b'.part.timers.timers, t.deadline.isNaN = false) ∧
    (∃ hs, Recounts (pump h now) b hs r b' ∧
      ∀ pre n moment task post, hs = pre ++ .started n moment task :: post →
        ∃ ts, History b.part.timers pre ts ∧ ts.First n) ∧
    ∀ k, r = .ok k → ∀ n ∈ b'.part.timers.waiting, ∀ t, b'.part.timers.get? n = some t →
      ¬ t.deadline ≤ now.getD b.part.clock := by
  obtain ⟨hs, rec⟩ := (Tell.operates timely).pump now hrun
  have whole := reached.append rec.history
  refine ⟨fun t ht => ?_, ⟨hs, rec, ?_⟩, ?_⟩
  · obtain ⟨n, hn, rfl⟩ := Array.getElem_of_mem ht
    exact isNaN_of_numeric (clocked.numeric (Array.getElem?_eq_getElem hn))
  · rintro pre n moment task post rfl
    obtain ⟨ts, h₁, h₂⟩ := rec.history.split
    have until_then := reached.append h₁
    have ranked := until_then.ranked ranked_empty (h₂.clocked clocked)
    cases h₂ with
    | step hx _ =>
      exact ⟨ts, h₁, hx.first until_then.accounted.kept until_then.accounted.shown ranked⟩
  · rintro k rfl n hn t ht
    have ranked := whole.ranked ranked_empty clocked
    exact ranked.not_due whole.accounted.shown (idle_of_pump hrun) hn ht

/-- Two programs that wait, of which the one that is due first schedules a third one before the
other and pumps again. -/
def nested : Timers Task :=
  ((({} : Timers Task).schedule (deadline 0 1000) (.program "late" [])).2.schedule (deadline 0 500)
    (.program "early" [.schedule "between" 200 (some 0) [], .pump (some 1)])).2

theorem starts_in_order_nested : ∃ (b' : Bench Studio) (r : Except Fault Nat)
    (hs : List (Happening Task)),
    (pump (scriptedHooks (perform 9) 9) (some 2)).on ⟨{ timers := nested }, []⟩ = some (r, b') ∧
      (∀ t ∈ b'.part.timers.timers, t.deadline.isNaN = false) ∧
      Recounts (pump (scriptedHooks (perform 9) 9) (some 2)) ⟨{ timers := nested }, []⟩ hs r b' ∧
      ∀ pre n moment task post, hs = pre ++ .started n moment task :: post →
        ∃ ts, History nested pre ts ∧ ts.First n := by
  have deadlines : ((pump (scriptedHooks (perform 9) 9) (some 2)).on
      ⟨{ timers := nested }, []⟩).map (fun q => q.2.part.timers.timers.toList.map Timer.deadline) =
        some ([(0, 1000), (0, 500), (0, 200)].map fun m => deadline m.1 m.2) := by
    decide +kernel
  obtain ⟨⟨r, b'⟩, hrun, hdue⟩ := Option.map_eq_some_iff.1 deadlines
  have reached : History {} _ nested := .step (.schedule 0 1000 _) (.one (.schedule 0 500 _))
  obtain ⟨numbers, ⟨hs, rec, first⟩, -⟩ := starts_in_order (timely_scripted 9) reached hrun
    (clocked_of_deadlines hdue (by decide +kernel))
  exact ⟨b', r, hs, hrun, numbers, rec, first⟩

end Studio

end PianoRoll
