import Mathlib.Data.Prod.Lex
import PianoRoll.Proofs.Heap
import PianoRoll.Proofs.Number.Worth
import PianoRoll.Proofs.Playback.Waiting

/-!
The order in which timers leave the queue. A place ranks by what its deadline is worth, then by its
serial number. A queue is in line (`Lines`) if it holds the given places, by rank, and what is taken
out of it is the first of them, once its moment has come.
-/

namespace PianoRoll

open Number

noncomputable def Due.rank (d : Due) : EReal ×ₗ ℕ := toLex (worth d.deadline, d.serial)

theorem Due.rank_lt {a b : Due} : a.rank < b.rank ↔
    worth a.deadline < worth b.deadline ∨
      worth a.deadline = worth b.deadline ∧ a.serial < b.serial := Prod.Lex.toLex_lt_toLex

theorem Due.before_iff {a b : Due} (ha : Numeric a.deadline) (hb : Numeric b.deadline) :
    a.before b = true ↔ a.rank < b.rank := by
  rw [Due.before, rank_lt]
  split
  · next heq =>
    have hworth := (beq_iff ha hb).1 heq
    simp [hworth]
  · next hne =>
    have hworth : worth a.deadline ≠ worth b.deadline := fun h => hne ((beq_iff ha hb).2 h)
    simp [hworth, lt_iff ha hb]

/-- Of two places, the one with the earlier deadline, or with the smaller number at the same
moment, ranks first. -/
theorem Due.rank_lt_of_le {a b : Due} (hd : worth a.deadline ≤ worth b.deadline)
    (hs : a.serial < b.serial) : a.rank < b.rank :=
  rank_lt.2 (hd.lt_or_eq.imp_right fun h => ⟨h, hs⟩)

namespace Timers

variable {τ : Type} {ts : Timers τ}

/-- A queue in order, with a number for each deadline. -/
structure Ranked (ts : Timers τ) : Prop where
  numeric : ∀ d ∈ ts.queue, Numeric d.deadline
  ordered : Heap.Ordered Due.rank ts.queue

theorem ranked_empty : Ranked ({} : Timers τ) :=
  ⟨fun d h => absurd h (Array.not_mem_empty d), fun _ _ _ _ hx => by cases hx⟩

theorem Ranked.agrees (h : ts.Ranked) : Heap.Agrees Due.before Due.rank ts.queue :=
  fun x hx y hy => Due.before_iff (h.numeric x hx) (h.numeric y hy)

theorem Ranked.schedule (h : ts.Ranked) {m : Float} (hm : Numeric m) (x : τ) :
    (ts.schedule m x).2.Ranked := by
  have hnum : ∀ d ∈ ts.queue.push ⟨m, ts.timers.size⟩, Numeric d.deadline := by
    intro d hd
    rcases Array.mem_push.1 hd with hd | rfl
    · exact h.numeric d hd
    · exact hm
  refine ⟨fun d hd => hnum d ((Heap.push_perm Due.before _ _).mem_iff.1 hd), ?_⟩
  exact Heap.ordered_push _ (fun x hx y hy => Due.before_iff (hnum x hx) (hnum y hy)) h.ordered

theorem Ranked.enter (h : ts.Ranked) {tasks : List (Float × τ)}
    (hm : ∀ m ∈ tasks, Numeric m.1) : (ts.enter tasks).Ranked := by
  induction tasks generalizing ts with
  | nil => exact h
  | cons m tasks ih =>
    have hfirst := h.schedule (hm m List.mem_cons_self) m.2
    exact ih hfirst fun m' hm' => hm m' (List.mem_cons_of_mem _ hm')

structure Lines (ts : Timers τ) (line : List Due) : Prop extends Ranked ts where
  perm : ts.queue.toList.Perm line
  sorted : line.Pairwise fun a b => a.rank < b.rank

theorem Lines.takeDue?_nil (h : ts.Lines []) (now : Float) : ts.takeDue? now = none := by
  have hq : ts.queue = #[] := Array.toList_eq_nil_iff.1 h.perm.eq_nil
  rw [takeDue?, hq]
  rfl

/-- The first in line stands on top. -/
theorem Lines.top {d : Due} {line : List Due} (h : ts.Lines (d :: line)) :
    ts.queue[0]? = some d := by
  have hd : d ∈ ts.queue := Array.mem_toList_iff.1 (h.perm.mem_iff.2 List.mem_cons_self)
  obtain ⟨i, hi, rfl⟩ := Array.getElem_of_mem hd
  have h0 : 0 < ts.queue.size := by omega
  have hle : (ts.queue[0]).rank ≤ (ts.queue[i]).rank :=
    h.ordered.top i _ _ (Array.getElem?_eq_getElem h0) (Array.getElem?_eq_getElem hi)
  have hmem : ts.queue[0] ∈ ts.queue[i] :: line :=
    h.perm.mem_iff.1 (Array.mem_toList_iff.2 (Array.getElem_mem h0))
  rcases List.mem_cons.1 hmem with heq | hin
  · rw [Array.getElem?_eq_getElem h0, heq]
  · exact absurd ((List.pairwise_cons.1 h.sorted).1 _ hin) (not_lt_of_ge hle)

theorem Lines.takeDue?_later {d : Due} {line : List Due} (h : ts.Lines (d :: line)) {now : Float}
    (later : ¬ d.deadline ≤ now) : ts.takeDue? now = none := by
  rw [takeDue?, h.top]
  exact if_neg later

/-- The first in line is taken out when its moment has come. -/
theorem Lines.takeDue?_due {d : Due} {line : List Due} (h : ts.Lines (d :: line)) {now : Float}
    (due : d.deadline ≤ now) : ∃ q, ts.takeDue? now = some (d.serial, { ts with queue := q }) ∧
      Lines { ts with queue := q } line := by
  have hsize : 0 < ts.queue.size := (Array.getElem?_eq_some_iff.1 h.top).1
  obtain ⟨x, q, hpop⟩ := Heap.pop?_isSome Due.before hsize
  obtain ⟨hx, hq⟩ := Heap.ordered_pop? h.agrees h.ordered hpop
  rw [h.top] at hx
  cases hx
  have hperm := Heap.toList_perm_pop? hpop
  refine ⟨q, ?_, ⟨fun y hy => h.numeric y ?_, hq⟩, ?_, (List.pairwise_cons.1 h.sorted).2⟩
  · rw [takeDue?, h.top]
    dsimp only
    rw [if_pos due, hpop]
    rfl
  · exact Array.mem_toList_iff.1
      (hperm.mem_iff.2 (List.mem_cons_of_mem _ (Array.mem_toList_iff.2 hy)))
  · exact (hperm.symm.trans h.perm).cons_inv

end Timers

end PianoRoll
