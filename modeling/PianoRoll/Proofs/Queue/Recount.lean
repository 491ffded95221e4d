import PianoRoll.Proofs.Queue.History

/-!
Recounting what an act does to the timers. A recount follows the act, and follows the pump from one
timer to the next and into the task of each timer that it starts, so that what callbacks do stands
in it where they do it. A recount is of what has happened (`Recounts.on`), and it is a history of
the timers (`Recounts.history`). Acts that use the timers by scheduling, cancelling, clearing and
pumping alone can be recounted (`Tell`).
-/

namespace PianoRoll.Studio

open Work Timers

/-! ## One step of a pump -/

section Pumping

variable {h : Hooks} {now : Float} {n fired serial : Nat} {b : Bench Studio} {ts : Timers Task}

def left (ts : Timers Task) (b : Bench Studio) : Bench Studio :=
  ⟨{ b.part with timers := ts }, b.journal⟩

theorem left_timers : (left ts b).part.timers = ts := rfl

theorem drain_rest (idle : b.part.timers.takeDue? now = none) :
    (drain h now (n + 1) fired).on b = some (.ok fired, b) := by
  rw [drain, on_bind_ok (on_look b), idle]
  rfl

/-- What has left the queue is fired, and then the pump goes on. -/
theorem drain_take (due : b.part.timers.takeDue? now = some (serial, ts)) :
    (drain h now (n + 1) fired).on b = (fire h serial >>= fun did =>
      drain h now n (if did then fired + 1 else fired)).on (left ts b) := by
  rw [drain, on_bind_ok (on_look b), due]
  change (change _ >>= fun _ => _).on b = _
  rw [on_bind_ok (on_change _ b)]
  rfl

/-- Timers that were cancelled are passed over. -/
theorem drain_pass (due : b.part.timers.takeDue? now = some (serial, ts))
    (dead : ∀ t, b.part.timers.get? serial = some t → t.cancelled = true) :
    (drain h now (n + 1) fired).on b = (drain h now n fired).on (left ts b) := by
  have same := get?_congr (takeDue?_inv due).1 serial
  have hfire : (fire h serial).on (left ts b) = some (.ok false, left ts b) := by
    rw [fire, on_bind_ok (on_look _), left_timers]
    cases hg : ts.get? serial with
    | none => rfl
    | some t =>
      have hc := dead t (same ▸ hg)
      simp [hc, on_pure]
  rw [drain_take due, on_bind_ok hfire]
  rfl

/-- A timer that was not cancelled does its task, and if that ends well, the pump goes on. -/
theorem drain_start {t : Timer Task} (due : b.part.timers.takeDue? now = some (serial, ts))
    (here : b.part.timers.get? serial = some t) (alive : t.cancelled = false) :
    (drain h now (n + 1) fired).on b = (runTask h serial t.task >>= fun _ =>
      drain h now n (fired + 1)).on (left (ts.markFired serial) b) := by
  have same : ts.get? serial = some t := (get?_congr (takeDue?_inv due).1 serial).trans here
  have hfire : (fire h serial).on (left ts b) = (runTask h serial t.task >>= fun _ =>
      pure true).on (left (ts.markFired serial) b) := by
    rw [fire, on_bind_ok (on_look _), left_timers, same]
    simp only [alive, Bool.false_eq_true, if_false]
    rw [on_bind_ok (on_change _ _)]
    rfl
  rw [drain_take due, on_bind, hfire, on_bind, on_bind]
  cases (runTask h serial t.task).on (left (ts.markFired serial) b) with
  | none => rfl
  | some q =>
    obtain ⟨r, b₁⟩ := q
    cases r <;> rfl

/-- Everything one step of a pump can do. -/
theorem drain_cases {r : Except Fault Nat} {b' : Bench Studio}
    (hp : (drain h now (n + 1) fired).on b = some (r, b')) :
    (b.part.timers.takeDue? now = none ∧ r = .ok fired ∧ b' = b) ∨
    (∃ serial ts, b.part.timers.takeDue? now = some (serial, ts) ∧
      (∀ t, b.part.timers.get? serial = some t → t.cancelled = true) ∧
      (drain h now n fired).on (left ts b) = some (r, b')) ∨
    ∃ serial ts t, b.part.timers.takeDue? now = some (serial, ts) ∧
      b.part.timers.get? serial = some t ∧ t.cancelled = false ∧
      (runTask h serial t.task >>= fun _ => drain h now n (fired + 1)).on
        (left (ts.markFired serial) b) = some (r, b') := by
  cases hd : b.part.timers.takeDue? now with
  | none =>
    rw [drain_rest hd] at hp
    cases hp
    exact .inl ⟨rfl, rfl, rfl⟩
  | some q =>
    obtain ⟨serial, ts⟩ := q
    by_cases alive : ∃ t, b.part.timers.get? serial = some t ∧ t.cancelled = false
    · obtain ⟨t, here, alive⟩ := alive
      rw [drain_start hd here alive] at hp
      exact .inr (.inr ⟨serial, ts, t, rfl, here, alive, hp⟩)
    · have dead : ∀ t, b.part.timers.get? serial = some t → t.cancelled = true := by
        simpa using alive
      rw [drain_pass hd dead] at hp
      exact .inr (.inl ⟨serial, ts, rfl, dead, hp⟩)

/-- What is kept as cancelled timers leave the queue and as others do their task is kept by a
pump. -/
theorem leads_drain {I : Studio → Prop}
    (passes : ∀ ⦃b : Bench Studio⦄ ⦃serial ts⦄, I b.part →
      b.part.timers.takeDue? now = some (serial, ts) →
      (∀ t, b.part.timers.get? serial = some t → t.cancelled = true) → I (left ts b).part)
    (runs : ∀ ⦃b b' : Bench Studio⦄ ⦃serial ts t⦄ ⦃r : Except Fault Unit⦄, I b.part →
      b.part.timers.takeDue? now = some (serial, ts) → b.part.timers.get? serial = some t →
      t.cancelled = false →
      (runTask h serial t.task).on (left (ts.markFired serial) b) = some (r, b') → I b'.part)
    (n fired : Nat) : Leads (fun s s' => I s → I s') (drain h now n fired) := by
  induction n generalizing fired with
  | zero => exact leads_giveUp
  | succ n ih =>
    intro b r b' hp hb
    rcases drain_cases hp with ⟨-, -, rfl⟩ | ⟨serial, ts, due, dead, rest⟩ |
      ⟨serial, ts, t, due, here, alive, rest⟩
    · exact hb
    · exact ih fired rest (passes hb due dead)
    · rcases on_bind_inv rest with ⟨_, b₁, h₁, h₂⟩ | ⟨e, h₁, -⟩
      · exact ih _ h₂ (runs hb due here alive h₁)
      · exact runs hb due here alive h₁

end Pumping

/-! ## Recounts -/

/-- What an act that is done on a bench does to the timers on the way to its result. -/
inductive Recounts : {α : Type} → Act α → Bench Studio → List (Happening Task) →
    Except Fault α → Bench Studio → Prop
  /-- The act leaves the timers alone. -/
  | aside {α : Type} {p : Act α} {b b' : Bench Studio} {r : Except Fault α}
      (done : p.on b = some (r, b')) (same : b'.part.timers = b.part.timers) :
      Recounts p b [] r b'
  | bind {α β : Type} {p : Act α} {f : α → Act β} {b b₁ b' : Bench Studio} {a : α}
      {r : Except Fault β} {hs hs' : List (Happening Task)} :
      Recounts p b hs (.ok a) b₁ → Recounts (f a) b₁ hs' r b' →
      Recounts (p >>= f) b (hs ++ hs') r b'
  | cut {α β : Type} {p : Act α} {f : α → Act β} {b b' : Bench Studio} {e : Fault}
      {hs : List (Happening Task)} :
      Recounts p b hs (.error e) b' → Recounts (p >>= f) b hs (.error e) b'
  | keep {α : Type} {p : Act α} {f : Fault → Act α} {b b' : Bench Studio} {a : α}
      {hs : List (Happening Task)} :
      Recounts p b hs (.ok a) b' → Recounts (tryCatch p f) b hs (.ok a) b'
  | rescue {α : Type} {p : Act α} {f : Fault → Act α} {b b₁ b' : Bench Studio} {e : Fault}
      {r : Except Fault α} {hs hs' : List (Happening Task)} :
      Recounts p b hs (.error e) b₁ → Recounts (f e) b₁ hs' r b' →
      Recounts (tryCatch p f) b (hs ++ hs') r b'
  | schedule (base delay : Float) (task : Task) (b : Bench Studio) :
      Recounts (schedule (deadline base delay) task) b
        [.scheduled b.part.timers.timers.size base delay task] (.ok b.part.timers.timers.size)
        (left (b.part.timers.schedule (deadline base delay) task).2 b)
  | cancel (f : Studio → Studio) (ns : List Nat) (b : Bench Studio)
      (timers : (f b.part).timers = b.part.timers.cancelAll ns) :
      Recounts (change f) b [.cancelled (ns.filter (· < b.part.timers.timers.size))] (.ok ())
        ⟨f b.part, b.journal⟩
  | clear (f : Studio → Studio) (b : Bench Studio)
      (timers : (f b.part).timers = b.part.timers.clear) :
      Recounts (change f) b [.cleared b.part.timers.serials] (.ok ()) ⟨f b.part, b.journal⟩
  /-- A pump finds nothing that is due. -/
  | rest {h : Hooks} {now : Float} {n fired : Nat} {b : Bench Studio}
      (idle : b.part.timers.takeDue? now = none) :
      Recounts (drain h now (n + 1) fired) b [.rested now] (.ok fired) b
  /-- A pump passes over a timer that was cancelled, and goes on. -/
  | pass {h : Hooks} {now : Float} {n fired serial : Nat} {b b' : Bench Studio}
      {ts : Timers Task} {r : Except Fault Nat} {hs : List (Happening Task)}
      (due : b.part.timers.takeDue? now = some (serial, ts))
      (dead : ∀ t, b.part.timers.get? serial = some t → t.cancelled = true) :
      Recounts (drain h now n fired) (left ts b) hs r b' →
      Recounts (drain h now (n + 1) fired) b (.passed serial :: hs) r b'
  /-- A pump starts a timer, which does its task, and then the pump goes on. -/
  | start {h : Hooks} {now : Float} {n fired serial : Nat} {b b' : Bench Studio}
      {t : Timer Task} {ts : Timers Task} {r : Except Fault Nat} {hs : List (Happening Task)}
      (due : b.part.timers.takeDue? now = some (serial, ts))
      (here : b.part.timers.get? serial = some t) (alive : t.cancelled = false) :
      Recounts (runTask h serial t.task >>= fun _ => drain h now n (fired + 1))
        (left (ts.markFired serial) b) hs r b' →
      Recounts (drain h now (n + 1) fired) b (.started serial now t.task :: hs) r b'

section

variable {α : Type} {p : Act α} {b b' : Bench Studio} {r : Except Fault α}
  {hs : List (Happening Task)}

/-- A recount is of what has happened. -/
theorem Recounts.on (rec : Recounts p b hs r b') : p.on b = some (r, b') := by
  induction rec with
  | aside done same => exact done
  | bind _ _ ih₁ ih₂ => rw [on_bind_ok ih₁, ih₂]
  | cut _ ih => exact on_bind_error ih
  | keep _ ih => rw [on_tryCatch, ih]; rfl
  | rescue _ _ ih₁ ih₂ => rw [on_tryCatch, ih₁]; exact ih₂
  | schedule base delay task b =>
    rw [Studio.schedule, on_bind_ok (on_look b)]
    rfl
  | cancel f ns b timers => exact on_change f b
  | clear f b timers => exact on_change f b
  | rest idle => exact drain_rest idle
  | pass due dead _ ih => rw [drain_pass due dead, ih]
  | start due here alive _ ih => rw [drain_start due here alive, ih]

/-- What is recounted is a history of the timers. -/
theorem Recounts.history (rec : Recounts p b hs r b') :
    History b.part.timers hs b'.part.timers := by
  induction rec with
  | aside done same => rw [same]; exact .still _
  | bind _ _ ih₁ ih₂ => exact ih₁.append ih₂
  | cut _ ih => exact ih
  | keep _ ih => exact ih
  | rescue _ _ ih₁ ih₂ => exact ih₁.append ih₂
  | schedule base delay task b => exact .one (.schedule base delay task)
  | cancel f ns b timers =>
    have hnext : Next b.part.timers _ _ := .cancel ns
    rw [← timers] at hnext
    exact .one hnext
  | clear f b timers =>
    have hnext : Next b.part.timers _ _ := .clear
    rw [← timers] at hnext
    exact .one hnext
  | rest idle => exact .one (.rest idle)
  | pass due dead _ ih => exact .step (.pass due dead) ih
  | start due here alive _ ih => exact .step (.start due here alive) ih

end

/-! ## Acts that can be recounted -/

/-- Whatever the act comes to, it can be recounted what it does to the timers. -/
def Tell {α : Type} (p : Act α) : Prop :=
  ∀ ⦃b r b'⦄, p.on b = some (r, b') → ∃ hs, Recounts p b hs r b'

/-- Callbacks that use the timers by scheduling, cancelling, clearing and pumping alone. -/
structure Timely (h : Hooks) : Prop where
  hear : ∀ l e, Tell (h.hear l e)
  run : ∀ name program, Tell (h.run name program)

end PianoRoll.Studio
