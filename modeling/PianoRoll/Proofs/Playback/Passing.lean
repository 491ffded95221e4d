import PianoRoll.Proofs.Playback.Undisturbed

/-!
How the line of waiting timers passes. Every place in the queue stands for a trigger of the run or,
after its timer was cancelled, for nothing (`Slot`). While nobody disturbs the run, a pump takes
from the front of the line what is due, asks for the sounds of its triggers in their order, and
leaves the rest of the line as it was (`drain_on`); so do any pumps, one after the other
(`pumpAll_on`).
-/

namespace PianoRoll

open Studio Work Number

/-- A place in the queue with the trigger that it stands for, if its timer was not cancelled. -/
structure Slot where
  due : Due
  trigger : Option Trigger

def live (line : List Slot) : List Trigger := line.filterMap Slot.trigger

theorem live_cons (x : Slot) (line : List Slot) :
    live (x :: line) = x.trigger.toList ++ live line := by
  cases h : x.trigger <;> simp [live, h]

/-- Slots that stand for nothing do not count. -/
theorem live_filter (line : List Slot) :
    live (line.filter fun x => x.trigger.isSome) = live line := by
  rw [live, live, List.filterMap_filter]
  congr 1
  funext x
  cases x.trigger <;> rfl

def Slot.Stands (ts : Timers Task) (x : Slot) : Prop :=
  ∃ timer, ts.get? x.due.serial = some timer ∧
    match x.trigger with
    | some t => timer.cancelled = false ∧ timer.task = .playback t
    | none => timer.cancelled = true

theorem Slot.Stands.congr {ts ts' : Timers Task} {x : Slot} (h : x.Stands ts)
    (same : ts'.get? x.due.serial = ts.get? x.due.serial) : x.Stands ts' := by
  unfold Slot.Stands
  rw [same]
  exact h

/-- What stands for nothing does so whatever else is cancelled. -/
theorem Slot.Stands.cancelAll {ts : Timers Task} {x : Slot} (h : x.Stands ts)
    (hx : x.trigger = none) (ks : List Nat) : x.Stands (ts.cancelAll ks) := by
  induction ks generalizing ts with
  | nil => exact h
  | cons k ks ih =>
    refine ih ?_
    obtain ⟨timer, hget, hc⟩ := h
    unfold Slot.Stands
    rw [Timers.get?_cancel]
    rw [hx] at hc ⊢
    split
    · exact ⟨_, by rw [hget]; rfl, rfl⟩
    · exact ⟨timer, hget, hc⟩

theorem Timers.Lines.congr {τ : Type} {ts ts' : Timers τ} {line : List Due} (h : ts.Lines line)
    (same : ts'.queue = ts.queue) : ts'.Lines line := by
  refine ⟨⟨?_, ?_⟩, ?_, h.sorted⟩
  · rw [same]; exact h.numeric
  · rw [same]; exact h.ordered
  · rw [same]; exact h.perm

/-- Timers whose queue holds the given slots, by rank. -/
structure InLine (ts : Timers Task) (line : List Slot) : Prop where
  lines : ts.Lines (line.map Slot.due)
  serials : (line.map fun x => x.due.serial).Nodup
  stands : ∀ x ∈ line, x.Stands ts

theorem InLine.tail {x : Slot} {line : List Slot} {ts : Timers Task} (h : InLine ts (x :: line))
    {q : Array Due}
    (lines : Timers.Lines { ts with queue := q } (line.map Slot.due)) :
    InLine { ts with queue := q } line := by
  refine ⟨lines, (List.nodup_cons.1 h.serials).2, fun y hy => ?_⟩
  exact (h.stands y (List.mem_cons_of_mem x hy)).congr rfl

/-- Firing the first of a line leaves the others. -/
theorem InLine.markFired {line : List Slot} {ts : Timers Task} (h : InLine ts line) {n : Nat}
    (hn : n ∉ line.map fun x => x.due.serial) : InLine (ts.markFired n) line := by
  refine ⟨h.lines.congr rfl, h.serials, fun y hy => (h.stands y hy).congr ?_⟩
  have hne : n ≠ y.due.serial := fun e => hn (e ▸ List.mem_map_of_mem hy)
  rw [Timers.get?_markFired, if_neg hne]

/-- When the run is called off, a line without triggers stays. -/
theorem InLine.cancelAll {line : List Slot} {ts : Timers Task} (h : InLine ts line)
    (none_live : live line = []) (ks : List Nat) : InLine (ts.cancelAll ks) line := by
  refine ⟨h.lines.congr (Timers.queue_cancelAll ks), h.serials, fun y hy => ?_⟩
  have hy' : y.trigger = none := by
    have hall := List.filterMap_eq_nil_iff.1 none_live
    exact hall y hy
  exact (h.stands y hy).cancelAll hy' ks

structure Transport.Rests (t : Transport) : Prop where
  playing : t.playing = false
  start : t.start = none
  pending : t.pending = []

namespace Studio

/-- A studio with a tape whose run goes on with the given line, the end of the run behind all its
other triggers, or has ended. -/
structure Underway (velocity : Float) (s : Studio) (line : List Slot) : Prop where
  audio : s.audio = .tape
  velocity : s.transport.velocity = velocity
  reaches : ∀ n, .noteOn n ∈ live line → Reaches s.transport.extent n.pitch
  inLine : InLine s.timers line
  ends : live line = [] ∧ s.transport.Rests ∨
    ∃ ts, live line = ts ++ [.finish] ∧ ∀ t ∈ ts, t ≠ .finish

/-- A note in front of a run leaves the run to go on. -/
theorem ends_tail {t : Trigger} {us : List Trigger} (ht : t ≠ .finish)
    (h : ∃ ts, t :: us = ts ++ [.finish] ∧ ∀ t ∈ ts, t ≠ .finish) :
    ∃ ts, us = ts ++ [.finish] ∧ ∀ t ∈ ts, t ≠ .finish := by
  obtain ⟨ts, e, notes⟩ := h
  cases ts with
  | nil =>
    cases e
    exact absurd rfl ht
  | cons t' ts =>
    cases e
    exact ⟨ts, rfl, fun t ht => notes t (List.mem_cons_of_mem _ ht)⟩

/-- Behind the end of a run nothing is left of it. -/
theorem ends_finish {us : List Trigger}
    (h : ∃ ts, .finish :: us = ts ++ [.finish] ∧ ∀ t ∈ ts, t ≠ .finish) : us = [] := by
  obtain ⟨ts, e, notes⟩ := h
  cases ts with
  | nil =>
    cases e
    rfl
  | cons t ts =>
    cases e
    exact absurd rfl (notes _ List.mem_cons_self)

section Firing

variable {h : Hooks} (discreet : Discreet h) {velocity : Float} {b : Bench Studio} {x : Slot}
  {line : List Slot}

/-- A timer that was cancelled is passed over. -/
theorem fire_passes (under : Underway velocity b.part (x :: line)) (hx : x.trigger = none)
    {q : Array Due}
    (gone : Timers.Lines { b.part.timers with queue := q } (line.map Slot.due)) :
    ∃ did b', (fire h x.due.serial).on
        ⟨{ b.part with timers := { b.part.timers with queue := q } }, b.journal⟩ =
          some (.ok did, b') ∧
      Underway velocity b'.part line ∧ b'.sounds = b.sounds := by
  obtain ⟨timer, hget, hc⟩ := under.inLine.stands x List.mem_cons_self
  rw [hx] at hc
  have hlive : live (x :: line) = live line := by rw [live_cons, hx]; rfl
  refine ⟨false, ⟨{ b.part with timers := { b.part.timers with queue := q } }, b.journal⟩, ?_,
    ⟨under.audio, under.velocity, ?_, under.inLine.tail gone, ?_⟩, rfl⟩
  · unfold fire
    rw [on_bind_ok (on_look _)]
    have hget' : Timers.get? { b.part.timers with queue := q } x.due.serial = some timer := hget
    simp only [hget', hc, if_pos]
    rfl
  · rw [← hlive]
    exact under.reaches
  · rw [← hlive]
    exact under.ends

/-- In front of what is left stands what plays next, and the end of the run behind all else. -/
theorem Underway.ends_of_cons {s : Studio} (under : Underway velocity s (x :: line)) {t : Trigger}
    (hx : x.trigger = some t) :
    live (x :: line) = t :: live line ∧
      ∃ ts, t :: live line = ts ++ [.finish] ∧ ∀ t ∈ ts, t ≠ .finish := by
  have hlive : live (x :: line) = t :: live line := by rw [live_cons, hx]; rfl
  refine ⟨hlive, ?_⟩
  rw [← hlive]
  refine under.ends.resolve_left fun hnil => ?_
  rw [hlive] at hnil
  cases hnil.1

/-- A timer that was not cancelled does what its trigger does once it is taken out. -/
theorem fire_trigger {s : Studio} (stands : x.Stands s.timers) {t : Trigger}
    (hx : x.trigger = some t) {journal : List Entry} {b' : Bench Studio}
    (hb' : (trigger h t).on ⟨s.taken x.due.serial, journal⟩ = some (.ok (), b')) :
    (fire h x.due.serial).on ⟨s, journal⟩ = some (.ok true, b') := by
  obtain ⟨timer, hget, hmatch⟩ := stands
  rw [hx] at hmatch
  obtain ⟨hc, htask⟩ := hmatch
  unfold fire
  rw [on_bind_ok (on_look _)]
  simp only [hget, hc, htask]
  refine (on_bind_ok (on_change _ _)).trans ?_
  have hrun : (runTask h x.due.serial (.playback t)).on
      ⟨{ s with timers := s.timers.markFired x.due.serial }, journal⟩ = some (.ok (), b') :=
    (on_bind_ok (on_changeTransport _ _)).trans hb'
  exact (on_bind_ok hrun).trans (on_pure true b')

/-- Once the first of a line is taken out and fired, the others are in line. -/
theorem Underway.inLine_taken {s : Studio} (under : Underway velocity s (x :: line))
    {q : Array Due} (gone : Timers.Lines { s.timers with queue := q } (line.map Slot.due)) :
    InLine (({ s with timers := { s.timers with queue := q } } : Studio).taken x.due.serial).timers
      line :=
  (under.inLine.tail gone).markFired (List.nodup_cons.1 under.inLine.serials).1

include discreet

/-- The end of a run fires, and the run rests. -/
theorem fire_finish (under : Underway velocity b.part (x :: line)) (hx : x.trigger = some .finish)
    {q : Array Due}
    (gone : Timers.Lines { b.part.timers with queue := q } (line.map Slot.due)) :
    ∃ b', (fire h x.due.serial).on
        ⟨{ b.part with timers := { b.part.timers with queue := q } }, b.journal⟩ =
          some (.ok true, b') ∧
      Underway velocity b'.part line ∧ b'.sounds = b.sounds ++ [.silence] := by
  let s : Studio := { b.part with timers := { b.part.timers with queue := q } }
  have stands : x.Stands s.timers := under.inLine.stands x List.mem_cons_self
  have hnil : live line = [] := ends_finish (under.ends_of_cons hx).2
  let b₁ : Bench Studio := ⟨s.taken x.due.serial, b.journal⟩
  have tape : b₁.part.audio = .tape := under.audio
  obtain ⟨b', hb', timers, transport, audio, sounds⟩ := trigger_finish discreet tape
  have rests : b'.part.transport.Rests :=
    ⟨by rw [transport]; rfl, by rw [transport]; rfl, by rw [transport]; rfl⟩
  refine ⟨b', fire_trigger stands hx hb', ⟨audio, ?_, ?_, ?_, Or.inl ⟨hnil, rests⟩⟩, sounds⟩
  · rw [transport]
    exact under.velocity
  · rw [hnil]
    exact fun n hn => absurd hn List.not_mem_nil
  · rw [timers]
    exact (under.inLine_taken gone).cancelAll hnil _

/-- The beginning or the end of a note fires, and the run goes on. -/
theorem fire_note (under : Underway velocity b.part (x :: line)) {t : Trigger}
    (hx : x.trigger = some t) (ht : t ≠ .finish) {q : Array Due}
    (gone : Timers.Lines { b.part.timers with queue := q } (line.map Slot.due)) :
    ∃ b', (fire h x.due.serial).on
        ⟨{ b.part with timers := { b.part.timers with queue := q } }, b.journal⟩ =
          some (.ok true, b') ∧
      Underway velocity b'.part line ∧ b'.sounds = b.sounds ++ [t.call velocity] := by
  let s : Studio := { b.part with timers := { b.part.timers with queue := q } }
  have stands : x.Stands s.timers := under.inLine.stands x List.mem_cons_self
  obtain ⟨hlive, hends⟩ := under.ends_of_cons hx
  let b₁ : Bench Studio := ⟨s.taken x.due.serial, b.journal⟩
  have tape : b₁.part.audio = .tape := under.audio
  have reaches : ∀ n, t = .noteOn n → Reaches b₁.part.transport.extent n.pitch := by
    rintro n rfl
    refine under.reaches n ?_
    rw [hlive]
    exact List.mem_cons_self
  obtain ⟨b', hb', goes⟩ := trigger_note discreet tape ht reaches
  have sounds : b'.sounds = b.sounds ++ [t.call velocity] := by
    rw [← under.velocity]
    exact goes.sounds
  refine ⟨b', fire_trigger stands hx hb', ⟨goes.audio.trans under.audio,
    goes.velocity.trans under.velocity, fun n hn => ?_, ?_, Or.inr (ends_tail ht hends)⟩, sounds⟩
  · rw [goes.extent]
    refine under.reaches n ?_
    rw [hlive]
    exact List.mem_cons_of_mem t hn
  · rw [goes.timers]
    exact under.inLine_taken gone

/-- The first of a line fires or is passed over. -/
theorem fire_on (under : Underway velocity b.part (x :: line)) {q : Array Due}
    (gone : Timers.Lines { b.part.timers with queue := q } (line.map Slot.due)) :
    ∃ did b', (fire h x.due.serial).on
        ⟨{ b.part with timers := { b.part.timers with queue := q } }, b.journal⟩ =
          some (.ok did, b') ∧
      Underway velocity b'.part line ∧
      b'.sounds = b.sounds ++ x.trigger.toList.map (Trigger.call velocity) := by
  cases hx : x.trigger with
  | none =>
    obtain ⟨did, b', hon, under', sounds⟩ := fire_passes (h := h) under hx gone
    exact ⟨did, b', hon, under', sounds.trans (List.append_nil _).symm⟩
  | some t =>
    by_cases ht : t = .finish
    · subst ht
      obtain ⟨b', hon, under', sounds⟩ := fire_finish discreet under hx gone
      exact ⟨true, b', hon, under', sounds⟩
    · obtain ⟨b', hon, under', sounds⟩ := fire_note discreet under hx ht gone
      exact ⟨true, b', hon, under', sounds⟩

end Firing

/-! ## Pumping -/

/-- A line of which the rest is left after its front has been played. -/
structure Passed (velocity : Float) (line : List Slot) (b : Bench Studio) (rest : List Slot)
    (b' : Bench Studio) : Prop where
  under : Underway velocity b'.part rest
  front : ∃ front, line = front ++ rest ∧
    b'.sounds = b.sounds ++ (live front).map (Trigger.call velocity)

theorem Passed.trans {velocity : Float} {l₁ l₂ l₃ : List Slot} {b₁ b₂ b₃ : Bench Studio}
    (h : Passed velocity l₁ b₁ l₂ b₂) (h' : Passed velocity l₂ b₂ l₃ b₃) :
    Passed velocity l₁ b₁ l₃ b₃ := by
  obtain ⟨f, e, sounds⟩ := h.front
  obtain ⟨f', e', sounds'⟩ := h'.front
  refine ⟨h'.under, f ++ f', by rw [e, e', List.append_assoc], ?_⟩
  rw [sounds', sounds, live, live, live, List.filterMap_append, List.map_append,
    List.append_assoc]

/-- When the moment of the first in line has not come, none has. -/
theorem Underway.none_due {velocity : Float} {s : Studio} {x : Slot} {line : List Slot}
    (under : Underway velocity s (x :: line)) {now : Float} (later : ¬ x.due.deadline ≤ now) :
    ∀ y ∈ x :: line, ¬ y.due.deadline ≤ now := by
  intro y hy due
  have hx : Numeric x.due.deadline := under.inLine.lines.numeric _
    (Array.mem_toList_iff.1 (under.inLine.lines.perm.mem_iff.2 List.mem_cons_self))
  have hle : worth x.due.deadline ≤ worth y.due.deadline := by
    rcases List.mem_cons.1 hy with rfl | hy
    · exact le_rfl
    · have hlt := (List.pairwise_cons.1 under.inLine.lines.sorted).1 _ (List.mem_map_of_mem hy)
      exact (Due.rank_lt.1 hlt).elim le_of_lt fun h => h.1.le
  exact later ((le_iff hx (numeric_of_le due).2).2 (hle.trans (worth_le due)))

def pumpAll (h : Hooks) (times : List Float) : Act Unit :=
  times.forM fun now => discard (pump h (some now))

section Pumping

variable {h : Hooks} (discreet : Discreet h) {velocity : Float}
include discreet

/-- A drain plays what is due, from the front of the line. -/
theorem drain_on {line : List Slot} {b : Bench Studio} (under : Underway velocity b.part line)
    (now : Float) (fuel fired : Nat) (patient : line.length < fuel) :
    ∃ n rest b', (drain h now fuel fired).on b = some (.ok n, b') ∧
      Passed velocity line b rest b' ∧ ∀ x ∈ rest, ¬ x.due.deadline ≤ now := by
  induction line generalizing b fuel fired with
  | nil =>
    obtain ⟨fuel, rfl⟩ := Nat.exists_eq_add_of_lt patient
    refine ⟨fired, [], b, ?_, ⟨under, [], rfl, (List.append_nil _).symm⟩, by simp⟩
    rw [drain, on_bind_ok (on_look b), under.inLine.lines.takeDue?_nil now]
    rfl
  | cons x line ih =>
    obtain ⟨fuel, rfl⟩ : ∃ k, fuel = k + 1 := ⟨fuel - 1, by omega⟩
    rw [drain, on_bind_ok (on_look b)]
    by_cases due : x.due.deadline ≤ now
    · obtain ⟨q, htake, gone⟩ := under.inLine.lines.takeDue?_due due
      obtain ⟨did, b₁, hfire, under₁, sounds₁⟩ := fire_on discreet under gone
      obtain ⟨n, rest, b', hdrain, passed, later⟩ :=
        ih under₁ fuel (if did then fired + 1 else fired)
          (Nat.lt_of_succ_lt_succ patient)
      have first : Passed velocity (x :: line) b line b₁ := by
        refine ⟨under₁, [x], rfl, ?_⟩
        rw [sounds₁, live_cons]
        simp [live]
      refine ⟨n, rest, b', ?_, first.trans passed, later⟩
      rw [htake]
      refine (on_bind_ok (on_change _ b)).trans ?_
      exact (on_bind_ok hfire).trans hdrain
    · refine ⟨fired, x :: line, b, ?_, ⟨under, [], rfl, (List.append_nil _).symm⟩,
        under.none_due due⟩
      rw [under.inLine.lines.takeDue?_later due]
      rfl

/-- However the pumps are spread over time, they play the line from its front, and what is left
is not due at any of the times. -/
theorem pumpAll_on {line : List Slot} {b : Bench Studio} (under : Underway velocity b.part line)
    (times : List Float) (patient : line.length < h.patience) :
    ∃ rest b', (pumpAll h times).on b = some (.ok (), b') ∧ Passed velocity line b rest b' ∧
      ∀ now ∈ times, ∀ x ∈ rest, ¬ x.due.deadline ≤ now := by
  induction times generalizing line b with
  | nil =>
    exact ⟨line, b, rfl, ⟨under, [], rfl, (List.append_nil _).symm⟩,
      fun now hnow => absurd hnow List.not_mem_nil⟩
  | cons now times ih =>
    obtain ⟨n, rest₁, b₁, h₁, passed₁, later₁⟩ := drain_on discreet under now h.patience 0 patient
    obtain ⟨front, hfront, _⟩ := passed₁.front
    have patient₁ : rest₁.length < h.patience := by
      rw [hfront, List.length_append] at patient
      omega
    obtain ⟨rest, b', h', passed, later⟩ := ih passed₁.under patient₁
    refine ⟨rest, b', ?_, passed₁.trans passed, ?_⟩
    · have hpump : (pump h (some now)).on b = some (.ok n, b₁) :=
        (on_bind_ok (moment_on (some now) b)).trans h₁
      have hfirst : (discard (pump h (some now)) : Act Unit).on b = some (.ok (), b₁) :=
        (on_bind_ok hpump).trans (on_pure () b₁)
      rw [pumpAll, forM_cons, on_bind_ok hfirst]
      exact h'
    · intro t ht x hx
      obtain ⟨front', hfront', _⟩ := passed.front
      rcases List.mem_cons.1 ht with rfl | ht
      · exact later₁ x (hfront' ▸ List.mem_append_right front' hx)
      · exact later t ht x hx

end Pumping

end Studio

end PianoRoll
