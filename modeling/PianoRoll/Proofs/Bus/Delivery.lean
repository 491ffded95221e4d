import PianoRoll.Proofs.Playback.Sounding
import PianoRoll.Studio.Perform

/-!
Delivery. An event goes to those who listened when it was published, each in turn and each as
often as it was subscribed, whatever they do to the bus meanwhile and whether or not they fail
(`publish_on_iff`). Who publishes while it listens goes on when everyone has heard that event, and
so do those who listen after it (`Delivers.nested`). Together with how subscriptions come and go
(`Bus.queues`) this is what publishing comes to (`publish_in_turn`).
-/

namespace PianoRoll

namespace Bus

variable {kind kind' : String} {l : Listener}

theorem listeners_cons (kind k : String) (l : Listener) (bus : Bus) :
    listeners kind ((k, l) :: bus) =
      if k = kind then l :: bus.listeners kind else bus.listeners kind := by
  by_cases hk : k = kind <;> simp [listeners, hk]

/-- Each listener hears an event as often as it is subscribed. -/
theorem count_listeners (kind : String) (l : Listener) (bus : Bus) :
    (bus.listeners kind).count l = bus.count (kind, l) := by
  induction bus with
  | nil => rfl
  | cons s bus ih =>
    obtain ⟨k, l'⟩ := s
    rw [listeners_cons]
    by_cases hk : k = kind
    · simp [hk, List.count_cons, ih]
    · simp [hk, ih]

theorem listeners_subscribe (bus : Bus) :
    (bus.subscribe kind l).listeners kind = bus.listeners kind ++ [l] := by
  simp [listeners, subscribe]

theorem listeners_subscribe_of_ne (hk : kind ≠ kind') (bus : Bus) :
    (bus.subscribe kind l).listeners kind' = bus.listeners kind' := by
  simp [listeners, subscribe, hk]

theorem listeners_unsubscribe (bus : Bus) :
    (bus.unsubscribe kind l).listeners kind = (bus.listeners kind).erase l := by
  induction bus with
  | nil => rfl
  | cons s bus ih =>
    obtain ⟨k, l'⟩ := s
    rw [unsubscribe] at ih ⊢
    by_cases hs : (k, l') = (kind, l)
    · cases hs
      rw [List.erase_cons_head, listeners_cons, if_pos rfl, List.erase_cons_head]
    · rw [List.erase_cons_tail (by simpa using hs), listeners_cons, listeners_cons, ih]
      by_cases hk : k = kind
      · have hl : l' ≠ l := fun h => hs (by rw [hk, h])
        rw [if_pos hk, if_pos hk, List.erase_cons_tail (by simpa using hl)]
      · rw [if_neg hk, if_neg hk]

theorem listeners_unsubscribe_of_ne (hk : kind ≠ kind') (bus : Bus) :
    (bus.unsubscribe kind l).listeners kind' = bus.listeners kind' := by
  induction bus with
  | nil => rfl
  | cons s bus ih =>
    obtain ⟨k, l'⟩ := s
    rw [unsubscribe] at ih ⊢
    by_cases hs : (k, l') = (kind, l)
    · cases hs
      rw [List.erase_cons_head, listeners_cons, if_neg hk]
    · rw [List.erase_cons_tail (by simpa using hs), listeners_cons, listeners_cons, ih]

/-- Subscriptions to a kind are kept in order, and taken out one at a time, the oldest first. -/
structure Queues (bus : Bus) (kind : String) (l : Listener) : Prop where
  times : (bus.listeners kind).count l = bus.count (kind, l)
  subscribed : (bus.subscribe kind l).listeners kind = bus.listeners kind ++ [l]
  unsubscribed (before after : List Listener) (there : bus.listeners kind = before ++ l :: after)
    (first : l ∉ before) : (bus.unsubscribe kind l).listeners kind = before ++ after
  absent (none : l ∉ bus.listeners kind) : bus.unsubscribe kind l = bus
  others (kind' : String) (other : kind ≠ kind') :
    (bus.subscribe kind l).listeners kind' = bus.listeners kind' ∧
      (bus.unsubscribe kind l).listeners kind' = bus.listeners kind'

theorem queues (bus : Bus) (kind : String) (l : Listener) : bus.Queues kind l where
  times := count_listeners kind l bus
  subscribed := listeners_subscribe bus
  unsubscribed before after there first := by
    rw [listeners_unsubscribe, there, List.erase_append_right _ first, List.erase_cons_head]
  absent none := by
    refine List.erase_of_not_mem fun here => none ?_
    rw [← List.count_pos_iff, count_listeners]
    exact List.count_pos_iff.2 here
  others _ other := ⟨listeners_subscribe_of_ne other bus, listeners_unsubscribe_of_ne other bus⟩

end Bus

namespace Work

variable {σ β : Type}

/-- Work that comes to a piece of work `q` on a bench `b₁`, and what it makes of the outcome of
`q`: there is more to do behind it, and somebody may be there to catch its fault. -/
inductive ComesTo (q : Work σ β) (b₁ : Bench σ) :
    {α : Type} → Work σ α → Bench σ → (Except Fault β → Work σ α) → Prop
  | here : ComesTo q b₁ q b₁ orFail
  | first {α γ : Type} {p : Work σ α} {b k} (f : α → Work σ γ) : ComesTo q b₁ p b k →
    ComesTo q b₁ (p >>= f) b fun r => k r >>= f
  | second {α γ : Type} {p : Work σ α} {f : α → Work σ γ} {a b b₀ k} :
    p.on b = some (.ok a, b₀) → ComesTo q b₁ (f a) b₀ k →
    ComesTo q b₁ (p >>= f) b k
  | watched {α : Type} {p : Work σ α} {b k} (f : Fault → Work σ α) : ComesTo q b₁ p b k →
    ComesTo q b₁ (tryCatch p f) b fun r => tryCatch (k r) f
  | rescue {α : Type} {p : Work σ α} {f : Fault → Work σ α} {e b b₀ k} :
    p.on b = some (.error e, b₀) → ComesTo q b₁ (f e) b₀ k →
    ComesTo q b₁ (tryCatch p f) b k

/-- The work that is come to is done before anything else. -/
theorem ComesTo.on {α : Type} {q : Work σ β} {b₁ : Bench σ} {p : Work σ α} {b : Bench σ}
    {k : Except Fault β → Work σ α} (h : ComesTo q b₁ p b k) :
    p.on b = (q.on b₁).bind fun (r, b₂) => (k r).on b₂ := by
  induction h with
  | here =>
    cases q.on b₁ with
    | none => rfl
    | some s => rfl
  | first f _ ih => rw [on_bind, ih, Option.bind_assoc]; simp only [on_bind]
  | second h _ ih => rw [on_bind_ok h, ih]
  | watched f _ ih => rw [on_tryCatch, ih, Option.bind_assoc]; simp only [on_tryCatch]
  | rescue h _ ih => rw [on_tryCatch, h]; exact ih

end Work

namespace Studio

open Work

/-- An event is written down before anybody hears it. -/
def announced (e : Event) (b : Bench Studio) : Bench Studio :=
  ⟨b.part, shown b.part.recorded e ++ b.journal⟩

/-- A listener that failed is logged. -/
def noted (e : Event) (l : Listener) : Except Fault Unit → Bench Studio → Bench Studio
  | .ok _, b => b
  | .error _, b =>
    ⟨b.part, .log ⟨.error, s!"event handler failed: kind={e.kind} handler={l.describe}"⟩ ::
      b.journal⟩

/-- Listeners hear an event one after the other, each from where the one before it ended. -/
inductive Delivers (h : Hooks) (e : Event) : List Listener → Bench Studio → Bench Studio → Prop
  | done (b : Bench Studio) : Delivers h e [] b b
  | hears {l : Listener} {ls : List Listener} {r : Except Fault Unit} {b b₁ b' : Bench Studio} :
    (h.hear l e).on b = some (r, b₁) → Delivers h e ls (noted e l r b₁) b' →
    Delivers h e (l :: ls) b b'

variable {h : Hooks} {e : Event} {b b' : Bench Studio} {l : Listener} {ls : List Listener}

theorem on_deliver (h : Hooks) (e : Event) (l : Listener) (b : Bench Studio) :
    (deliver h e l).on b = ((h.hear l e).on b).map fun (r, b₁) => (.ok (), noted e l r b₁) := by
  rw [deliver, on_tryCatch]
  cases (h.hear l e).on b with
  | none => rfl
  | some s =>
    obtain ⟨r, b₁⟩ := s
    cases r <;> rfl

theorem delivers_cons_iff : Delivers h e (l :: ls) b b' ↔
    ∃ r b₁, (h.hear l e).on b = some (r, b₁) ∧ Delivers h e ls (noted e l r b₁) b' := by
  constructor
  · intro d
    cases d with
    | hears hl d => exact ⟨_, _, hl, d⟩
  · rintro ⟨r, b₁, hl, d⟩
    exact .hears hl d

/-- Listeners are let hear an event one after the other, and none of their faults gets out. -/
theorem forM_deliver_on_iff {r : Except Fault Unit} :
    (ls.forM (deliver h e)).on b = some (r, b') ↔ r = .ok () ∧ Delivers h e ls b b' := by
  induction ls generalizing b with
  | nil =>
    constructor
    · intro hon
      cases hon
      exact ⟨rfl, .done _⟩
    · rintro ⟨rfl, d⟩
      cases d
      rfl
  | cons l ls ih =>
    rw [forM_cons, on_bind, on_deliver, delivers_cons_iff]
    cases hl : (h.hear l e).on b with
    | none => simp
    | some s =>
      rw [Option.map_some, Option.bind_some, ih]
      constructor
      · rintro ⟨rfl, d⟩
        exact ⟨rfl, s.1, s.2, rfl, d⟩
      · rintro ⟨rfl, _, _, ⟨⟩, d⟩
        exact ⟨rfl, d⟩

/-- To publish is to let everyone hear the event who listens now, and never fails. -/
theorem publish_on_iff {r : Except Fault Unit} : (publish h e).on b = some (r, b') ↔
    r = .ok () ∧ Delivers h e (b.part.bus.listeners e.kind) (announced e b) b' := by
  rw [publish, on_bind_ok (record_on e b), on_bind_ok (on_look _)]
  exact forM_deliver_on_iff

/-- Delivery is cut where some have heard the event and the others have not. -/
theorem delivers_append_iff {ls ls' : List Listener} : Delivers h e (ls ++ ls') b b' ↔
    ∃ b₁, Delivers h e ls b b₁ ∧ Delivers h e ls' b₁ b' := by
  induction ls generalizing b with
  | nil =>
    constructor
    · exact fun d => ⟨_, .done _, d⟩
    · rintro ⟨_, ⟨⟩, d⟩
      exact d
  | cons l ls ih =>
    simp only [List.cons_append, delivers_cons_iff, ih]
    constructor
    · rintro ⟨r, b₁, hl, b₂, d, d'⟩
      exact ⟨b₂, ⟨r, b₁, hl, d⟩, d'⟩
    · rintro ⟨b₂, ⟨r, b₁, hl, d⟩, d'⟩
      exact ⟨r, b₁, hl, b₂, d, d'⟩

/-- What listeners come to is settled by where they begin. -/
theorem Delivers.unique {b₁ b₂ : Bench Studio} (d₁ : Delivers h e ls b b₁)
    (d₂ : Delivers h e ls b b₂) : b₁ = b₂ := by
  have on₁ := forM_deliver_on_iff.2 ⟨rfl, d₁⟩
  have on₂ := forM_deliver_on_iff.2 ⟨rfl, d₂⟩
  rw [on₁] at on₂
  cases on₂
  rfl

theorem delivers_of_ends (hears : ∀ l ∈ ls, Ends (h.hear l e)) (b : Bench Studio) :
    ∃ b', Delivers h e ls b b' := by
  induction ls generalizing b with
  | nil => exact ⟨b, .done b⟩
  | cons l ls ih =>
    obtain ⟨r, b₁, hl⟩ := hears l List.mem_cons_self b
    obtain ⟨b', d⟩ := ih (fun l hl => hears l (List.mem_cons_of_mem _ hl)) (noted e l r b₁)
    exact ⟨b', .hears hl d⟩

/-- Where one of those who listen publishes an event itself, everyone hears that event before the
listener goes on, and before those behind it hear the first one. -/
theorem Delivers.nested {heard rest : List Listener} {h' : Hooks} {e' : Event}
    {b₁ b₂ : Bench Studio} {k : Except Fault Unit → Act Unit}
    (d : Delivers h e (heard ++ l :: rest) b b') (before : Delivers h e heard b b₁)
    (publishes : ComesTo (publish h' e') b₂ (h.hear l e) b₁ k) :
    ∃ b₃ r b₄, Delivers h' e' (b₂.part.bus.listeners e'.kind) (announced e' b₂) b₃ ∧
      (k (.ok ())).on b₃ = some (r, b₄) ∧ Delivers h e rest (noted e l r b₄) b' := by
  obtain ⟨_, first, d⟩ := delivers_append_iff.1 d
  cases first.unique before
  obtain ⟨r, b₄, hl, d⟩ := delivers_cons_iff.1 d
  -- what the listener does is what everyone makes of the second event, and then the rest of it
  rw [publishes.on] at hl
  obtain ⟨⟨r', b₃⟩, inner, goesOn⟩ := Option.bind_eq_some_iff.1 hl
  obtain ⟨rfl, all⟩ := publish_on_iff.1 inner
  exact ⟨b₃, r, b₄, all, goesOn, d⟩

/-! ## Listeners that give commands -/

theorem obey_append (perform : Command → Act Answer) (cs cs' : List Command) :
    obey perform (cs ++ cs') = obey perform cs >>= fun _ => obey perform cs' := by
  induction cs with
  | nil => exact (pure_bind () fun _ => obey perform cs').symm
  | cons c cs ih =>
    change (_ >>= fun _ => obey perform (cs ++ cs')) = (_ >>= fun _ => obey perform cs) >>= _
    rw [ih]
    exact (bind_assoc _ _ _).symm

/-- A listener that hears an event and will act on it, from then on as `cue` has it. -/
def roused (name : String) (cue : Cue) (e : Event) (b : Bench Studio) : Bench Studio :=
  ⟨{ b.part with cues := b.part.cues.put name cue }, .heard name e :: b.journal⟩

/-- A listener comes to what its commands come to. -/
theorem comesTo_hearScripted {perform : Command → Act Answer} {name : String} {times : Nat}
    {before after : List Command} {c : Command} {b₁ b₂ : Bench Studio} {q : Act Unit}
    {k : Except Fault Unit → Act Answer}
    (there : b.part.cues.get? name = some ⟨before ++ c :: after, times + 1, none⟩)
    (first : (obey perform before).on (roused name ⟨before ++ c :: after, times, none⟩ e b) =
      some (.ok (), b₁))
    (comes : ComesTo q b₂ (perform c) b₁ k) :
    ComesTo q b₂ (hearScripted perform name e) b fun r =>
      (k r >>= fun a => write (.answered c a)) >>= fun _ => obey perform after := by
  refine .second (on_write _ b) (.second (on_look _) ?_)
  dsimp only
  rw [there]
  dsimp only
  rw [if_pos (Nat.zero_lt_succ times)]
  refine .second (on_change _ _) ?_
  rw [obey_append]
  exact .second first (.first _ (.first _ comes))

/-- The command to publish comes to publishing. -/
theorem comesTo_publish (n : Nat) {e : Event} (free : e.takenName? = none) (b : Bench Studio) :
    ComesTo (publish (scriptedHooks (perform n) n) e) b (perform (n + 1) (.publish e)) b
      fun r => orFail r >>= fun _ => pure .nothing := by
  rw [perform, carryOut]
  dsimp only
  rw [free]
  exact .first _ .here

/-! ## Publishing -/

/-- Publishing lets exactly those hear an event who are subscribed to its kind when it begins, each
as often as it is subscribed and in the order of subscription, whatever the listeners do, and never
fails. What a listener publishes meanwhile is heard by all who listen to that before the next
listener has its turn. -/
theorem publish_in_turn (h : Hooks) (e : Event) (b : Bench Studio) :
    (∀ r b', (publish h e).on b = some (r, b') ↔
      r = .ok () ∧ Delivers h e (b.part.bus.listeners e.kind) (announced e b) b') ∧
    ((∀ l ∈ b.part.bus.listeners e.kind, Ends (h.hear l e)) →
      ∃ b', (publish h e).on b = some (.ok (), b')) ∧
    (∀ heard l rest, b.part.bus.listeners e.kind = heard ++ l :: rest →
      ∀ b₁, Delivers h e heard (announced e b) b₁ →
      ∀ h' e' b₂ k, ComesTo (publish h' e') b₂ (h.hear l e) b₁ k →
      ∀ r b', (publish h e).on b = some (r, b') →
      ∃ b₃ r₁ b₄, Delivers h' e' (b₂.part.bus.listeners e'.kind) (announced e' b₂) b₃ ∧
        (k (.ok ())).on b₃ = some (r₁, b₄) ∧ Delivers h e rest (noted e l r₁ b₄) b') ∧
    ∀ kind l, b.part.bus.Queues kind l := by
  refine ⟨fun r b' => publish_on_iff, fun ends => ?_, ?_, fun kind l => b.part.bus.queues kind l⟩
  · obtain ⟨b', d⟩ := delivers_of_ends ends (announced e b)
    exact ⟨b', publish_on_iff.2 ⟨rfl, d⟩⟩
  · intro heard l rest all b₁ before h' e' b₂ k comes r b' hon
    obtain ⟨-, d⟩ := publish_on_iff.1 hon
    rw [all] at d
    exact d.nested before comes

/-- A studio where one who listens twice unsubscribes another and publishes, and the other fails. -/
def throng : Studio :=
  { bus := [("x", .scripted "a"), ("x", .scripted "b"), ("x", .scripted "a"), ("y", .scripted "c")]
    cues := [("a", ⟨[.unsubscribe "b" "x", .publish (.custom "y" [])], 1, none⟩),
      ("b", ⟨[], 0, some "tired"⟩)] }

def whoHeard : Entry → Option String
  | .heard name _ => some name
  | _ => none

theorem publish_in_turn_throng :
    ∃ b' b₂ b₃ r b₄,
      (publish (scriptedHooks (perform 2) 2) (.custom "x" [])).on ⟨throng, []⟩ = some (.ok (), b') ∧
      Delivers (scriptedHooks (perform 1) 1) (.custom "y" []) [.scripted "c"]
        (announced (.custom "y" []) b₂) b₃ ∧
      Delivers (scriptedHooks (perform 2) 2) (.custom "x" []) [.scripted "b", .scripted "a"]
        (noted (.custom "x" []) (.scripted "a") r b₄) b' ∧
      b'.journal.reverse.filterMap whoHeard = ["a", "c", "b", "a"] := by
  have who : ((publish (scriptedHooks (perform 2) 2) (.custom "x" [])).on ⟨throng, []⟩).map
      (fun s => s.2.journal.reverse.filterMap whoHeard) = some ["a", "c", "b", "a"] := by
    decide +kernel
  obtain ⟨⟨r, b'⟩, hon, who⟩ := Option.map_eq_some_iff.1 who
  obtain ⟨delivers, -, nested, -⟩ := publish_in_turn (scriptedHooks (perform 2) 2)
    (.custom "x" []) ⟨throng, []⟩
  obtain ⟨rfl, -⟩ := (delivers r b').1 hon
  have cue : throng.cues.get? "a" = some
      ⟨[.unsubscribe "b" "x"] ++ .publish (.custom "y" []) :: [], 0 + 1, none⟩ := rfl
  have comes := comesTo_hearScripted (e := .custom "x" []) (b := ⟨throng, []⟩) cue rfl
    (comesTo_publish 1 (e := .custom "y" []) rfl _)
  obtain ⟨b₃, r₁, b₄, inner, -, rest⟩ :=
    nested [] (.scripted "a") [.scripted "b", .scripted "a"] rfl _ (.done _) _ _ _ _ comes _ _ hon
  exact ⟨b', _, b₃, r₁, b₄, hon, inner, rest, who⟩

end Studio

end PianoRoll
