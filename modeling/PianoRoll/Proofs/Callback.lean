import PianoRoll.Proofs.Work
import PianoRoll.Studio.Perform

/-!
Callbacks. Nothing is known of those who listen, and of the programs of timers, but what they may
do: a `Scope` says how they may alter the studio on their own, what they may publish, and which
commands they may give. A `Callback` is an act within a scope, together with the way it is put
together, so that it can be told what it leads to. It may make what it likes of the answers that
it gets and of the faults that it catches.
-/

namespace PianoRoll.Studio

open Work

/-- What callbacks may do. -/
structure Scope where
  /-- How they may change the studio on their own. -/
  changes : Studio → Studio → Prop
  chains : Chains changes
  /-- What they may write on their own. -/
  writes : Entry → Prop := fun _ => True
  /-- What they may count on whenever they look at the studio. -/
  expects : Studio → Prop := fun _ => True
  publishes : Event → Prop := fun _ => False
  asks : Command → Prop
  /-- Whether the programs of timers that fire because of them are callbacks, too. -/
  runs : Prop := False

/-- An act within a scope. Where it looks at the studio and does not see what may be expected,
anything may follow. -/
inductive Callback (scope : Scope) : {α : Type} → Act α → Type 1
  | act {α : Type} {p : Act α} (alters : Alters scope.changes scope.writes p) : Callback scope p
  | bind {α β : Type} {p : Act α} {f : α → Act β} (first : Callback scope p)
      (rest : ∀ a, Callback scope (f a)) : Callback scope (p >>= f)
  | rescue {α : Type} {p : Act α} {f : Fault → Act α} (first : Callback scope p)
      (rest : ∀ e, Callback scope (f e)) : Callback scope (tryCatch p f)
  | look {α : Type} {f : Studio → Act α} (sees : ∀ s, scope.expects s → Callback scope (f s)) :
      Callback scope (look >>= f)
  | react (r : Reaction) (e : Event) : Callback scope (react r e)
  | publish (h : Hooks) (hears : ∀ l e, Callback scope (h.hear l e)) (e : Event)
      (may : scope.publishes e) : Callback scope (publish h e)
  | ask (h : Hooks) (hears : ∀ l e, Callback scope (h.hear l e))
      (runs : scope.runs → ∀ name program, Callback scope (h.run name program)) (c : Command)
      (may : scope.asks c) : Callback scope (carryOut h c)

variable {scope : Scope}

def Callback.pure {α : Type} (a : α) : Callback scope (Pure.pure a : Act α) :=
  .act (alters_pure scope.chains a)

/-- What holds along all that callbacks change on their own, along what the desk does, and along
what they ask for, holds along all that they do. -/
theorem Callback.leads {R : Studio → Studio → Prop} (hR : Chains R)
    (changes : ∀ {s s'}, scope.changes s s' → R s s') (reacts : ∀ r e, Leads R (Studio.react r e))
    (sees : ∀ s, scope.expects s) (silent : ∀ e, ¬scope.publishes e)
    (asks : ∀ {h : Hooks} {c : Command}, (∀ l e, Leads R (h.hear l e)) →
      (scope.runs → ∀ name program, Leads R (h.run name program)) → scope.asks c →
        Leads R (carryOut h c))
    {α : Type} {p : Act α} (callback : Callback scope p) : Leads R p := by
  induction callback with
  | act alters => exact alters.leads.mono fun _ _ => changes
  | bind _ _ ihp ihf => exact hR.bind ihp ihf
  | rescue _ _ ihp ihf => exact hR.rescue ihp ihf
  | look _ ih => exact hR.bind hR.look fun s => ih s (sees s)
  | react r e => exact reacts r e
  | publish _ _ e may => exact absurd may (silent e)
  | ask h _ _ c may hears runs => exact asks hears runs may

def unheard : Hooks := ⟨fun _ _ => return, fun _ _ => return, 100⟩

/-- Commands one after the other that nobody else hears of, whatever comes of each. -/
def give (cs : List Command) : Act Unit := cs.forM fun c => discard (carryOut unheard c)

/-- Giving commands is within a scope in which they may be asked for. -/
def Callback.give : (cs : List Command) → (may : ∀ c ∈ cs, scope.asks c) →
    Callback scope (give cs)
  | [], _ => .pure ()
  | c :: cs, may =>
    .bind (.bind (.ask unheard (fun _ _ => .pure ()) (fun _ _ _ => .pure ()) c
        (may c List.mem_cons_self)) fun _ => .pure ()) fun _ =>
      Callback.give cs fun c hc => may c (List.mem_cons_of_mem _ hc)

/-- A listener that gives commands when it hears of events. -/
def prompted (orders : Event → List Command) : Hooks where
  hear _ e := give (orders e)
  run _ _ := return
  patience := 100

end PianoRoll.Studio
