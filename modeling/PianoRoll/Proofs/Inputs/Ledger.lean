import Mathlib.Logic.Relation
import PianoRoll.Proofs.Inputs.Tables
import PianoRoll.Studio.State

/-!
The ledger of the MIDI inputs: which ports are held, and which were opened and closed. However it
came about, a port is held if it was opened and neither closed nor overtaken by another port for
the same input (`Correct`); and who opens an input only if it is not held overtakes nothing
(`Correct.none_overtaken`).
-/

namespace PianoRoll

open Midi

inductive Switch
  | opened (port : Port)
  | closed (port : Port)
  deriving DecidableEq, Repr

def Entry.switch? : Entry → Option Switch
  | .portOpened port => some (.opened port)
  | .portClosed port => some (.closed port)
  | _ => none

def Switch.entry : Switch → Entry
  | .opened port => .portOpened port
  | .closed port => .portClosed port

theorem Entry.switch?_eq_some_iff {e : Entry} {x : Switch} : e.switch? = some x ↔ e = x.entry := by
  cases e <;> cases x <;> simp [Entry.switch?, Switch.entry]

/-- The ports of some inputs that are opened one after the other. -/
def portsFor (next : Nat) : List String → Table String Port
  | [] => []
  | name :: names => (name, ⟨next, name⟩) :: portsFor (next + 1) names

theorem keys_portsFor (next : Nat) (names : List String) : (portsFor next names).keys = names := by
  induction names generalizing next with
  | nil => rfl
  | cons name names ih => exact congrArg (name :: ·) (ih (next + 1))

theorem mem_portsFor {next : Nat} {names : List String} {e : String × Port}
    (h : e ∈ portsFor next names) : e.2.name = e.1 := by
  induction names generalizing next with
  | nil => cases h
  | cons name names ih =>
    rcases List.mem_cons.1 h with rfl | h
    · rfl
    · exact ih h

/-- The ports of a table whose inputs are listed, and those whose inputs are not. -/
def listedIn (names : List String) (ports : Table String Port) : Table String Port :=
  ports.filter fun (name, _) => names.contains name

def goneFrom (names : List String) (ports : Table String Port) : Table String Port :=
  ports.filter fun (name, _) => !names.contains name

theorem mem_keys_listedIn {names : List String} {ports : Table String Port} {name : String} :
    name ∈ (listedIn names ports).keys ↔ name ∈ names ∧ name ∈ ports.keys := by
  constructor
  · intro h
    obtain ⟨e, he, rfl⟩ := List.mem_map.1 h
    obtain ⟨held, listed⟩ := List.mem_filter.1 he
    exact ⟨List.contains_iff_mem.1 listed, Table.mem_keys_of_mem held⟩
  · rintro ⟨listed, h⟩
    obtain ⟨e, held, rfl⟩ := List.mem_map.1 h
    exact Table.mem_keys_of_mem (List.mem_filter.2 ⟨held, List.contains_iff_mem.2 listed⟩)

theorem mem_goneFrom {names : List String} {ports : Table String Port} {e : String × Port} :
    e ∈ goneFrom names ports ↔ e ∈ ports ∧ e.1 ∉ names := by
  simp [goneFrom]

/-- Where the inputs that are gone were dropped, those are left that are listed. -/
theorem listedIn_eq (names : List String) (ports : Table String Port) :
    ports.filter (·.1 ∉ (goneFrom names ports).keys) = listedIn names ports := by
  refine List.filter_congr fun e he => ?_
  by_cases listed : e.1 ∈ names
  · have still : e.1 ∉ (goneFrom names ports).keys := by
      intro hk
      obtain ⟨x, hx, same⟩ := List.mem_map.1 hk
      have unlisted := (List.mem_filter.1 hx).2
      simp [same, listed] at unlisted
    simp [still, listed]
  · have gone : e ∈ goneFrom names ports := List.mem_filter.2 ⟨he, by simp [listed]⟩
    simp [Table.mem_keys_of_mem gone, listed]

/-- The ports that are held, the serial of the next one to be opened, and what was done with ports
so far, latest first. -/
structure Ledger where
  held : Table String Port
  next : Nat
  past : List Switch

namespace Ledger

/-- An input is opened, or a port that is held is closed. Who is careful opens no input that is
held. -/
inductive Step (careful : Prop) (l : Ledger) : Ledger → Prop
  | opens (name : String) (new : careful → name ∉ l.held.keys) :
    Step careful l ⟨l.held.put name ⟨l.next, name⟩, l.next + 1, .opened ⟨l.next, name⟩ :: l.past⟩
  | closes (name : String) (port : Port) (held : (name, port) ∈ l.held) :
    Step careful l ⟨l.held.erase name, l.next, .closed port :: l.past⟩

abbrev Path (careful : Prop) : Ledger → Ledger → Prop := Relation.ReflTransGen (Step careful)

/-- While a port was open, its input was opened once more. -/
def Overtaken (past : List Switch) (p : Port) : Prop :=
  ∃ later q earlier, past = later ++ .opened q :: earlier ∧ q.name = p.name ∧
    .opened p ∈ earlier ∧ .closed p ∉ earlier

section

variable {past : List Switch} {p q : Port}

theorem overtaken_opened : Overtaken (.opened q :: past) p ↔
    (q.name = p.name ∧ .opened p ∈ past ∧ .closed p ∉ past) ∨ Overtaken past p := by
  constructor
  · rintro ⟨later, q', earlier, split, h⟩
    cases later with
    | nil =>
      cases split
      exact .inl h
    | cons x later =>
      cases split
      exact .inr ⟨later, q', earlier, rfl, h⟩
  · rintro (h | ⟨later, q', earlier, rfl, h⟩)
    · exact ⟨[], q, past, rfl, h⟩
    · exact ⟨.opened q :: later, q', earlier, rfl, h⟩

theorem overtaken_closed : Overtaken (.closed q :: past) p ↔ Overtaken past p := by
  constructor
  · rintro ⟨later, q', earlier, split, h⟩
    cases later with
    | nil => cases split
    | cons x later =>
      cases split
      exact ⟨later, q', earlier, rfl, h⟩
  · rintro ⟨later, q', earlier, rfl, h⟩
    exact ⟨.closed q :: later, q', earlier, rfl, h⟩

theorem Overtaken.opened (h : Overtaken past p) : .opened p ∈ past := by
  obtain ⟨later, q, earlier, rfl, -, opened, -⟩ := h
  exact List.mem_append_right _ (List.mem_cons_of_mem _ opened)

end

/-- Inputs are held under distinct names, each by the port that was opened for it. -/
structure WellHeld (ports : Table String Port) : Prop where
  distinct : ports.keys.Nodup
  named : ∀ e ∈ ports, e.2.name = e.1

theorem WellHeld.put {ports : Table String Port} (h : WellHeld ports) (name : String)
    (serial : Nat) : WellHeld (ports.put name ⟨serial, name⟩) where
  distinct := Table.nodup_keys_put h.distinct _ _
  named e he := by
    rcases (Table.mem_put h.distinct).1 he with rfl | ⟨he, -⟩
    · rfl
    · exact h.named e he

theorem WellHeld.erase {ports : Table String Port} (h : WellHeld ports) (name : String) :
    WellHeld (ports.erase name) := by
  rw [Table.erase_eq_filter h.distinct]
  exact ⟨Table.nodup_keys_filter h.distinct _, fun e he => h.named e (List.mem_filter.1 he).1⟩

theorem Path.wellHeld {careful : Prop} {l l' : Ledger} (h : Path careful l l')
    (wellHeld : WellHeld l.held) : WellHeld l'.held := by
  induction h with
  | refl => exact wellHeld
  | tail _ hstep ih =>
    cases hstep with
    | opens name new => exact ih.put name _
    | closes name port held => exact ih.erase name

/-- Ports are held under the names of their inputs, each is opened and closed at most once, and
those are held that were opened and neither closed nor overtaken. Those that were overtaken are
never closed. -/
structure Correct (l : Ledger) : Prop extends WellHeld l.held where
  early : ∀ p, .opened p ∈ l.past → p.serial < l.next
  known : ∀ p, .closed p ∈ l.past → .opened p ∈ l.past
  once : l.past.Nodup
  held_iff : ∀ p, (p.name, p) ∈ l.held ↔
    .opened p ∈ l.past ∧ .closed p ∉ l.past ∧ ¬ Overtaken l.past p
  lost : ∀ p, Overtaken l.past p → .closed p ∉ l.past

theorem correct_empty (next : Nat) : Correct ⟨[], next, []⟩ where
  distinct := List.nodup_nil
  named := by simp
  early := by simp
  known := by simp
  once := List.nodup_nil
  held_iff := by simp
  lost := by simp

namespace Correct

variable {careful : Prop} {l l' : Ledger}

theorem opens (h : Correct l) (name : String) : Correct
    ⟨l.held.put name ⟨l.next, name⟩, l.next + 1, .opened ⟨l.next, name⟩ :: l.past⟩ := by
  have unopened : .opened ⟨l.next, name⟩ ∉ l.past := fun hp => Nat.lt_irrefl _ (h.early _ hp)
  have unclosed : .closed ⟨l.next, name⟩ ∉ l.past := fun hp => unopened (h.known _ hp)
  refine ⟨h.toWellHeld.put name _, fun p hp => ?_, fun p hp => ?_,
    List.nodup_cons.2 ⟨unopened, h.once⟩, fun p => ?_, fun p hp => ?_⟩
  · rcases List.mem_cons.1 hp with here | hp
    · cases here
      exact Nat.lt_succ_self _
    · exact Nat.lt_succ_of_lt (h.early p hp)
  · rcases List.mem_cons.1 hp with here | hp
    · cases here
    · exact List.mem_cons_of_mem _ (h.known p hp)
  · rw [Table.mem_put h.distinct, h.held_iff, overtaken_opened]
    by_cases same : p = ⟨l.next, name⟩
    -- the new port is held, and nothing has been opened since
    · subst same
      have fresh : ¬ Overtaken l.past ⟨l.next, name⟩ := fun ho => unopened ho.opened
      simp [unopened, unclosed, fresh]
    -- another port goes on being held, unless its input is the same
    · have other : (p.name, p) ≠ (name, ⟨l.next, name⟩) := fun e => same (congrArg Prod.snd e)
      simp only [other, false_or, List.mem_cons, Switch.opened.injEq, same, reduceCtorEq]
      grind
  · have unclosed : .closed p ∉ l.past := by
      rcases overtaken_opened.1 hp with ⟨-, -, unclosed⟩ | hp
      · exact unclosed
      · exact h.lost p hp
    simpa using unclosed

theorem closes (h : Correct l) {name : String} {port : Port} (held : (name, port) ∈ l.held) :
    Correct ⟨l.held.erase name, l.next, .closed port :: l.past⟩ := by
  obtain rfl : port.name = name := h.named _ held
  obtain ⟨opened, unclosed, standing⟩ := (h.held_iff port).1 held
  have erased {e : String × Port} : e ∈ l.held.erase port.name ↔ e ∈ l.held ∧ e.1 ≠ port.name := by
    rw [Table.erase_eq_filter h.distinct]
    simp
  refine ⟨h.toWellHeld.erase _, fun p hp => ?_, fun p hp => ?_,
    List.nodup_cons.2 ⟨unclosed, h.once⟩, fun p => ?_, fun p hp => ?_⟩
  · rcases List.mem_cons.1 hp with here | hp
    · cases here
    · exact h.early p hp
  · rcases List.mem_cons.1 hp with here | hp
    · cases here
      exact List.mem_cons_of_mem _ opened
    · exact List.mem_cons_of_mem _ (h.known p hp)
  · -- no two ports are held for one input
    have apart : (p.name, p) ∈ l.held → (p.name ≠ port.name ↔ p ≠ port) := by
      intro hp
      refine ⟨fun hne e => hne (e ▸ rfl), fun hne same => hne ?_⟩
      have here := Table.get?_of_mem h.distinct hp
      rw [same, Table.get?_of_mem h.distinct held] at here
      exact (Option.some.inj here).symm
    rw [erased, and_congr_right apart, h.held_iff, overtaken_closed]
    simp only [List.mem_cons, Switch.closed.injEq, reduceCtorEq, false_or, not_or]
    tauto
  · have hp := overtaken_closed.1 hp
    have other : p ≠ port := fun e => standing (e ▸ hp)
    simpa [other] using h.lost p hp

theorem step (h : Correct l) (hstep : Step careful l l') : Correct l' := by
  cases hstep with
  | opens name => exact h.opens name
  | closes name port held => exact h.closes held

theorem path (h : Correct l) (hpath : Path careful l l') : Correct l' := by
  induction hpath with
  | refl => exact h
  | tail _ hstep ih => exact ih.step hstep

/-- Who is careful overtakes nothing. -/
theorem none_overtaken (h : Correct l) (hc : careful) (hpath : Path careful l l')
    (none : ∀ p, ¬ Overtaken l.past p) (p : Port) : ¬ Overtaken l'.past p := by
  induction hpath with
  | refl => exact none p
  | @tail l₁ _ hpath hstep ih =>
    cases hstep with
    | closes => exact fun hp => ih (overtaken_closed.1 hp)
    | opens name new =>
      intro hp
      rcases overtaken_opened.1 hp with ⟨same, opened, unclosed⟩ | hp
      · have held := ((h.path hpath).held_iff p).2 ⟨opened, unclosed, ih⟩
        have taken : p.name ∈ l₁.held.keys := Table.mem_keys_of_mem held
        rw [← same] at taken
        exact new hc taken
      · exact ih hp

end Correct

/-! ## Paths -/

variable {careful : Prop}

/-- What went before makes no difference. -/
theorem Path.behind {l l' : Ledger} (h : Path careful l l') (earlier : List Switch) :
    Path careful { l with past := l.past ++ earlier } { l' with past := l'.past ++ earlier } := by
  refine h.lift (fun l : Ledger => { l with past := l.past ++ earlier }) fun l l' hstep => ?_
  cases hstep with
  | opens name new => exact .opens name new
  | closes name port held => exact .closes name port held

/-- Ports that are held can be closed one after the other. -/
theorem path_closes {gone : Table String Port} {l : Ledger} (distinct : l.held.keys.Nodup)
    (different : gone.keys.Nodup) (held : ∀ e ∈ gone, e ∈ l.held) :
    Path careful l ⟨l.held.filter (·.1 ∉ gone.keys), l.next,
      (gone.map fun e => .closed e.2).reverse ++ l.past⟩ := by
  induction gone generalizing l with
  | nil =>
    have all : l.held.filter (fun e => e.1 ∉ Table.keys ([] : Table String Port)) = l.held := by
      simp [Table.keys_nil]
    rw [all]
    exact .refl
  | cons e gone ih =>
    obtain ⟨new, different⟩ := List.nodup_cons.1 different
    have closes : Step careful l ⟨l.held.erase e.1, l.next, .closed e.2 :: l.past⟩ :=
      .closes e.1 e.2 (held e List.mem_cons_self)
    have erased := Table.erase_eq_filter (k := e.1) distinct
    have rest := ih (l := ⟨l.held.erase e.1, l.next, .closed e.2 :: l.past⟩)
      (erased ▸ Table.nodup_keys_filter distinct _) different fun x hx => by
        rw [erased]
        refine List.mem_filter.2 ⟨held x (List.mem_cons_of_mem _ hx), decide_eq_true ?_⟩
        exact fun same => new (same ▸ Table.mem_keys_of_mem hx)
    refine .head closes ?_
    convert rest using 2
    · rw [erased, List.filter_filter]
      refine List.filter_congr fun x _ => ?_
      simp [Table.keys_cons, Bool.and_comm]
    · simp

/-- Inputs that are not held can be opened one after the other. -/
theorem path_opens {names : List String} {l : Ledger} (different : names.Nodup)
    (new : ∀ name ∈ names, name ∉ l.held.keys) :
    Path careful l ⟨l.held ++ portsFor l.next names, l.next + names.length,
      ((portsFor l.next names).map fun e => .opened e.2).reverse ++ l.past⟩ := by
  induction names generalizing l with
  | nil =>
    rw [portsFor, List.append_nil]
    exact .refl
  | cons name names ih =>
    obtain ⟨once, different⟩ := List.nodup_cons.1 different
    have here := new name List.mem_cons_self
    have opens : Step careful l
        ⟨l.held ++ [(name, ⟨l.next, name⟩)], l.next + 1, .opened ⟨l.next, name⟩ :: l.past⟩ := by
      rw [← Table.put_of_new here]
      exact .opens name fun _ => here
    have rest := ih (l := ⟨l.held ++ [(name, ⟨l.next, name⟩)], l.next + 1,
        .opened ⟨l.next, name⟩ :: l.past⟩) different fun x hx held => by
      obtain ⟨e, he, rfl⟩ := List.mem_map.1 held
      rcases List.mem_append.1 he with he | he
      · exact new _ (List.mem_cons_of_mem _ hx) (Table.mem_keys_of_mem he)
      · rw [List.mem_singleton.1 he] at hx
        exact once hx
    refine .head opens ?_
    convert rest using 2
    · simp [portsFor]
    · change l.next + (names.length + 1) = l.next + 1 + names.length
      omega
    · simp [portsFor]

/-- Where a list of inputs is followed, the ports of those that are not in it are closed, and new
ones can be opened. -/
theorem path_follows {names admitted : List String} {l : Ledger} (distinct : l.held.keys.Nodup)
    (different : admitted.Nodup) (new : ∀ name ∈ admitted, name ∉ (listedIn names l.held).keys) :
    Path careful l ⟨listedIn names l.held ++ portsFor l.next admitted, l.next + admitted.length,
      ((portsFor l.next admitted).map fun e => .opened e.2).reverse ++
        ((goneFrom names l.held).map fun e => .closed e.2).reverse ++ l.past⟩ := by
  have different' : (goneFrom names l.held).keys.Nodup := Table.nodup_keys_filter distinct _
  have closes : Path careful l _ :=
    path_closes distinct different' fun e he => (List.mem_filter.1 he).1
  rw [listedIn_eq] at closes
  rw [List.append_assoc]
  exact closes.trans (path_opens different new)

end Ledger

end PianoRoll
