import PianoRoll.Proofs.Inputs.Ledger
import PianoRoll.Proofs.Work
import PianoRoll.Studio.Wiring

/-!
What opening and closing ports comes to. None of it can fail, whatever the system answers, and each
act leaves everything alone but the ports that are held and the system's counts (`rewired`). What
was done with ports can be read off the journal (`Reports`).
-/

namespace PianoRoll

open Midi

/-- Entries, latest first, that tell of switches and of nothing that was published. -/
structure Reports (es : List Entry) (xs : List Switch) : Prop where
  switches : es.filterMap Entry.switch? = xs
  unpublished : ∀ e, .event e ∉ es

namespace Reports

theorem nil : Reports [] [] := ⟨rfl, fun _ => List.not_mem_nil⟩

theorem line (l : LogLine) : Reports [.log l] [] := ⟨rfl, by simp⟩

theorem opened (port : Port) : Reports [.portOpened port] [.opened port] := ⟨rfl, by simp⟩

theorem closed (port : Port) : Reports [.portClosed port] [.closed port] := ⟨rfl, by simp⟩

variable {es es' : List Entry} {xs xs' : List Switch}

theorem after (h' : Reports es' xs') (h : Reports es xs) : Reports (es' ++ es) (xs' ++ xs) where
  switches := by rw [List.filterMap_append, h'.switches, h.switches]
  unpublished e he := (List.mem_append.1 he).elim (h'.unpublished e) (h.unpublished e)

theorem mem_iff (h : Reports es xs) (x : Switch) : x.entry ∈ es ↔ x ∈ xs := by
  simp [← h.switches, Entry.switch?_eq_some_iff]

end Reports

namespace Studio

open Work

/-- The studio after its system was asked so many times and opened so many ports, with the ports
that are held then. -/
def rewired (asked opened : Nat) (ports : Table String Port) (s : Studio) : Studio :=
  { s with
    system := { s.system with
      asked := s.system.asked + asked, opened := s.system.opened + opened }
    inputs := { s.inputs with ports } }

theorem rewired_rewired (n m n' m' : Nat) (ps ps' : Table String Port) (s : Studio) :
    (s.rewired n m ps).rewired n' m' ps' = s.rewired (n + n') (m + m') ps' := by
  simp only [rewired, Nat.add_assoc]

theorem ask_on {α : Type} (question : System → Nat → α) (b : Bench Studio) :
    (ask question).on b = some (.ok (question b.part.system b.part.system.asked),
      ⟨b.part.rewired 1 0 b.part.inputs.ports, b.journal⟩) := rfl

/-! ## Closing -/

/-- A port is asked to close, whether or not it does. -/
theorem closePort_on (port : Port) (b : Bench Studio) :
    ∃ es, (closePort port).on b =
      some (.ok (), ⟨b.part.rewired 1 0 b.part.inputs.ports, es ++ b.journal⟩) ∧
        Reports es [.closed port] := by
  rw [closePort, on_bind_ok (on_write _ b), on_bind_ok (ask_on _ _)]
  split
  · exact ⟨[_, .portClosed port], rfl, (Reports.line _).after (.closed port)⟩
  · exact ⟨[.portClosed port], rfl, .closed port⟩

theorem closePorts_on (ports : Table String Port) (b : Bench Studio) :
    ∃ es, (ports.forM fun (_, port) => closePort port).on b = some (.ok (),
        ⟨b.part.rewired ports.length 0 b.part.inputs.ports, es ++ b.journal⟩) ∧
      Reports es (ports.map fun e => .closed e.2).reverse := by
  induction ports generalizing b with
  | nil => exact ⟨[], rfl, .nil⟩
  | cons e ports ih =>
    obtain ⟨es, h, closed⟩ := closePort_on e.2 b
    obtain ⟨es', h', others⟩ :=
      ih ⟨b.part.rewired 1 0 b.part.inputs.ports, es ++ b.journal⟩
    refine ⟨es' ++ es, ?_, ?_⟩
    · rw [forM_cons, on_bind_ok h, h', rewired_rewired, List.length_cons, Nat.add_comm,
        List.append_assoc]
      rfl
    · rw [List.map_cons, List.reverse_cons]
      exact others.after closed

/-- Every port that is held is asked to close, whatever the others answer, and none is held then. -/
theorem closeInputs_on (b : Bench Studio) :
    ∃ es, closeInputs.on b = some (.ok (), ⟨{ b.part.rewired b.part.inputs.ports.length 0 [] with
        inputs := { b.part.inputs with ports := [], connected := false } }, es ++ b.journal⟩) ∧
      Reports es (b.part.inputs.ports.map fun e => .closed e.2).reverse := by
  obtain ⟨es, h, closed⟩ := closePorts_on b.part.inputs.ports b
  refine ⟨es, ?_, closed⟩
  rw [closeInputs, on_bind_ok (on_look b), on_bind_ok h]
  rfl

theorem dropPort_on (name : String) (port : Port) (b : Bench Studio) :
    ∃ es, (dropPort name port).on b = some (.ok (),
        ⟨b.part.rewired 1 0 (b.part.inputs.ports.erase name), es ++ b.journal⟩) ∧
      Reports es [.closed port] := by
  obtain ⟨es, h, closed⟩ := closePort_on port
    ⟨b.part.rewired 0 0 (b.part.inputs.ports.erase name), b.journal⟩
  refine ⟨_, ?_, (Reports.line ⟨.info, s!"MIDI input removed: {name}"⟩).after closed⟩
  have erased : (changeInputs fun i => { i with ports := i.ports.erase name }).on b =
      some (.ok (), ⟨b.part.rewired 0 0 (b.part.inputs.ports.erase name), b.journal⟩) := rfl
  rw [dropPort, on_bind_ok erased, on_bind_ok h]
  rfl

theorem succeeds_dropPort (name : String) (port : Port) : Succeeds (dropPort name port) :=
  fun b => have ⟨_, h, _⟩ := dropPort_on name port b; ⟨_, _, h⟩

/-- The ports whose inputs are gone are closed, and the others are held as before. -/
theorem dropPorts_on (gone : Table String Port) (b : Bench Studio)
    (distinct : b.part.inputs.ports.keys.Nodup) :
    ∃ es, (gone.forM fun (name, port) => dropPort name port).on b = some (.ok (),
        ⟨b.part.rewired gone.length 0 (b.part.inputs.ports.filter (·.1 ∉ gone.keys)),
          es ++ b.journal⟩) ∧
      Reports es (gone.map fun e => .closed e.2).reverse := by
  induction gone generalizing b with
  | nil =>
    have all : b.part.inputs.ports.filter (fun e => e.1 ∉ Table.keys ([] : Table String Port)) =
        b.part.inputs.ports := by simp [Table.keys_nil]
    exact ⟨[], by rw [all]; rfl, .nil⟩
  | cons e gone ih =>
    obtain ⟨es, h, closed⟩ := dropPort_on e.1 e.2 b
    have erased := Table.erase_eq_filter (k := e.1) distinct
    obtain ⟨es', h', others⟩ :=
      ih ⟨b.part.rewired 1 0 (b.part.inputs.ports.erase e.1), es ++ b.journal⟩
        (erased ▸ Table.nodup_keys_filter distinct _)
    refine ⟨es' ++ es, ?_, ?_⟩
    · have left : (b.part.inputs.ports.erase e.1).filter (·.1 ∉ Table.keys gone) =
          b.part.inputs.ports.filter (·.1 ∉ Table.keys (e :: gone)) := by
        rw [erased, List.filter_filter]
        refine List.filter_congr fun x _ => ?_
        simp [Table.keys_cons, Bool.and_comm]
      rw [forM_cons, on_bind_ok h, h', rewired_rewired, List.length_cons, Nat.add_comm,
        List.append_assoc, ← left]
      rfl
    · rw [List.map_cons, List.reverse_cons]
      exact others.after closed

/-! ## Opening -/

def opening (name : String) (b : Bench Studio) : Bench Studio :=
  ⟨b.part.rewired 1 1 (b.part.inputs.ports.put name ⟨b.part.system.opened, name⟩),
    .portOpened ⟨b.part.system.opened, name⟩ :: b.journal⟩

/-- An input is refused, or opened and held. -/
theorem openPort_on (name : String) (b : Bench Studio) :
    (∃ reason, b.part.system.opening b.part.system.asked name = some reason ∧
      (openPort name).on b = some (.ok (some reason),
        ⟨b.part.rewired 1 0 b.part.inputs.ports, b.journal⟩)) ∨
    (b.part.system.opening b.part.system.asked name = none ∧
      (openPort name).on b = some (.ok none, opening name b)) := by
  rw [openPort, on_bind_ok (ask_on _ b)]
  cases answer : b.part.system.opening b.part.system.asked name with
  | some reason => exact .inl ⟨reason, rfl, rfl⟩
  | none => exact .inr ⟨rfl, rfl⟩

def refusalOf (name reason : String) : Entry :=
  .log ⟨.warning, s!"MIDI input {name} could not be opened: {reason}"⟩

/-- What is said of an input that does, latest first. -/
def admissionOf (port : Port) : List Entry :=
  [.log ⟨.info, s!"MIDI input added: {port.name}"⟩, .portOpened port]

theorem reports_admission (port : Port) : Reports (admissionOf port) [.opened port] :=
  (Reports.line _).after (.opened port)

theorem reports_refusal (name reason : String) : Reports [refusalOf name reason] [] := .line _

/-- Which inputs were opened when the system was asked so many times: in the order of the names each
that was not held and did open. The others were refused, and it was said why. -/
structure Admits (s : Studio) (names admitted : List String) (n : Nat) (es : List Entry) :
    Prop where
  inOrder : admitted.Sublist names
  distinct : admitted.Nodup
  new : ∀ name ∈ admitted, name ∉ s.inputs.ports.keys
  accepted : ∀ name ∈ admitted, ∃ k < n, s.system.opening (s.system.asked + k) name = none
  refused : ∀ name ∈ names, name ∉ s.inputs.ports.keys → name ∉ admitted →
    ∃ k < n, ∃ reason, s.system.opening (s.system.asked + k) name = some reason ∧
      refusalOf name reason ∈ es

namespace Admits

variable {s : Studio} {name : String} {names admitted : List String} {n : Nat} {es : List Entry}

theorem nil : Admits s [] [] 0 [] := ⟨.slnil, List.nodup_nil, by simp, by simp, by simp⟩

theorem later (h : Admits s names admitted n es) (earlier : List Entry) :
    Admits s names admitted n (es ++ earlier) := by
  refine { h with refused := fun x hx unheld out => ?_ }
  obtain ⟨k, hk, reason, answer, said⟩ := h.refused x hx unheld out
  exact ⟨k, hk, reason, answer, List.mem_append_left _ said⟩

/-- Nobody is asked for an input that is held. -/
theorem held (h : Admits s names admitted n es) (here : name ∈ s.inputs.ports.keys) :
    Admits s (name :: names) admitted n es := by
  refine { h with inOrder := h.inOrder.cons name, refused := fun x hx unheld out => ?_ }
  rcases List.mem_cons.1 hx with rfl | hx
  · exact absurd here unheld
  · exact h.refused x hx unheld out

/-- An input that is refused may be listed again, and open then. -/
theorem after_refusal {reason : String}
    (answer : s.system.opening s.system.asked name = some reason)
    (h : Admits (s.rewired 1 0 s.inputs.ports) names admitted n es) :
    Admits s (name :: names) admitted (n + 1) (es ++ [refusalOf name reason]) where
  inOrder := h.inOrder.cons name
  distinct := h.distinct
  new := h.new
  accepted x hx := by
    obtain ⟨k, hk, answer⟩ := h.accepted x hx
    exact ⟨1 + k, by omega, (Nat.add_assoc s.system.asked 1 k) ▸ answer⟩
  refused x hx unheld out := by
    rcases List.mem_cons.1 hx with rfl | hx
    · exact ⟨0, Nat.succ_pos n, reason, answer, by simp⟩
    · obtain ⟨k, hk, why, answer, said⟩ := h.refused x hx unheld out
      exact ⟨1 + k, by omega, why, (Nat.add_assoc s.system.asked 1 k) ▸ answer,
        List.mem_append_left _ said⟩

/-- An input that has opened is held when it is listed again. -/
theorem after_opening (new : name ∉ s.inputs.ports.keys)
    (answer : s.system.opening s.system.asked name = none)
    (h : Admits (s.rewired 1 1 (s.inputs.ports ++ portsFor s.system.opened [name])) names admitted n
      es) (before : List Entry) :
    Admits s (name :: names) (name :: admitted) (n + 1) (es ++ before) := by
  have keys : Table.keys (s.inputs.ports ++ portsFor s.system.opened [name]) =
      s.inputs.ports.keys ++ [name] := List.map_append
  have others : ∀ x ∈ admitted, x ∉ s.inputs.ports.keys ∧ x ≠ name := by
    intro x hx
    have unheld := h.new x hx
    change x ∉ Table.keys (s.inputs.ports ++ portsFor s.system.opened [name]) at unheld
    simpa [keys] using unheld
  refine ⟨h.inOrder.cons_cons name,
    List.nodup_cons.2 ⟨fun hx => (others name hx).2 rfl, h.distinct⟩, fun x hx => ?_,
    fun x hx => ?_, fun x hx unheld out => ?_⟩
  · rcases List.mem_cons.1 hx with rfl | hx
    · exact new
    · exact (others x hx).1
  · rcases List.mem_cons.1 hx with rfl | hx
    · exact ⟨0, Nat.succ_pos n, answer⟩
    · obtain ⟨k, hk, answer⟩ := h.accepted x hx
      exact ⟨1 + k, by omega, (Nat.add_assoc s.system.asked 1 k) ▸ answer⟩
  · obtain ⟨other, out⟩ := not_or.1 (mt List.mem_cons.2 out)
    have still : x ∉ Table.keys (s.inputs.ports ++ portsFor s.system.opened [name]) := by
      simp [keys, unheld, other]
    obtain ⟨k, hk, why, answer, said⟩ :=
      h.refused x (List.mem_of_ne_of_mem other hx) still out
    exact ⟨1 + k, by omega, why, (Nat.add_assoc s.system.asked 1 k) ▸ answer,
      List.mem_append_left _ said⟩

end Admits

theorem addPort_on (name : String) (b : Bench Studio) :
    (name ∈ b.part.inputs.ports.keys ∧ (addPort name).on b = some (.ok false, b)) ∨
    (name ∉ b.part.inputs.ports.keys ∧ ∃ reason,
      b.part.system.opening b.part.system.asked name = some reason ∧
      (addPort name).on b = some (.ok false,
        ⟨b.part.rewired 1 0 b.part.inputs.ports, refusalOf name reason :: b.journal⟩)) ∨
    (name ∉ b.part.inputs.ports.keys ∧
      b.part.system.opening b.part.system.asked name = none ∧
      (addPort name).on b = some (.ok true,
        ⟨b.part.rewired 1 1 (b.part.inputs.ports ++ portsFor b.part.system.opened [name]),
          admissionOf ⟨b.part.system.opened, name⟩ ++ b.journal⟩)) := by
  rw [addPort, on_bind_ok (on_look b)]
  cases held : b.part.inputs.ports.get? name with
  | some port =>
    exact .inl ⟨List.mem_map_of_mem (Table.mem_of_get? held), rfl⟩
  | none =>
    have new := Table.get?_eq_none_iff.1 held
    rcases openPort_on name b with ⟨reason, answer, h⟩ | ⟨answer, h⟩
    · refine .inr (.inl ⟨new, reason, answer, ?_⟩)
      exact on_bind_ok h
    · rw [opening, Table.put_of_new new] at h
      refine .inr (.inr ⟨new, answer, ?_⟩)
      exact on_bind_ok h

theorem addPorts_on (names : List String) (b : Bench Studio) :
    ∃ admitted n es, (addPorts names).on b = some (.ok (!admitted.isEmpty),
        ⟨b.part.rewired n admitted.length
          (b.part.inputs.ports ++ portsFor b.part.system.opened admitted), es ++ b.journal⟩) ∧
      Reports es ((portsFor b.part.system.opened admitted).map fun e => .opened e.2).reverse ∧
      Admits b.part names admitted n es := by
  induction names generalizing b with
  | nil =>
    refine ⟨[], 0, [], ?_, .nil, .nil⟩
    rw [portsFor, List.append_nil]
    rfl
  | cons name names ih =>
    rcases addPort_on name b with ⟨here, h⟩ | ⟨new, reason, answer, h⟩ | ⟨new, answer, h⟩
    · obtain ⟨admitted, n, es, h', reports, admits⟩ := ih b
      refine ⟨admitted, n, es, ?_, reports, admits.held here⟩
      rw [addPorts, on_bind_ok h, on_bind_ok h', Bool.or_false]
      rfl
    · obtain ⟨admitted, n, es, h', reports, admits⟩ :=
        ih ⟨b.part.rewired 1 0 b.part.inputs.ports, refusalOf name reason :: b.journal⟩
      refine ⟨admitted, n + 1, es ++ [refusalOf name reason], ?_, ?_, admits.after_refusal answer⟩
      · rw [addPorts, on_bind_ok h, on_bind_ok h', Bool.or_false, rewired_rewired, Nat.zero_add,
          Nat.add_comm, List.append_assoc]
        rfl
      · have said := reports.after (reports_refusal name reason)
        rwa [List.append_nil] at said
    · obtain ⟨admitted, n, es, h', reports, admits⟩ :=
        ih ⟨b.part.rewired 1 1 (b.part.inputs.ports ++ portsFor b.part.system.opened [name]),
          admissionOf ⟨b.part.system.opened, name⟩ ++ b.journal⟩
      refine ⟨name :: admitted, n + 1, es ++ admissionOf ⟨b.part.system.opened, name⟩, ?_, ?_,
        admits.after_opening new answer _⟩
      · have ports : b.part.inputs.ports ++ portsFor b.part.system.opened (name :: admitted) =
            b.part.inputs.ports ++ portsFor b.part.system.opened [name] ++
              portsFor (b.part.system.opened + 1) admitted := by
          rw [List.append_assoc]
          rfl
        rw [addPorts, on_bind_ok h, on_bind_ok h', Bool.or_true, rewired_rewired, Nat.add_comm 1,
          Nat.add_comm 1, List.append_assoc, ports]
        rfl
      · rw [portsFor, List.map_cons, List.reverse_cons]
        exact reports.after (reports_admission _)

/-! ## Connecting -/

theorem openPorts_on (names : List String) (b : Bench Studio) :
    ∃ answer n m ports es, (openPorts names).on b =
      some (.ok answer, ⟨b.part.rewired n m ports, es ++ b.journal⟩) := by
  induction names generalizing b with
  | nil => exact ⟨none, 0, 0, b.part.inputs.ports, [], rfl⟩
  | cons name names ih =>
    rcases openPort_on name b with ⟨reason, -, h⟩ | ⟨-, h⟩
    · exact ⟨some reason, 1, 0, b.part.inputs.ports, [], on_bind_ok h⟩
    · obtain ⟨answer, n, m, ports, es, h'⟩ := ih (opening name b)
      refine ⟨answer, 1 + n, 1 + m, ports, es ++ [.portOpened ⟨b.part.system.opened, name⟩],
        (on_bind_ok h).trans (h'.trans ?_)⟩
      rw [opening, rewired_rewired, List.append_assoc]
      rfl

/-- The inputs to open are one alone, or all that the system lists. -/
theorem namesToOpen_on (name : Option String) (b : Bench Studio) :
    ∃ n listed, (namesToOpen name).on b =
        some (.ok listed, ⟨b.part.rewired n 0 b.part.inputs.ports, b.journal⟩) ∧
      ∀ names, listed = .ok names →
        (∃ x, names = [x]) ∨ b.part.system.listing b.part.system.asked = .ok names := by
  have all : ∃ n listed, (ask System.listing).on b =
        some (.ok listed, ⟨b.part.rewired n 0 b.part.inputs.ports, b.journal⟩) ∧
      ∀ names, listed = .ok names →
        (∃ x, names = [x]) ∨ b.part.system.listing b.part.system.asked = .ok names :=
    ⟨1, _, ask_on _ b, fun _ => .inr⟩
  cases name with
  | none => exact all
  | some name =>
    rw [namesToOpen]
    split
    · exact all
    · refine ⟨0, .ok [name], rfl, fun names listed => .inl ⟨name, ?_⟩⟩
      exact (Except.ok.inj listed).symm

theorem openNamed_on (name : Option String) (b : Bench Studio) :
    ∃ answer n m ports es, (openNamed name).on b =
      some (.ok answer, ⟨b.part.rewired n m ports, es ++ b.journal⟩) := by
  obtain ⟨n, listed, h, -⟩ := namesToOpen_on name b
  rw [openNamed, on_bind_ok h]
  cases listed with
  | error reason => exact ⟨some reason, n, 0, b.part.inputs.ports, [], rfl⟩
  | ok names =>
    obtain ⟨answer, n', m, ports, es, h'⟩ :=
      openPorts_on names ⟨b.part.rewired n 0 b.part.inputs.ports, b.journal⟩
    rw [rewired_rewired] at h'
    exact ⟨answer, _, _, ports, es, h'⟩

def announce (h : Hooks) : Act Bool := do
  let now := (← look).clock
  changeInputs fun i => { i with lastScan := now }
  publishStatus h
  return (← look).inputs.connected

/-- What connecting comes to when inputs were opened, or why not. -/
def settle (h : Hooks) (failure : Option String) : Act Bool := do
  match failure with
  | none =>
    changeInputs fun i => { i with connected := true }
    countInputs
  | some reason =>
    log .warning s!"MIDI connect failed: {reason}"
    closeInputs
    changeInputs fun i => { i with status := s!"Failed to connect MIDI: {reason}" }
  announce h

def cleared (name : Option String) (n : Nat) (s : Studio) : Studio :=
  { s.rewired n 0 [] with
    inputs := { s.inputs with ports := [], connected := false, wanted := name } }

/-- Connecting closes what is held and opens the inputs asked for. -/
theorem connect_on (h : Hooks) (name : Option String) (b : Bench Studio) :
    ∃ n es, (connect h name).on b =
      (openNamed name >>= settle h).on ⟨b.part.cleared name n, es ++ b.journal⟩ ∧
        Reports es (b.part.inputs.ports.map fun e => .closed e.2).reverse := by
  obtain ⟨es, closes, closed⟩ := closeInputs_on b
  exact ⟨_, es, on_bind_ok closes, closed⟩

/-! ## Following the system's list -/

/-- What the studio says and answers when it has followed the system's list. -/
def report (h : Hooks) (changed : Bool) : Act Bool := do
  if changed then
    countInputs
    publishStatus h
  return changed

theorem rescan_failed (h : Hooks) {b : Bench Studio} {reason : String}
    (answer : b.part.system.listing b.part.system.asked = .error reason) :
    (rescan h).on b = some (.ok false, ⟨b.part.rewired 1 0 b.part.inputs.ports,
      .log ⟨.debug, "MIDI rescan failed"⟩ :: b.journal⟩) := by
  rw [rescan, on_bind_ok (ask_on _ b), answer]
  rfl

/-- Following the system's list closes the ports whose inputs are gone, opens the inputs that have
come as far as they open, and reports if anything changed by that. -/
theorem rescan_on (h : Hooks) {b : Bench Studio} (distinct : b.part.inputs.ports.keys.Nodup)
    {listed names : List String} (answer : b.part.system.listing b.part.system.asked = .ok listed)
    (wanted : wantedAmong b.part.inputs.wanted listed = names) :
    let kept := listedIn names b.part.inputs.ports
    let gone := goneFrom names b.part.inputs.ports
    ∃ admitted n es, (rescan h).on b = (report h (!gone.isEmpty || !admitted.isEmpty)).on
        ⟨b.part.rewired (1 + gone.length + n) admitted.length
          (kept ++ portsFor b.part.system.opened admitted), es ++ b.journal⟩ ∧
      Reports es (((portsFor b.part.system.opened admitted).map fun e => .opened e.2).reverse ++
        (gone.map fun e => .closed e.2).reverse) ∧
      Admits (b.part.rewired (1 + gone.length) 0 kept) names admitted n es := by
  intro kept gone
  subst wanted
  let b₁ : Bench Studio := ⟨b.part.rewired 1 0 b.part.inputs.ports, b.journal⟩
  obtain ⟨es, dropped, closed⟩ := dropPorts_on gone b₁ distinct
  have left : b₁.part.inputs.ports.filter (·.1 ∉ gone.keys) = kept := listedIn_eq _ _
  rw [left] at dropped
  let b₂ : Bench Studio := ⟨b₁.part.rewired gone.length 0 kept, es ++ b.journal⟩
  have part₂ : b₂.part = b.part.rewired (1 + gone.length) 0 kept := rewired_rewired ..
  obtain ⟨admitted, n, es', added, opened, admits⟩ :=
    addPorts_on (wantedAmong b.part.inputs.wanted listed) b₂
  rw [part₂, rewired_rewired, Nat.zero_add] at added
  rw [part₂] at admits
  refine ⟨admitted, n, es' ++ es, ?_, opened.after closed, admits.later es⟩
  rw [rescan, on_bind_ok (ask_on _ b), answer]
  refine (on_bind_ok (on_look b₁)).trans ((on_bind_ok dropped).trans ((on_bind_ok added).trans ?_))
  rw [List.append_assoc]
  rfl

end Studio

end PianoRoll
