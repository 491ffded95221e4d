import PianoRoll.Proofs.Inputs.Custody
import PianoRoll.Proofs.Inputs.Safety

/-!
The inputs follow the system's list. What is held after a look at the list is what was held before
and is listed, and what is listed and has opened; and it is told to everyone once, if it is not the
same as before (`follows_system`). So the status says how many inputs are held, whenever they are
connected (`Counted`).
-/

namespace PianoRoll.Studio

open Work Ledger Midi

/-! ## One look at the list -/

/-- What becomes of a studio that follows a list of names, and what the journal tells of it. Those
inputs are held that are listed and were held before, or have opened. Ports that go on being held
are left alone, and all others are closed. Who is listed and not held in the end has refused when
the system was asked. Nothing else changes, and nothing is published. -/
structure Follows (names : List String) (s s' : Studio) (es : List Entry) : Prop where
  held : ∀ name, name ∈ s'.inputs.ports.keys ↔ name ∈ names ∧
    (name ∈ s.inputs.ports.keys ∨ ∃ port, port.name = name ∧ .portOpened port ∈ es)
  kept : ∀ e ∈ s.inputs.ports, e.1 ∈ names → e ∈ s'.inputs.ports ∧ .portClosed e.2 ∉ es ∧
    ∀ port, .portOpened port ∈ es → port.name ≠ e.1
  dropped : ∀ port, .portClosed port ∈ es ↔
    (port.name, port) ∈ s.inputs.ports ∧ port.name ∉ names
  added : ∀ port, .portOpened port ∈ es → (port.name, port) ∈ s'.inputs.ports ∧
    ∃ k, s.system.asked < k ∧ k < s'.system.asked ∧ s.system.opening k port.name = none
  refused : ∀ name ∈ names, name ∉ s'.inputs.ports.keys →
    ∃ k reason, s.system.asked < k ∧ k < s'.system.asked ∧
      s.system.opening k name = some reason ∧ refusalOf name reason ∈ es
  alone : ∃ asked opened, s' = s.rewired asked opened s'.inputs.ports
  unpublished : ∀ e, .event e ∉ es

def SameInputs (s s' : Studio) : Prop :=
  ∀ name, name ∈ s'.inputs.ports.keys ↔ name ∈ s.inputs.ports.keys

/-- Ports are found under their names. -/
theorem exists_named {ports : Table String Port} (named : ∀ e ∈ ports, e.2.name = e.1)
    {port : Port} : (∃ e ∈ ports, e.2 = port) ↔ (port.name, port) ∈ ports := by
  constructor
  · rintro ⟨e, he, rfl⟩
    exact (named e he).symm ▸ he
  · exact fun h => ⟨_, h, rfl⟩

section

variable {s : Studio} {names admitted : List String} {n : Nat} {es : List Entry}
  (wellHeld : WellHeld s.inputs.ports)
  (reports : Reports es (((portsFor s.system.opened admitted).map fun e => .opened e.2).reverse ++
    ((goneFrom names s.inputs.ports).map fun e => .closed e.2).reverse))
include reports

theorem opened_iff {port : Port} :
    .portOpened port ∈ es ↔ (port.name, port) ∈ portsFor s.system.opened admitted := by
  rw [← exists_named fun e he => mem_portsFor he, ← Switch.entry, reports.mem_iff]
  simp

theorem exists_opened_iff {name : String} :
    (∃ port, port.name = name ∧ .portOpened port ∈ es) ↔ name ∈ admitted := by
  rw [← keys_portsFor s.system.opened admitted]
  constructor
  · rintro ⟨port, rfl, opened⟩
    exact Table.mem_keys_of_mem ((opened_iff reports).1 opened)
  · intro h
    obtain ⟨e, he, rfl⟩ := List.mem_map.1 h
    have named := mem_portsFor he
    exact ⟨e.2, named, (opened_iff reports).2 (named.symm ▸ he)⟩

include wellHeld

theorem closed_iff {port : Port} :
    .portClosed port ∈ es ↔ (port.name, port) ∈ s.inputs.ports ∧ port.name ∉ names := by
  have named : ∀ e ∈ goneFrom names s.inputs.ports, e.2.name = e.1 :=
    fun e he => wellHeld.named e (mem_goneFrom.1 he).1
  rw [← Switch.entry, reports.mem_iff, ← mem_goneFrom (e := (port.name, port)),
    ← exists_named named]
  simp

theorem follows_of_admits
    (admits : Admits (s.rewired (1 + (goneFrom names s.inputs.ports).length) 0
      (listedIn names s.inputs.ports)) names admitted n es) :
    Follows names s (s.rewired (1 + (goneFrom names s.inputs.ports).length + n) admitted.length
      (listedIn names s.inputs.ports ++ portsFor s.system.opened admitted)) es where
  held name := by
    have listed : name ∈ admitted → name ∈ names := fun h => admits.inOrder.subset h
    change name ∈ Table.keys (listedIn _ _ ++ portsFor _ _) ↔ _
    rw [exists_opened_iff reports, Table.keys_append, keys_portsFor, List.mem_append,
      mem_keys_listedIn]
    tauto
  kept e he listed := by
    have named := wellHeld.named e he
    have still : e ∈ listedIn names s.inputs.ports :=
      List.mem_filter.2 ⟨he, List.contains_iff_mem.2 listed⟩
    refine ⟨List.mem_append_left _ still, fun closed => ?_, fun port opened same => ?_⟩
    · exact ((closed_iff wellHeld reports).1 closed).2 (named.symm ▸ listed)
    · have new := admits.new _ ((exists_opened_iff reports).1 ⟨port, same, opened⟩)
      exact new (Table.mem_keys_of_mem still)
  dropped port := closed_iff wellHeld reports
  added port opened := by
    have here := (opened_iff reports).1 opened
    obtain ⟨k, hk, answer⟩ :=
      admits.accepted port.name ((exists_opened_iff reports).1 ⟨port, rfl, opened⟩)
    refine ⟨List.mem_append_right _ here, _, ?_, ?_, answer⟩ <;> simp only [rewired] <;> omega
  refused name listed unheld := by
    have out : name ∉ (listedIn names s.inputs.ports).keys ∧ name ∉ admitted := by
      rw [← not_or, ← List.mem_append, ← keys_portsFor s.system.opened admitted,
        ← Table.keys_append]
      exact unheld
    obtain ⟨k, hk, reason, answer, said⟩ := admits.refused name listed out.1 out.2
    refine ⟨_, reason, ?_, ?_, answer, said⟩ <;> simp only [rewired] <;> omega
  alone := ⟨_, _, rfl⟩
  unpublished := reports.unpublished

omit wellHeld reports in
/-- The same inputs are held if none is gone and none has opened, and only then. -/
theorem sameInputs_iff {ports : Table String Port} (among : ∀ name ∈ admitted, name ∈ names)
    (new : ∀ name ∈ admitted, name ∉ (listedIn names ports).keys) (next : Nat) :
    (∀ name, name ∈ (listedIn names ports ++ portsFor next admitted).keys ↔ name ∈ ports.keys) ↔
      goneFrom names ports = [] ∧ admitted = [] := by
  have keys : (listedIn names ports ++ portsFor next admitted).keys =
      (listedIn names ports).keys ++ admitted := by rw [Table.keys_append, keys_portsFor]
  simp only [keys, List.mem_append, mem_keys_listedIn]
  constructor
  · intro same
    refine ⟨List.eq_nil_iff_forall_not_mem.2 fun e he => ?_,
      List.eq_nil_iff_forall_not_mem.2 fun name hn => ?_⟩
    · obtain ⟨held, unlisted⟩ := mem_goneFrom.1 he
      rcases (same e.1).2 (Table.mem_keys_of_mem held) with ⟨listed, -⟩ | hn
      · exact unlisted listed
      · exact unlisted (among _ hn)
    · exact new name hn (mem_keys_listedIn.2 ⟨among name hn, (same name).1 (.inr hn)⟩)
  · rintro ⟨stay, rfl⟩ name
    have listed : name ∈ ports.keys → name ∈ names := by
      intro h
      obtain ⟨e, he, rfl⟩ := List.mem_map.1 h
      by_contra unlisted
      exact List.not_mem_nil (stay ▸ mem_goneFrom.2 ⟨he, unlisted⟩)
    simpa using listed

end

/-- What a successful look at the list comes to: the studio follows it. If other inputs are held
then, the status says how many, it is told to everyone, and the answer is that something changed. -/
inductive Looked (h : Hooks) (names : List String) (b : Bench Studio) : Bool → Bench Studio → Prop
  | unchanged {s : Studio} {es : List Entry} (follows : Follows names b.part s es)
    (same : SameInputs b.part s) : Looked h names b false ⟨s, es ++ b.journal⟩
  | changed {s : Studio} {es : List Entry} {b' : Bench Studio} (follows : Follows names b.part s es)
    (others : ¬ SameInputs b.part s)
    (tells : (publish h (.midiStatus (statusText s.inputs.ports.length))).on
      ⟨{ s with inputs := { s.inputs with status := statusText s.inputs.ports.length } },
        es ++ b.journal⟩ = some (.ok (), b')) : Looked h names b true b'

theorem rescan_looked {h : Hooks} (ends : ∀ l e, Ends (h.hear l e)) {b : Bench Studio}
    (wellHeld : WellHeld b.part.inputs.ports) {listed : List String}
    (answer : b.part.system.listing b.part.system.asked = .ok listed) :
    ∃ changed b', (rescan h).on b = some (.ok changed, b') ∧
      Looked h (wantedAmong b.part.inputs.wanted listed) b changed b' := by
  obtain ⟨admitted, n, es, rescans, reports, admits⟩ := rescan_on h wellHeld.distinct answer rfl
  generalize wantedAmong b.part.inputs.wanted listed = names at *
  have follows := follows_of_admits wellHeld reports admits
  have iff := sameInputs_iff (fun _ hn => admits.inOrder.subset hn) admits.new
    b.part.system.opened
  by_cases same : goneFrom names b.part.inputs.ports = [] ∧ admitted = []
  · refine ⟨false, _, ?_, .unchanged follows (iff.2 same)⟩
    obtain ⟨stay, rfl⟩ := same
    rw [rescans, stay]
    rfl
  · have changed : (!(goneFrom names b.part.inputs.ports).isEmpty || !admitted.isEmpty) = true := by
      simpa [imp_iff_not_or] using same
    obtain ⟨_, b', tells⟩ := succeeds_publish_of_ends (ends · _) _
    refine ⟨true, b', ?_, .changed follows (fun still => same (iff.1 still)) tells⟩
    rw [rescans, changed]
    exact on_bind_ok tells

/-! ## The count -/

/-- The status of inputs that are connected says how many are held. -/
def Counted (s : Studio) : Prop :=
  s.inputs.connected = true → s.inputs.status = statusText s.inputs.ports.length

/-- Where the status was right it stays right. -/
abbrev KeepsCount {α : Type} (p : Act α) : Prop :=
  Along (fun b b' => Counted b.part → Counted b'.part) p

theorem carries_count : Carries fun b b' : Bench Studio => Counted b.part → Counted b'.part where
  idle h counted on := by
    rw [h.status, h.ports]
    exact counted (h.connected.symm.trans on)
  trans h h' counted := h' (h counted)

theorem keepsCount_closeInputs : KeepsCount closeInputs := fun b _ _ h _ => by
  obtain ⟨es, closes, -⟩ := closeInputs_on b
  rw [closes] at h
  cases h
  exact nofun

section

variable {h : Hooks} (hears : ∀ l e, KeepsCount (h.hear l e))
include hears

/-- However connecting went, the status is right then. -/
theorem counted_of_settle {failure : Option String} {b b' : Bench Studio} {r : Except Fault Bool}
    (hrun : (settle h failure).on b = some (r, b')) : Counted b'.part := by
  cases failure with
  | none =>
    let counted : Bench Studio := ⟨{ b.part with inputs := { b.part.inputs with
      connected := true, status := statusText b.part.inputs.ports.length } }, b.journal⟩
    have last : (announce h).on counted = some (r, b') := hrun
    exact carries_count.announce hears last fun _ => rfl
  | some reason =>
    let logged : Bench Studio :=
      ⟨b.part, .log ⟨.warning, s!"MIDI connect failed: {reason}"⟩ :: b.journal⟩
    obtain ⟨es, closes, -⟩ := closeInputs_on logged
    let failed : Bench Studio := ⟨{ b.part.rewired b.part.inputs.ports.length 0 [] with
      inputs := { b.part.inputs with
        ports := [], connected := false, status := s!"Failed to connect MIDI: {reason}" } },
      es ++ logged.journal⟩
    have last : (announce h).on failed = some (r, b') := (on_bind_ok closes).symm.trans hrun
    exact carries_count.announce hears last nofun

theorem keepsCount_connect (name : Option String) : KeepsCount (connect h name) := by
  intro b r b' hrun _
  obtain ⟨n, es, connects, -⟩ := connect_on h name b
  obtain ⟨answer, n', m, ports, es', opens⟩ :=
    openNamed_on name ⟨b.part.cleared name n, es ++ b.journal⟩
  rw [connects, on_bind_ok opens] at hrun
  exact counted_of_settle hears hrun

theorem counted_of_report {changed : Bool} {b b' : Bench Studio} {r : Except Fault Bool}
    (hrun : (report h changed).on b = some (r, b')) (still : changed = false → Counted b.part) :
    Counted b'.part := by
  cases changed with
  | false =>
    cases hrun
    exact still rfl
  | true =>
    let counted : Bench Studio := ⟨{ b.part with inputs := { b.part.inputs with
      status := statusText b.part.inputs.ports.length } }, b.journal⟩
    have tells : KeepsCount (do publishStatus h; return true : Act Bool) :=
      carries_count.bind (carries_count.publishStatus hears) fun _ => carries_count.pure _
    have last : (do publishStatus h; return true : Act Bool).on counted = some (r, b') := hrun
    exact tells last fun _ => rfl

/-- If inputs came or went they are counted, and if not the count stays right. -/
theorem keepsCount_rescan : KeepsCount (rescan h) := by
  intro b r b' hrun counted
  rw [rescan, on_bind_ok (ask_on _ b)] at hrun
  cases answer : b.part.system.listing b.part.system.asked with
  | error reason =>
    rw [answer] at hrun
    cases hrun
    exact counted
  | ok listed =>
    rw [answer, on_bind_ok (on_look _)] at hrun
    let names := wantedAmong b.part.inputs.wanted listed
    let gone := goneFrom names b.part.inputs.ports
    let b₁ : Bench Studio := ⟨b.part.rewired 1 0 b.part.inputs.ports, b.journal⟩
    obtain ⟨_, b₂, drops⟩ := succeeds_forM (fun e : String × Port => succeeds_dropPort e.1 e.2)
      gone b₁
    obtain ⟨admitted, n, es, adds, -⟩ := addPorts_on names b₂
    have reported : (report h (!gone.isEmpty || !admitted.isEmpty)).on _ = some (r, b') :=
      ((on_bind_ok drops).trans (on_bind_ok adds)).symm.trans hrun
    refine counted_of_report hears reported fun unchanged => ?_
    obtain ⟨stay, none⟩ : gone = [] ∧ admitted = [] := by simpa using unchanged
    rw [stay] at drops
    cases drops
    rw [none, portsFor, List.append_nil]
    exact counted

theorem keepsCount_carryOut {c : Command} (hc : c.ofInputs = true) : KeepsCount (carryOut h c) :=
  carries_count.carryOut hears (keepsCount_rescan hears) (keepsCount_connect hears)
    keepsCount_closeInputs hc

end

def MindsCount (h : Hooks) : Prop := ∀ l e, KeepsCount (h.hear l e)

theorem mindsCount_desk (s : Studio) : MindsCount (deskHooks s) := carries_count.hear s

/-! ## The whole -/

/-- A look at the list that succeeds makes the studio follow it, and only if other inputs are held
then it is told to everyone, once, and the answer is that something has changed. A look that fails
changes nothing. And whatever was asked of the inputs until now, and whatever the system answered,
they are held as they should be; if they are connected, the status says how many are held. -/
theorem follows_system {h : Hooks} (minds : Minds h) (counts : MindsCount h)
    (ends : ∀ l e, Ends (h.hear l e)) :
    (∀ b listed, WellHeld b.part.inputs.ports →
      b.part.system.listing b.part.system.asked = .ok listed →
      ∃ changed b', (rescan h).on b = some (.ok changed, b') ∧
        Looked h (wantedAmong b.part.inputs.wanted listed) b changed b') ∧
    (∀ b reason, b.part.system.listing b.part.system.asked = .error reason →
      (rescan h).on b = some (.ok false, ⟨b.part.rewired 1 0 b.part.inputs.ports,
        .log ⟨.debug, "MIDI rescan failed"⟩ :: b.journal⟩)) ∧
    (∀ cs s steps, (∀ c ∈ cs, c.ofInputs = true) → WellHeld s.inputs.ports → s.Counted →
      inTurn h cs s = some steps →
      WellHeld (s.after steps).inputs.ports ∧ (s.after steps).Counted) := by
  refine ⟨fun b listed wellHeld answer => rescan_looked ends wellHeld answer,
    fun b reason answer => rescan_failed h answer, fun cs s steps hcs wellHeld counted hrun => ?_⟩
  constructor
  · have path := path_inTurn (minds False) hcs ⟨wellHeld, False.elim⟩ hrun
    exact path.wellHeld wellHeld
  · have chains : Chains fun s s' : Studio => s.Counted → s'.Counted :=
      ⟨fun _ counted => counted, fun h h' counted => h' (h counted)⟩
    exact leads_inTurn chains (fun c hc => keepsCount_carryOut counts (hcs c hc)) hrun counted

/-- A studio that holds two inputs, one of which is gone while another has come. When the system is
asked for the third time it lists nothing. -/
def docked : Studio where
  inputs := {
    ports := [("B", ⟨0, "B"⟩), ("C", ⟨1, "C"⟩)]
    connected := true
    status := statusText 2 }
  system := {
    opened := 2
    available := fun _ => ["A", "B"]
    refusal := fun n => if n = 3 then some "busy" else none }

theorem follows_system_docked :
    (∃ b', (rescan (deskHooks docked)).on ⟨docked, []⟩ = some (.ok true, b') ∧
      Looked (deskHooks docked) ["A", "B"] ⟨docked, []⟩ true b') ∧
    ∃ steps, inTurn (deskHooks docked) [.rescan, .rescan] docked = some steps ∧
      (docked.after steps).inputs.ports = [("B", ⟨0, "B"⟩), ("A", ⟨2, "A"⟩)] ∧
      (docked.after steps).Counted := by
  have wellHeld : WellHeld docked.inputs.ports := ⟨by decide, by decide⟩
  obtain ⟨looks, -, keeps⟩ :=
    follows_system (minds_desk docked) (mindsCount_desk docked) (aloof_desk docked).ends
  constructor
  · obtain ⟨changed, b', hon, looked⟩ := looks ⟨docked, []⟩ ["A", "B"] wellHeld rfl
    have answers : ((rescan (deskHooks docked)).on ⟨docked, []⟩).map Prod.fst =
        some (.ok true) := by decide +kernel
    rw [hon] at answers
    obtain rfl : changed = true := Except.ok.inj (Option.some.inj answers)
    exact ⟨b', hon, looked⟩
  · have ends : (inTurn (deskHooks docked) [.rescan, .rescan] docked).map
        (fun steps => (docked.after steps).inputs.ports) =
          some [("B", ⟨0, "B"⟩), ("A", ⟨2, "A"⟩)] := by decide +kernel
    obtain ⟨steps, hrun, ports⟩ := Option.map_eq_some_iff.1 ends
    refine ⟨steps, hrun, ports, ?_⟩
    exact (keeps [.rescan, .rescan] docked steps (by simp [Command.ofInputs]) wellHeld
      (fun _ => rfl) hrun).2

end PianoRoll.Studio
