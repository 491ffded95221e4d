import PianoRoll.Proofs.Inputs.Custody
import PianoRoll.Proofs.Inputs.Safety

/-!
What the devices can do to the inputs. A poll asks the system for one message after the other
(`Midi.System.requests`); it passes on what it is given until the system fails, and what was not
given goes on waiting (`Polled`). Whatever else is asked of the inputs ends well, so a fault of
theirs is always one of reading (`only_reading_fails`).
-/

namespace PianoRoll

open Midi

/-! ## What waits -/

namespace Midi.System

variable {s s' : System} {name : String}

def queued (name : String) (s : System) : List Message := (s.queues.get? name).getD []

theorem dequeue?_of_nil (h : s.queued name = []) : s.dequeue? name = none := by
  unfold queued at h
  unfold dequeue?
  split
  · next here =>
    rw [here] at h
    cases h
  · rfl

theorem dequeue?_of_cons {m : Message} {ms : List Message} (h : s.queued name = m :: ms) :
    s.dequeue? name = some (m, { s with queues := s.queues.put name ms }) := by
  unfold queued at h
  unfold dequeue?
  cases here : s.queues.get? name with
  | none =>
    rw [here] at h
    cases h
  | some waiting =>
    rw [here] at h
    cases h
    rfl

theorem queued_put (name other : String) (ms : List Message) :
    queued other { s with queues := s.queues.put name ms } =
      if other = name then ms else s.queued other := by
  unfold queued
  split
  · next same =>
    subst same
    rw [Table.get?_put_self]
    rfl
  · next different => rw [Table.get?_put_of_ne different]

theorem queued_enqueue (name other : String) (ms : List Message) :
    (s.enqueue name ms).queued other = s.queued other ++ if other = name then ms else [] := by
  rw [enqueue, queued_put]
  split
  · next same =>
    subst same
    rfl
  · exact (List.append_nil _).symm

theorem length_queued_le (name : String) (s : System) : (s.queued name).length ≤ s.backlog := by
  have counts (t : Table String (List Message)) (n : Nat) :
      n + ((t.get? name).getD []).length ≤ t.foldl (fun n e => n + e.2.length) n := by
    induction t generalizing n with
    | nil => simp [Table.get?]
    | cons e t ih =>
      have later := ih (n + e.2.length)
      rw [Table.get?, List.foldl_cons]
      split
      · exact (Nat.le_add_right _ _).trans later
      · exact (Nat.add_le_add_right (Nat.le_add_right _ _) _).trans later
  exact (Nat.zero_add _).symm.trans_le (counts s.queues 0)

/-- What a system is asked for on an input after it has given so many messages, and what it has
there unless it fails: the next message, if one waits. -/
structure Request where
  name : String
  taken : Nat
  message : Option Message

/-- What is asked for on an input where these messages wait. -/
def requestsOn (name : String) (taken : Nat) : List Message → List Request
  | [] => [⟨name, taken, none⟩]
  | m :: ms => ⟨name, taken, some m⟩ :: requestsOn name (taken + 1) ms

/-- What the system is asked for until nothing waits on any port. -/
def requests (s : System) (ports : List Port) : List Request :=
  ports.flatMap fun p => requestsOn p.name 0 (s.queued p.name)

def given (name : String) (rs : List Request) : List Message :=
  rs.filterMap fun x => if x.name = name then x.message else none

theorem given_append (rs rs' : List Request) :
    given name (rs ++ rs') = given name rs ++ given name rs' := List.filterMap_append

theorem given_requestsOn_self (taken : Nat) (ms : List Message) :
    given name (requestsOn name taken ms) = ms := by
  induction ms generalizing taken with
  | nil => simp [given, requestsOn]
  | cons m ms ih => simpa [given, requestsOn] using ih (taken + 1)

theorem given_requestsOn_of_ne {other : String} (h : name ≠ other) (taken : Nat)
    (ms : List Message) : given other (requestsOn name taken ms) = [] := by
  induction ms generalizing taken with
  | nil => simp [given, requestsOn]
  | cons m ms ih => simpa [given, requestsOn, h] using ih (taken + 1)

theorem given_requests_of_notMem {ports : List Port} (h : name ∉ ports.map Port.name) :
    given name (s.requests ports) = [] := by
  induction ports with
  | nil => rfl
  | cons port ports ih =>
    obtain ⟨here, later⟩ := not_or.1 (mt List.mem_cons.2 h)
    rw [requests, List.flatMap_cons, given_append, given_requestsOn_of_ne (Ne.symm here)]
    exact ih later

/-- On a port whose name no other has, all that waits there is asked for. -/
theorem given_requests {ports : List Port} (distinct : (ports.map Port.name).Nodup) {port : Port}
    (h : port ∈ ports) : given port.name (s.requests ports) = s.queued port.name := by
  induction ports with
  | nil => cases h
  | cons first ports ih =>
    obtain ⟨new, distinct⟩ := List.nodup_cons.1 distinct
    rw [requests, List.flatMap_cons, given_append]
    rcases List.mem_cons.1 h with rfl | later
    · rw [given_requestsOn_self]
      exact (congrArg _ (given_requests_of_notMem new)).trans (List.append_nil _)
    · have other : first.name ≠ port.name := fun same => new (same ▸ List.mem_map_of_mem later)
      rw [given_requestsOn_of_ne other]
      exact ih distinct later

theorem requests_congr {ports : List Port}
    (h : ∀ p ∈ ports, s'.queued p.name = s.queued p.name) :
    s'.requests ports = s.requests ports :=
  List.flatMap_congr fun p hp => by rw [h p hp]

end Midi.System

def Command.messages : Command → List Message
  | .queueMessages _ messages => messages
  | .receive message => [message]
  | _ => []

namespace Studio

open Work Ledger

theorem Asked.queued {s s' : Studio} (h : Asked s s') (name : String) :
    s'.system.queued name = s.system.queued name := by
  obtain ⟨asked, opened, same⟩ := h
  rw [same]
  rfl

/-! ## Reading -/

/-- Messages are handled one after the other, and so many of them are about notes. What the
system counts and what waits may change in between. -/
inductive Receives (h : Hooks) : List Message → Nat → Bench Studio → Bench Studio → Prop
  | done (b : Bench Studio) : Receives h [] 0 b b
  | aside {ms : List Message} {n : Nat} {b b' : Bench Studio} (asked : Nat)
    (queues : Table String (List Message))
    (rest : Receives h ms n
      ⟨{ b.part with system := { b.part.system with asked, queues } }, b.journal⟩ b') :
    Receives h ms n b b'
  | next {m : Message} {ms : List Message} {did : Bool} {n : Nat} {b b₁ b' : Bench Studio}
    (here : (receive h m).on b = some (.ok did, b₁)) (rest : Receives h ms n b₁ b') :
    Receives h (m :: ms) (did.toNat + n) b b'

theorem Receives.append {h : Hooks} {ms ms' : List Message} {n n' : Nat} {b b' b'' : Bench Studio}
    (first : Receives h ms n b b') (second : Receives h ms' n' b' b'') :
    Receives h (ms ++ ms') (n + n') b b'' := by
  induction first with
  | done b => simpa using second
  | aside asked queues _ ih => exact .aside asked queues (ih second)
  | next here _ ih =>
    rw [Nat.add_assoc]
    exact .next here (ih second)

/-- The system was asked for these messages and did not fail. What it gave was handled in order,
and so many messages were about notes; what it did not give waits as before. -/
structure Read (h : Hooks) (rs : List System.Request) (n : Nat) (b b' : Bench Studio) : Prop where
  granted : ∀ x ∈ rs.zipIdx b.part.system.asked, b.part.system.reading x.2 x.1.name x.1.taken = none
  receives : Receives h (rs.filterMap System.Request.message) n b b'
  queued : ∀ name, b.part.system.queued name =
    System.given name rs ++ b'.part.system.queued name
  same : ∃ queues, b'.part.system =
    { b.part.system with asked := b.part.system.asked + rs.length, queues }

/-- How a poll ends that asks the system for these messages: well if it does not fail, and else
with a fault there. -/
inductive Polled (h : Hooks) (rs : List System.Request) (b : Bench Studio) :
    Except Fault Nat → Bench Studio → Prop
  | well {n : Nat} {b' : Bench Studio} (read : Read h rs n b b') : Polled h rs b (.ok n) b'
  | badly {done rest : List System.Request} {request : System.Request} {reason : String} {n : Nat}
    {b' : Bench Studio} (split : rs = done ++ request :: rest) (read : Read h done n b b')
    (refuses : b.part.system.reading b'.part.system.asked request.name request.taken =
      some reason) :
    Polled h rs b (.error (.device reason)) ⟨b'.part.rewired 1 0 b'.part.inputs.ports, b'.journal⟩

namespace Read

variable {h : Hooks} {rs rs' : List System.Request} {n n' : Nat} {b b' b'' : Bench Studio}

theorem nil (h : Hooks) (b : Bench Studio) : Read h [] 0 b b :=
  ⟨nofun, .done b, fun _ => rfl, b.part.system.queues, rfl⟩

/-- Nothing waits on an input. -/
theorem last {name : String} {taken : Nat}
    (answer : b.part.system.reading b.part.system.asked name taken = none) :
    Read h [⟨name, taken, none⟩] 0 b ⟨b.part.rewired 1 0 b.part.inputs.ports, b.journal⟩ where
  granted := List.forall_mem_singleton.2 answer
  receives := .aside _ b.part.system.queues (.done _)
  queued other := by
    have nothing : System.given other [⟨name, taken, none⟩] = [] := by simp [System.given]
    rw [nothing]
    rfl
  same := ⟨b.part.system.queues, rfl⟩

theorem asked (read : Read h rs n b b') :
    b'.part.system.asked = b.part.system.asked + rs.length := by
  obtain ⟨queues, same⟩ := read.same
  rw [same]

theorem reading (read : Read h rs n b b') :
    b'.part.system.reading = b.part.system.reading := by
  obtain ⟨queues, same⟩ := read.same
  rw [same]

theorem sublist (read : Read h rs n b b') (name : String) :
    (b'.part.system.queued name).Sublist (b.part.system.queued name) := by
  rw [read.queued name]
  exact List.sublist_append_right _ _

theorem append (first : Read h rs n b b') (second : Read h rs' n' b' b'') :
    Read h (rs ++ rs') (n + n') b b'' where
  granted := by
    rw [List.zipIdx_append, List.forall_mem_append, ← first.reading, ← first.asked]
    exact ⟨first.reading ▸ first.granted, second.granted⟩
  receives := by
    rw [List.filterMap_append]
    exact first.receives.append second.receives
  queued name := by
    rw [first.queued, second.queued, System.given_append, List.append_assoc]
  same := by
    obtain ⟨queues, same⟩ := first.same
    obtain ⟨queues', same'⟩ := second.same
    exact ⟨queues', by rw [same', same, List.length_append, Nat.add_assoc]⟩

theorem polled {r : Except Fault Nat} (first : Read h rs n b b') (second : Polled h rs' b' r b'') :
    Polled h (rs ++ rs') b (r.map (n + ·)) b'' := by
  cases second with
  | well read => exact .well (first.append read)
  | @badly done rest request reason m last split read refuses =>
    rw [first.reading] at refuses
    exact .badly (by rw [split, List.append_assoc]) (first.append read) refuses

end Read

/-- The first thing that the system is asked for is refused. -/
theorem Polled.refused {h : Hooks} {request : System.Request} {rs : List System.Request}
    {reason : String} {b : Bench Studio}
    (refuses : b.part.system.reading b.part.system.asked request.name request.taken =
      some reason) : Polled h (request :: rs) b (.error (.device reason))
      ⟨b.part.rewired 1 0 b.part.inputs.ports, b.journal⟩ :=
  .badly rfl (.nil h b) refuses

/-- Whoever handles messages has the patience for those that wait and those that come with
commands, and their velocities are ones that keys have. -/
structure Fit (h : Hooks) (cs : List Command) (s : System) : Prop where
  waiting : ∀ name, ∀ m ∈ s.queued name, m.Plays
  coming : ∀ m ∈ cs.flatMap Command.messages, m.Plays
  patient : ∀ name, (s.queued name).length + (cs.flatMap Command.messages).length < h.patience

namespace Fit

variable {h : Hooks} {cs : List Command} {s s' : System}

theorem here (fit : Fit h cs s) : Fit h [] s where
  waiting := fit.waiting
  coming := nofun
  patient name := (Nat.le_add_right _ _).trans_lt (fit.patient name)

theorem mono (fit : Fit h cs s) (less : ∀ name, (s'.queued name).Sublist (s.queued name)) :
    Fit h cs s' where
  waiting name m hm := fit.waiting name m ((less name).subset hm)
  coming := fit.coming
  patient name := by
    have shorter := (less name).length_le
    have patient := fit.patient name
    omega

/-- Who handles the messages of a desk has the patience for all that wait. -/
theorem desk {s : Studio} (plays : ∀ name, ∀ m ∈ s.system.queued name, m.Plays)
    (none : cs.flatMap Command.messages = []) : Fit (deskHooks s) cs s.system where
  waiting := plays
  coming := by simp [none]
  patient name := by
    rw [none]
    exact Nat.lt_succ_of_le ((s.system.length_queued_le name).trans (Nat.le_add_left _ _))

/-- What comes with a command waits then, or has been handled. -/
theorem next {c : Command} (fit : Fit h (c :: cs) s)
    (less : ∀ name, (s'.queued name).Sublist (s.queued name ++ c.messages)) : Fit h cs s' where
  waiting name m hm := by
    rcases List.mem_append.1 ((less name).subset hm) with hm | hm
    · exact fit.waiting name m hm
    · exact fit.coming m (List.mem_append_left _ hm)
  coming m hm := fit.coming m (List.mem_append_right _ hm)
  patient name := by
    have shorter := (less name).length_le
    have patient := fit.patient name
    rw [List.flatMap_cons, List.length_append] at patient
    rw [List.length_append] at shorter
    omega

end Fit

namespace Aloof

variable {h : Hooks} (aloof : Aloof h)
include aloof

/-- Who has the patience asks for all messages that wait on an input. -/
theorem readMessages_on (name : String) (patience taken handled : Nat) {b : Bench Studio}
    (plays : ∀ m ∈ b.part.system.queued name, m.Plays)
    (patient : (b.part.system.queued name).length ≤ patience) :
    ∃ r b', (readMessages h name (patience + 1) taken handled).on b =
        some (r.map (handled + ·), b') ∧
      Polled h (System.requestsOn name taken (b.part.system.queued name)) b r b' := by
  -- one message is taken at a time, and the patience shrinks along with what waits
  induction hms : b.part.system.queued name generalizing patience taken handled b with
  | nil =>
    rw [readMessages, on_bind_ok (ask_on _ b)]
    cases answer : b.part.system.reading b.part.system.asked name taken with
    | some reason => exact ⟨.error (.device reason), _, rfl, .refused answer⟩
    | none =>
      have nothing : (b.part.rewired 1 0 b.part.inputs.ports).system.queued name = [] := hms
      refine ⟨.ok 0, _, ?_, .well (.last answer)⟩
      rw [on_bind_ok (on_look _), System.dequeue?_of_nil nothing]
      rfl
  | cons m ms ih =>
    rw [readMessages, on_bind_ok (ask_on _ b)]
    cases answer : b.part.system.reading b.part.system.asked name taken with
    | some reason => exact ⟨.error (.device reason), _, rfl, .refused answer⟩
    | none =>
      rw [hms] at plays patient
      obtain ⟨patience, rfl⟩ := Nat.exists_eq_add_one.2 (Nat.zero_lt_of_lt patient)
      let asked : Studio := b.part.rewired 1 0 b.part.inputs.ports
      let b₁ : Bench Studio := ⟨{ asked with system := { asked.system with
        queues := asked.system.queues.put name ms } }, b.journal⟩
      have queued (other : String) : b₁.part.system.queued other =
          if other = name then ms else b.part.system.queued other :=
        System.queued_put name other ms
      obtain ⟨did, b₂, hon, same⟩ := aloof.receive_on (plays m List.mem_cons_self) b₁
      have left : b₂.part.system.queued name = ms := by rw [same, queued, if_pos rfl]
      have waiting : ∀ x ∈ b₂.part.system.queued name, x.Plays := by
        rw [left]
        exact fun x hx => plays x (List.mem_cons_of_mem _ hx)
      have enough : (b₂.part.system.queued name).length ≤ patience := by
        rw [left]
        exact Nat.le_of_succ_le_succ patient
      have here : Read h [⟨name, taken, some m⟩] did.toNat b b₂ := by
        refine ⟨List.forall_mem_singleton.2 answer, ?_, fun other => ?_, _, same⟩
        · exact .aside _ _ (.next hon (.done b₂))
        · rw [same, queued]
          by_cases here : name = other
          · subst here
            simp [System.given, hms]
          · simp [System.given, here, Ne.symm here]
      obtain ⟨r, b', rest, polled⟩ :=
        ih patience (taken + 1) (if did then handled + 1 else handled) waiting enough left
      refine ⟨r.map (did.toNat + ·), b', ?_, here.polled polled⟩
      have waits : asked.system.queued name = m :: ms := hms
      rw [on_bind_ok (on_look _), System.dequeue?_of_cons waits]
      refine (on_bind_ok (on_change _ _)).trans ((on_bind_ok hon).trans (rest.trans ?_))
      cases did <;> cases r <;> simp [Except.map, Nat.add_assoc]

/-- Ports with different names are read one after the other, until the system fails. -/
theorem readPorts_on {ports : List Port} (handled : Nat) {b : Bench Studio}
    (distinct : (ports.map Port.name).Nodup) (fit : Fit h [] b.part.system) :
    ∃ r b', (readPorts h ports handled).on b = some (r.map (handled + ·), b') ∧
      Polled h (b.part.system.requests ports) b r b' := by
  induction ports generalizing handled b with
  | nil => exact ⟨.ok 0, b, rfl, .well (.nil h b)⟩
  | cons port ports ih =>
    obtain ⟨new, distinct⟩ := List.nodup_cons.1 distinct
    have patient := fit.patient port.name
    obtain ⟨patience, enough⟩ := Nat.exists_eq_add_one.2 (Nat.zero_lt_of_lt patient)
    obtain ⟨r, b₁, reads, polled⟩ := aloof.readMessages_on port.name patience 0 handled
      (fit.waiting port.name) (by omega)
    rw [readPorts, enough]
    cases polled with
    | @badly done rest request reason n b' split read refuses =>
      have split' : b.part.system.requests (port :: ports) =
          done ++ request :: (rest ++ b.part.system.requests ports) := by
        rw [System.requests, List.flatMap_cons, split, List.append_assoc]
        rfl
      exact ⟨_, _, on_bind_error reads, .badly split' read refuses⟩
    | @well n _ read =>
      -- reading one port took nothing of what waits on those behind it, as their names differ
      have unread : b₁.part.system.requests ports = b.part.system.requests ports :=
        System.requests_congr fun p hp => by
          have other : port.name ≠ p.name := fun same => new (same ▸ List.mem_map_of_mem hp)
          rw [read.queued, System.given_requestsOn_of_ne other, List.nil_append]
      obtain ⟨r, b', rest, polled⟩ := ih (handled + n) distinct (fit.mono read.sublist)
      refine ⟨r.map (n + ·), b', (on_bind_ok reads).trans (rest.trans ?_), ?_⟩
      · cases r <;> simp [Except.map, Nat.add_assoc]
      · rw [unread] at polled
        exact read.polled polled

/-- A poll looks at the system's list if it is time for it, and reads the ports that are held
then. If the system does not fail, nothing waits any more. -/
theorem poll_on (minds : Minds h) (now : Option Float) {b : Bench Studio}
    (wellHeld : WellHeld b.part.inputs.ports) (fit : Fit h [] b.part.system) :
    ∃ b₁ r b₂, (rescanIfDue h now).on b = some (.ok (), b₁) ∧ (poll h now).on b = some (r, b₂) ∧
      Asked b.part b₁.part ∧
      Polled h (b₁.part.system.requests (b₁.part.inputs.ports.map (·.2))) b₁ r b₂ ∧
      (r.isOk → ∀ port ∈ b₁.part.inputs.ports.map (·.2), b₂.part.system.queued port.name = []) := by
  obtain ⟨_, b₁, due, asked⟩ := aloof.safe_rescanIfDue now b
  have looks : Wired False (rescanIfDue h now) :=
    carries_wires.rescanIfDue (wired_rescan (minds False)) now
  have held₁ : WellHeld b₁.part.inputs.ports :=
    (looks due ⟨wellHeld, False.elim⟩).2.toWellHeld
  have names : (b₁.part.inputs.ports.map (·.2)).map Port.name = b₁.part.inputs.ports.keys := by
    rw [List.map_map]
    exact List.map_congr_left held₁.named
  have fit₁ : Fit h [] b₁.part.system := fit.mono fun name => by rw [asked.queued]
  have distinct : ((b₁.part.inputs.ports.map (·.2)).map Port.name).Nodup := names ▸ held₁.distinct
  obtain ⟨r, b₂, reads, polled⟩ := aloof.readPorts_on 0 distinct fit₁
  have plain : r.map (0 + ·) = r := by cases r <;> simp [Except.map]
  rw [plain] at reads
  refine ⟨b₁, r, b₂, due, (on_bind_ok due).trans reads, asked, polled, fun ends port held => ?_⟩
  cases polled with
  | badly => cases ends
  | well read =>
    have all := read.queued port.name
    rw [System.given_requests distinct held] at all
    exact List.self_eq_append_right.1 all

end Aloof

/-! ## Runs -/

/-- A command was a poll, and an input could not be read when the system was asked. -/
def Unreadable (reading : Nat → String → Nat → Option String) (c : Command) (fault : Fault) :
    Prop :=
  (∃ now, c = .poll now) ∧ ∃ k name taken reason,
    reading k name taken = some reason ∧ fault = .device reason

/-- However a poll ended, nothing was put behind what waited. -/
theorem Polled.kept {h : Hooks} {rs : List System.Request} {b b' : Bench Studio}
    {r : Except Fault Nat} (polled : Polled h rs b r b') :
    b'.part.system.reading = b.part.system.reading ∧
      ∀ name, (b'.part.system.queued name).Sublist (b.part.system.queued name) := by
  cases polled with
  | well read => exact ⟨read.reading, read.sublist⟩
  | badly split read refuses => exact ⟨read.reading, read.sublist⟩

/-- A command comes to an end, and fails only if an input could not be read. Then there is the
patience for other commands. -/
def Concludes (h : Hooks) (c : Command) (cs : List Command) (b : Bench Studio) : Prop :=
  ∃ r b', (carryOut h c).on b = some (r, b') ∧ Fit h cs b'.part.system ∧
    b'.part.system.reading = b.part.system.reading ∧
    ∀ fault, r = .error fault → Unreadable b.part.system.reading c fault

section

variable {h : Hooks} {c : Command} {cs : List Command} {b : Bench Studio}

theorem concludes_of_safe (fit : Fit h (c :: cs) b.part.system) (safe : Safe (carryOut h c)) :
    Concludes h c cs b := by
  obtain ⟨a, b', hon, asked⟩ := safe b
  refine ⟨.ok a, b', hon, fit.next fun name => ?_, ?_, nofun⟩
  · rw [asked.queued]
    exact List.sublist_append_left _ _
  · obtain ⟨asked, opened, same⟩ := asked
    rw [same]

theorem concludes_queueMessages {port : String} {messages : List Message}
    (fit : Fit h (.queueMessages port messages :: cs) b.part.system) :
    Concludes h (.queueMessages port messages) cs b := by
  refine ⟨_, _, rfl, fit.next fun name => ?_, rfl, nofun⟩
  change ((b.part.system.enqueue port messages).queued name).Sublist _
  rw [System.queued_enqueue]
  split
  · exact .refl _
  · exact (List.Sublist.refl _).append (List.nil_sublist _)

variable (aloof : Aloof h) (minds : Minds h)
include aloof minds

theorem concludes_poll {now : Option Float} (wellHeld : WellHeld b.part.inputs.ports)
    (fit : Fit h (.poll now :: cs) b.part.system) : Concludes h (.poll now) cs b := by
  obtain ⟨b₁, r, b₂, -, polls, asked, polled, -⟩ := aloof.poll_on minds now wellHeld fit.here
  obtain ⟨reading, less⟩ := polled.kept
  have fit₂ : Fit h cs b₂.part.system := fit.next fun name => by
    have less := less name
    rw [asked.queued] at less
    exact less.trans (List.sublist_append_left _ _)
  have reading : b₂.part.system.reading = b.part.system.reading := by
    obtain ⟨asked, opened, same⟩ := asked
    rw [reading, same]
  cases polled with
  | well read => exact ⟨_, _, on_bind_ok polls, fit₂, reading, nofun⟩
  | @badly done rest request reason n b' split read refuses =>
    refine ⟨_, _, on_bind_error polls, fit₂, reading, fun fault failed => ?_⟩
    cases failed
    refine ⟨⟨now, rfl⟩, b'.part.system.asked, request.name, request.taken, reason, ?_, rfl⟩
    obtain ⟨asked, opened, same⟩ := asked
    rw [same] at refuses
    exact refuses

theorem concludes_carryOut (hc : c.ofInputs = true) (wellHeld : WellHeld b.part.inputs.ports)
    (fit : Fit h (c :: cs) b.part.system) : Concludes h c cs b := by
  have safely := concludes_of_safe fit
  cases c with
  | advance seconds =>
    exact safely (safe_of_unasked
      ((succeeds_change _).bind fun _ => succeeds_look.bind fun _ => succeeds_pure _)
      (chains_unasked.bind (leads_change _ fun _ => by rfl) fun _ =>
        chains_unasked.bind chains_unasked.look fun _ => chains_unasked.pure _))
  | queueMessages port messages => exact concludes_queueMessages fit
  | connect name => exact safely ((aloof.safe_connect name).bind fun _ => safe_pure _)
  | rescan => exact safely (aloof.safe_rescan.bind fun _ => safe_pure _)
  | poll now => exact concludes_poll aloof minds wellHeld fit
  | receive message =>
    have plays : message.Plays := fit.coming message List.mem_cons_self
    exact safely ((aloof.safe_receive plays).bind fun _ => safe_pure _)
  | closeInputs => exact safely (safe_closeInputs.bind fun _ => safe_pure _)
  | _ => cases hc

/-- Commands about the inputs all come to an end. -/
theorem concludes_inTurn {cs : List Command} (hcs : ∀ c ∈ cs, c.ofInputs = true) {s : Studio}
    (wellHeld : WellHeld s.inputs.ports) (fit : Fit h cs s.system) :
    ∃ steps, inTurn h cs s = some steps ∧ List.Forall₂ (fun c step =>
      ∀ fault, step.outcome = .error fault → Unreadable s.system.reading c fault) cs steps := by
  induction cs generalizing s with
  | nil => exact ⟨[], rfl, .nil⟩
  | cons c cs ih =>
    have here := hcs c List.mem_cons_self
    obtain ⟨r, b', hon, fit', reading, fails⟩ :=
      concludes_carryOut aloof minds (b := ⟨s, []⟩) here wellHeld fit
    have held' : WellHeld b'.part.inputs.ports :=
      (wired_carryOut (minds False) here hon ⟨wellHeld, False.elim⟩).2.toWellHeld
    obtain ⟨steps, runs, others⟩ :=
      ih (fun c hc => hcs c (List.mem_cons_of_mem _ hc)) held' fit'
    have ran : runAct (carryOut h c) s = some (r, b'.part, b'.journal.reverse) := by
      rw [runAct, hon]
      rfl
    rw [reading] at others
    exact ⟨_, inTurn_cons ran runs, .cons fails others⟩

/-- Only reading fails. Whatever the system answers, connecting, following its list and closing
end well; a poll handles all that waits on the ports, in order, up to where the system fails, and
ends there with its fault, while what it did not get to goes on waiting. And whatever is asked of
the inputs comes to an end, and fails only if it was a poll and an input could not be read. -/
theorem only_reading_fails :
    (∀ name, Succeeds (connect h name)) ∧ Succeeds (rescan h) ∧ Succeeds closeInputs ∧
    (∀ b now, WellHeld b.part.inputs.ports → Fit h [] b.part.system →
      ∃ b₁ r b₂, (rescanIfDue h now).on b = some (.ok (), b₁) ∧ (poll h now).on b = some (r, b₂) ∧
        Asked b.part b₁.part ∧
        Polled h (b₁.part.system.requests (b₁.part.inputs.ports.map (·.2))) b₁ r b₂ ∧
        (r.isOk → ∀ port ∈ b₁.part.inputs.ports.map (·.2),
          b₂.part.system.queued port.name = [])) ∧
    (∀ cs s, (∀ c ∈ cs, c.ofInputs = true) → WellHeld s.inputs.ports → Fit h cs s.system →
      ∃ steps, inTurn h cs s = some steps ∧ List.Forall₂ (fun c step =>
        ∀ fault, step.outcome = .error fault → Unreadable s.system.reading c fault) cs steps) :=
  ⟨fun name => (aloof.safe_connect name).succeeds, aloof.safe_rescan.succeeds,
    safe_closeInputs.succeeds, fun _ now wellHeld fit => aloof.poll_on minds now wellHeld fit,
    fun _ _ hcs wellHeld fit => concludes_inTurn aloof minds hcs wellHeld fit⟩

end

/-- A studio that holds three inputs, the second of which fails after its first message. -/
def flaky : Studio where
  inputs := { ports := [("A", ⟨0, "A"⟩), ("B", ⟨1, "B"⟩), ("C", ⟨2, "C"⟩)] }
  system := {
    available := fun _ => ["A", "B", "C"]
    reading := fun n name _ => if name = "B" ∧ n = 3 then some "gone" else none
    opened := 3
    queues := [("A", [.noteOn 60 100]), ("B", [.noteOn 62 100, .noteOff 62 0]),
      ("C", [.noteOn 64 100])] }

theorem only_reading_fails_flaky :
    (∃ b₁ b₂, (poll (deskHooks flaky) none).on ⟨flaky, []⟩ =
        some (.error (.device "gone"), b₂) ∧
      Polled (deskHooks flaky) (b₁.part.system.requests (b₁.part.inputs.ports.map (·.2))) b₁
        (.error (.device "gone")) b₂ ∧
      b₂.part.system.queued "B" = [.noteOff 62 0] ∧
        b₂.part.system.queued "C" = [.noteOn 64 100]) ∧
    ∃ steps, inTurn (deskHooks flaky) [.poll none, .rescan, .poll none, .connect none] flaky =
        some steps ∧
      steps.map (·.outcome.isOk) = [false, true, true, true] ∧
      List.Forall₂ (fun c step => ∀ fault, step.outcome = .error fault →
          Unreadable flaky.system.reading c fault)
        [.poll none, .rescan, .poll none, .connect none] steps := by
  have plays (name : String) : ∀ m ∈ flaky.system.queued name, m.Plays := by
    simp only [System.queued, flaky, Table.get?]
    split_ifs <;> simp [Message.Plays]
  have wellHeld : WellHeld flaky.inputs.ports := ⟨by decide, by decide⟩
  obtain ⟨-, -, -, polls, runs⟩ := only_reading_fails (aloof_desk flaky) (minds_desk flaky)
  constructor
  · obtain ⟨b₁, r, b₂, -, hon, -, polled, -⟩ := polls ⟨flaky, []⟩ none wellHeld (.desk plays rfl)
    have fails : ((poll (deskHooks flaky) none).on ⟨flaky, []⟩).map (fun ends => (ends.1,
        ends.2.part.system.queued "B", ends.2.part.system.queued "C")) =
          some (.error (.device "gone"), [.noteOff 62 0], [.noteOn 64 100]) := by decide +kernel
    rw [hon] at fails
    obtain ⟨rfl, waits⟩ := Prod.mk.inj (Option.some.inj fails)
    exact ⟨b₁, b₂, hon, polled, Prod.mk.inj waits⟩
  · obtain ⟨steps, hrun, fails⟩ := runs [.poll none, .rescan, .poll none, .connect none] flaky
      (by simp [Command.ofInputs]) wellHeld (.desk plays rfl)
    have ends : (inTurn (deskHooks flaky) [.poll none, .rescan, .poll none, .connect none]
        flaky).map (fun steps => steps.map (·.outcome.isOk)) =
          some [false, true, true, true] := by decide +kernel
    rw [hrun] at ends
    exact ⟨steps, hrun, Option.some.inj ends, fails⟩

/-- A system with two inputs, the first of which cannot be read. -/
def deaf : Studio where
  system := {
    available := fun _ => ["A", "B"]
    reading := fun _ name _ => if name = "A" then some "gone" else none
    queues := [("B", [.noteOn 60 100])] }

/-- A poll fails, and a message is not handled though its input could be read. -/
theorem reading_fails_deaf : ∃ steps,
    inTurn (deskHooks deaf) [.connect none, .poll (some 100)] deaf = some steps ∧
      (¬ ∀ step ∈ steps, ∃ answer, step.outcome = .ok answer) ∧
      (∀ n taken, deaf.system.reading n "B" taken = none) ∧
      (deaf.after steps).inputs.ports.get? "B" = some ⟨1, "B"⟩ ∧
      (deaf.after steps).system.queued "B" = [.noteOn 60 100] := by
  have ends : (inTurn (deskHooks deaf) [.connect none, .poll (some 100)] deaf).map
      (fun steps => (steps.map (·.outcome.isOk), (deaf.after steps).inputs.ports.get? "B",
        (deaf.after steps).system.queued "B")) =
          some ([true, false], some ⟨1, "B"⟩, [.noteOn 60 100]) := by decide +kernel
  obtain ⟨steps, hrun, ended⟩ := Option.map_eq_some_iff.1 ends
  obtain ⟨outcomes, ended⟩ := Prod.mk.inj ended
  obtain ⟨held, waits⟩ := Prod.mk.inj ended
  refine ⟨steps, hrun, fun well => ?_, fun _ _ => rfl, held, waits⟩
  have failed : false ∈ steps.map (·.outcome.isOk) := by simp [outcomes]
  obtain ⟨step, here, fault⟩ := List.mem_map.1 failed
  obtain ⟨answer, ok⟩ := well step here
  rw [ok] at fault
  cases fault

end Studio

end PianoRoll
