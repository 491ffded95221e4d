import PianoRoll.Proofs.Inputs.Acts
import PianoRoll.Proofs.Playback.Runs

/-!
Who has a port. Whatever is done with the MIDI inputs, whatever the system lists, refuses or fails
to close, and whatever listeners do with the inputs in the meantime, takes the ledger of the ports
along a path (`Wired`). So every port that was opened is held, or was closed once, unless a second
port was opened for its input in the meantime; which only an input can lead to that is listed
twice when all are connected (`ports_settled_iff`).
-/

namespace PianoRoll

namespace Studio

open Work Ledger Midi

def ledger (b : Bench Studio) : Ledger :=
  ⟨b.part.inputs.ports, b.part.system.opened, switchesIn b.journal⟩

theorem ledger_rewired {es : List Entry} {xs : List Switch} (h : Reports es xs) (n m : Nat)
    (ports : Table String Port) (b : Bench Studio) :
    ledger ⟨b.part.rewired n m ports, es ++ b.journal⟩ =
      ⟨ports, (ledger b).next + m, xs ++ (ledger b).past⟩ := by
  rw [ledger, switchesIn, List.filterMap_append, h.switches]
  rfl

/-- All ports that are held can be closed. -/
theorem path_closeAll {careful : Prop} {b : Bench Studio}
    (distinct : b.part.inputs.ports.keys.Nodup) {es : List Entry}
    (closed : Reports es (b.part.inputs.ports.map fun e => .closed e.2).reverse) (n : Nat) :
    Path careful (ledger b) (ledger ⟨b.part.rewired n 0 [], es ++ b.journal⟩) := by
  have path : Path careful (ledger b) _ := path_closes distinct distinct fun _ he => he
  have none : (ledger b).held.filter (·.1 ∉ b.part.inputs.ports.keys) = [] :=
    List.filter_eq_nil_iff.2 fun e he => by
      have held : e.1 ∈ b.part.inputs.ports.keys := Table.mem_keys_of_mem he
      simp [held]
  rw [none] at path
  exact (ledger_rewired closed n 0 [] b) ▸ path

/-- The inputs are held properly, and if it takes care for that, the system lists none of them
twice. -/
structure Tidy (careful : Prop) (s : Studio) : Prop extends WellHeld s.inputs.ports where
  listings : careful → ∀ n names, s.system.listing n = .ok names → names.Nodup

def Wires (careful : Prop) (b b' : Bench Studio) : Prop :=
  Tidy careful b.part → Path careful (ledger b) (ledger b') ∧ Tidy careful b'.part

section

variable {careful : Prop} {b b' b'' : Bench Studio}

theorem Wires.trans (h : Wires careful b b') (h' : Wires careful b' b'') :
    Wires careful b b'' := by
  intro tidy
  obtain ⟨path, tidy⟩ := h tidy
  obtain ⟨path', tidy⟩ := h' tidy
  exact ⟨path.trans path', tidy⟩

theorem wires_of_path (path : Tidy careful b.part → Path careful (ledger b) (ledger b'))
    (same : b'.part.system.listing = b.part.system.listing) : Wires careful b b' :=
  fun tidy => ⟨path tidy, (path tidy).wellHeld tidy.toWellHeld,
    fun hc => same.symm ▸ tidy.listings hc⟩

theorem carries_wires : Carries (Wires careful) where
  idle {b b'} h := by
    have same : ledger b' = ledger b := by rw [ledger, h.ports, h.opened, h.switches, ledger]
    exact wires_of_path (fun _ => same ▸ .refl) h.listing
  trans := .trans

end

abbrev Wired (careful : Prop) {α : Type} (p : Act α) : Prop := Along (Wires careful) p

/-- Listeners that use the inputs by acts of the studio alone. -/
def Minds (h : Hooks) : Prop := ∀ careful l e, Wired careful (h.hear l e)

theorem minds_desk (s : Studio) : Minds (deskHooks s) := fun _ => carries_wires.hear s

/-- What is said of the ports may change. -/
theorem wired_changeInputs {careful : Prop} (f : Inputs → Inputs)
    (ports : ∀ i, (f i).ports = i.ports) : Wired careful (changeInputs f) := by
  intro b _ _ h
  cases h
  refine wires_of_path (fun _ => ?_) rfl
  change Path careful (ledger b) ⟨(f b.part.inputs).ports, _, _⟩
  rw [ports]
  exact .refl

theorem wired_closeInputs {careful : Prop} : Wired careful closeInputs := by
  intro b r b' h
  obtain ⟨es, closes, closed⟩ := closeInputs_on b
  rw [closes] at h
  cases h
  exact wires_of_path (fun tidy => path_closeAll tidy.distinct closed _) rfl

/-- Opening inputs is careful if none of them is held or comes twice. -/
theorem wires_openPorts {careful : Prop} {names : List String} {b b' : Bench Studio}
    {r : Except Fault (Option String)} (h : (openPorts names).on b = some (r, b'))
    (new : careful → names.Nodup ∧ ∀ name ∈ names, name ∉ b.part.inputs.ports.keys) :
    Wires careful b b' := by
  induction names generalizing b with
  | nil => exact carries_wires.pure _ h
  | cons name names ih =>
    rw [openPorts] at h
    rcases openPort_on name b with ⟨reason, -, opens⟩ | ⟨-, opens⟩
    · rw [on_bind_ok opens] at h
      cases h
      exact carries_wires.idle ⟨rfl, rfl, rfl, rfl, rfl, rfl⟩
    · rw [on_bind_ok opens] at h
      have here : Wires careful b (opening name b) :=
        wires_of_path (fun _ => .single (.opens (l := ledger b) name fun hc =>
          (new hc).2 name List.mem_cons_self)) rfl
      refine here.trans (ih h fun hc => ?_)
      · obtain ⟨distinct, new⟩ := new hc
        obtain ⟨once, distinct⟩ := List.nodup_cons.1 distinct
        refine ⟨distinct, fun x hx held => ?_⟩
        change x ∈ (b.part.inputs.ports.put name _).keys at held
        rw [Table.keys_put, if_neg (new name List.mem_cons_self)] at held
        rcases List.mem_append.1 held with held | same
        · exact new x (List.mem_cons_of_mem _ hx) held
        · exact once (List.mem_singleton.1 same ▸ hx)

/-- Who holds nothing opens what the system lists with as much care as the system takes. -/
theorem wires_openNamed {careful : Prop} {name : Option String} {b b' : Bench Studio}
    {r : Except Fault (Option String)} (h : (openNamed name).on b = some (r, b'))
    (none : b.part.inputs.ports = []) : Wires careful b b' := by
  obtain ⟨n, listed, asks, among⟩ := namesToOpen_on name b
  rw [openNamed, on_bind_ok asks] at h
  intro tidy
  have asked : Wires careful b ⟨b.part.rewired n 0 b.part.inputs.ports, b.journal⟩ :=
    carries_wires.idle ⟨rfl, rfl, rfl, rfl, rfl, rfl⟩
  refine asked.trans ?_ tidy
  cases listed with
  | error reason => exact carries_wires.pure _ h
  | ok names =>
    refine wires_openPorts h fun hc => ⟨?_, ?_⟩
    · rcases among names rfl with ⟨x, rfl⟩ | listed
      · exact List.nodup_singleton x
      · exact tidy.listings hc _ names listed
    · change ∀ x ∈ names, x ∉ b.part.inputs.ports.keys
      simp [none, Table.keys_nil]

section

variable {h : Hooks} {careful : Prop} (hears : ∀ l e, Wired careful (h.hear l e))
include hears

theorem wired_settle (failure : Option String) : Wired careful (settle h failure) := by
  have hR : Carries (Wires careful) := carries_wires
  cases failure with
  | none =>
    exact hR.bind (wired_changeInputs _ fun _ => by rfl) fun _ =>
      hR.bind (wired_changeInputs _ fun _ => by rfl) fun _ => hR.announce hears
  | some reason =>
    exact hR.bind (hR.log _ _) fun _ => hR.bind wired_closeInputs fun _ =>
      hR.bind (wired_changeInputs _ fun _ => by rfl) fun _ => hR.announce hears

theorem wired_report (changed : Bool) : Wired careful (report h changed) := by
  have hR : Carries (Wires careful) := carries_wires
  exact hR.ite (hR.bind (wired_changeInputs _ fun _ => by rfl) fun _ =>
    hR.bind (hR.publishStatus hears) fun _ => hR.pure _) (hR.pure _)

theorem wired_connect (name : Option String) : Wired careful (connect h name) := by
  intro b r b' hrun
  obtain ⟨n, es, connects, closed⟩ := connect_on h name b
  rw [connects] at hrun
  have clears : Wires careful b ⟨b.part.cleared name n, es ++ b.journal⟩ :=
    wires_of_path (fun tidy => path_closeAll tidy.distinct closed n) rfl
  refine clears.trans ?_
  rcases on_bind_inv hrun with ⟨answer, b₂, h₂, hrun⟩ | ⟨e, h₂, -⟩
  · exact (wires_openNamed h₂ rfl).trans (wired_settle hears answer hrun)
  · exact wires_openNamed h₂ rfl

theorem wired_rescan : Wired careful (rescan h) := by
  intro b r b' hrun tidy
  cases answer : b.part.system.listing b.part.system.asked with
  | error reason =>
    rw [rescan_failed h answer] at hrun
    cases hrun
    exact carries_wires.idle ⟨rfl, rfl, rfl, rfl, rfl, rfl⟩ tidy
  | ok listed =>
    obtain ⟨admitted, n, es, rescans, reports, admits⟩ := rescan_on h tidy.distinct answer rfl
    rw [rescans] at hrun
    have path : Path careful (ledger b) _ :=
      path_follows tidy.distinct admits.distinct admits.new
    have reported := wired_report hears _ hrun
    refine Wires.trans (wires_of_path (fun _ => ?_) ?_) reported tidy
    · exact (ledger_rewired reports _ _ _ b) ▸ path
    · rfl

/-- Whatever is asked of the inputs. -/
theorem wired_carryOut {c : Command} (hc : c.ofInputs = true) : Wired careful (carryOut h c) :=
  carries_wires.carryOut hears (wired_rescan hears) (wired_connect hears) wired_closeInputs hc

end

/-! ## Runs -/

def past (steps : List Step) : List Switch :=
  (steps.flatMap Step.entries).reverse.filterMap Entry.switch?

theorem past_cons (step : Step) (steps : List Step) :
    past (step :: steps) = past steps ++ step.entries.reverse.filterMap Entry.switch? := by
  simp [past]

theorem path_inTurn {careful : Prop} {h : Hooks} (hears : ∀ l e, Wired careful (h.hear l e))
    {cs : List Command} (hcs : ∀ c ∈ cs, c.ofInputs = true) {s : Studio} (tidy : Tidy careful s)
    {steps : List Step} (hrun : inTurn h cs s = some steps) :
    Path careful ⟨s.inputs.ports, s.system.opened, []⟩
      ⟨(s.after steps).inputs.ports, (s.after steps).system.opened, past steps⟩ := by
  induction cs generalizing s steps with
  | nil =>
    cases hrun
    exact .refl
  | cons c cs ih =>
    obtain ⟨step, rest, rfl, h₂, hon⟩ := inTurn_cons_inv hrun
    obtain ⟨path, tidy⟩ := wired_carryOut hears (hcs c List.mem_cons_self) hon tidy
    have later := ih (fun c hc => hcs c (List.mem_cons_of_mem _ hc)) tidy h₂
    rw [after_cons, past_cons]
    exact path.trans (later.behind _)

def HoldsPort (s : Studio) (p : Port) : Prop := ∃ name, (name, p) ∈ s.inputs.ports

/-- A port is held and was never closed, or is not held and was closed once. -/
def Settled (s : Studio) (past : List Switch) (p : Port) : Prop :=
  (s.HoldsPort p ∧ past.count (.closed p) = 0) ∨ (¬ s.HoldsPort p ∧ past.count (.closed p) = 1)

/-- Ports are settled unless they are overtaken. Whatever is asked of the inputs of a studio that
holds none, in any order, whatever the system lists, refuses, cannot close or cannot read at any
time, and whatever listeners do with the inputs in the meantime: no port that is held was closed,
and one that was opened is settled if no other was opened for its input while it was open. One
that was overtaken so is lost: it is not held, and nobody closes it. None is overtaken if the
system never lists an input twice. -/
theorem ports_settled_iff {h : Hooks} (minds : Minds h) {cs : List Command}
    (hcs : ∀ c ∈ cs, c.ofInputs = true) {s : Studio} (none : s.inputs.ports = [])
    {steps : List Step} (hrun : inTurn h cs s = some steps) :
    (∀ p, (s.after steps).HoldsPort p → .opened p ∈ past steps ∧ .closed p ∉ past steps) ∧
    (∀ p, .opened p ∈ past steps →
      (Settled (s.after steps) (past steps) p ↔ ¬ Overtaken (past steps) p)) ∧
    (∀ p, Overtaken (past steps) p → ¬ (s.after steps).HoldsPort p ∧ .closed p ∉ past steps) ∧
    ((∀ n names, s.system.listing n = .ok names → names.Nodup) →
      ∀ p, ¬ Overtaken (past steps) p) := by
  have tidy : Tidy (∀ n names, s.system.listing n = .ok names → names.Nodup) s :=
    ⟨by rw [none]; exact ⟨List.nodup_nil, by simp⟩, id⟩
  have path := path_inTurn (minds _) hcs tidy hrun
  rw [none] at path
  have start := correct_empty s.system.opened
  have correct := start.path path
  have holds (p : Port) : (s.after steps).HoldsPort p ↔
      .opened p ∈ past steps ∧ .closed p ∉ past steps ∧ ¬ Overtaken (past steps) p := by
    refine Iff.trans ⟨?_, fun held => ⟨p.name, held⟩⟩ (correct.held_iff p)
    rintro ⟨name, held⟩
    obtain rfl : p.name = name := correct.named _ held
    exact held
  refine ⟨fun p held => ?_, fun p opened => ?_, fun p overtaken => ?_, fun listings p => ?_⟩
  · exact ⟨((holds p).1 held).1, ((holds p).1 held).2.1⟩
  · unfold Settled
    rw [holds, correct.once.count]
    have lost := correct.lost p
    by_cases closed : .closed p ∈ past steps <;> by_cases overtaken : Overtaken (past steps) p <;>
      simp_all
  · exact ⟨fun held => ((holds p).1 held).2.2 overtaken, correct.lost p overtaken⟩
  · exact start.none_overtaken listings path (by simp [Overtaken]) p

/-- A system that lists two inputs at first and one of them later, and none of whose ports closes.
The second one does not open when it is asked first. -/
def shaky : Studio :=
  { system := {
      available := fun n => if n < 5 then ["B", "A"] else ["A"]
      opening := fun n name => if n < 3 ∧ name = "A" then some "busy" else none
      closing := fun _ _ => some "stuck" } }

theorem ports_settled_shaky : ∃ steps,
    inTurn (deskHooks shaky) [.connect none, .rescan, .poll none, .rescan, .closeInputs] shaky =
      some steps ∧
    past steps = [.closed ⟨2, "A"⟩, .closed ⟨1, "B"⟩, .opened ⟨2, "A"⟩, .opened ⟨1, "B"⟩,
      .closed ⟨0, "B"⟩, .opened ⟨0, "B"⟩] ∧
    ∀ p, .opened p ∈ past steps → Settled (shaky.after steps) (past steps) p := by
  have ends : (inTurn (deskHooks shaky)
      [.connect none, .rescan, .poll none, .rescan, .closeInputs] shaky).map past =
        some [.closed ⟨2, "A"⟩, .closed ⟨1, "B"⟩, .opened ⟨2, "A"⟩, .opened ⟨1, "B"⟩,
          .closed ⟨0, "B"⟩, .opened ⟨0, "B"⟩] := by decide +kernel
  obtain ⟨steps, hrun, hpast⟩ := Option.map_eq_some_iff.1 ends
  obtain ⟨-, settled, -, careful⟩ :=
    ports_settled_iff (minds_desk shaky) (by simp [Command.ofInputs]) rfl hrun
  have listings : ∀ n names, shaky.system.listing n = .ok names → names.Nodup := by
    rintro n names listed
    obtain rfl : (if n < 5 then ["B", "A"] else ["A"]) = names := Except.ok.inj listed
    split <;> decide
  exact ⟨steps, hrun, hpast, fun p opened => (settled p opened).2 (careful listings p)⟩

/-- A system that lists an input twice. -/
def twins : Studio := { system := { available := fun _ => ["A", "A"] } }

/-- The first of two ports for one name is lost when all inputs are connected. -/
theorem ports_lost_twins : ∃ steps,
    inTurn (deskHooks twins) [.connect none, .closeInputs] twins = some steps ∧
      past steps = [.closed ⟨1, "A"⟩, .opened ⟨1, "A"⟩, .opened ⟨0, "A"⟩] ∧
        ¬ ∀ p, .opened p ∈ past steps → Settled (twins.after steps) (past steps) p := by
  have ends : (inTurn (deskHooks twins) [.connect none, .closeInputs] twins).map
      (fun steps => (past steps, (twins.after steps).inputs.ports)) =
        some ([.closed ⟨1, "A"⟩, .opened ⟨1, "A"⟩, .opened ⟨0, "A"⟩], []) := by decide +kernel
  obtain ⟨steps, hrun, ended⟩ := Option.map_eq_some_iff.1 ends
  obtain ⟨hpast, ports⟩ := Prod.mk.inj ended
  refine ⟨steps, hrun, hpast, fun settled => ?_⟩
  have first := settled ⟨0, "A"⟩ (by simp [hpast])
  simp [Settled, HoldsPort, hpast, ports] at first

end Studio

end PianoRoll
