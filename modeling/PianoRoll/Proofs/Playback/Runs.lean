import Mathlib.Data.List.Induction
import PianoRoll.Proofs.Playback.Consistency
import PianoRoll.Proofs.Playback.Operations
import PianoRoll.Proofs.Playback.Tracking

/-!
The runs of a session. However its operations follow each other, and whatever the listeners ask of
it in the middle of them, the studio is consistent whenever an event is published and after each
operation (`consistent_throughout`), and nothing plays but the run that has begun last, until
everything is to be stopped (`runs_never_mix`). Both are about the deeds that are told of the
operations, in which every stop, every beginning and every publication has its place.
-/

namespace PianoRoll

open Studio

/-- What was done in each of some steps: a course from one to the next, as their journals show. -/
inductive Told : Studio → List Step → List (List Deed) → Prop
  | nil (s : Studio) : Told s [] []
  | cons {s : Studio} {step : Step} {steps : List Step} {ds : List Deed} {dss : List (List Deed)}
      (course : Course s ds step.studio)
      (shown : step.entries.filter Entry.audible = ds.flatMap (Deed.heard s))
      (rest : Told step.studio steps dss) : Told s (step :: steps) (ds :: dss)

namespace Told

variable {s : Studio} {steps : List Step} {dss : List (List Deed)}

theorem course (h : Told s steps dss) : Course s dss.flatten (s.after steps) := by
  induction h with
  | nil s => exact .still s
  | cons course _ _ ih =>
    rw [after_cons, List.flatten_cons]
    exact course.trans ih

theorem take (h : Told s steps dss) (i : Nat) : Told s (steps.take i) (dss.take i) := by
  induction h generalizing i with
  | nil s => simpa using Told.nil s
  | cons course shown _ ih =>
    cases i with
    | zero => exact .nil _
    | succ i => exact .cons course shown (ih i)

theorem drop (h : Told s steps dss) (i : Nat) :
    Told (s.after (steps.take i)) (steps.drop i) (dss.drop i) := by
  induction h generalizing i with
  | nil s =>
    rw [List.take_nil, List.drop_nil, List.drop_nil]
    exact .nil s
  | cons course shown rest ih =>
    cases i with
    | zero => exact .cons course shown rest
    | succ i =>
      rw [List.take_succ_cons, after_cons]
      exact ih i

end Told

/-- What is told of operations of a session is what was done in them. -/
theorem told_inTurn {h : Hooks} (hears : ∀ l e, Callback .sessions (h.hear l e))
    {cs : List Command} (hcs : ∀ c ∈ cs, c.ofSession = true) {s : Studio}
    (hs : s.Orderly) {steps : List Step} (hrun : inTurn h cs s = some steps) :
    Told s steps (chronicle hears cs s) := by
  induction cs generalizing s steps with
  | nil =>
    cases hrun
    exact .nil s
  | cons c cs ih =>
    obtain ⟨step, rest, rfl, h₂, hon⟩ := inTurn_cons_inv hrun
    have tracks := Telling.tracks_carryOut (fun l e => (hears l e).tracks)
      (hcs c List.mem_cons_self)
    have traced := tracks hs ⟨hon, rfl⟩
    obtain ⟨es, he, shown⟩ := traced.journal
    obtain rfl : step.entries.reverse = es := he.trans (List.append_nil es)
    rw [List.filter_reverse, List.reverse_reverse] at shown
    have later := ih (fun c hc => hcs c (List.mem_cons_of_mem _ hc))
      (hs.course traced.course) h₂
    rw [chronicle_cons hon]
    exact .cons traced.course shown later

/-! ## Consistency -/

/-- A studio stays consistent with the run under way, as its timers and its transport tell of it, at
every publication and after every operation, and those who listen may count on that whenever they
look at it. What it publishes of the transport is in turn that it plays and that it rests. -/
theorem consistent_throughout {h : Hooks} (hears : ∀ l e, Callback .sessions (h.hear l e))
    {cs : List Command} (hcs : ∀ c ∈ cs, c.ofSession = true) {s : Studio} (fresh : Fresh s)
    {steps : List Step} (hrun : inTurn h cs s = some steps) :
    Told s steps (chronicle hears cs s) ∧
      (∀ ds e t es, (chronicle hears cs s).flatten = ds ++ .published e t :: es →
        t.Consistent (currentRun ds) ∧ t.timers.pending = t.transport.pending.length) ∧
      (∀ i, (s.after (steps.take i)).Consistent
          (currentRun ((chronicle hears cs s).take i).flatten) ∧
        (s.after (steps.take i)).timers.pending =
          (s.after (steps.take i)).transport.pending.length) ∧
      Alternating false (transports (chronicle hears cs s).flatten)
        (s.after steps).transport.playing := by
  have told := told_inTurn hears hcs fresh.orderly hrun
  obtain ⟨_, proper⟩ := told.course.steady fresh.steady
  refine ⟨told, fun ds e t es split => ?_, fun i => ?_, ?_⟩
  · rw [split] at proper
    have consistent := proper.proper.consistent e t rfl
    exact ⟨consistent, consistent.count⟩
  · obtain ⟨steady, _⟩ := (told.take i).course.steady fresh.steady
    exact ⟨steady.toConsistent, steady.count⟩
  · have alternating := told.course.alternating
    rw [fresh.playing] at alternating
    exact alternating

/-- A listener that plays from the beginning whenever it hears a note begin, if then transport and
timers tell the same; otherwise it throws the timers away. -/
def replaying : Hooks where
  hear _ e := match e with
    | .noteOn .. => do
      match decide (Coherent (← Work.look)) with
      | true => give [.replay]
      | false => Work.change fun s => { s with timers := {} }
    | _ => return
  run _ _ := return
  patience := 100

def sessions_replaying (l : Listener) (e : Event) : Callback .sessions (replaying.hear l e) := by
  cases e with
  | noteOn =>
    have sees (told : Bool) (same : told = true) : Callback .sessions
        (match told with
          | true => give [.replay]
          | false => Work.change fun s => { s with timers := {} }) := by
      cases told with
      | true => exact .give _ (by simp [Scope.sessions, Command.ofSession])
      | false => exact absurd same Bool.false_ne_true
    exact .look fun s coherent => sees _ (decide_eq_true coherent)
  | _ => exact .pure ()

def overheard : Studio :=
  { bus := [("note_on", .scripted "again")], recorded := ["transport", "note_on", "note_off"] }

theorem fresh_overheard : Fresh overheard := ⟨rfl, rfl, rfl, rfl⟩

/-- A melody that is played, begun again from its own first note, and stopped. -/
def interrupted : List Command :=
  [.setNotes (.notes [⟨60, "C4", 0, 1⟩, ⟨62, "D4", 1, 2⟩]), .play, .advance 0.6, .tick none, .stop,
    .advance 9, .tick none]

theorem interrupted_ends : (inTurn replaying interrupted overheard).isSome = true := by
  decide +kernel

theorem consistent_throughout_interrupted : ∃ steps, inTurn replaying interrupted overheard =
    some steps ∧
      transports (chronicle sessions_replaying interrupted overheard).flatten =
        [true, false, true, false] ∧
      (∀ ds e t es, (chronicle sessions_replaying interrupted overheard).flatten =
          ds ++ .published e t :: es →
        t.Consistent (currentRun ds) ∧ t.timers.pending = t.transport.pending.length) := by
  obtain ⟨steps, hrun⟩ := Option.isSome_iff_exists.1 interrupted_ends
  obtain ⟨_, published, _, _⟩ :=
    consistent_throughout sessions_replaying (by decide) fresh_overheard hrun
  exact ⟨steps, hrun, by decide +kernel, published⟩

/-! ## Finality -/

/-- Whether a deed changes which run is under way. -/
def Deed.turns : Deed → Bool
  | .begun _ | .halted => true
  | _ => false

/-- The run under way is the last that has begun, without a stop since. -/
theorem currentRun_eq_some {ds : List Deed} {timers : List Nat}
    (h : currentRun ds = some timers) :
    ∃ before after, ds = before ++ .begun timers :: after ∧ ∀ d ∈ after, d.turns = false := by
  induction ds using List.reverseRecOn with
  | nil => cases h
  | append_singleton ds d ih =>
    rw [currentRun, List.foldl_append] at h
    have goes_on (hd : follow (currentRun ds) d = currentRun ds) (still : d.turns = false) :
        ∃ before after, ds ++ [d] = before ++ .begun timers :: after ∧
          ∀ d ∈ after, d.turns = false := by
      change follow (currentRun ds) d = some timers at h
      obtain ⟨before, after, e, hafter⟩ := ih (hd ▸ h)
      refine ⟨before, after ++ [d], by rw [e]; simp, fun d' hd' => ?_⟩
      rcases List.mem_append.1 hd' with hd' | hd'
      · exact hafter d' hd'
      · rw [List.mem_singleton.1 hd']
        exact still
    cases d with
    | begun timers' =>
      cases h
      exact ⟨ds, [], rfl, fun _ hd => absurd hd List.not_mem_nil⟩
    | halted => cases h
    | fired n t => exact goes_on rfl rfl
    | sounded c => exact goes_on rfl rfl
    | published e s => exact goes_on rfl rfl

theorem foldl_follow_none {ds : List Deed} (h : ∀ timers, .begun timers ∉ ds) :
    ds.foldl follow none = none := by
  induction ds with
  | nil => rfl
  | cons d ds ih =>
    have rest := ih fun timers ht => h timers (List.mem_cons_of_mem _ ht)
    cases d with
    | begun timers => exact absurd List.mem_cons_self (h timers)
    | _ => exact rest

/-- Whether an entry tells of a note: that it was asked for, or that it was published. -/
def Entry.plays : Entry → Bool
  | .sound (.on ..) | .sound (.off _) => true
  | .event (.noteOn ..) | .event (.noteOff ..) => true
  | _ => false

theorem Deed.plays_of_heard {s : Studio} {d : Deed} {e : Entry} (he : e ∈ d.heard s)
    (plays : e.plays = true) : d.plays = true := by
  cases d with
  | sounded c =>
    rw [Deed.heard, Audio.heard] at he
    split at he
    · cases List.mem_singleton.1 he
      cases c <;> first | rfl | cases plays
    · cases he
  | published e' t =>
    cases List.eq_of_mem_replicate he
    cases e' <;> first | rfl | cases plays
  | _ => cases he

/-- Where no deed plays, the journal tells of no notes. -/
theorem Told.silent {s : Studio} {steps : List Step} {dss : List (List Deed)}
    (told : Told s steps dss) (still : ∀ d ∈ dss.flatten, d.plays = false) :
    ∀ step ∈ steps, ∀ e ∈ step.entries, e.plays = false := by
  induction told with
  | nil => simp
  | @cons s step steps ds dss _ shown _ ih =>
    rw [List.flatten_cons] at still
    refine List.forall_mem_cons.2
      ⟨fun e he => ?_, ih fun d hd => still d (List.mem_append_right _ hd)⟩
    by_contra plays
    rw [Bool.not_eq_false] at plays
    have audible : e.audible = true := by cases e <;> first | rfl | cases plays
    have heard : e ∈ ds.flatMap (Deed.heard s) := shown ▸ List.mem_filter.2 ⟨he, audible⟩
    obtain ⟨d, hd, he⟩ := List.mem_flatMap.1 heard
    exact absurd (Deed.plays_of_heard he plays) (by simp [still d (List.mem_append_left _ hd)])

/-- From a stop on nothing is done that plays, until another run begins. -/
theorem still_of_halted {ds between es : List Deed}
    (proper : AllProper none (ds ++ .halted :: (between ++ es)))
    (rests : ∀ timers, .begun timers ∉ between) : ∀ d ∈ between, d.plays = false := by
  intro d hd
  obtain ⟨first, second, rfl⟩ := List.append_of_mem hd
  have split : ds ++ Deed.halted :: ((first ++ d :: second) ++ es) =
      (ds ++ .halted :: first) ++ d :: (second ++ es) := by simp
  rw [split] at proper
  have idle : (ds ++ .halted :: first).foldl follow none = none := by
    rw [List.foldl_append]
    exact foldl_follow_none fun timers ht => rests timers (List.mem_append_left _ ht)
  cases plays : d.plays
  · rfl
  · obtain ⟨timers, current, _⟩ := proper.proper.own plays
    rw [idle] at current
    cases current

/-- So it is with whole operations, from one on that begins with a stop. -/
theorem still_of_stop {dss : List (List Deed)} (proper : AllProper none dss.flatten) {i : Nat}
    {ds : List Deed} (stops : dss[i]? = some (.halted :: ds)) (k : Nat)
    (rests : ∀ timers, .begun timers ∉ ((dss.drop i).take k).flatten) :
    ∀ d ∈ ((dss.drop i).take k).flatten, d.plays = false := by
  cases k with
  | zero => simp
  | succ k =>
    obtain ⟨hi, e⟩ := List.getElem?_eq_some_iff.1 stops
    have here : dss.drop i = (.halted :: ds) :: dss.drop (i + 1) := by
      rw [List.drop_eq_getElem_cons hi, e]
    let later := dss.drop (i + 1)
    have whole : dss.flatten = (dss.take i).flatten ++ .halted ::
        ((ds ++ (later.take k).flatten) ++ (later.drop k).flatten) := by
      rw [List.append_assoc, ← List.flatten_append, List.take_append_drop, ← List.cons_append,
        ← List.flatten_cons, ← here, ← List.flatten_append, List.take_append_drop]
    rw [here, List.take_succ_cons, List.flatten_cons, List.cons_append] at rests ⊢
    rw [whole] at proper
    have still := still_of_halted proper fun timers ht =>
      rests timers (List.mem_cons_of_mem _ ht)
    exact List.forall_mem_cons.2 ⟨rfl, still⟩

/-- Whatever plays, a trigger, its sound or what is told of its note, belongs to the run that has
begun last, and no stop came since. So from a stop on nothing plays until another run begins: a
command that stops is told as a stop before anything else, and as long as no run begins in it or in
those that follow, their journals tell of no notes. -/
theorem runs_never_mix {h : Hooks} (hears : ∀ l e, Callback .sessions (h.hear l e))
    {cs : List Command} (hcs : ∀ c ∈ cs, c.ofSession = true) {s : Studio} (fresh : Fresh s)
    {steps : List Step} (hrun : inTurn h cs s = some steps) :
    Told s steps (chronicle hears cs s) ∧
      (∀ ds d es, (chronicle hears cs s).flatten = ds ++ d :: es → d.plays = true →
        ∃ before timers after, ds = before ++ .begun timers :: after ∧
          (∀ d ∈ after, d.turns = false) ∧ ∀ n t, d = .fired n t → n ∈ timers) ∧
      (∀ ds between es, (chronicle hears cs s).flatten = ds ++ .halted :: (between ++ es) →
        (∀ timers, .begun timers ∉ between) → ∀ d ∈ between, d.plays = false) ∧
      ∀ i c, cs[i]? = some c → c.halts (s.after (steps.take i)) = true →
        (∃ ds, (chronicle hears cs s)[i]? = some (.halted :: ds)) ∧
        ∀ k, (∀ timers, .begun timers ∉ (((chronicle hears cs s).drop i).take k).flatten) →
          ∀ step ∈ (steps.drop i).take k, ∀ e ∈ step.entries, e.plays = false := by
  have told := told_inTurn hears hcs fresh.orderly hrun
  obtain ⟨_, proper⟩ := told.course.steady fresh.steady
  refine ⟨told, fun ds d es split plays => ?_, fun ds between es split => ?_,
    fun i c hc halts => ?_⟩
  · rw [split] at proper
    obtain ⟨timers, current, own⟩ := proper.proper.own plays
    obtain ⟨before, after, e, still⟩ := currentRun_eq_some current
    exact ⟨before, timers, after, e, still, own⟩
  · rw [split] at proper
    exact still_of_halted proper
  · let tells (l : Listener) (e : Event) : Telling (h.hear l e) := (hears l e).telling
    let b : Bench Studio := ⟨s.after (steps.take i), []⟩
    obtain ⟨ds, head⟩ : ∃ ds, (Telling.carryOut tells c).deeds b = .halted :: ds :=
      Telling.deeds_halts _ halts
    have stops : (chronicle hears cs s)[i]? = some (.halted :: ds) :=
      (chronicle_get? hrun hc).trans (congrArg some head)
    exact ⟨⟨ds, stops⟩, fun k rests =>
      ((told.drop i).take k).silent (still_of_stop proper stops k rests)⟩

/-- One note begins to play, on which another run begins; that is stopped before it plays any. -/
theorem runs_never_mix_interrupted : ∃ steps, inTurn replaying interrupted overheard =
    some steps ∧
      (steps.take 4).map (fun step => step.entries.countP Entry.plays) = [0, 0, 0, 2] ∧
      ∀ step ∈ (steps.drop 4).take 3, ∀ e ∈ step.entries, e.plays = false := by
  obtain ⟨steps, hrun, counts⟩ : ∃ steps, inTurn replaying interrupted overheard = some steps ∧
      (steps.take 4).map (fun step => step.entries.countP Entry.plays) = [0, 0, 0, 2] := by
    have played : ((inTurn replaying interrupted overheard).map fun steps =>
        (steps.take 4).map fun step => step.entries.countP Entry.plays) =
          some [0, 0, 0, 2] := by decide +kernel
    exact Option.map_eq_some_iff.1 played
  obtain ⟨_, _, _, stops⟩ := runs_never_mix sessions_replaying (by decide) fresh_overheard hrun
  obtain ⟨_, silent⟩ := stops 4 .stop rfl rfl
  refine ⟨steps, hrun, counts, silent 3 fun timers ht => ?_⟩
  have none_begins : ((((chronicle sessions_replaying interrupted overheard).drop 4).take
      3).flatten.any fun
        | .begun _ => true
        | _ => false) = false := by decide +kernel
  exact absurd (List.any_eq_false.1 none_begins _ ht) (by simp)

end PianoRoll
