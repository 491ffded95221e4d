import PianoRoll.Proofs.Playback.Sounding
import PianoRoll.Studio.Rehearsal

/-!
Studios that differ in what edits change alone. Two acts go `Together` if on such studios they come
to the same result and leave such studios again, with the same in the journal but for the log; an
act that goes together with itself is `Blind` to edits. Ticks are blind if those who are called back
are (`blind_pump`), and edits are `Unseen`: they lead from every studio to one that differs from it
in what edits change alone.
-/

namespace PianoRoll

open Work

def Entry.isLog : Entry → Bool
  | .log _ => true
  | _ => false

def unlogged (es : List Entry) : List Entry := es.filter fun e => !e.isLog

theorem unlogged_append (es es' : List Entry) :
    unlogged (es ++ es') = unlogged es ++ unlogged es' := List.filter_append ..

/-- A session but for what edits change. -/
def Session.kept (s : Session) : Session :=
  { monsters := s.monsters, playedGhosts := s.playedGhosts }

namespace Studio

def kept (s : Studio) : Studio := { s with session := s.session.kept }

/-- Studios that differ in what edits change alone. -/
structure Alike (s₁ s₂ : Studio) : Prop where
  kept : s₁.kept = s₂.kept

namespace Alike

variable {s₁ s₂ s₃ : Studio} (h : Alike s₁ s₂)

theorem refl (s : Studio) : Alike s s := ⟨rfl⟩

include h

theorem symm : Alike s₂ s₁ := ⟨h.kept.symm⟩

theorem trans (h' : Alike s₂ s₃) : Alike s₁ s₃ := ⟨h.kept.trans h'.kept⟩

theorem clock : s₁.clock = s₂.clock := congrArg (·.clock) h.kept

theorem settings : s₁.settings = s₂.settings := congrArg (·.settings) h.kept

theorem bus : s₁.bus = s₂.bus := congrArg (·.bus) h.kept

theorem timers : s₁.timers = s₂.timers := congrArg (·.timers) h.kept

theorem transport : s₁.transport = s₂.transport := congrArg (·.transport) h.kept

theorem audio : s₁.audio = s₂.audio := congrArg (·.audio) h.kept

theorem recorded : s₁.recorded = s₂.recorded := congrArg (·.recorded) h.kept

theorem monsters : s₁.session.monsters = s₂.session.monsters :=
  congrArg (·.session.monsters) h.kept

theorem playedGhosts : s₁.session.playedGhosts = s₂.session.playedGhosts :=
  congrArg (·.session.playedGhosts) h.kept

/-- Changes that do not look at what edits change keep studios alike. -/
theorem change {f : Studio → Studio} (hf : ∀ s, (f s).kept = (f s.kept).kept) :
    Alike (f s₁) (f s₂) :=
  ⟨by rw [hf s₁, hf s₂, h.kept]⟩

end Alike

/-- Benches whose studios differ in what edits change alone, and whose journals differ in the log
alone. -/
structure Twins (b₁ b₂ : Bench Studio) : Prop where
  part : Alike b₁.part b₂.part
  journal : unlogged b₁.journal = unlogged b₂.journal

theorem Twins.refl (b : Bench Studio) : Twins b b := ⟨.refl _, rfl⟩

theorem Twins.trans {b₁ b₂ b₃ : Bench Studio} (h : Twins b₁ b₂) (h' : Twins b₂ b₃) : Twins b₁ b₃ :=
  ⟨h.part.trans h'.part, h.journal.trans h'.journal⟩

/-- Acts that come to the same result on twin benches, and leave twin benches. -/
def Together {α : Type} (p q : Act α) : Prop := ∀ ⦃b₁ b₂⦄, Twins b₁ b₂ →
  (p.on b₁ = none ∧ q.on b₂ = none) ∨
    ∃ r b₁' b₂', p.on b₁ = some (r, b₁') ∧ q.on b₂ = some (r, b₂') ∧ Twins b₁' b₂'

/-- An act that makes no difference between studios that differ by edits. -/
abbrev Blind {α : Type} (p : Act α) : Prop := Together p p

section Together

variable {α β : Type}

theorem blind_pure (a : α) : Blind (pure a : Act α) :=
  fun b₁ b₂ h => Or.inr ⟨.ok a, b₁, b₂, rfl, rfl, h⟩

theorem blind_orFail (r : Except Fault α) : Blind (orFail r : Act α) :=
  fun b₁ b₂ h => Or.inr ⟨r, b₁, b₂, rfl, rfl, h⟩

theorem blind_unfinished : Blind (unfinished : Act α) := fun _ _ _ => Or.inl ⟨rfl, rfl⟩

theorem Together.bind {p q : Act α} {f g : α → Act β} (hp : Together p q)
    (hf : ∀ a, Together (f a) (g a)) : Together (p >>= f) (q >>= g) := by
  intro b₁ b₂ hb
  rcases hp hb with ⟨h₁, h₂⟩ | ⟨r, b₁', b₂', h₁, h₂, twins⟩
  · exact Or.inl ⟨by rw [on_bind, h₁]; rfl, by rw [on_bind, h₂]; rfl⟩
  · cases r with
    | ok a =>
      rw [on_bind_ok h₁, on_bind_ok h₂]
      exact hf a twins
    | error e => exact Or.inr ⟨_, b₁', b₂', on_bind_error h₁, on_bind_error h₂, twins⟩

theorem Together.rescue {p q : Act α} {f g : Fault → Act α} (hp : Together p q)
    (hf : ∀ e, Together (f e) (g e)) : Together (tryCatch p f) (tryCatch q g) := by
  intro b₁ b₂ hb
  rw [on_tryCatch, on_tryCatch]
  rcases hp hb with ⟨h₁, h₂⟩ | ⟨r, b₁', b₂', h₁, h₂, twins⟩
  · exact Or.inl ⟨by rw [h₁]; rfl, by rw [h₂]; rfl⟩
  · rw [h₁, h₂]
    cases r with
    | ok a => exact Or.inr ⟨_, b₁', b₂', rfl, rfl, twins⟩
    | error e => exact hf e twins

/-- What is done after a look may use whatever is alike. -/
theorem together_look {f g : Studio → Act β}
    (h : ∀ s₁ s₂, Alike s₁ s₂ → Together (f s₁) (g s₂)) : Together (look >>= f) (look >>= g) := by
  intro b₁ b₂ hb
  rw [on_bind_ok (on_look b₁), on_bind_ok (on_look b₂)]
  exact h _ _ hb.part hb

theorem blind_write (e : Entry) : Blind (write e : Act Unit) := by
  intro b₁ b₂ hb
  refine Or.inr ⟨_, _, _, on_write e b₁, on_write e b₂, hb.part, ?_⟩
  change unlogged ([e] ++ b₁.journal) = unlogged ([e] ++ b₂.journal)
  rw [unlogged_append, unlogged_append, hb.journal]

theorem blind_change {f : Studio → Studio} (hf : ∀ s, (f s).kept = (f s.kept).kept) :
    Blind (change f) :=
  fun b₁ b₂ hb => Or.inr ⟨_, _, _, on_change f b₁, on_change f b₂, hb.part.change hf, hb.journal⟩

theorem blind_changeTransport (f : Transport → Transport) : Blind (changeTransport f) :=
  blind_change fun _ => rfl

theorem blind_forM {f : α → Act Unit} (hf : ∀ a, Blind (f a)) (xs : List α) :
    Blind (xs.forM f) := by
  induction xs with
  | nil => exact blind_pure ()
  | cons x xs ih =>
    rw [forM_cons]
    exact (hf x).bind fun _ => ih

theorem blind_sound (c : SoundCall) : Blind (sound c) := by
  intro b₁ b₂ hb
  cases h₁ : (sound c).on b₁ with
  | none =>
    cases h₂ : (sound c).on b₂ with
    | none => exact Or.inl ⟨rfl, rfl⟩
    | some x =>
      obtain ⟨a, es, _, _, _, any⟩ := sound_inv h₂
      rw [any b₁ hb.part.audio] at h₁
      cases h₁
  | some x =>
    obtain ⟨a, es, e, _, _, any⟩ := sound_inv h₁
    refine Or.inr ⟨x.1, x.2, _, rfl, any b₂ hb.part.audio.symm, ?_⟩
    have hf (s : Studio) : kept { s with audio := a } = { s.kept with audio := a } := rfl
    rw [e]
    refine ⟨⟨by rw [hf, hf, hb.part.kept]⟩, ?_⟩
    rw [unlogged_append, unlogged_append, hb.journal]

end Together

/-! ## Ticks -/

section Ticks

variable {h : Hooks}

theorem blind_moment (now : Option Float) : Blind (moment now) :=
  together_look fun s₁ s₂ same => by
    rw [same.clock]
    exact blind_pure _

variable (hears : ∀ l e, Blind (h.hear l e))
include hears

theorem blind_publish (e : Event) : Blind (publish h e) := by
  have record : Blind (record e) := together_look fun s₁ s₂ same => by
    rw [same.recorded]
    exact blind_forM (fun _ => blind_write _) _
  refine record.bind fun _ => together_look fun s₁ s₂ same => ?_
  rw [same.bus]
  exact blind_forM (fun l => (hears l e).rescue fun _ => blind_write _) _

theorem blind_stopPlayback : Blind (stopPlayback h) := by
  refine together_look fun s₁ s₂ same => ?_
  rw [same.transport]
  refine (blind_change fun _ => by rfl).bind fun _ => (blind_changeTransport _).bind fun _ =>
    (blind_sound _).bind fun _ => (blind_changeTransport _).bind fun _ => ?_
  split
  · exact (blind_write _).bind fun _ => blind_publish hears _
  · exact blind_pure _

omit hears in
theorem blind_strike (pitch : Int) : Blind (strike pitch) := by
  refine (blind_changeTransport _).bind fun _ => together_look fun s₁ s₂ same => ?_
  rw [same.transport]
  split
  · exact blind_pure _
  · exact (blind_orFail _).bind fun _ => blind_changeTransport _

theorem blind_trigger (t : Trigger) : Blind (trigger h t) := by
  cases t with
  | noteOn n =>
    refine together_look fun s₁ s₂ same => ?_
    rw [same.transport]
    exact (blind_sound _).bind fun _ => (blind_strike _).bind fun _ => blind_publish hears _
  | noteOff n => exact (blind_sound _).bind fun _ => blind_publish hears _
  | finish => exact (blind_write _).bind fun _ => blind_stopPlayback hears

variable (runs : ∀ name program, Blind (h.run name program))
include runs

theorem blind_fire (serial : Nat) : Blind (fire h serial) := by
  have task (t : Task) : Blind (runTask h serial t) := by
    cases t with
    | playback t => exact (blind_changeTransport _).bind fun _ => blind_trigger hears t
    | program name program => exact runs name program
  refine together_look fun s₁ s₂ same => ?_
  rw [same.timers]
  split
  · exact blind_pure _
  · split
    · exact blind_pure _
    · exact (blind_change fun _ => by rfl).bind fun _ => (task _).bind fun _ => blind_pure _

theorem blind_drain (now : Float) (n fired : Nat) : Blind (drain h now n fired) := by
  induction n generalizing fired with
  | zero => exact blind_unfinished
  | succ n ih =>
    refine together_look fun s₁ s₂ same => ?_
    rw [same.timers]
    split
    · exact blind_pure _
    · refine (blind_change fun _ => by rfl).bind fun _ => ?_
      exact (blind_fire hears runs _).bind fun _ => ih _

theorem blind_pump (now : Option Float) : Blind (pump h now) :=
  (blind_moment now).bind fun _ => blind_drain hears runs _ _ _

end Ticks

/-! ## Edits -/

/-- An act that comes to an end and leaves what it found, but for what edits change. -/
def Unseen {α : Type} (p : Act α) : Prop := ∀ b, ∃ r b', p.on b = some (r, b') ∧ Twins b b'

section Edits

variable {α β : Type}

theorem unseen_pure (a : α) : Unseen (pure a : Act α) := fun b => ⟨.ok a, b, rfl, .refl b⟩

theorem unseen_orFail (r : Except Fault α) : Unseen (orFail r : Act α) :=
  fun b => ⟨r, b, rfl, .refl b⟩

theorem unseen_look : Unseen (look : Act Studio) := fun b => ⟨.ok b.part, b, rfl, .refl b⟩

theorem unseen_log (l : Level) (text : String) : Unseen (log l text : Act Unit) :=
  fun b => ⟨.ok (), _, on_write _ b, .refl _, rfl⟩

theorem unseen_changeSession {f : Session → Session} (hf : ∀ s, (f s).kept = s.kept) :
    Unseen (changeSession f) := by
  refine fun b => ⟨.ok (), _, on_change _ b, ⟨?_⟩, rfl⟩
  change _ = { b.part with session := (f b.part.session).kept }
  rw [hf]
  rfl

theorem Unseen.bind {p : Act α} {f : α → Act β} (hp : Unseen p) (hf : ∀ a, Unseen (f a)) :
    Unseen (p >>= f) := by
  intro b
  obtain ⟨r, b₁, h₁, twins₁⟩ := hp b
  cases r with
  | ok a =>
    obtain ⟨r, b₂, h₂, twins₂⟩ := hf a b₁
    exact ⟨r, b₂, by rw [on_bind_ok h₁, h₂], twins₁.trans twins₂⟩
  | error e => exact ⟨_, b₁, on_bind_error h₁, twins₁⟩

theorem unseen_forM {f : α → Act Unit} (hf : ∀ a, Unseen (f a)) (xs : List α) :
    Unseen (xs.forM f) := by
  induction xs with
  | nil => exact unseen_pure ()
  | cons x xs ih =>
    rw [forM_cons]
    exact (hf x).bind fun _ => ih

theorem unseen_readScript (text : String) : Unseen (readScript text) := by
  refine (unseen_forM (fun _ => unseen_log _ _) _).bind fun _ => ?_
  split
  · exact unseen_pure _
  · exact (unseen_log _ _).bind fun _ => unseen_pure _

theorem unseen_readMelody (m : Melody) : Unseen (readMelody m) := by
  cases m with
  | notes ns => exact unseen_pure ns
  | script text => exact unseen_readScript text

theorem unseen_setNotes (notes : List Note) : Unseen (changeSession (·.setNotes notes)) :=
  unseen_changeSession fun _ => rfl

theorem unseen_setGhosts (notes : List Note) : Unseen (changeSession (·.setGhosts notes)) :=
  unseen_changeSession fun _ => rfl

theorem unseen_setScript (text : String) : Unseen (setScript text) :=
  (unseen_readScript text).bind fun _ => (unseen_setNotes _).bind fun _ => unseen_pure _

theorem unseen_loadSong (name : Option String) : Unseen (loadSong name) := by
  have notes : Unseen (songNotes name) := by
    cases name with
    | none => exact unseen_pure _
    | some name =>
      change Unseen (if name.isEmpty then _ else _)
      split
      · exact unseen_pure _
      · exact (unseen_orFail _).bind fun _ => unseen_readScript _
  exact (unseen_changeSession fun _ => by rfl).bind fun _ => notes.bind fun _ =>
    (unseen_setGhosts _).bind fun _ => unseen_log _ _

theorem unseen_setBpm (bpm : TempoText) : Unseen (setBpm bpm) :=
  (unseen_orFail _).bind fun _ => unseen_look.bind fun _ =>
    (unseen_changeSession fun _ => by rfl).bind fun _ => unseen_look.bind fun _ => unseen_pure _

end Edits

end Studio

end PianoRoll
