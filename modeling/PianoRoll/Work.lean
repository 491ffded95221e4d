import PianoRoll.Fault
import PianoRoll.Journal

/-!
Work on one part of the studio: it changes the part, writes to the journal, and may fail, keeping
what it changed and wrote before. Work that is cut short before it comes to an end has no outcome
at all, which is neither a success nor a fault.
-/

namespace PianoRoll

/-- A part with the journal beside it, latest entry first. -/
structure Bench (σ : Type) where
  part : σ
  journal : List Entry := []

abbrev Work (σ : Type) := ExceptT Fault (StateT (Bench σ) Option)

namespace Work

variable {σ τ α β : Type}

/-- The work done on a bench: its result and the bench after it, if it comes to an end. -/
def on (p : Work σ α) (b : Bench σ) : Option (Except Fault α × Bench σ) := p.run.run b

/-- The part as it is. -/
def look : Work σ σ := return (← get).part

/-- Changes the part. -/
def change (f : σ → σ) : Work σ Unit := modify fun b => { b with part := f b.part }

/-- Writes to the journal. -/
def write (e : Entry) : Work σ Unit := modify fun b => { b with journal := e :: b.journal }

def log (level : Level) (text : String) : Work σ Unit := write (.log ⟨level, text⟩)

/-- A result that may be a fault. -/
def orFail (r : Except Fault α) : Work σ α := ExceptT.mk (pure r)

/-- Work that does not come to an end. -/
def unfinished : Work σ α := ExceptT.mk fun _ => none

/-- Work on a part of a part. -/
def within (get : τ → σ) (set : σ → τ → τ) (p : Work σ α) : Work τ α := ExceptT.mk fun b =>
  (p.on ⟨get b.part, b.journal⟩).map fun (r, b') => (r, ⟨set b'.part b.part, b'.journal⟩)

/-- Does `after` whether or not `p` fails, and passes its fault on. -/
def ensuring (p : Work σ α) (after : Work σ Unit) : Work σ α := do
  let r ← tryCatch (.ok <$> p) (pure ∘ .error)
  after
  orFail r

theorem on_pure (a : α) (b : Bench σ) : (pure a : Work σ α).on b = some (.ok a, b) := rfl

/-- The second of two pieces of work begins where the first one ended, unless that failed. -/
theorem on_bind (p : Work σ α) (f : α → Work σ β) (b : Bench σ) :
    (p >>= f).on b = (p.on b).bind fun (r, b') => match r with
      | .ok a => (f a).on b'
      | .error e => some (.error e, b') := by
  show (ExceptT.bind p f).run.run b = _
  simp only [ExceptT.bind, ExceptT.run_mk, StateT.run_bind]
  show Option.bind (p.on b) _ = _
  congr 1
  funext ⟨r, b'⟩
  cases r <;> rfl

theorem on_look (b : Bench σ) : (look : Work σ σ).on b = some (.ok b.part, b) := rfl

theorem on_change (f : σ → σ) (b : Bench σ) :
    (change f).on b = some (.ok (), { b with part := f b.part }) := rfl

theorem on_write (e : Entry) (b : Bench σ) :
    (write e).on b = some (.ok (), { b with journal := e :: b.journal }) := rfl

theorem on_orFail (r : Except Fault α) (b : Bench σ) : (orFail r).on b = some (r, b) := rfl

/-- A fault that is caught leaves what was changed and written before it. -/
theorem on_tryCatch (p : Work σ α) (f : Fault → Work σ α) (b : Bench σ) :
    (tryCatch p f).on b = (p.on b).bind fun (r, b') => match r with
      | .ok a => some (.ok a, b')
      | .error e => (f e).on b' := by
  show (ExceptT.tryCatch p f).run.run b = _
  simp only [ExceptT.tryCatch, ExceptT.run_mk, StateT.run_bind]
  show Option.bind (p.on b) _ = _
  congr 1
  funext ⟨r, b'⟩
  cases r <;> rfl

theorem on_within (get : τ → σ) (set : σ → τ → τ) (p : Work σ α) (b : Bench τ) :
    (within get set p).on b = (p.on ⟨get b.part, b.journal⟩).map fun (r, b') =>
      (r, ⟨set b'.part b.part, b'.journal⟩) := rfl

end Work

end PianoRoll
