import PianoRoll.Work

/-!
Reasoning about work. A run of two pieces of work in a row is taken apart into the runs of both
(`on_bind_inv`); `Writes` bounds what work puts into the journal, `Leads` relates what is on the
bench after it to what was there before, `Succeeds` says that it comes to an end without a fault,
`Attains` what holds then, and `Ends` that it comes to an end at all. All pass from the pieces to
the whole.
-/

namespace PianoRoll

/-- What succeeds in two steps succeeds in the first one. -/
theorem ok_of_bind {ε α β : Type} {x : Except ε α} {f : α → Except ε β} {b : β}
    (h : x >>= f = .ok b) : ∃ a, x = .ok a ∧ f a = .ok b := by
  cases x with
  | error e => cases h
  | ok a => exact ⟨a, rfl, h⟩

namespace Work

variable {σ α β : Type}

theorem on_bind_ok {p : Work σ α} {f : α → Work σ β} {b b' : Bench σ} {a : α}
    (h : p.on b = some (.ok a, b')) : (p >>= f).on b = (f a).on b' := by
  rw [on_bind, h]
  rfl

theorem on_bind_error {p : Work σ α} {f : α → Work σ β} {b b' : Bench σ} {e : Fault}
    (h : p.on b = some (.error e, b')) : (p >>= f).on b = some (.error e, b') := by
  rw [on_bind, h]
  rfl

/-- Two pieces of work in a row end with the second one, or with a fault of the first one. -/
theorem on_bind_inv {p : Work σ α} {f : α → Work σ β} {b b' : Bench σ} {r : Except Fault β}
    (h : (p >>= f).on b = some (r, b')) :
    (∃ a b₁, p.on b = some (.ok a, b₁) ∧ (f a).on b₁ = some (r, b')) ∨
      ∃ e, p.on b = some (.error e, b') ∧ r = .error e := by
  rw [on_bind] at h
  cases hp : p.on b with
  | none => rw [hp] at h; cases h
  | some q =>
    obtain ⟨r₁, b₁⟩ := q
    rw [hp] at h
    cases r₁ with
    | ok a => exact Or.inl ⟨a, b₁, rfl, h⟩
    | error e => cases h; exact Or.inr ⟨e, rfl, rfl⟩

/-- A result that may be a fault either goes on as a result or is the fault. -/
theorem on_orFail_bind_inv {r₀ : Except Fault α} {f : α → Work σ β} {b b' : Bench σ}
    {r : Except Fault β} (h : (orFail r₀ >>= f).on b = some (r, b')) :
    (∃ a, r₀ = .ok a ∧ (f a).on b = some (r, b')) ∨
      ∃ e, r₀ = .error e ∧ r = .error e ∧ b' = b := by
  cases r₀ with
  | ok a => exact .inl ⟨a, rfl, h⟩
  | error e =>
    rw [on_bind_error (on_orFail _ b)] at h
    cases h
    exact .inr ⟨e, rfl, rfl, rfl⟩

/-- What an answer is given to has been done already. -/
theorem on_bind_pure_inv {p : Work σ α} {f : α → β} {b b' : Bench σ} {r : Except Fault β}
    (h : (p >>= fun a => pure (f a)).on b = some (r, b')) : ∃ r₁, p.on b = some (r₁, b') := by
  rcases on_bind_inv h with ⟨a, b₁, h₁, h₂⟩ | ⟨e, h₁, -⟩
  · cases h₂
    exact ⟨.ok a, h₁⟩
  · exact ⟨.error e, h₁⟩

/-- Work with a rescue ends well by itself, or with the rescue from its fault. -/
theorem on_tryCatch_inv {p : Work σ α} {f : Fault → Work σ α} {b b' : Bench σ}
    {r : Except Fault α} (h : (tryCatch p f).on b = some (r, b')) :
    (∃ a, p.on b = some (.ok a, b') ∧ r = .ok a) ∨
      ∃ e b₁, p.on b = some (.error e, b₁) ∧ (f e).on b₁ = some (r, b') := by
  rw [on_tryCatch] at h
  cases hp : p.on b with
  | none => rw [hp] at h; cases h
  | some q =>
    obtain ⟨r₁, b₁⟩ := q
    rw [hp] at h
    cases r₁ with
    | ok a => cases h; exact Or.inl ⟨a, rfl, rfl⟩
    | error e => exact Or.inr ⟨e, b₁, rfl, h⟩

/-- What has to be done anyway is done behind the work, before its result is passed on. -/
theorem on_ensuring (p : Work σ α) (after : Work σ Unit) (b : Bench σ) :
    (ensuring p after).on b =
      (p.on b).bind fun (r, b') => (after >>= fun _ => orFail r).on b' := by
  have hmap : (Except.ok <$> p : Work σ (Except Fault α)) = p >>= fun a => pure (.ok a) :=
    map_eq_pure_bind _ _
  rw [ensuring, on_bind, on_tryCatch, hmap, on_bind]
  cases p.on b with
  | none => rfl
  | some q =>
    obtain ⟨r, b'⟩ := q
    cases r <;> rfl

theorem forM_cons (f : α → Work σ Unit) (x : α) (xs : List α) :
    (x :: xs).forM f = f x >>= fun _ => xs.forM f := rfl

/-! ## What work writes -/

/-- Everything that the work puts into the journal is of one kind, and what stood there before makes
no difference. -/
def Writes (K : Entry → Prop) (p : Work σ α) : Prop :=
  ∀ ⦃b r b'⦄, p.on b = some (r, b') → ∃ es, b'.journal = es ++ b.journal ∧ (∀ e ∈ es, K e) ∧
    ∀ j, p.on ⟨b.part, j⟩ = some (r, ⟨b'.part, es ++ j⟩)

variable {K : Entry → Prop}

theorem writes_silent {p : Work σ α} (h : ∀ s, ∃ r s', ∀ j, p.on ⟨s, j⟩ = some (r, ⟨s', j⟩)) :
    Writes K p := by
  intro b r b' hp
  obtain ⟨r₁, s₁, h₁⟩ := h b.part
  rw [show b = ⟨b.part, b.journal⟩ from rfl, h₁] at hp
  cases hp
  exact ⟨[], rfl, fun _ he => absurd he List.not_mem_nil, h₁⟩

theorem writes_pure (a : α) : Writes K (pure a : Work σ α) :=
  writes_silent fun s => ⟨.ok a, s, fun _ => rfl⟩

theorem writes_look : Writes K (look : Work σ σ) :=
  writes_silent fun s => ⟨.ok s, s, fun _ => rfl⟩

theorem writes_change (f : σ → σ) : Writes K (change f) :=
  writes_silent fun s => ⟨.ok (), f s, fun _ => rfl⟩

theorem writes_orFail (r : Except Fault α) : Writes K (orFail r : Work σ α) :=
  writes_silent fun s => ⟨r, s, fun _ => rfl⟩

theorem writes_write (e : Entry) (he : K e) : Writes K (write e : Work σ Unit) := by
  intro b r b' h
  cases h
  exact ⟨[e], rfl, fun _ hm => (List.mem_singleton.1 hm) ▸ he, fun _ => rfl⟩

theorem Writes.bind {p : Work σ α} {f : α → Work σ β} (hp : Writes K p)
    (hf : ∀ a, Writes K (f a)) : Writes K (p >>= f) := by
  intro b r b' h
  rcases on_bind_inv h with ⟨a, b₁, h₁, h₂⟩ | ⟨e, h₁, rfl⟩
  · obtain ⟨es₁, e₁, k₁, any₁⟩ := hp h₁
    obtain ⟨es₂, e₂, k₂, any₂⟩ := hf a h₂
    refine ⟨es₂ ++ es₁, by rw [e₂, e₁, List.append_assoc], fun e he => ?_, fun j => ?_⟩
    · rcases List.mem_append.1 he with h | h
      · exact k₂ e h
      · exact k₁ e h
    · rw [on_bind_ok (any₁ j), any₂, List.append_assoc]
  · obtain ⟨es, e₁, k, any⟩ := hp h₁
    exact ⟨es, e₁, k, fun j => on_bind_error (any j)⟩

theorem Writes.rescue {p : Work σ α} {f : Fault → Work σ α} (hp : Writes K p)
    (hf : ∀ e, Writes K (f e)) : Writes K (tryCatch p f) := by
  intro b r b' h
  rcases on_tryCatch_inv h with ⟨a, h₁, rfl⟩ | ⟨e, b₁, h₁, h₂⟩
  · obtain ⟨es, e₁, k, any⟩ := hp h₁
    refine ⟨es, e₁, k, fun j => ?_⟩
    rw [on_tryCatch, any]
    rfl
  · obtain ⟨es₁, e₁, k₁, any₁⟩ := hp h₁
    obtain ⟨es₂, e₂, k₂, any₂⟩ := hf e h₂
    refine ⟨es₂ ++ es₁, by rw [e₂, e₁, List.append_assoc], fun x hx => ?_, fun j => ?_⟩
    · exact (List.mem_append.1 hx).elim (k₂ x) (k₁ x)
    · rw [on_tryCatch, any₁, List.append_assoc]
      exact any₂ _

theorem writes_forM {f : α → Work σ Unit} (hf : ∀ a, Writes K (f a)) (xs : List α) :
    Writes K (xs.forM f) := by
  induction xs with
  | nil => exact writes_pure ()
  | cons x xs ih =>
    rw [forM_cons]
    exact (hf x).bind fun _ => ih

theorem writes_ite {c : Prop} [Decidable c] {p q : Work σ α} (hp : Writes K p)
    (hq : Writes K q) : Writes K (if c then p else q) := by
  split
  · exact hp
  · exact hq

theorem Writes.within {τ : Type} {p : Work σ α} (hp : Writes K p) (get : τ → σ)
    (set : σ → τ → τ) : Writes K (within get set p) := by
  intro b r b' h
  rw [on_within] at h
  obtain ⟨⟨r₁, b₁⟩, h₁, h₂⟩ := Option.map_eq_some_iff.1 h
  obtain ⟨es, e, kind, any⟩ := hp h₁
  cases h₂
  refine ⟨es, e, kind, fun j => ?_⟩
  rw [on_within, any]
  rfl

/-! ## What work leads to -/

/-- Whatever the work comes to, a relation holds between the part before it and the part after. -/
def Leads (R : σ → σ → Prop) (p : Work σ α) : Prop :=
  ∀ ⦃b r b'⦄, p.on b = some (r, b') → R b.part b'.part

/-- A relation that can be followed from part to part. -/
structure Chains (R : σ → σ → Prop) : Prop where
  refl (s : σ) : R s s
  trans {s s' s'' : σ} : R s s' → R s' s'' → R s s''

section Leading

variable {R : σ → σ → Prop}

theorem leads_change (f : σ → σ) (h : ∀ s, R s (f s)) : Leads R (change f) := by
  intro b r b' hp
  cases hp
  exact h b.part

theorem leads_giveUp : Leads R (unfinished : Work σ α) := fun _ _ _ h => by cases h

theorem Leads.mono {R' : σ → σ → Prop} {p : Work σ α} (hp : Leads R p)
    (h : ∀ s s', R s s' → R' s s') : Leads R' p := fun _ _ _ hon => h _ _ (hp hon)

namespace Chains

variable (hR : Chains R)
include hR

theorem pure (a : α) : Leads R (pure a : Work σ α) := fun b _ _ h => by
  cases h
  exact hR.refl b.part

theorem look : Leads R (look : Work σ σ) := fun b _ _ h => by
  cases h
  exact hR.refl b.part

theorem write (e : Entry) : Leads R (write e : Work σ Unit) := fun b _ _ h => by
  cases h
  exact hR.refl b.part

theorem orFail (r : Except Fault α) : Leads R (orFail r : Work σ α) := fun b _ _ h => by
  cases h
  exact hR.refl b.part

theorem bind {p : Work σ α} {f : α → Work σ β} (hp : Leads R p) (hf : ∀ a, Leads R (f a)) :
    Leads R (p >>= f) := by
  intro b r b' h
  rcases on_bind_inv h with ⟨a, b₁, h₁, h₂⟩ | ⟨e, h₁, -⟩
  · exact hR.trans (hp h₁) (hf a h₂)
  · exact hp h₁

theorem rescue {p : Work σ α} {f : Fault → Work σ α} (hp : Leads R p)
    (hf : ∀ e, Leads R (f e)) : Leads R (tryCatch p f) := by
  intro b r b' h
  rcases on_tryCatch_inv h with ⟨a, h₁, -⟩ | ⟨e, b₁, h₁, h₂⟩
  · exact hp h₁
  · exact hR.trans (hp h₁) (hf e h₂)

theorem forM {f : α → Work σ Unit} (hf : ∀ a, Leads R (f a)) (xs : List α) :
    Leads R (xs.forM f) := by
  induction xs with
  | nil => exact hR.pure ()
  | cons x xs ih =>
    rw [forM_cons]
    exact hR.bind (hf x) fun _ => ih

end Chains

theorem leads_ite {c : Prop} [Decidable c] {p q : Work σ α} (hp : Leads R p) (hq : Leads R q) :
    Leads R (if c then p else q) := by
  split
  · exact hp
  · exact hq

/-- What is looked at is what an invariant holds of. -/
theorem leads_look_bind {I : σ → Prop} {f : σ → Work σ α}
    (hf : ∀ s, I s → Leads (fun s s' => I s → I s') (f s)) :
    Leads (fun s s' => I s → I s') (look >>= f) := by
  intro b r b' hon hb
  rw [on_bind_ok (on_look b)] at hon
  exact hf b.part hb hon hb

end Leading

/-! ## What work alters -/

/-- Whatever the work comes to, a relation holds between the part before it and the part after, and
all that it writes is of one kind. -/
def Alters (R : σ → σ → Prop) (K : Entry → Prop) (p : Work σ α) : Prop :=
  ∀ ⦃b r b'⦄, p.on b = some (r, b') →
    R b.part b'.part ∧ ∃ es, b'.journal = es ++ b.journal ∧ ∀ e ∈ es, K e

section Altering

variable {R : σ → σ → Prop}

theorem Alters.leads {p : Work σ α} (hp : Alters R K p) : Leads R p := fun _ _ _ h => (hp h).1

theorem alters_change (f : σ → σ) (h : ∀ s, R s (f s)) : Alters R K (change f) := by
  intro b r b' hp
  cases hp
  exact ⟨h b.part, [], rfl, by simp⟩

variable (hR : Chains R)
include hR

/-- What leaves the bench as it is alters nothing. -/
theorem alters_of_eq {p : Work σ α} (h : ∀ ⦃b r b'⦄, p.on b = some (r, b') → b' = b) :
    Alters R K p := by
  intro b r b' hp
  obtain rfl := h hp
  exact ⟨hR.refl _, [], rfl, by simp⟩

theorem alters_pure (a : α) : Alters R K (pure a : Work σ α) :=
  alters_of_eq hR fun _ _ _ h => by cases h; rfl

theorem alters_write (e : Entry) (he : K e) : Alters R K (write e : Work σ Unit) := by
  intro b r b' hp
  cases hp
  exact ⟨hR.refl _, [e], rfl, by simpa using he⟩

theorem Alters.bind {p : Work σ α} {f : α → Work σ β} (hp : Alters R K p)
    (hf : ∀ a, Alters R K (f a)) : Alters R K (p >>= f) := by
  intro b r b' h
  rcases on_bind_inv h with ⟨a, b₁, h₁, h₂⟩ | ⟨e, h₁, -⟩
  · obtain ⟨first, es, he, kind⟩ := hp h₁
    obtain ⟨rest, es', he', kind'⟩ := hf a h₂
    refine ⟨hR.trans first rest, es' ++ es, by rw [he', he, List.append_assoc], fun x hx => ?_⟩
    exact (List.mem_append.1 hx).elim (kind' x) (kind x)
  · exact hp h₁

theorem Alters.rescue {p : Work σ α} {f : Fault → Work σ α} (hp : Alters R K p)
    (hf : ∀ e, Alters R K (f e)) : Alters R K (tryCatch p f) := by
  intro b r b' h
  rcases on_tryCatch_inv h with ⟨a, h₁, -⟩ | ⟨e, b₁, h₁, h₂⟩
  · exact hp h₁
  · obtain ⟨first, es, he, kind⟩ := hp h₁
    obtain ⟨rest, es', he', kind'⟩ := hf e h₂
    refine ⟨hR.trans first rest, es' ++ es, by rw [he', he, List.append_assoc], fun x hx => ?_⟩
    exact (List.mem_append.1 hx).elim (kind' x) (kind x)

end Altering

/-! ## Work that ends well -/

/-- Work that comes to an end on every bench, without a fault. -/
def Succeeds (p : Work σ α) : Prop := ∀ b, ∃ a b', p.on b = some (.ok a, b')

theorem succeeds_pure (a : α) : Succeeds (pure a : Work σ α) := fun b => ⟨a, b, rfl⟩

theorem succeeds_look : Succeeds (look : Work σ σ) := fun b => ⟨b.part, b, rfl⟩

theorem succeeds_change (f : σ → σ) : Succeeds (change f) := fun _ => ⟨(), _, rfl⟩

theorem succeeds_write (e : Entry) : Succeeds (write e : Work σ Unit) := fun _ => ⟨(), _, rfl⟩

theorem succeeds_orFail (a : α) : Succeeds (orFail (.ok a) : Work σ α) := fun b => ⟨a, b, rfl⟩

theorem Succeeds.bind {p : Work σ α} {f : α → Work σ β} (hp : Succeeds p)
    (hf : ∀ a, Succeeds (f a)) : Succeeds (p >>= f) := by
  intro b
  obtain ⟨a, b₁, h₁⟩ := hp b
  obtain ⟨c, b₂, h₂⟩ := hf a b₁
  exact ⟨c, b₂, by rw [on_bind_ok h₁, h₂]⟩

theorem succeeds_forM {f : α → Work σ Unit} (hf : ∀ a, Succeeds (f a)) (xs : List α) :
    Succeeds (xs.forM f) := by
  induction xs with
  | nil => exact succeeds_pure ()
  | cons x xs ih =>
    rw [forM_cons]
    exact (hf x).bind fun _ => ih

theorem succeeds_ite {c : Prop} [Decidable c] {p q : Work σ α} (hp : Succeeds p)
    (hq : Succeeds q) : Succeeds (if c then p else q) := by
  split
  · exact hp
  · exact hq

/-! ## Work that ends -/

/-- Work that comes to an end on every bench, well or with a fault. -/
def Ends (p : Work σ α) : Prop := ∀ b, ∃ r b', p.on b = some (r, b')

theorem Succeeds.ends {p : Work σ α} (hp : Succeeds p) : Ends p := by
  intro b
  obtain ⟨a, b', h⟩ := hp b
  exact ⟨.ok a, b', h⟩

theorem ends_orFail (r : Except Fault α) : Ends (orFail r : Work σ α) := fun b => ⟨r, b, rfl⟩

theorem Ends.bind {p : Work σ α} {f : α → Work σ β} (hp : Ends p) (hf : ∀ a, Ends (f a)) :
    Ends (p >>= f) := by
  intro b
  obtain ⟨r, b₁, h₁⟩ := hp b
  cases r with
  | error e => exact ⟨.error e, b₁, on_bind_error h₁⟩
  | ok a =>
    obtain ⟨r₂, b₂, h₂⟩ := hf a b₁
    exact ⟨r₂, b₂, by rw [on_bind_ok h₁, h₂]⟩

theorem Ends.rescue {p : Work σ α} {f : Fault → Work σ α} (hp : Ends p) (hf : ∀ e, Ends (f e)) :
    Ends (tryCatch p f) := by
  intro b
  obtain ⟨r, b₁, h₁⟩ := hp b
  rw [on_tryCatch, h₁]
  cases r with
  | error e => exact hf e b₁
  | ok a => exact ⟨.ok a, b₁, rfl⟩

theorem ends_ite {c : Prop} [Decidable c] {p q : Work σ α} (hp : Ends p) (hq : Ends q) :
    Ends (if c then p else q) := by
  split
  · exact hp
  · exact hq

/-! ## What work attains -/

/-- From any bench of which `I` holds the work ends well, on one of which `J` holds with its
result. -/
def Attains (I : Bench σ → Prop) (p : Work σ α) (J : α → Bench σ → Prop) : Prop :=
  ∀ b, I b → ∃ a b', p.on b = some (.ok a, b') ∧ J a b'

variable {I : Bench σ → Prop} {J : α → Bench σ → Prop} {L : β → Bench σ → Prop}

theorem attains_pure (a : α) (h : ∀ b, I b → J a b) : Attains I (pure a) J :=
  fun b hb => ⟨a, b, rfl, h b hb⟩

theorem attains_look {J : σ → Bench σ → Prop} (h : ∀ b, I b → J b.part b) : Attains I look J :=
  fun b hb => ⟨b.part, b, rfl, h b hb⟩

theorem attains_change (f : σ → σ) {J : Unit → Bench σ → Prop}
    (h : ∀ b, I b → J () { b with part := f b.part }) : Attains I (change f) J :=
  fun b hb => ⟨(), _, rfl, h b hb⟩

theorem attains_write (e : Entry) {J : Unit → Bench σ → Prop}
    (h : ∀ b, I b → J () { b with journal := e :: b.journal }) : Attains I (write e) J :=
  fun b hb => ⟨(), _, rfl, h b hb⟩

theorem attains_orFail (a : α) (h : ∀ b, I b → J a b) : Attains I (orFail (.ok a)) J :=
  fun b hb => ⟨a, b, rfl, h b hb⟩

theorem Attains.bind {p : Work σ α} {f : α → Work σ β} (hp : Attains I p J)
    (hf : ∀ a, Attains (J a) (f a) L) : Attains I (p >>= f) L := by
  intro b hb
  obtain ⟨a, b₁, h₁, hb₁⟩ := hp b hb
  obtain ⟨c, b₂, h₂, hb₂⟩ := hf a b₁ hb₁
  exact ⟨c, b₂, by rw [on_bind_ok h₁, h₂], hb₂⟩

theorem Attains.pre {I' : Bench σ → Prop} {p : Work σ α} (hp : Attains I p J)
    (h : ∀ b, I' b → I b) : Attains I' p J := fun b hb => hp b (h b hb)

theorem Attains.post {J' : α → Bench σ → Prop} {p : Work σ α} (hp : Attains I p J)
    (h : ∀ a b, J a b → J' a b) : Attains I p J' := by
  intro b hb
  obtain ⟨a, b', h₁, hb'⟩ := hp b hb
  exact ⟨a, b', h₁, h a b' hb'⟩

/-- What is looked at is the part on the bench. -/
theorem attains_look_bind {f : σ → Work σ β}
    (hf : ∀ s, Attains (fun b => s = b.part ∧ I b) (f s) L) : Attains I (look >>= f) L :=
  (attains_look fun _ hb => ⟨rfl, hb⟩).bind hf

theorem attains_ite {c : Prop} [Decidable c] {p q : Work σ α}
    (hp : c → Attains I p J) (hq : ¬c → Attains I q J) : Attains I (if c then p else q) J := by
  split
  · next h => exact hp h
  · next h => exact hq h

/-- Work on one element after the other, where `I` says what holds while some are left. -/
theorem attains_forM {I : List α → Bench σ → Prop} {f : α → Work σ Unit}
    (hf : ∀ x xs, Attains (I (x :: xs)) (f x) fun _ => I xs) (xs : List α) :
    Attains (I xs) (xs.forM f) fun _ => I [] := by
  induction xs with
  | nil => exact attains_pure () fun _ hb => hb
  | cons x xs ih =>
    rw [forM_cons]
    exact (hf x xs).bind fun _ => ih

end Work

end PianoRoll
