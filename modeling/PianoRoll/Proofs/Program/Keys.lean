import PianoRoll.Proofs.Editor.Typing
import PianoRoll.Proofs.Program.Acts

/-!
No key sticks. While the left mouse button is up, every held pitch belongs to a key that was
pressed last, and no pitch is held at all while the editor has the focus (`Accounts`): the editor
takes the keys then, but only a click gives it the focus, and letting go of the mouse button
releases everything. So nothing is held once all keys and the button were let go.
-/

namespace PianoRoll

def Input.about (k : Key) : Input → Bool
  | .key k' | .keyUp k' => k' == k
  | _ => false

def Input.leftButton : Input → Bool
  | .down _ _ 1 | .up _ _ 1 => true
  | _ => false

theorem PitchSet.eq_empty {s : PitchSet} (h : ∀ p, p ∉ s) : s = .empty := by
  obtain ⟨ps, ascending⟩ := s
  obtain rfl : ps = [] := List.eq_nil_iff_forall_not_mem.2 h
  rfl

namespace Studio

open Work

/-! ## Releasing always succeeds -/

theorem succeeds_react (r : Reaction) (e : Event) : Succeeds (react r e) := by
  unfold react
  split
  · exact succeeds_change _
  · exact succeeds_change _
  · exact succeeds_change _
  · exact succeeds_change _
  · exact fun b => have ⟨b', h, _⟩ := recompile_on _ b; ⟨(), b', h⟩
  · exact succeeds_pure _

theorem succeeds_hear (s : Studio) (l : Listener) (e : Event) :
    Succeeds ((deskHooks s).hear l e) := by
  cases l with
  | scripted name => exact succeeds_pure _
  | desk r => exact succeeds_react r e

theorem succeeds_publish (s : Studio) (e : Event) : Succeeds (publish (deskHooks s) e) :=
  succeeds_publish_of_ends fun l => (succeeds_hear s l e).ends

theorem succeeds_release (s : Studio) (p : Int) : Succeeds (release (deskHooks s) p) := by
  have sounds : Succeeds (sound (.off (.whole p))) := succeeds_sound (Synth.succeeds_stopNote p)
  refine succeeds_look.bind fun _ => succeeds_ite ?_ (succeeds_pure _)
  exact (succeeds_change _).bind fun _ => sounds.bind fun _ => succeeds_publish s _

/-! ## What pressing and releasing do to the held keys -/

/-- The same keys are held, and the editor has the focus or not as before. -/
structure SameKeys (s s' : Studio) : Prop where
  held : s'.held = s.held
  focused : s'.desk.editor.focused = s.desk.editor.focused

theorem respectsApart_sameKeys : RespectsApart SameKeys where
  apart h := ⟨h.held, h.focused⟩
  trans h h' := ⟨h'.held.trans h.held, h'.focused.trans h.focused⟩

/-- Only pitches are held that may be, and the editor has the focus or not as before. -/
structure Holds (may : Int → Prop) (s s' : Studio) : Prop where
  held : ∀ p ∈ s'.held, may p
  focused : s'.desk.editor.focused = s.desk.editor.focused

/-- What is done to the held keys alone, whatever is told of it afterwards. -/
theorem SameKeys.after {may : Int → Prop} {s s' s'' : Studio} (same : SameKeys s' s'')
    (h : Holds may s s') : Holds may s s'' :=
  ⟨fun p hp => h.held p (same.held ▸ hp), same.focused.trans h.focused⟩

theorem press_holds (s : Studio) {p : Int} {velocity : Option Float} {b b' : Bench Studio}
    {r : Except Fault Unit} (h : (press (deskHooks s) p velocity).on b = some (r, b')) :
    Holds (fun q => q = p ∨ q ∈ b.part.held) b.part b'.part := by
  have hP := respectsApart_sameKeys.allowsApart
  rw [press, on_bind_ok (on_look b)] at h
  split at h
  · cases h
    exact ⟨fun q hq => .inr hq, rfl⟩
  · rw [on_bind_ok (on_change _ b)] at h
    have told := hP.bind (hP.sound _)
      (fun _ => (hP.performs s).publish (.noteOn p .live none) nofun) h
    exact told.after ⟨fun q hq => PitchSet.mem_insert.1 hq, rfl⟩

theorem release_holds (s : Studio) {p : Int} {b b' : Bench Studio} {r : Except Fault Unit}
    (h : (release (deskHooks s) p).on b = some (r, b')) :
    Holds (fun q => q ∈ b.part.held ∧ q ≠ p) b.part b'.part := by
  have hP := respectsApart_sameKeys.allowsApart
  rw [release, on_bind_ok (on_look b)] at h
  split at h
  · rw [on_bind_ok (on_change _ b)] at h
    have told := hP.bind (hP.sound _)
      (fun _ => (hP.performs s).publish (.noteOff p .live) nofun) h
    exact told.after ⟨fun q hq => PitchSet.mem_erase.1 hq, rfl⟩
  · next absent =>
    cases h
    exact ⟨fun q hq => ⟨hq, fun e => absent (e ▸ hq)⟩, rfl⟩

/-- Releasing everything leaves nothing held, for no release can fail. -/
theorem releaseAll_holds (s : Studio) (b : Bench Studio) :
    ∃ b', (releaseAll (deskHooks s)).on b = some (.ok (), b') ∧
      Holds (fun _ => False) b.part b'.part := by
  rw [releaseAll, on_bind_ok (on_look b)]
  obtain ⟨_, b', h, hb'⟩ := attains_forM (f := release (deskHooks s))
    (I := fun ps b' => Holds (· ∈ ps) b.part b'.part)
    (fun p ps b₁ h₁ => by
      obtain ⟨a, b₂, h₂⟩ := succeeds_release s p b₁
      have released := release_holds s h₂
      refine ⟨a, b₂, h₂, fun q hq => ?_, released.focused.trans h₁.focused⟩
      obtain ⟨here, ne⟩ := released.held q hq
      exact (List.mem_cons.1 (h₁.held q here)).resolve_left ne)
    b.part.held.toList b ⟨fun q hq => hq, rfl⟩
  exact ⟨b', h, fun q hq => List.not_mem_nil (hb'.held q hq), hb'.focused⟩

/-- No other pitches are held than before, and the editor has the focus or not as before. -/
def Fewer (s s' : Studio) : Prop := Holds (· ∈ s.held) s s'

theorem respectsApart_fewer : RespectsApart Fewer where
  apart h := ⟨fun _ hp => h.held ▸ hp, h.focused⟩
  trans h h' := ⟨fun p hp => h.held p (h'.held p hp), h'.focused.trans h.focused⟩

end Studio

namespace Program

open Work Studio

/-! ## Inputs -/

variable {b b' : Bench Studio} {i : Input} {k : Key}

/-- An editor that is offered an input changes no held key. -/
theorem Updated.held {editor : Editor} {changed : Bool} (h : Updated editor changed b b') :
    b'.part.held = b.part.held := by
  rw [h.part, edited]
  dsimp only
  split
  · rw [recompiled_held]
  · rfl

theorem Updated.focused {editor : Editor} {changed : Bool} (h : Updated editor changed b b') :
    b'.part.desk.editor.focused = editor.focused := by
  obtain ⟨error, editor⟩ := h.editor
  rw [editor]

/-- An input goes to the editor first, and then is played unless the editor took it. -/
theorem handle_inv {r : Except Fault Bool} (hq : i ≠ .quit)
    (h : (handle i).on b = some (r, b')) :
    ∃ b₁, b₁.part.held = b.part.held ∧
      b₁.part.desk.editor.focused = (b.part.desk.editor.handle i).editor.focused ∧
      if (b.part.desk.editor.handle i).consumed then b' = b₁
      else (play i).on b₁ = some (r, b') := by
  obtain ⟨b₁, h₁, updated⟩ := offer_on i b
  refine ⟨b₁, updated.held, updated.focused, ?_⟩
  rw [handle, if_neg hq, on_bind_ok h₁] at h
  split at h
  · next consumed =>
    cases h
    rw [if_pos consumed]
  · next passed => rwa [if_neg passed]

/-- Inputs that tell neither of a key nor of the left mouse button do nothing to the keys. -/
theorem handle_same (hb : i.leftButton = false) (hk : ∀ k, i.about k = false) :
    Leads SameKeys (handle i) := by
  have hP := respectsApart_sameKeys.allowsApart
  have plays : Leads SameKeys (play i) := by
    refine hP.bind hP.look fun b => ?_
    split
    · simpa [Input.about] using hk .space
    · next k _ => simpa [Input.about] using hk k
    · next k => simpa [Input.about] using hk k
    · cases hb
    · cases hb
    · exact hP.pure _
  have offers : Leads SameKeys (offer i) := by
    intro b r b' h
    obtain ⟨b₁, h₁, updated⟩ := offer_on i b
    rw [h₁] at h
    cases h
    refine ⟨updated.held, updated.focused.trans ?_⟩
    unfold Editor.handle
    split
    · cases hb
    · split <;> rfl
    · next k => simpa [Input.about] using hk k
    · rfl
    · rfl
  exact hP.ite (hP.pure _) (hP.bind offers fun _ => hP.ite (hP.pure _) plays)

/-- Pressing a key holds the pitch it plays, if it plays one. -/
theorem play_key_holds {r : Except Fault Bool} (h : (play (.key k)).on b = some (r, b')) :
    Holds (fun p => p ∈ b.part.held ∨ Keymap.default.get? k = some p) b.part b'.part := by
  have hP := respectsApart_sameKeys.allowsApart
  by_cases space : k = .space
  · subst space
    have same : SameKeys b.part b'.part :=
      hP.bind hP.look
        (fun _ => hP.bind (hP.allowsNeutral.playOrStop hP.serves) fun _ => hP.pure true) h
    exact same.after ⟨fun _ hp => .inl hp, rfl⟩
  · rw [play, on_bind_ok (on_look b)] at h
    dsimp only at h
    cases plays : Keymap.default.get? k with
    | none =>
      simp only [plays] at h
      cases h
      exact ⟨fun _ hp => .inl hp, rfl⟩
    | some p =>
      simp only [plays] at h
      obtain ⟨r₁, h₁⟩ := on_bind_pure_inv h
      have pressed := press_holds b.part h₁
      exact ⟨fun q hq => (pressed.held q hq).symm.imp_right fun e => congrArg some e.symm,
        pressed.focused⟩

/-- Letting go of a key releases the pitch it plays, if it plays one. -/
theorem play_keyUp_holds {r : Except Fault Bool} (h : (play (.keyUp k)).on b = some (r, b')) :
    Holds (fun p => p ∈ b.part.held ∧ Keymap.default.get? k ≠ some p) b.part b'.part := by
  rw [play, on_bind_ok (on_look b)] at h
  dsimp only at h
  cases plays : Keymap.default.get? k with
  | none =>
    simp only [plays] at h
    cases h
    exact ⟨fun p hp => ⟨hp, (Option.some_ne_none p).symm⟩, rfl⟩
  | some p =>
    simp only [plays] at h
    obtain ⟨r₁, h₁⟩ := on_bind_pure_inv h
    have released := release_holds b.part h₁
    refine ⟨fun q hq => ?_, released.focused⟩
    obtain ⟨here, ne⟩ := released.held q hq
    exact ⟨here, fun e => ne (Option.some.inj e).symm⟩

/-! ## Keys that are down -/

/-- The left mouse button was not pressed last. The latest input comes first. -/
def ButtonUp (past : List Input) : Prop :=
  ∀ x y, past.find? Input.leftButton ≠ some (.down x y 1)

/-- While the left mouse button is up, the editor has no focus if anything is held, and whatever is
held belongs to a key that was pressed last. -/
def Accounts (past : List Input) (s : Studio) : Prop :=
  ButtonUp past → ∀ p ∈ s.held, s.desk.editor.focused = false ∧
    ∃ k, Keymap.default.get? k = some p ∧ past.find? (Input.about k) = some (.key k)

variable {past : List Input}

theorem Accounts.fewer {s s' : Studio} (h : Accounts past s) (fewer : Fewer s s') :
    Accounts past s' := fun up p hp =>
  have ⟨focused, key⟩ := h up p (fewer.held p hp)
  ⟨fewer.focused.trans focused, key⟩

theorem find?_about_of_ne {k k' : Key} (hi : i = .key k ∨ i = .keyUp k) (ne : k' ≠ k) :
    (i :: past).find? (Input.about k') = past.find? (Input.about k') := by
  rcases hi with rfl | rfl <;> simp [Input.about, ne.symm]

theorem ButtonUp.tail (h : ButtonUp (i :: past)) (hi : i.leftButton = false) : ButtonUp past := by
  simpa [ButtonUp, List.find?_cons, hi] using h

/-- A key that is pressed or let go while nothing is held changes nothing if the editor has the
focus; otherwise it is played. -/
theorem handle_key_inv {r : Except Fault Bool} (ha : Accounts past b.part) (up : ButtonUp past)
    (hi : i = .key k ∨ i = .keyUp k) (h : (handle i).on b = some (r, b')) :
    (∀ p, p ∉ b'.part.held) ∨ b.part.desk.editor.focused = false ∧
      ∃ b₁, SameKeys b.part b₁.part ∧ (play i).on b₁ = some (r, b') := by
  have hq : i ≠ .quit := by rcases hi with rfl | rfl <;> nofun
  obtain ⟨b₁, held, focus, h⟩ := handle_inv hq h
  cases focused : b.part.desk.editor.focused with
  | true =>
    have consumed : (b.part.desk.editor.handle i).consumed = true := by
      rcases hi with rfl | rfl <;> simp [Editor.handle, focused]
    rw [if_pos consumed] at h
    refine .inl fun p hp => ?_
    rw [h, held] at hp
    rw [(ha up p hp).1] at focused
    cases focused
  | false =>
    have passed : b.part.desk.editor.handle i = ⟨b.part.desk.editor, false, false⟩ := by
      rcases hi with rfl | rfl <;> simp [Editor.handle, focused]
    rw [passed] at h focus
    exact .inr ⟨rfl, b₁, ⟨held, focus⟩, h⟩

/-- Letting go of the left mouse button leaves nothing held, whether or not the editor has the
focus. -/
theorem handle_up_holds {x y : Int} {r : Except Fault Bool}
    (h : (handle (.up x y 1)).on b = some (r, b')) (p : Int) : p ∉ b'.part.held := by
  obtain ⟨b₁, -, -, h⟩ := handle_inv (i := .up x y 1) nofun h
  have played : (play (.up x y 1)).on b₁ = some (r, b') := h
  obtain ⟨b₂, h₂, released⟩ := releaseAll_holds b₁.part b₁
  rw [play, on_bind_ok (on_look b₁)] at played
  have same := (on_bind_ok h₂).symm.trans played
  cases same
  exact released.held p

/-- Inputs that tell neither of a key nor of the left mouse button leave all accounts as they
are. -/
theorem Accounts.other {r : Except Fault Bool} (ha : Accounts past b.part)
    (hb : i.leftButton = false) (hk : ∀ k, i.about k = false)
    (h : (handle i).on b = some (r, b')) : Accounts (i :: past) b'.part := by
  have same := handle_same hb hk h
  intro up p hp
  obtain ⟨focused, k, plays, last⟩ := ha (up.tail hb) p (same.held ▸ hp)
  exact ⟨same.focused.trans focused, k, plays, by simpa [List.find?_cons, hk k] using last⟩

/-- Whatever the hands do, held pitches are accounted for. -/
theorem accounts_handle {r : Except Fault Bool} (ha : Accounts past b.part)
    (h : (handle i).on b = some (r, b')) : Accounts (i :: past) b'.part := by
  cases i with
  | key k =>
    intro up p hp
    have upBefore : ButtonUp past := up.tail rfl
    rcases handle_key_inv ha upBefore (.inl rfl) h with nothing | ⟨unfocused, b₁, same, played⟩
    · exact absurd hp (nothing p)
    · have pressed := play_key_holds played
      refine ⟨(pressed.focused.trans same.focused).trans unfocused, ?_⟩
      rcases pressed.held p hp with here | plays
      · obtain ⟨-, k', plays, last⟩ := ha upBefore p (same.held ▸ here)
        refine ⟨k', plays, ?_⟩
        by_cases e : k' = k
        · simp [Input.about, e]
        · exact (find?_about_of_ne (.inl rfl) e).trans last
      · exact ⟨k, plays, by simp [Input.about]⟩
  | keyUp k =>
    intro up p hp
    have upBefore : ButtonUp past := up.tail rfl
    rcases handle_key_inv ha upBefore (.inr rfl) h with nothing | ⟨unfocused, b₁, same, played⟩
    · exact absurd hp (nothing p)
    · have released := play_keyUp_holds played
      obtain ⟨here, other⟩ := released.held p hp
      obtain ⟨-, k', plays, last⟩ := ha upBefore p (same.held ▸ here)
      have ne : k' ≠ k := fun e => other (e ▸ plays)
      exact ⟨(released.focused.trans same.focused).trans unfocused, k', plays,
        (find?_about_of_ne (.inr rfl) ne).trans last⟩
  | down x y button =>
    by_cases left : button = 1
    · subst left
      exact fun up => absurd rfl (up x y)
    · exact ha.other (by simp [Input.leftButton, left]) (fun _ => rfl) h
  | up x y button =>
    by_cases left : button = 1
    · subst left
      exact fun _ p hp => absurd hp (handle_up_holds h p)
    · exact ha.other (by simp [Input.leftButton, left]) (fun _ => rfl) h
  | _ => exact ha.other rfl (fun _ => rfl) h

/-! ## Whatever happens -/

def inputsOf (ds : List Doing) : List Input :=
  ds.filterMap fun d => match d with
    | .input i => some i
    | _ => none

/-- What happens without the hands holds no other pitches. -/
theorem leads_fewer {d : Doing} (noInput : ∀ i, d ≠ .input i) : Leads Fewer d.act := by
  by_cases runs : d = .close
  · subst runs
    refine respectsApart_fewer.allowsApart.close fun s b r b' h => ?_
    obtain ⟨b₁, h₁, released⟩ := releaseAll_holds s b
    rw [h₁] at h
    cases h
    exact ⟨fun p hp => (released.held p hp).elim, released.focused⟩
  · exact leads_act (served_of_respectsApart respectsApart_fewer) noInput runs

theorem accounts_enact {ds : List Doing} {s s' : Studio} (ha : Accounts past s)
    (h : enact ds s = some s') : Accounts ((inputsOf ds).reverse ++ past) s' := by
  induction ds generalizing past s with
  | nil =>
    cases h
    exact ha
  | cons d ds ih =>
    obtain ⟨r, s₁, es, h₁, h₂⟩ := enact_cons_inv h
    by_cases noInput : ∀ i, d ≠ .input i
    · have same : inputsOf (d :: ds) = inputsOf ds := by
        cases d <;> first | rfl | exact absurd rfl (noInput _)
      rw [same]
      exact ih (ha.fewer (leads_runAct (leads_fewer noInput) h₁)) h₂
    · obtain ⟨i, rfl⟩ : ∃ i, d = .input i := by simpa using noInput
      obtain ⟨⟨r₁, b⟩, hon, e⟩ := Option.map_eq_some_iff.1 h₁
      cases e
      obtain ⟨r₂, handled⟩ := on_bind_pure_inv hon
      have := ih (accounts_handle (b := ⟨s, []⟩) ha handled) h₂
      simpa [inputsOf] using this

/-- What the hands do comes to an end. -/
theorem ends_allowsApart : AllowsApart (fun {α : Type} (p : Act α) => Ends p) where
  pure a := (succeeds_pure a).ends
  bind := .bind
  fail e := ends_orFail (.error e)
  rescue := .rescue
  look := succeeds_look.ends
  write e _ := (succeeds_write e).ends
  tell _ := (succeeds_write _).ends
  sound c b := have ⟨r, b', h, _⟩ := sound_ends c b; ⟨r, b', h⟩
  apart f _ := (succeeds_change f).ends

theorem ends_handle (i : Input) : Ends (handle i) := by
  have hP := ends_allowsApart
  have offers : Ends (offer i) := fun b => have ⟨b', h, _⟩ := offer_on i b; ⟨_, b', h⟩
  exact hP.ite (hP.pure _) <| hP.bind offers fun _ => hP.ite (hP.pure _) <|
    hP.allowsNeutral.playInput (hP.handles · fun f => (succeeds_change _).ends) i

theorem enact_inputs (is : List Input) (s : Studio) :
    ∃ s', enact (is.map .input) s = some s' := by
  induction is generalizing s with
  | nil => exact ⟨s, rfl⟩
  | cons i is ih =>
    obtain ⟨r, b, h⟩ := ends_allowsApart.discard (ends_handle i) ⟨s, []⟩
    obtain ⟨s', hs'⟩ := ih b.part
    have acted : runAct (Doing.input i).act s = some (r, b.part, b.journal.reverse) := by
      rw [runAct, show (Doing.input i).act = discard (handle i) from rfl, h]
      rfl
    refine ⟨s', ?_⟩
    rw [List.map_cons, enact, acted]
    exact hs'

def lastOf (kind : Input → Bool) (is : List Input) : Option Input := is.reverse.find? kind

/-- Every key that plays a pitch, and the left mouse button, were let go of last, if they were used
at all. -/
structure LetGo (is : List Input) : Prop where
  keys : ∀ k p, Keymap.default.get? k = some p →
    ∀ i, lastOf (Input.about k) is = some i → i = .keyUp k
  button : ∀ i, lastOf Input.leftButton is = some i → ∃ x y, i = .up x y 1

theorem inputsOf_map (is : List Input) : inputsOf (is.map .input) = is := by
  induction is with
  | nil => rfl
  | cons i is ih => exact congrArg (i :: ·) ih

/-- No key sticks. If every key and the left mouse button were let go of last, nothing is held in
the end, whatever else the hands did and whatever happened in between. What the hands do always
comes to an end. -/
theorem no_stuck_keys {is : List Input} (letGo : LetGo is) {s : Studio} (rests : s.held = .empty) :
    (∃ s', enact (is.map .input) s = some s' ∧ s'.held = .empty) ∧
    ∀ ds s', inputsOf ds = is → enact ds s = some s' → s'.held = .empty := by
  have nothing {ds s'} (hds : inputsOf ds = is) (h : enact ds s = some s') : s'.held = .empty := by
    have none : Accounts [] s := fun _ p hp => absurd (rests ▸ hp) PitchSet.not_mem_empty
    have accounts := accounts_enact none h
    rw [List.append_nil, hds] at accounts
    refine PitchSet.eq_empty fun p hp => ?_
    have up : ButtonUp is.reverse := fun x y last => by
      obtain ⟨x', y', e⟩ := letGo.button _ last
      cases e
    obtain ⟨-, k, plays, last⟩ := accounts up p hp
    cases letGo.keys k p plays _ last
  obtain ⟨s', h⟩ := enact_inputs is s
  exact ⟨⟨s', h, nothing (inputsOf_map is) h⟩, fun ds s' hds => nothing hds⟩

/-- A key is pressed; a click gives the editor the focus, so that it takes the release of the
key. -/
def swallowed : List Input :=
  [.key (.character 'a'), .down 10 100 1, .keyUp (.character 'a'), .up 10 100 1]

theorem no_stuck_keys_swallowed : LetGo swallowed ∧ (studio {} {}).held = .empty ∧
    (enact ((swallowed.take 3).map .input) (studio {} {})).map (·.held.toList) = some [60] ∧
      ∃ s', enact (swallowed.map .input) (studio {} {}) = some s' ∧ s'.held = .empty := by
  have letGo : LetGo swallowed := by
    refine ⟨fun k p _ i last => ?_, fun i last => ?_⟩
    · by_cases e : Key.character 'a' = k
      · simp [lastOf, swallowed, Input.about, e] at last
        rw [← last]
      · simp [lastOf, swallowed, Input.about, e] at last
    · simp [lastOf, swallowed, Input.leftButton] at last
      exact ⟨10, 100, last.symm⟩
  exact ⟨letGo, rfl, by decide +kernel, (no_stuck_keys letGo rfl).1⟩

end Program

end PianoRoll
