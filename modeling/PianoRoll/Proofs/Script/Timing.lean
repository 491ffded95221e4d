import PianoRoll.Proofs.Melody.InTime

/-!
When the notes of a script begin and end. A script has one note for each line that names a pitch. It
begins at the sum of the steps in force on the notes and rests before it, taken from left to right,
and ends one step later (`timed_by_steps`). So a note ends just where the next one begins, unless
there is a rest between them.
-/

namespace PianoRoll.Script

open Number

def directives (text : String) : List Directive :=
  (Text.lines text.toList).map fun raw => .ofLine (Text.trim raw)

/-- The step a line names, if notes can have it. -/
def Directive.step? : Directive → Option Float
  | .step arg => stepOf? arg
  | _ => none

/-- The octave a line names, if keys have it. -/
def Directive.octave? : Directive → Option Int
  | .octave arg => octaveOf? arg
  | _ => none

def Directive.takesTime : Directive → Bool
  | .rest | .pitch _ => true
  | _ => false

/-- The step in force on a line: the last one that is named before it, a quarter if none is. -/
def stepAt (ds : List Directive) (i : Nat) : Float :=
  ((ds.take i).filterMap Directive.step?).getLast?.getD 0.25

/-- The octave in force on a line: the last one that is named before it, the fourth if none is. -/
def octaveAt (ds : List Directive) (i : Nat) : Int :=
  ((ds.take i).filterMap Directive.octave?).getLast?.getD 4

/-- The beat of a line: the steps in force on the notes and rests before it, added to zero one after
the other. -/
def beatAt (ds : List Directive) (i : Nat) : Float :=
  (((List.range i).filter fun j => ds[j]?.any Directive.takesTime).map (stepAt ds)).foldl (· + ·) 0

/-- The lines that name a pitch, with their numbers. -/
def played (ds : List Directive) : List (Nat × PitchClass) :=
  ds.zipIdx.filterMap fun
    | (.pitch p, i) => some (i, p)
    | _ => none

def noteAt (ds : List Directive) (x : Nat × PitchClass) : Note where
  pitch := x.2.inOctave (octaveAt ds x.1)
  label := x.2.label (octaveAt ds x.1)
  start := beatAt ds x.1
  finish := beatAt ds x.1 + stepAt ds x.1

/-! ## The pen on its way -/

def penAt (pen : Pen) (ds : List Directive) (i : Nat) : Pen := (ds.take i).foldl Pen.after pen

theorem penAt_succ (pen : Pen) (ds : List Directive) (i : Nat) :
    penAt pen ds (i + 1) = ds[i]?.elim (penAt pen ds i) (penAt pen ds i).after := by
  rw [penAt, List.take_add_one, List.foldl_append]
  cases ds[i]? <;> rfl

/-- What is kept of the last line that names it. -/
theorem getLast?_take_succ {α β : Type} (f : α → Option β) (ds : List α) (i : Nat) (other : β) :
    ((ds.take (i + 1)).filterMap f).getLast?.getD other =
      ((ds[i]?).bind f).getD (((ds.take i).filterMap f).getLast?.getD other) := by
  rw [List.take_add_one, List.filterMap_append, List.getLast?_append]
  cases ds[i]? with
  | none => rfl
  | some d => cases h : f d <;> simp [h]

theorem stepAt_succ (ds : List Directive) (i : Nat) :
    stepAt ds (i + 1) = ((ds[i]?).bind Directive.step?).getD (stepAt ds i) :=
  getLast?_take_succ Directive.step? ds i 0.25

theorem octaveAt_succ (ds : List Directive) (i : Nat) :
    octaveAt ds (i + 1) = ((ds[i]?).bind Directive.octave?).getD (octaveAt ds i) :=
  getLast?_take_succ Directive.octave? ds i 4

theorem beatAt_succ (ds : List Directive) (i : Nat) :
    beatAt ds (i + 1) =
      if ds[i]?.any Directive.takesTime then beatAt ds i + stepAt ds i else beatAt ds i := by
  rw [beatAt, List.range_succ, List.filter_append, List.map_append, List.foldl_append]
  cases h : ds[i]?.any Directive.takesTime <;> simp [h, beatAt]

/-- The pen holds the octave and the step in force, and stands on the beat of its line. -/
theorem penAt_eq (ds : List Directive) (i : Nat) :
    penAt {} ds i = ⟨octaveAt ds i, stepAt ds i, beatAt ds i⟩ := by
  induction i with
  | zero => rfl
  | succ i ih =>
    rw [penAt_succ, ih, octaveAt_succ, stepAt_succ, beatAt_succ]
    cases ds[i]? with
    | none => rfl
    | some d => cases d <;> rfl

/-! ## The notes of lines -/

/-- The notes that the pen plays on lines one after the other. -/
def written (pen : Pen) : List Directive → List Note
  | [] => []
  | d :: ds => pen.notes d ++ written (pen.after d) ds

theorem written_of_read {pen : Pen} {number : Nat} {lines : List (List Char)} {notes : List Note}
    (hread : (read pen number lines).notes = .ok notes) :
    notes = written pen (lines.map fun raw => .ofLine (Text.trim raw)) := by
  induction lines generalizing pen number notes with
  | nil =>
    cases hread
    rfl
  | cons raw rest ih =>
    obtain ⟨later, hlater, rfl⟩ := read_cons_ok hread
    rw [List.map_cons, written, ih hlater]

theorem written_eq_flatMap (pen : Pen) (ds : List Directive) :
    written pen ds = ds.zipIdx.flatMap fun x => (penAt pen ds x.2).notes x.1 := by
  induction ds generalizing pen with
  | nil => rfl
  | cons d ds ih =>
    rw [written, ih, List.zipIdx_cons', List.flatMap_cons, List.flatMap_map]
    rfl

theorem written_eq_played (ds : List Directive) :
    written {} ds = (played ds).map (noteAt ds) := by
  rw [written_eq_flatMap, played, List.map_filterMap, List.filterMap_eq_flatMap_toList]
  refine List.flatMap_congr fun ⟨d, i⟩ _ => ?_
  rw [penAt_eq]
  cases d <;> rfl

/-! ## Neighbours -/

theorem mem_played {ds : List Directive} {i : Nat} {p : PitchClass} :
    (i, p) ∈ played ds ↔ ds[i]? = some (.pitch p) := by
  simp only [played, List.mem_filterMap, Prod.exists, List.mem_zipIdx_iff_getElem?]
  constructor
  · rintro ⟨d, j, hd, h⟩
    cases d <;> simp at h
    obtain ⟨rfl, rfl⟩ := h
    exact hd
  · exact fun h => ⟨.pitch p, i, h, rfl⟩

theorem played_ascend (ds : List Directive) : (played ds).Pairwise fun x y => x.1 < y.1 := by
  have numbered : ds.zipIdx.Pairwise fun x y => x.2 < y.2 := by
    rw [← List.pairwise_map, List.zipIdx_map_snd]
    exact List.pairwise_lt_range'
  refine numbered.filterMap _ fun x y hxy a ha b hb => ?_
  obtain ⟨d, i⟩ := x
  obtain ⟨e, j⟩ := y
  cases d <;> cases e <;> simp_all
  subst ha hb
  exact hxy

/-- What is played on an earlier line is played earlier. -/
theorem lt_of_played {ds : List Directive} {k m : Nat} {x y : Nat × PitchClass}
    (hx : (played ds)[k]? = some x) (hy : (played ds)[m]? = some y) (hlt : x.1 < y.1) : k < m := by
  obtain ⟨hk, rfl⟩ := List.getElem?_eq_some_iff.1 hx
  obtain ⟨hm, rfl⟩ := List.getElem?_eq_some_iff.1 hy
  have ascend := List.pairwise_iff_getElem.1 (played_ascend ds) m k hm hk
  rcases Nat.lt_trichotomy k m with h | rfl | h
  · exact h
  · exact absurd hlt (Nat.lt_irrefl _)
  · exact absurd hlt (Nat.lt_asymm (ascend h))

/-- Nothing is played between neighbours. -/
theorem played_between {ds : List Directive} {k : Nat} {x y : Nat × PitchClass}
    (hx : (played ds)[k]? = some x) (hy : (played ds)[k + 1]? = some y) {l : Nat}
    (hl : x.1 < l) (hl' : l < y.1) (p : PitchClass) : ds[l]? ≠ some (.pitch p) := by
  intro h
  obtain ⟨m, hm⟩ := List.getElem?_of_mem (mem_played.2 h)
  have after : k < m := lt_of_played hx hm hl
  have before : m < k + 1 := lt_of_played hm hy hl'
  omega

/-- The beat stays while no time goes by. -/
theorem beatAt_of_still {ds : List Directive} {i j : Nat} (hij : i ≤ j)
    (still : ∀ l, i ≤ l → l < j → ds[l]?.any Directive.takesTime = false) :
    beatAt ds j = beatAt ds i := by
  induction j, hij using Nat.le_induction with
  | base => rfl
  | succ j hij ih =>
    rw [beatAt_succ, still j hij (Nat.lt_succ_self j)]
    exact ih fun l hl hl' => still l hl (Nat.lt_succ_of_lt hl')

/-- A note ends where the next one begins if there is no rest between them. -/
theorem finish_eq_start {ds : List Directive} {k : Nat} {x y : Nat × PitchClass}
    (hx : (played ds)[k]? = some x) (hy : (played ds)[k + 1]? = some y)
    (noRest : ∀ l, x.1 < l → l < y.1 → ds[l]? ≠ some .rest) :
    (noteAt ds x).finish = (noteAt ds y).start := by
  have here : ds[x.1]? = some (.pitch x.2) := mem_played.1 (List.mem_of_getElem? hx)
  have ahead : x.1 < y.1 := by
    obtain ⟨hk, rfl⟩ := List.getElem?_eq_some_iff.1 hx
    obtain ⟨hm, rfl⟩ := List.getElem?_eq_some_iff.1 hy
    exact List.pairwise_iff_getElem.1 (played_ascend ds) k (k + 1) hk hm (Nat.lt_succ_self k)
  have still : ∀ l, x.1 + 1 ≤ l → l < y.1 → ds[l]?.any Directive.takesTime = false := by
    intro l hl hl'
    have hnote := played_between hx hy hl hl'
    have hrest := noRest l hl hl'
    cases hd : ds[l]? with
    | none => rfl
    | some d => cases d <;> simp_all [Directive.takesTime]
  calc beatAt ds x.1 + stepAt ds x.1 = beatAt ds (x.1 + 1) := by rw [beatAt_succ, here]; rfl
    _ = beatAt ds y.1 := (beatAt_of_still ahead still).symm

/-- Notes in their order and in time begin one after the other. -/
theorem starts_ascend {notes : List Note} (inTime : ∀ n ∈ notes, n.InTime) (order : InOrder notes) :
    notes.Pairwise fun n m => n.start ≤ m.start := by
  have : Trans (fun n m : Note => n.start ≤ m.start) (fun n m : Note => n.start ≤ m.start)
      (fun n m : Note => n.start ≤ m.start) := ⟨float_le_trans⟩
  refine (List.IsChain.imp_of_mem_imp (fun n m hn _ h => ?_) order).pairwise
  exact float_le_trans (inTime n hn).2 h

/-- The notes of a script that is accepted are those of its lines that name a pitch, one for each
and in their order. They begin on the beats of these lines and end one step later. So a note ends
where the next one begins if there is no rest between them, and none begins before the one ahead
of it. -/
theorem timed_by_steps {text : String} {notes : List Note} (h : (compile text).notes = .ok notes) :
    notes = (played (directives text)).map (noteAt (directives text)) ∧
    (∀ k n m, notes[k]? = some n → notes[k + 1]? = some m →
      ∃ x y, (played (directives text))[k]? = some x ∧ (played (directives text))[k + 1]? = some y ∧
        ((∀ l, x.1 < l → l < y.1 → (directives text)[l]? ≠ some .rest) → n.finish = m.start)) ∧
    notes.Pairwise fun n m => n.start ≤ m.start := by
  have hplayed : notes = (played (directives text)).map (noteAt (directives text)) := by
    rw [written_of_read h, ← written_eq_played]
    rfl
  refine ⟨hplayed, fun k n m hn hm => ?_, ?_⟩
  · rw [hplayed, List.getElem?_map, Option.map_eq_some_iff] at hn hm
    obtain ⟨x, hx, rfl⟩ := hn
    obtain ⟨y, hy, rfl⟩ := hm
    exact ⟨x, y, hx, hy, finish_eq_start hx hy⟩
  · have behind := behind_read forward_start 1 _ h
    exact starts_ascend behind.inTime behind.order

/-- A script with a step that is named between two notes, and a rest before the last one. -/
theorem mixed_timed_by_steps : ∃ notes : List Note,
    (compile "C\nstep 1/2\nstep x\nD\nrest\nE").notes = .ok notes ∧
      notes.map Note.start = [0, 0.25, 1.25] ∧
      notes = (played (directives "C\nstep 1/2\nstep x\nD\nrest\nE")).map
        (noteAt (directives "C\nstep 1/2\nstep x\nD\nrest\nE")) :=
  ⟨[⟨60, "C4", 0, 0.25⟩, ⟨62, "D4", 0.25, 0.75⟩, ⟨64, "E4", 1.25, 1.75⟩], by rfl, by rfl,
    (timed_by_steps (by rfl)).1⟩

end PianoRoll.Script
