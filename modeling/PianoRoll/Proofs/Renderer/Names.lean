import PianoRoll.Proofs.Renderer.Lineless

/-!
The names of pitches. A pitch is named by its letter and the number of its octave. Three parts of
the program write such names, each by a rule of its own: scripts label their notes from the octave
in force, an extent takes its labels from two of its notes, and the roll writes the number of the
octave on the lanes of every C. For the notes of scripts all of them come to the same name
(`named_by_pitch`), and no two keys that scripts can reach share one.
-/

namespace PianoRoll

open Number Work

def letters : List String := ["C", "C#", "D", "D#", "E", "F", "F#", "G", "G#", "A", "A#", "B"]

/-- The name of a pitch: its letter, and the number of its octave. -/
def nameOf (pitch : Int) : String :=
  letters.getD (pitch % 12).toNat "" ++ toString (pitch / 12 - 1)

def Note.Parsed (n : Note) : Prop :=
  ∃ text notes, (Script.compile text).notes = .ok notes ∧ n ∈ notes

/-! ## Labels -/

theorem PitchClass.letter (p : PitchClass) :
    letters.getD p.semitone "" = String.ofList p.name := by
  cases p <;> rfl

theorem PitchClass.label_eq (p : PitchClass) (octave : Int) :
    p.label octave = nameOf (p.inOctave octave) := by
  have hp := p.semitone_lt
  have letter : (p.inOctave octave % 12).toNat = p.semitone := by
    rw [PitchClass.inOctave]
    omega
  have number : p.inOctave octave / 12 - 1 = octave := by
    rw [PitchClass.inOctave]
    omega
  rw [nameOf, letter, number, p.letter, PitchClass.label]

theorem Note.Written.label_eq {n : Note} (h : n.Written) : n.label = nameOf n.pitch := by
  obtain ⟨p, octave, -, hpitch, hlabel⟩ := h.named
  rw [hlabel, hpitch, p.label_eq]

theorem Note.Parsed.written {n : Note} (h : n.Parsed) : n.Written := by
  obtain ⟨text, notes, hnotes, hn⟩ := h
  have same : Script.notesOf text = notes := by rw [Script.notesOf, hnotes]
  exact Script.notesOf_written text n (same ▸ hn)

theorem nodup_names : ((List.range 120).map fun i : Nat => nameOf i).Nodup := by decide +kernel

/-- Keys that scripts can reach have names of their own. -/
theorem nameOf_inj {p q : Int} (hp : 0 ≤ p ∧ p ≤ 119) (hq : 0 ≤ q ∧ q ≤ 119)
    (h : nameOf p = nameOf q) : p = q := by
  have hinj := List.inj_on_of_nodup_map nodup_names
  have hnat : p.toNat = q.toNat := by
    refine hinj (List.mem_range.2 (by omega)) (List.mem_range.2 (by omega)) ?_
    rwa [Int.toNat_of_nonneg hp.1, Int.toNat_of_nonneg hq.1]
  omega

/-! ## The ends of an extent -/

/-- The lowest and the highest pitch of an extent with their labels. -/
def Extent.ends (r : Extent) : (Int × String) × Int × String :=
  ((r.low, r.lowLabel), r.high, r.highLabel)

def SamePitches (notes notes' : List Note) : Prop :=
  ∀ p, p ∈ notes.map Note.pitch ↔ p ∈ notes'.map Note.pitch

/-- The ends of a melody are two of its pitches, beyond which there is none, with their names. -/
structure Extent.Ends (r : Extent) (notes : List Note) : Prop where
  covers : r.Covers notes
  low : r.low ∈ notes.map Note.pitch
  high : r.high ∈ notes.map Note.pitch
  lowLabel : r.lowLabel = nameOf r.low
  highLabel : r.highLabel = nameOf r.high

theorem Extent.ends_of? {notes : List Note} (h : ∀ n ∈ notes, n.Written) {r : Extent}
    (hr : Extent.of? notes = some r) : r.Ends notes := by
  obtain ⟨low, hlow, high, hhigh, rfl, covers⟩ := of?_inv hr
  exact
    { covers
      low := List.mem_map_of_mem hlow
      high := List.mem_map_of_mem hhigh
      lowLabel := (h low hlow).label_eq
      highLabel := (h high hhigh).label_eq }

theorem Extent.Covers.pitch {notes : List Note} {r : Extent} (h : r.Covers notes) {p : Int}
    (hp : p ∈ notes.map Note.pitch) : r.low ≤ p ∧ p ≤ r.high := by
  obtain ⟨n, hn, rfl⟩ := List.mem_map.1 hp
  exact h n hn

theorem Extent.Ends.eq {notes notes' : List Note} {r r' : Extent} (h : r.Ends notes)
    (h' : r'.Ends notes') (same : SamePitches notes notes') : r.ends = r'.ends := by
  have low : r.low = r'.low :=
    Int.le_antisymm (h.covers.pitch ((same _).2 h'.low)).1 (h'.covers.pitch ((same _).1 h.low)).1
  have high : r.high = r'.high :=
    Int.le_antisymm (h'.covers.pitch ((same _).1 h.high)).2 (h.covers.pitch ((same _).2 h'.high)).2
  rw [Extent.ends, Extent.ends, h.lowLabel, h.highLabel, h'.lowLabel, h'.highLabel, low, high]

/-- Only the pitches of a melody make its ends, not their order nor how often they occur. -/
theorem ends_of_samePitches {notes notes' : List Note} (h : ∀ n ∈ notes, n.Written)
    (h' : ∀ n ∈ notes', n.Written) (same : SamePitches notes notes') :
    (Extent.of? notes).map Extent.ends = (Extent.of? notes').map Extent.ends := by
  cases hr : Extent.of? notes with
  | none =>
    cases notes with
    | cons n rest => cases hr
    | nil =>
      cases notes' with
      | nil => rfl
      | cons n rest => exact absurd ((same n.pitch).2 List.mem_cons_self) List.not_mem_nil
  | some r =>
    cases hr' : Extent.of? notes' with
    | some r' => exact congrArg some ((Extent.ends_of? h hr).eq (Extent.ends_of? h' hr') same)
    | none =>
      cases notes' with
      | cons n rest => cases hr'
      | nil => exact absurd ((same r.low).1 (Extent.ends_of? h hr).low) List.not_mem_nil

/-! ## The roll -/

def Entry.words? : Entry → Option String
  | .drawn (.text words _ _) => some words
  | _ => none

def wordsIn (journal : List Entry) : List String := journal.filterMap Entry.words?

theorem map_filter_eq_flatMap {α β : Type} (keep : α → Bool) (f : α → β) (xs : List α) :
    (xs.filter keep).map f = xs.flatMap fun x => if keep x then [f x] else [] := by
  induction xs with
  | nil => rfl
  | cons x xs ih =>
    rw [List.flatMap_cons, ← ih]
    cases h : keep x <;> simp [h]

/-- The pitches of the lanes, from the upper edge of the roll to the lower one. -/
def Extent.lanes (r : Extent) : List Int :=
  (List.range r.rows.toNat).map fun row : Nat => r.high - row

namespace Renderer

open Layout

/-- Work that ends well and draws just some words, one after the other. -/
def Says {α : Type} (words : List String) (p : Work Renderer α) : Prop :=
  ∀ b, ∃ a b', p.on b = some (.ok a, b') ∧ wordsIn b'.journal = words.reverse ++ wordsIn b.journal

theorem says_pure {α : Type} (a : α) : Says [] (pure a) := fun b => ⟨a, b, rfl, rfl⟩

theorem says_look : Says [] look := fun b => ⟨b.part, b, rfl, rfl⟩

theorem says_orFail {α : Type} {r : Except Fault α} (h : ∃ a, r = .ok a) : Says [] (orFail r) := by
  obtain ⟨a, rfl⟩ := h
  exact fun b => ⟨a, b, rfl, rfl⟩

theorem Says.bind {α β : Type} {ws ws' : List String} {p : Work Renderer α}
    {f : α → Work Renderer β} (hp : Says ws p) (hf : ∀ a, Says ws' (f a)) :
    Says (ws ++ ws') (p >>= f) := by
  intro b
  obtain ⟨a, b₁, h₁, w₁⟩ := hp b
  obtain ⟨c, b₂, h₂, w₂⟩ := hf a b₁
  refine ⟨c, b₂, (on_bind_ok h₁).trans h₂, ?_⟩
  rw [w₂, w₁, List.reverse_append, List.append_assoc]

theorem says_drawn {s : Shape} {ws : List String} (h : (Entry.drawn s).words?.toList = ws) :
    Says ws (draw s) := by
  intro b
  refine ⟨(), _, rfl, ?_⟩
  subst h
  rw [wordsIn, wordsIn, List.filterMap_cons]
  cases (Entry.drawn s).words? <;> rfl

theorem says_ite {c : Prop} [Decidable c] {ws ws' : List String} {α : Type} {p q : Work Renderer α}
    (hp : c → Says ws p) (hq : ¬c → Says ws' q) :
    Says (if c then ws else ws') (if c then p else q) := by
  split
  · next h => exact hp h
  · next h => exact hq h

theorem says_forM {α : Type} {f : α → Work Renderer Unit} {ws : α → List String}
    (hf : ∀ a, Says (ws a) (f a)) (xs : List α) : Says (xs.flatMap ws) (xs.forM f) := by
  induction xs with
  | nil => exact says_pure ()
  | cons x xs ih =>
    rw [List.flatMap_cons, forM_cons]
    exact (hf x).bind fun _ => ih

theorem says_coordinate {n : Int} (h : Small n) : Says [] (coordinate n) :=
  says_orFail ⟨_, h.ofWhole?⟩

theorem says_drawText (words : String) (colour : Colour) {x y : Int} (hx : Small x)
    (hy : Small y) : Says [words] (drawText words colour x y) :=
  ((says_coordinate hx).bind fun _ => (says_coordinate hy).bind fun _ => says_pure _).bind fun _ =>
    says_drawn rfl

section Grid

variable {box : Box} (hbox : Fits box)
include hbox

/-- The lane of a C bears its name, the others bear none. -/
theorem says_drawLane (height : Float) (pitch : Int) (row : Nat) :
    Says (if pitch % 12 = 0 then [nameOf pitch] else []) (drawLane box height pitch row) := by
  have hx := hbox.x
  have hw := hbox.w
  have left : Says [] (coordinate box.x) := says_coordinate (by unfold Small; omega)
  have width : Says [] (coordinate box.w) := says_coordinate (by unfold Small; omega)
  have inside : Says [] (coordinate (box.x + 4)) := says_coordinate (by unfold Small; omega)
  have name (hc : pitch % 12 = 0) : s!"C{pitch / 12 - 1}" = nameOf pitch := by
    rw [nameOf, hc]
    rfl
  exact left.bind fun _ => width.bind fun _ => (says_drawn rfl).bind fun _ =>
    says_ite (fun hc => inside.bind fun _ => says_drawn (by rw [name hc]; rfl))
      fun _ => says_pure ()

/-- The roll bears the names of every C from the top to the bottom, then the labels of its ends. -/
theorem says_drawGrid {r : Extent} (hr : r.Written) :
    Says ((r.lanes.filter (· % 12 = 0)).map nameOf ++ [r.highLabel, r.lowLabel])
      (drawGrid box r) := by
  obtain ⟨hx, hy, hw, hh⟩ := id hbox
  have lanes : (r.lanes.filter (· % 12 = 0)).map nameOf = (List.range r.rows.toNat).flatMap
      fun row : Nat => if (r.high - row) % 12 = 0 then [nameOf (r.high - row)] else [] := by
    rw [Extent.lanes, map_filter_eq_flatMap, List.flatMap_map]
    simp only [decide_eq_true_eq]
  rw [lanes]
  refine (says_orFail (exists_laneHeight hbox hr)).bind fun height => ?_
  refine (says_forM (fun row => says_drawLane hbox _ _ row) _).bind fun _ => ?_
  refine says_look.bind fun screen => ?_
  have high := screen.face.width_lt r.highLabel
  have low := screen.face.width_lt r.lowLabel
  have tall := screen.face.height_lt
  refine (says_drawText _ _ ?_ ?_).bind fun _ => says_drawText _ _ ?_ ?_
  all_goals
    simp only [Small, Box.right, Box.bottom]
    omega

end Grid

end Renderer

/-- What bears a name in a roll that shows notes bears the name of its pitch. -/
structure Extent.Named (r : Extent) (notes : List Note) : Prop extends r.Ends notes where
  roll {box : Box} (hbox : Renderer.Fits box) :
    Renderer.Says ((r.lanes.filter (· % 12 = 0) ++ [r.high, r.low]).map nameOf)
      (Renderer.drawGrid box r)

theorem Extent.named_of? {notes : List Note} (h : ∀ n ∈ notes, n.Written) {r : Extent}
    (hr : Extent.of? notes = some r) : r.Named notes := by
  have ends := Extent.ends_of? h hr
  refine { ends with roll := fun hbox => ?_ }
  have roll := Renderer.says_drawGrid hbox (Extent.written_of? h hr)
  rw [ends.highLabel, ends.lowLabel] at roll
  rwa [List.map_append]

/-- A note of a script lies on a key from 0 to 119 and bears the name of its pitch, which no other
of these keys has. So the labels of the extent of such notes are the names of its ends, as are the
names in the roll, and the ends depend on nothing but the pitches. -/
theorem named_by_pitch :
    (∀ n : Note, n.Parsed → 0 ≤ n.pitch ∧ n.pitch ≤ 119 ∧ n.label = nameOf n.pitch) ∧
    (∀ n m : Note, n.Parsed → m.Parsed → (n.label = m.label ↔ n.pitch = m.pitch)) ∧
    (∀ notes ghosts : List Note, (∀ n ∈ notes ++ ghosts, n.Parsed) →
      ∀ r, Extent.of? (notes ++ ghosts) = some r → r.Named (notes ++ ghosts)) ∧
    ∀ notes ghosts notes' ghosts' : List Note, (∀ n ∈ notes ++ ghosts, n.Parsed) →
      (∀ n ∈ notes' ++ ghosts', n.Parsed) → SamePitches (notes ++ ghosts) (notes' ++ ghosts') →
      (Extent.of? (notes ++ ghosts)).map Extent.ends =
        (Extent.of? (notes' ++ ghosts')).map Extent.ends := by
  have label {n : Note} (h : n.Parsed) : n.label = nameOf n.pitch := h.written.label_eq
  have bounds {n : Note} (h : n.Parsed) : 0 ≤ n.pitch ∧ n.pitch ≤ 119 := h.written.pitch_bounds
  refine ⟨fun n h => ⟨(bounds h).1, (bounds h).2, label h⟩,
    fun n m hn hm => ⟨fun h => ?_, fun h => ?_⟩, fun notes ghosts h r hr => ?_,
    fun notes ghosts notes' ghosts' h h' same => ?_⟩
  · rw [label hn, label hm] at h
    exact nameOf_inj (bounds hn) (bounds hm) h
  · rw [label hn, label hm, h]
  · exact Extent.named_of? (fun n hn => (h n hn).written) hr
  · exact ends_of_samePitches (fun n hn => (h n hn).written) (fun n hn => (h' n hn).written) same

/-- The notes of a script with an octave that it names. -/
def sharpNotes : List Note := [⟨60, "C4", 0, 0.25⟩, ⟨73, "C#5", 0.25, 0.5⟩]

/-- The notes of one that names the same octave before it plays. -/
def sharpGhosts : List Note := [⟨73, "C#5", 0, 0.25⟩, ⟨73, "C#5", 0.25, 0.5⟩]

theorem named_by_pitch_sharp :
    (∀ n ∈ sharpNotes ++ sharpGhosts, n.Parsed ∧ n.label = nameOf n.pitch ∧
      ∀ m ∈ sharpNotes ++ sharpGhosts, n.label = m.label ↔ n.pitch = m.pitch) ∧
    (∃ r, Extent.of? (sharpNotes ++ sharpGhosts) = some r ∧ r.ends = ((60, "C4"), 73, "C#5") ∧
      r.Named (sharpNotes ++ sharpGhosts)) ∧
    (Extent.of? (sharpNotes ++ sharpGhosts)).map Extent.ends =
      (Extent.of? (sharpNotes ++ [])).map Extent.ends := by
  have parsed : ∀ n ∈ sharpNotes ++ sharpGhosts, n.Parsed := by
    intro n hn
    rcases List.mem_append.1 hn with hn | hn
    · exact ⟨"C\noctave +5\nc#", _, by rfl, hn⟩
    · exact ⟨"octave +5\nc#\nC#", _, by rfl, hn⟩
  obtain ⟨label, distinct, named, ends⟩ := named_by_pitch
  refine ⟨fun n hn => ⟨parsed n hn, (label n (parsed n hn)).2.2,
    fun m hm => distinct n m (parsed n hn) (parsed m hm)⟩,
    ⟨_, rfl, rfl, named _ _ parsed _ rfl⟩, ends _ _ _ _ parsed (fun n hn => ?_) fun p => ?_⟩
  · exact parsed n (List.mem_append_left _ (by simpa using hn))
  · simp [sharpNotes, sharpGhosts]

end PianoRoll
