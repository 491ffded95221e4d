import PianoRoll.Editor
import PianoRoll.Frame
import PianoRoll.Layout
import PianoRoll.Number.Wrap
import PianoRoll.Work
import PianoRoll.Settings

/-!
The renderer: the status bar with its buttons and the song title that runs through it, the roll
with its lanes and notes, and the piano.
-/

namespace PianoRoll

structure Renderer where
  settings : RenderSettings := {}
  fonts : Fonts := .fixedWidth
  piano : List Layout.PianoKey := []
  /-- The buttons drawn last, with the places where they are pressed. -/
  buttons : Table String Box := []
  /-- How far the title has run. -/
  marquee : Float := 0
  clip : Option Box := none

namespace Renderer

open Number Work Layout

def face (r : Renderer) : Typeface := r.fonts 14

def statusHeight : Int := 36

def create (fonts : Fonts) (settings : RenderSettings) : Except Fault Renderer := do
  let piano ← pianoAcross settings.firstPitch settings.lastPitch settings.windowWidth
  return { settings, fonts, piano }

def rollBox (r : Renderer) : Box :=
  let s := r.settings
  ⟨s.editorWidth, statusHeight, s.windowWidth - s.editorWidth,
    s.windowHeight - statusHeight - s.pianoHeight⟩

def editorBox (r : Renderer) : Box :=
  let s := r.settings
  ⟨0, statusHeight, s.editorWidth, s.windowHeight - statusHeight - s.pianoHeight⟩

def pianoTop (r : Renderer) : Int := r.settings.windowHeight - r.settings.pianoHeight

/-- Whether a key of the piano reaches over a column; both edges belong to it. -/
def covers (x : Int) (k : PianoKey) : Bool := k.x ≤ x && x ≤ k.x + k.w

/-- How far down the black keys reach. -/
def blackReach (r : Renderer) : Except Fault Float := do
  return (← ofWhole? r.pianoTop) + (← ofWhole? r.settings.pianoHeight) * 0.6

/-- The key under a point. Black keys lie over white ones in the upper part of the piano. -/
def keyUnder (r : Renderer) (x y : Int) : Except Fault (Option Int) := do
  if y < r.pianoTop then return none
  let black :=
    if reaches (← r.blackReach) y then r.piano.find? fun k => k.black && covers x k else none
  let white := r.piano.find? fun k => !k.black && covers x k
  return (black.or white).map PianoKey.pitch

def draw (s : Shape) : Work Renderer Unit := write (.drawn s)

/-- A whole coordinate as a double, which drawing cannot do without. -/
def coordinate (n : Int) : Work Renderer Float := orFail (ofWhole? n)

def spot (x y : Int) : Work Renderer Spot := return ⟨← coordinate x, ← coordinate y⟩

def area (b : Box) : Work Renderer Area :=
  return ⟨← coordinate b.x, ← coordinate b.y, ← coordinate b.w, ← coordinate b.h⟩

/-- Sets the box outside which nothing is drawn. -/
def setClip (clip : Option Box) : Work Renderer Unit := do
  draw (.clip (← clip.mapM area))
  change fun r => { r with clip }

def drawText (words : String) (colour : Colour) (x y : Int) : Work Renderer Unit := do
  draw (.text words colour (← spot x y))

def beginFrame : Work Renderer Unit := do
  draw (.fill ⟨12, 12, 14⟩)
  draw (.rect ⟨18, 18, 22⟩ (← area (← look).rollBox) 0 (-1))

/-- Draws a button at a place and gives the place of the next one. -/
def drawButton (x : Int) (label : String) : Work Renderer Int := do
  let face := (← look).face
  let width : Int := face.width label
  let box : Box := ⟨x, 4, width + 24, statusHeight - 8⟩
  draw (.rect ⟨40, 40, 46⟩ (← area box) 0 6)
  draw (.rect ⟨75, 75, 85⟩ (← area box) 1 6)
  drawText label ⟨220, 220, 230⟩ (x + 12) ((statusHeight - face.height).fdiv 2)
  change fun r => { r with buttons := r.buttons.put label box }
  return x + box.w + 8

/-- Draws buttons side by side and gives the place behind the last one. -/
def drawButtons (x : Int) : List String → Work Renderer Int
  | [] => return x
  | label :: rest => do drawButtons (← drawButton x label) rest

/-- Repeats the title from a place on, a period apart, as far as a right edge. -/
def drawTitles (words : String) (top period : Float) (right : Int) :
    Nat → Float → Work Renderer Unit
  | 0, _ => unfinished
  | n + 1, x =>
    if isBelow x right then do
      draw (.text words ⟨220, 220, 230⟩ ⟨x, top⟩)
      drawTitles words top period right n (x + period)
    else return

def drawMarquee (box : Box) (title : String) : Work Renderer Unit := do
  draw (.rect ⟨34, 34, 40⟩ (← area box) 0 6)
  let words := title ++ "   •   "
  let r ← look
  let period := ofWhole (r.face.width words + 48)
  let top := ofWhole ((statusHeight - r.face.height).fdiv 2)
  setClip box
  drawTitles words top period box.right (box.w.toNat + 2)
    (ofWhole box.x - wrap r.marquee period)
  setClip r.clip

def drawStatus (buttons : List String) (seconds : Float) (right title : String) :
    Work Renderer Unit := do
  change fun r => { r with marquee := wrap (r.marquee + 80 * seconds) 1000000 }
  let w := (← look).settings.windowWidth
  draw (.rect ⟨24, 24, 28⟩ (← area ⟨0, 0, w, statusHeight⟩) 0 (-1))
  draw (.line ⟨60, 60, 66⟩ (← spot 0 statusHeight) (← spot w statusHeight) 1)
  change fun r => { r with buttons := [] }
  let x ← drawButtons 10 buttons
  let face := (← look).face
  let rightWidth : Int := face.width right
  if right ≠ "" then
    drawText right ⟨180, 180, 190⟩ (w - rightWidth - 10)
      ((statusHeight - face.height).fdiv 2)
  let box : Box := ⟨x + 6, 4, max 0 (w - rightWidth - 20 - (x + 6)), statusHeight - 8⟩
  if 50 < box.w ∧ title ≠ "" then drawMarquee box title

def laneHeight (box : Box) (r : Extent) : Except Fault Float := quotient box.h r.rows

def noteHeight (laneHeight : Float) : Float := larger 2 (laneHeight - 2)

/-- Draws one lane, with the name of its pitch if that is a C. -/
def drawLane (box : Box) (height : Float) (pitch : Int) (row : Nat) : Work Renderer Unit := do
  let y := laneTopOf (ofWhole box.y) height (ofWhole row)
  let shade : Colour := if isBlack pitch then ⟨24, 24, 30⟩ else ⟨30, 30, 36⟩
  draw (.rect shade ⟨← coordinate box.x, y, ← coordinate box.w, height⟩ 0 (-1))
  if pitch % 12 = 0 then
    draw (.text s!"C{pitch / 12 - 1}" ⟨110, 110, 120⟩ ⟨← coordinate (box.x + 4), y + 1⟩)

def drawGrid (box : Box) (r : Extent) : Work Renderer Unit := do
  let height ← orFail (laneHeight box r)
  (List.range r.rows.toNat).forM fun row => drawLane box height (r.high - row) row
  let face := (← look).face
  drawText r.highLabel ⟨150, 150, 160⟩ (box.right - face.width r.highLabel - 6) (box.y + 2)
  drawText r.lowLabel ⟨150, 150, 160⟩ (box.right - face.width r.lowLabel - 6)
    (box.bottom - face.height - 2)

def drawBeats (f : Frame) (box : Box) : Nat → Float → Work Renderer Unit
  | 0, _ => unfinished
  | n + 1, beat =>
    if f.viewStart < f.viewEnd && beat ≤ f.viewEnd then do
      let x := beatX f.viewStart f.viewEnd (ofWhole box.x) (ofWhole box.w) beat
      draw (.line ⟨44, 44, 52⟩ ⟨x, ← coordinate box.y⟩ ⟨x, ← coordinate box.bottom⟩ 1)
      drawBeats f box n (beat + 1)
    else return

/-- How many beats have to be looked at before one lies beyond a view. Beats that cannot be told
from the next one are never passed, and then there is no such number. -/
def beatsToPass (viewStart viewEnd : Float) : Nat :=
  if viewStart < viewEnd then
    match truncate viewEnd with
    | .ok n => if n.toNat < pow 2 53 then n.toNat + 2 else 0
    | .error _ => if viewEnd < 0 then 1 else 0
  else 1

def ghostColour (f : Frame) (i : Nat) : Colour :=
  if f.struck.contains i then ⟨110, 170, 120⟩ else ⟨90, 90, 110⟩

def drawStill (f : Frame) (box : Box) (height : Float) (colour : Colour) (width : Int) (n : Note) :
    Work Renderer Unit := do
  let place := beatX f.viewStart f.viewEnd (ofWhole box.x) (ofWhole box.w)
  let y ← orFail (laneTop (ofWhole box.y) height (laneRow f.extent n.pitch))
  let x := place n.start
  draw (.rect colour ⟨x, y + 1, larger 2 (place n.finish - x - 1), noteHeight height⟩ width 4)

/-- Draws the roll while nothing plays: all beats from left to right. -/
def drawStanding (f : Frame) (box : Box) : Work Renderer Unit := do
  let height ← orFail (laneHeight box f.extent)
  drawBeats f box (beatsToPass f.viewStart f.viewEnd) 0
  f.ghosts.zipIdx.forM fun (g, i) => drawStill f box height (ghostColour f i) 1 g
  f.notes.forM (drawStill f box height ⟨80, 200, 120⟩ 0)

/-- How far a beat moves the notes, which a moving roll cannot do without. -/
def pace : Work Renderer Float := do
  match (← look).settings.pixelsPerBeat with
  | .blank => throw (.blank .factor)
  | .value x => return x

def movingX (f : Frame) (hitX : Int) (pace : Float) (n : Note) : Float :=
  movingXOf f.elapsedBeats f.startDelay (ofWhole hitX) pace n.start

/-- Whether a note of a moving roll is out of sight. -/
def isOut (box : Box) (pace x : Float) (n : Note) : Bool :=
  isAbove x box.right || isBelow (x + n.duration * pace) box.x

def drawGhost (f : Frame) (box : Box) (height : Float) (hitX : Int) (g : Note) (i : Nat) :
    Work Renderer Unit := do
  let pace ← pace
  let x := movingX f hitX pace g
  if isOut box pace x g then return
  let y ← orFail (laneTop (ofWhole box.y) height (laneRow f.extent g.pitch))
  draw (.rect (ghostColour f i)
    ⟨x, y + 1, larger 2 (g.duration * pace - 1), noteHeight height⟩ 1 4)

def monsterColour : String → Colour
  | "slime" => ⟨120, 210, 110⟩
  | "bat" => ⟨150, 110, 200⟩
  | "ghost" => ⟨220, 220, 235⟩
  | "skull" => ⟨200, 200, 180⟩
  | "imp" => ⟨230, 90, 80⟩
  | "frog" => ⟨90, 190, 150⟩
  | "crab" => ⟨240, 130, 70⟩
  | "owl" => ⟨190, 150, 100⟩
  | _ => ⟨200, 200, 200⟩

def monsterOf (monsters : List String) (pitch : Int) : Except Fault String :=
  (modulo pitch monsters.length).map fun i => monsters[i.toNat]?.getD ""

def drawMonster (f : Frame) (box : Box) (height : Float) (hitX : Int) (n : Note) :
    Work Renderer Unit := do
  let pace ← pace
  let x := movingX f hitX pace n
  if isOut box pace x n then return
  let y ← orFail (laneTop (ofWhole box.y) height (laneRow f.extent n.pitch))
  let monster ← orFail (monsterOf f.monsters n.pitch)
  let tall := noteHeight height
  let radius := max 4 (← orFail (truncate (smaller tall 28 / 2)))
  let left ← orFail (truncate x)
  let middle ← orFail (truncate (y + tall / 2))
  draw (.circle (monsterColour monster) (← spot (left + radius) (middle + 1)) radius)
  draw (.circle ⟨12, 12, 14⟩ (← spot (left + radius - radius / 3) middle)
    (max 1 (radius / 4)))

/-- Draws the striker, who stands where the last note began and swings at each one. -/
def drawStriker (f : Frame) (box : Box) (height : Float) (hitX : Int) : Work Renderer Unit := do
  let y := markerTopOf (ofWhole box.y) (ofWhole box.h) f.marker + noteHeight height / 2
  let middle ← orFail (truncate y)
  draw (.circle ⟨255, 220, 120⟩ (← spot (hitX - 24) middle) 10)
  let tip ← orFail (truncate (if f.swing then y - 14 else y + 14))
  draw (.line ⟨255, 240, 170⟩ (← spot (hitX - 18) middle) (← spot (hitX + 6) tip) 4)

def drawMoving (f : Frame) (box : Box) : Work Renderer Unit := do
  let hitX := box.x + (← look).settings.hitX
  let height ← orFail (laneHeight box f.extent)
  draw (.line ⟨90, 90, 90⟩ (← spot hitX box.y) (← spot hitX box.bottom) 2)
  f.ghosts.zipIdx.forM fun (g, i) => drawGhost f box height hitX g i
  f.notes.forM (drawMonster f box height hitX)
  drawStriker f box height hitX

def drawFrame (f : Frame) : Work Renderer Unit := do
  let r ← look
  let box := r.rollBox
  drawGrid box f.extent
  setClip box
  ensuring (if f.playing then drawMoving f box else drawStanding f box) (setClip r.clip)

/-- The upper edge of a key's label: from whole numbers on a white key, on a black one from the
lower edge that is drawn. -/
def labelTop (height : Nat) (top tall : Int) (k : PianoKey) : Work Renderer Float := do
  if k.black then return (← coordinate top) + (← coordinate tall) * 0.6 - ofWhole height - 4
  else coordinate (top + tall - height - 4)

def drawKey (lit : List Int) (labels : Table Int String) (k : PianoKey) : Work Renderer Unit := do
  let r ← look
  let tall ← coordinate r.settings.pianoHeight
  let colour : Colour :=
    match k.black, lit.contains k.pitch with
    | true, true => ⟨255, 200, 120⟩
    | true, false => ⟨18, 18, 20⟩
    | false, true => ⟨255, 240, 170⟩
    | false, false => ⟨230, 230, 230⟩
  let area : Area :=
    ⟨← coordinate k.x, ← coordinate r.pianoTop, ← coordinate k.w,
      if k.black then tall * 0.6 else tall⟩
  draw (.rect colour area 0 (-1))
  draw (.rect ⟨60, 60, 66⟩ area 1 (-1))
  match labels.get? k.pitch with
  | none => return
  | some label =>
    let left := area.x + (← orFail (quotient (k.w - r.face.width label) 2))
    let top ← labelTop r.face.height r.pianoTop r.settings.pianoHeight k
    draw (.text label ⟨231, 76, 60⟩ ⟨left, top⟩)

/-- Draws the piano, white keys first. -/
def drawPiano (lit : List Int) (labels : Table Int String) : Work Renderer Unit := do
  let r ← look
  let strip : Area :=
    ⟨0, ← coordinate r.pianoTop, ← coordinate r.settings.windowWidth,
      ← coordinate r.settings.pianoHeight⟩
  draw (.rect ⟨28, 28, 32⟩ strip 0 (-1))
  (r.piano.filter (!·.black)).forM (drawKey lit labels)
  (r.piano.filter (·.black)).forM (drawKey lit labels)

end Renderer

end PianoRoll
