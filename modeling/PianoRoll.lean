import PianoRoll.Logger
import PianoRoll.Main
import PianoRoll.Studio.Budget
import PianoRoll.Proofs.Playback.Runs
import PianoRoll.Proofs.Playback.Rendition
import PianoRoll.Proofs.Playback.FrameRate
import PianoRoll.Proofs.Editing.Interference
import PianoRoll.Proofs.Script.Grammar
import PianoRoll.Proofs.Script.Durations
import PianoRoll.Proofs.Inputs.HotPlug
import PianoRoll.Proofs.Inputs.Reading
import PianoRoll.Proofs.Queue.Conservation
import PianoRoll.Proofs.Synth.Bookkeeping
import PianoRoll.Proofs.Editor.Typing
import PianoRoll.Proofs.Program.InStep
import PianoRoll.Proofs.Program.Keys
import PianoRoll.Proofs.Synth.Pitches
import PianoRoll.Proofs.Program.Lit
import PianoRoll.Proofs.Program.Release
import PianoRoll.Proofs.Program.Tempo
import PianoRoll.Proofs.Renderer.Standing
import PianoRoll.Proofs.Script.Timing
import PianoRoll.Proofs.Script.Layout
import PianoRoll.Proofs.Renderer.Names
import PianoRoll.Proofs.Session.Showing
import PianoRoll.Proofs.Session.Songs
import PianoRoll.Proofs.Melody.Strikes
import PianoRoll.Proofs.Playback.Unbegun
import PianoRoll.Proofs.Hands.Strokes
import PianoRoll.Proofs.Hands.Alternation
import PianoRoll.Proofs.Number.Nearest
import PianoRoll.Proofs.Renderer.Within
import PianoRoll.Proofs.Renderer.Stripes
import PianoRoll.Proofs.Session.Stages
import PianoRoll.Proofs.Session.Roll
import PianoRoll.Proofs.Session.Punctual
import PianoRoll.Proofs.Session.Striker
import PianoRoll.Proofs.Session.Crossing
import PianoRoll.Proofs.Synth.Messages
import PianoRoll.Proofs.Editor.Gutter
import PianoRoll.Proofs.Editor.View
import PianoRoll.Proofs.Piano.Coverage
import PianoRoll.Proofs.Piano.Shadows
import PianoRoll.Proofs.Files.Reports
import PianoRoll.Proofs.Program.Opening
