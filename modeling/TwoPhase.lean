import TwoPhase.Names
import TwoPhase.Main
import TwoPhase.Proofs.Interpreter.Invariant
import TwoPhase.Proofs.Parser.Invariant
import TwoPhase.Proofs.Deferral.Slots
import TwoPhase.Proofs.Globals
import TwoPhase.Proofs.Interpreter.Core
import TwoPhase.Proofs.Interpreter.Deferral
import TwoPhase.Proofs.Interpreter.Within
import TwoPhase.Proofs.Reachable
import TwoPhase.Proofs.AbortedConstruction
import TwoPhase.Proofs.Parser.ByName
import TwoPhase.Proofs.Parser.Replay
import TwoPhase.Proofs.Parser.ReplayGrammar
import TwoPhase.Proofs.FinalText
import TwoPhase.Proofs.Reach
import TwoPhase.Proofs.Marker
import TwoPhase.Proofs.Reads
import TwoPhase.Proofs.Parser.Known
import TwoPhase.Proofs.Interpreter.Clearing
import TwoPhase.Proofs.Interpreter.Guarded
import TwoPhase.Proofs.Sound.Code
import TwoPhase.Proofs.Lexicals
import TwoPhase.Proofs.Locations
import TwoPhase.Proofs.Interpreter.Traced
import TwoPhase.Proofs.Backtraces
import TwoPhase.Proofs.SuccessfulConstruction
import TwoPhase.Proofs.Likeness.Basic
import TwoPhase.Proofs.Likeness.Tree
import TwoPhase.Proofs.Words
import TwoPhase.Proofs.Likeness.Value
import TwoPhase.Proofs.Likeness.Buffer
import TwoPhase.Proofs.Likeness.Environment
import TwoPhase.Proofs.Likeness.State
import TwoPhase.Proofs.Likeness.Running
import TwoPhase.Proofs.Likeness.Entering
import TwoPhase.Proofs.Likeness.Parser
import TwoPhase.Proofs.Likeness.Deferral
import TwoPhase.Proofs.Likeness.Code
import TwoPhase.Proofs.Live
import TwoPhase.Proofs.Restoration
import TwoPhase.Proofs.LineMode
import TwoPhase.Proofs.Likeness.Frameless
import TwoPhase.Proofs.Inline
import TwoPhase.Proofs.Deferral.Ledger
import TwoPhase.Proofs.Deferral.Binding
import TwoPhase.Proofs.Deferral.Atomic
import TwoPhase.Proofs.InnermostUnit
import TwoPhase.Proofs.Interpreter.Gathered
import TwoPhase.Proofs.Interpreter.Awaiting
import TwoPhase.Proofs.Parser.Rounds
import TwoPhase.Proofs.Relocation
import TwoPhase.Proofs.Delivery
import TwoPhase.Proofs.Modules
import TwoPhase.Proofs.DispatchValues
import TwoPhase.Proofs.Exits
import TwoPhase.Proofs.Text.Cuts
import TwoPhase.Proofs.Buffer.Actions
import TwoPhase.Proofs.Buffer.Lines
import TwoPhase.Proofs.Buffer.Warnings
import TwoPhase.Proofs.Parser.Written
import TwoPhase.Proofs.Parser.Passing
import TwoPhase.Proofs.Parser.Completeness
import TwoPhase.Proofs.Parser.Soundness
import TwoPhase.Proofs.Expressions
import TwoPhase.Proofs.Fragments
import TwoPhase.Proofs.Lexing.Partition
import TwoPhase.Proofs.Parser.Taking
import TwoPhase.Proofs.Parser.Nesting
import TwoPhase.Proofs.Parser.Ending
import TwoPhase.Proofs.Parser.Standing
import TwoPhase.Proofs.Returns
import TwoPhase.Proofs.Lexing.Quoted
import TwoPhase.Proofs.Calculations
import TwoPhase.Proofs.Text.Lines
import TwoPhase.Proofs.Underlines
import TwoPhase.Proofs.Scopes
import TwoPhase.Proofs.Cells
import TwoPhase.Proofs.Deferral.Visits
import TwoPhase.Proofs.Buffer.Peeking
import TwoPhase.Proofs.Styles
