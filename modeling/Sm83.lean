import Sm83.Bus.Traced
import Sm83.Console.Terminal
import Sm83.Main
import Sm83.Sequencer.Rehearsal
import Sm83.Proofs.Course
import Sm83.Proofs.Watch
import Sm83.Proofs.Announcements
import Sm83.Proofs.CommitGate
import Sm83.Proofs.StepGate
import Sm83.Proofs.Refinement
import Sm83.Proofs.Fields
import Sm83.Proofs.FieldDecoder
import Sm83.Proofs.Consistency
import Sm83.Proofs.Publication
import Sm83.Proofs.Turns
import Sm83.Proofs.FreeRun
import Sm83.Proofs.Departure
import Sm83.Proofs.Fetch
import Sm83.Proofs.Pause
import Sm83.Proofs.Lockout
import Sm83.Proofs.Record
import Sm83.Proofs.Afresh
import Sm83.Proofs.Anatomy
import Sm83.Proofs.Footprint
import Sm83.Proofs.Nibble
import Sm83.Proofs.Interrupts
import Sm83.Proofs.Breakpoints
import Sm83.Proofs.Toggle
import Sm83.Proofs.Progress
import Sm83.Proofs.SingleStep
import Sm83.Proofs.Columns
import Sm83.Proofs.Decimal
import Sm83.Proofs.Storage
import Sm83.Proofs.Stack
import Sm83.Proofs.Bits
import Sm83.Proofs.Rotations
import Sm83.Proofs.Extended
import Sm83.Proofs.Halves
import Sm83.Proofs.Numerals
import Sm83.Proofs.CommandLine
import Sm83.Proofs.Transcript
import Sm83.Proofs.Cells
import Sm83.Proofs.RegisterFile
