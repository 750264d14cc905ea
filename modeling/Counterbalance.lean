import Counterbalance.Block.Compilation
import Counterbalance.Block.Sequence
import Counterbalance.Design.Json
import Counterbalance.Json.Printer
import Counterbalance.Json.Reader
import Counterbalance.Logic.Dimacs
import Counterbalance.Solver.Transcript
import Counterbalance.Solver.Json
import Counterbalance.Proofs.Logic.Definition
import Counterbalance.Proofs.Logic.Forest
import Counterbalance.Proofs.Logic.Meaning
import Counterbalance.Proofs.Logic.Run
import Counterbalance.Proofs.Design.Order
import Counterbalance.Proofs.Block.Applicability
import Counterbalance.Proofs.Block.Construction
import Counterbalance.Proofs.Block.Sizing
import Counterbalance.Proofs.Block.Accepted
import Counterbalance.Proofs.Block.Layout
import Counterbalance.Proofs.Block.Derivation
import Counterbalance.Proofs.Block.Cells
import Counterbalance.Proofs.Block.Sequence
import Counterbalance.Proofs.Block.Definitions
import Counterbalance.Proofs.Block.Requirements
import Counterbalance.Proofs.Block.Valid
import Counterbalance.Proofs.Block.Compilation
import Counterbalance.Proofs.Block.Counterbalancing
import Counterbalance.Proofs.Block.Enumeration
import Counterbalance.Proofs.Block.Models
import Counterbalance.Proofs.Block.Capacity
import Counterbalance.Proofs.Block.Solutions
import Counterbalance.Proofs.Block.Completion
import Counterbalance.Proofs.Text.Words
import Counterbalance.Proofs.Solver.Transcript
import Counterbalance.Proofs.Design.Renumbering
import Counterbalance.Proofs.Block.Pruning
import Counterbalance.Proofs.Block.Crossing
import Counterbalance.Proofs.Block.Reading
import Counterbalance.Proofs.Block.Renumbering
import Counterbalance.Proofs.Block.Correspondence
import Counterbalance.Proofs.Design.Cycle
import Counterbalance.Proofs.Design.Sorting
import Counterbalance.Proofs.Block.Diagnosis
import Counterbalance.Proofs.Block.Acceptance
import Counterbalance.Proofs.Design.Shorthand
import Counterbalance.Proofs.Block.Shorthand
import Counterbalance.Proofs.Block.Presence
import Counterbalance.Proofs.Block.Decoding
import Counterbalance.Proofs.Block.RunLength
import Counterbalance.Proofs.Block.LevelReading
import Counterbalance.Proofs.Logic.Emission
import Counterbalance.Proofs.Logic.Freshness
import Counterbalance.Proofs.Block.Accounting
import Counterbalance.Proofs.Block.Lookup
import Counterbalance.Proofs.Block.Failure
import Counterbalance.Proofs.Block.Wraparound
import Counterbalance.Proofs.Logic.EncodingSize
import Counterbalance.Proofs.Logic.Sharing
import Counterbalance.Proofs.Solver.Entries
import Counterbalance.Proofs.Text.Lines
import Counterbalance.Proofs.Solver.Grammar
import Counterbalance.Proofs.Solver.RoundTrip
import Counterbalance.Proofs.Logic.Dimacs
import Counterbalance.Proofs.Logic.Unambiguous
import Counterbalance.Proofs.Logic.Range
import Counterbalance.Proofs.Text.Decimals
import Counterbalance.Proofs.Logic.Literal
import Counterbalance.Proofs.Json.Forms
import Counterbalance.Proofs.Design.Odometer
import Counterbalance.Proofs.Logic.Support
import Counterbalance.Proofs.Block.Numbering
