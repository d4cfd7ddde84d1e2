import Opcodes.Main
import Opcodes.Rv32.Settings
import Opcodes.Proofs.Masks
import Opcodes.Proofs.Runs
import Opcodes.Proofs.SwitchTree
import Opcodes.Proofs.Forest
import Opcodes.Proofs.Lookup
import Opcodes.Proofs.Build
import Opcodes.Proofs.Layout
import Opcodes.Proofs.Reference
import Opcodes.Proofs.RuleOrder
import Opcodes.Proofs.Ambiguity
import Opcodes.Proofs.Winner
import Opcodes.Proofs.Outcome
import Opcodes.Proofs.Encoding
import Opcodes.Proofs.Sweep
import Opcodes.Proofs.Rv32
import Opcodes.Proofs.Fragments
import Opcodes.Layout.Stepwise
import Opcodes.Proofs.Extraction
import Opcodes.Proofs.Numeral
import Opcodes.Proofs.Tokens
import Opcodes.Proofs.Grammar
import Opcodes.Proofs.Parsing
import Opcodes.Proofs.Printing
import Opcodes.Proofs.LaterRules
import Opcodes.Proofs.Blame
import Opcodes.Proofs.Listing
import Opcodes.Proofs.Truncation
import Opcodes.Proofs.JoinedTables
import Opcodes.Proofs.Census
import Opcodes.Proofs.Representation
import Opcodes.Proofs.Constraints
import Opcodes.Proofs.Diagnostics
import Opcodes.Proofs.Flattening
import Opcodes.Proofs.Scatter
import Opcodes.Proofs.Assembly
import Opcodes.Rv32.Encoders
import Opcodes.Proofs.FieldForms
import Opcodes.Proofs.Encoders
import Opcodes.Proofs.ReadBack
import Opcodes.Proofs.Rendering
import Opcodes.Proofs.Repetition
import Opcodes.Proofs.Restatement
import Opcodes.Proofs.Tiling
import Opcodes.Proofs.Respelling
import Opcodes.Proofs.Footprint
import Opcodes.Proofs.Reads
import Opcodes.Proofs.Literal
import Opcodes.Proofs.Registry
import Opcodes.Proofs.Faults
import Opcodes.Proofs.Selection
import Opcodes.Proofs.Path
import Opcodes.Proofs.SwitchNode
