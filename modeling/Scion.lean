import Scion.Command
import Scion.Command.Outcome
import Scion.Config
import Scion.Config.Decode
import Scion.Config.File
import Scion.Decimal.Binary64
import Scion.Decimal.Shortest
import Scion.Derivation
import Scion.Derivation.Fingerprint
import Scion.Derivation.Revision
import Scion.Derivation.Text
import Scion.Derivation.Yield
import Scion.Error
import Scion.Failure
import Scion.Graft.Alternatives
import Scion.Graft.Host
import Scion.Graft.Placement
import Scion.Graft.Run
import Scion.Graft.Search
import Scion.Graft.Settings
import Scion.Graft.Validity
import Scion.Graft.Walk
import Scion.Grammar
import Scion.Grammar.Compact
import Scion.Grammar.Parents
import Scion.Grammar.Reachability
import Scion.Grammar.Rule
import Scion.Grammar.Text
import Scion.Json.Number
import Scion.Json.Reader
import Scion.Json.Token
import Scion.Json.Value
import Scion.Main
import Scion.Node
import Scion.Path
import Scion.Path.Notation
import Scion.Report
import Scion.Symbol
import Scion.Symbol.Table
import Scion.Text.Blank
import Scion.Text.CaseContext
import Scion.Text.Lowercase
import Scion.Text.Occurrence
import Scion.Text.Printable
import Scion.Text.Quoted
import Scion.Text.Ranges
import Scion.Text.Split
import Scion.Toml.Document
import Scion.Toml.Quoted
import Scion.Toml.Scalar
import Scion.Toml.Table
import Scion.Toml.Value
import Scion.Tree
import Scion.Tree.Address
import Scion.Tree.Traversal
import Scion.Yaml.Document
import Scion.Yaml.Node
import Scion.Yaml.Scalar
import Scion.Proofs.Tree.Address
import Scion.Proofs.Tree.Identity
import Scion.Proofs.Tree.Yield
import Scion.Proofs.Graft.Host
import Scion.Proofs.Graft.Walk
import Scion.Proofs.Graft.Move
import Scion.Proofs.Graft.Frontier
import Scion.Proofs.Graft.Legality
import Scion.Proofs.Graft.Yield
import Scion.Proofs.Graft.Identity
import Scion.Proofs.Grammar.WellFormed
import Scion.Proofs.Grammar.Parents
import Scion.Proofs.Grammar.Ways
import Scion.Proofs.Graft.Conformance
import Scion.Proofs.Graft.Termination
import Scion.Proofs.Grammar.Reachability
import Scion.Proofs.Grammar.Predecessors
import Scion.Proofs.Graft.Coverage
import Scion.Proofs.Graft.Batch
import Scion.Proofs.Graft.Layers
import Scion.Proofs.Graft.Accounting
import Scion.Proofs.Graft.Faults
import Scion.Proofs.Tree.Relabelling
import Scion.Proofs.Graft.Relabelling
import Scion.Proofs.Graft.Counterparts
import Scion.Proofs.Graft.Lockstep
import Scion.Proofs.Grammar.Compact
import Scion.Proofs.Graft.Containment
import Scion.Proofs.Json.Spelling
import Scion.Proofs.Json.Writing
import Scion.Proofs.Json.Reader
import Scion.Proofs.Grammar.Text
import Scion.Proofs.Tree.Text
import Scion.Proofs.Graft.Placement
import Scion.Proofs.Graft.Separation
import Scion.Proofs.Graft.Slots
import Scion.Proofs.Graft.Order
import Scion.Proofs.Tree.Lens
import Scion.Proofs.Tree.Frame
import Scion.Proofs.Grammar.Ranks
import Scion.Proofs.Tree.Traversal
import Scion.Proofs.Path.Order
import Scion.Proofs.Tree.OpenPositions
import Scion.Proofs.Tree.Copies
import Scion.Proofs.Grammar.Declaration
import Scion.Proofs.Path.Notation
import Scion.Proofs.Graft.Partition
import Scion.Proofs.Toml.Quoted
import Scion.Proofs.Toml.Document
import Scion.Proofs.Config.Saving
import Scion.Proofs.Grammar.Expansion
import Scion.Proofs.Graft.Expanding
import Scion.Proofs.Graft.Preference
