import RelayLogic.Circuit.Basic
import RelayLogic.Circuit.Build
import RelayLogic.Circuit.Query
import RelayLogic.Circuit.Validity
import RelayLogic.Clock
import RelayLogic.CommandLine.Directory
import RelayLogic.CommandLine.Duration
import RelayLogic.CommandLine.Host
import RelayLogic.CommandLine.Options
import RelayLogic.CommandLine.Path
import RelayLogic.CommandLine.Run
import RelayLogic.CommandLine.Usage
import RelayLogic.Configuration
import RelayLogic.Decimal.Reading
import RelayLogic.Decimal.Shortest
import RelayLogic.Diagram.Basic
import RelayLogic.Diagram.Circuit
import RelayLogic.Diagram.Lexer
import RelayLogic.Diagram.Parser
import RelayLogic.Diagram.Quantity
import RelayLogic.Diagram.Statement
import RelayLogic.Diagram.Token
import RelayLogic.Error
import RelayLogic.Main
import RelayLogic.Netlist.Bytes
import RelayLogic.Netlist.Decode
import RelayLogic.Netlist.Encode
import RelayLogic.Netlist.Entry
import RelayLogic.Netlist.Record
import RelayLogic.Plan.Basic
import RelayLogic.Plan.Compile
import RelayLogic.Proofs.Adding
import RelayLogic.Proofs.Agreement
import RelayLogic.Proofs.Bindings
import RelayLogic.Proofs.Clearing
import RelayLogic.Proofs.Cycle
import RelayLogic.Proofs.Directing
import RelayLogic.Proofs.Drawing
import RelayLogic.Proofs.Edge
import RelayLogic.Proofs.Editing
import RelayLogic.Proofs.Encoding
import RelayLogic.Proofs.Evaluators
import RelayLogic.Proofs.Following
import RelayLogic.Proofs.Gaining
import RelayLogic.Proofs.Grouping
import RelayLogic.Proofs.Interleaving
import RelayLogic.Proofs.Laying
import RelayLogic.Proofs.Loading
import RelayLogic.Proofs.Lockstep
import RelayLogic.Proofs.Mirror
import RelayLogic.Proofs.Pairing
import RelayLogic.Proofs.Preparing
import RelayLogic.Proofs.Recovery
import RelayLogic.Proofs.Regrouping
import RelayLogic.Proofs.Replay
import RelayLogic.Proofs.Roundtrip
import RelayLogic.Proofs.Saving
import RelayLogic.Proofs.Settling
import RelayLogic.Proofs.Shifting
import RelayLogic.Proofs.Simulating
import RelayLogic.Proofs.Steadiness
import RelayLogic.Proofs.Taking
import RelayLogic.Proofs.Translation
import RelayLogic.Schedule
import RelayLogic.Seconds
import RelayLogic.Simulator
import RelayLogic.Strategy.Basic
import RelayLogic.Strategy.Binding
import RelayLogic.Strategy.Timer
import RelayLogic.Text.Alphabetic
import RelayLogic.Text.Alphanumeric
import RelayLogic.Text.Blank
import RelayLogic.Text.Cased
import RelayLogic.Text.Extending
import RelayLogic.Text.Ignorable
import RelayLogic.Text.Lowercase
import RelayLogic.Text.Numeric
import RelayLogic.Text.Quoted
import RelayLogic.Text.Ranges
import RelayLogic.Text.Utf8
import RelayLogic.Ticker
import RelayLogic.Toml.Basic
import RelayLogic.Toml.Document
import RelayLogic.Toml.Moment
import RelayLogic.Toml.Numeral
import RelayLogic.Toml.Quotation
import RelayLogic.Toml.Reader
import RelayLogic.Tri
import RelayLogic.Wiring.Adjacency
import RelayLogic.Wiring.Direction
import RelayLogic.Wiring.Reach
import RelayLogic.Proofs.Consuming
import RelayLogic.Proofs.Descending
import RelayLogic.Proofs.Forming
import RelayLogic.Proofs.Showing
import RelayLogic.Proofs.Telling
import RelayLogic.Proofs.Rooting
import RelayLogic.Proofs.Safety
import RelayLogic.Proofs.Retelling
import RelayLogic.Proofs.Pruning
import RelayLogic.Proofs.Enlarging
import RelayLogic.Proofs.Sparing
import RelayLogic.Proofs.Appending
import RelayLogic.Proofs.Annexing
import RelayLogic.Proofs.Refining
import RelayLogic.Proofs.Tracing
import RelayLogic.Proofs.Sequencing
import RelayLogic.Proofs.Depicting
import RelayLogic.Proofs.Assembling
import RelayLogic.Proofs.Fidelity
import RelayLogic.Proofs.Delaying
import RelayLogic.Proofs.Pulsing
import RelayLogic.Decimal.Rounding
import RelayLogic.Proofs.Failing
import RelayLogic.Proofs.Owning
import RelayLogic.Proofs.Fixing
import RelayLogic.Proofs.Cutting
import RelayLogic.Proofs.Rounding
import RelayLogic.Proofs.Approximating
import RelayLogic.Proofs.Covering
import RelayLogic.Proofs.Adopting
import RelayLogic.Proofs.Looping
import RelayLogic.Proofs.Folding
import RelayLogic.Proofs.Measuring
import RelayLogic.Proofs.Kleene
import RelayLogic.Proofs.Stepping
import RelayLogic.Proofs.Tiling
