import AtomArray.Binary64
import AtomArray.CommandLine.Arguments
import AtomArray.CommandLine.Listing
import AtomArray.CommandLine.Loading
import AtomArray.CommandLine.Outcome
import AtomArray.CommandLine.Request
import AtomArray.Config
import AtomArray.Config.Data
import AtomArray.Config.Fault
import AtomArray.Config.Load
import AtomArray.Config.Yaml
import AtomArray.Data
import AtomArray.Decimal.Numeral
import AtomArray.Decimal.Shortest
import AtomArray.Decimal.Style
import AtomArray.Device
import AtomArray.Device.Data
import AtomArray.Device.Error
import AtomArray.Device.Verdict
import AtomArray.Duration
import AtomArray.Folder
import AtomArray.Gate
import AtomArray.Gate.Data
import AtomArray.Json.Printer
import AtomArray.Json.Reader
import AtomArray.Layout
import AtomArray.Layout.Data
import AtomArray.Lowering
import AtomArray.Main
import AtomArray.Native
import AtomArray.Operation
import AtomArray.Operation.Data
import AtomArray.Qubit
import AtomArray.Qubit.Data
import AtomArray.Rewriting
import AtomArray.Site
import AtomArray.Site.Ascending
import AtomArray.Site.Lattice
import AtomArray.Timing
import AtomArray.Yaml
import AtomArray.Yaml.Document
import AtomArray.Yaml.Nesting
import AtomArray.Yaml.Printer
import AtomArray.Yaml.Scalar
import AtomArray.Yaml.Token
import AtomArray.Proofs.Binary64
import AtomArray.Proofs.Binary64.NotANumber
import AtomArray.Proofs.Binary64.Unpacked
import AtomArray.Proofs.Binary64.Value
import AtomArray.Proofs.Circuit.Bits
import AtomArray.Proofs.Circuit.Exchange
import AtomArray.Proofs.Circuit.Involution
import AtomArray.Proofs.Circuit.Operator
import AtomArray.Proofs.Circuit.Phase
import AtomArray.Proofs.Circuit.Unitary
import AtomArray.Proofs.Device.Connectivity
import AtomArray.Proofs.Device.Neighbors
import AtomArray.Proofs.Device.Preparation
import AtomArray.Proofs.Device.Reach
import AtomArray.Proofs.Device.Ruling
import AtomArray.Proofs.Device.Sites
import AtomArray.Proofs.Lowering.Expansion
import AtomArray.Proofs.Lowering.Tree
import AtomArray.Proofs.Rewriting.Coupling
import AtomArray.Proofs.Rewriting.Height
import AtomArray.Proofs.Rewriting.Rule
import AtomArray.Proofs.Rewriting.Standard
import AtomArray.Proofs.Traversal
import AtomArray.Proofs.WholeExponent
import AtomArray.Proofs.CommandLine.Validation
import AtomArray.Proofs.Binary64.Arithmetic
import AtomArray.Proofs.Decimal.Numeral
import AtomArray.Proofs.Decimal.Digits
import AtomArray.Proofs.Decimal.Shape
import AtomArray.Proofs.Json.Quoted
import AtomArray.Proofs.Json.Legible
import AtomArray.Proofs.Json.Spacing
import AtomArray.Proofs.Json.Reading
import AtomArray.Proofs.Qubit.Order
import AtomArray.Proofs.Qubit.Data
import AtomArray.Proofs.Operation.Text
import AtomArray.Proofs.Device.Text
import AtomArray.Proofs.Yaml.Resolution
import AtomArray.Proofs.Yaml.Scalars
import AtomArray.Proofs.Yaml.Tidy
import AtomArray.Proofs.Yaml.Nodes
import AtomArray.Proofs.Yaml.Scan
import AtomArray.Proofs.Yaml.Block
import AtomArray.Proofs.Yaml.Flow
import AtomArray.Proofs.Yaml.Document
import AtomArray.Proofs.Device.Interchange
import AtomArray.Proofs.Site.Axis
import AtomArray.Proofs.Site.Places
import AtomArray.Proofs.Site.Lattice
import AtomArray.Proofs.Config.Sites
import AtomArray.Proofs.Config.Data
import AtomArray.Proofs.Site.Finite
import AtomArray.Proofs.Config.Text
import AtomArray.Proofs.CommandLine.Generation
import AtomArray.Proofs.Rewriting.EvenPower
import AtomArray.Proofs.Layout.Refusal
import AtomArray.Proofs.Site.Collection
import AtomArray.Proofs.Device.OnSites
import AtomArray.Proofs.Config.Building
import AtomArray.Proofs.Device.Construction
import AtomArray.Proofs.Binary64.Order
import AtomArray.Proofs.Device.Widening
import AtomArray.Proofs.Device.Likeness
import AtomArray.Proofs.Operation.Binding
import AtomArray.Proofs.Config.Loading
import AtomArray.Proofs.Config.Formats
import AtomArray.Proofs.Device.Adjacency
import AtomArray.Proofs.Site.Numbering
import AtomArray.Proofs.Binary64.Negation
import AtomArray.Proofs.Binary64.Exact
import AtomArray.Proofs.Site.Translation
