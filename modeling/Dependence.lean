import Dependence.Analysis.Basic
import Dependence.Combined
import Dependence.Control.Basic
import Dependence.Data.Basic
import Dependence.Decimal.Shortest
import Dependence.Digraph.Basic
import Dependence.Digraph.Crawl
import Dependence.Dominance.Loose
import Dependence.Dominance.Table
import Dependence.Dominance.Tree
import Dependence.Error
import Dependence.Fault
import Dependence.Flow.Basic
import Dependence.Flow.Build
import Dependence.Flow.Reference
import Dependence.Graph.Basic
import Dependence.Graph.Node
import Dependence.Graph.Reach
import Dependence.Log.Action
import Dependence.Log.Level
import Dependence.Log.Record
import Dependence.Log.Setup
import Dependence.Method.Basic
import Dependence.Method.Breakdown
import Dependence.Method.Bytecode
import Dependence.Method.Listing
import Dependence.Options
import Dependence.OrderedMap
import Dependence.Proofs.Digraph.Crawl
import Dependence.Proofs.Digraph.Transpose
import Dependence.Proofs.Dominance.Chain
import Dependence.Proofs.Dominance.Refinement
import Dependence.Proofs.OrderedMap
import Dependence.Proofs.Path
import Dependence.Slice.Basic
import Dependence.Slice.Metric
import Dependence.Text.Printable
import Dependence.Text.Quoted
import Dependence.Value.Access
import Dependence.Value.Basic
import Dependence.Value.Number
import Dependence.Value.Print
import Dependence.Workspace.Basic
import Dependence.Workspace.Command
import Dependence.Workspace.Inquiry
import Dependence.Proofs.Dominance.Tree
import Dependence.Proofs.Graph.Edges
import Dependence.Proofs.Flow.Build
import Dependence.Proofs.Control
import Dependence.Proofs.Search
import Dependence.Proofs.Data
import Dependence.Proofs.Combined
import Dependence.Proofs.Analysis
import Dependence.Proofs.Slice
import Dependence.Proofs.Forward
import Dependence.Proofs.Failure
import Dependence.Proofs.Digraph.Roots
import Dependence.Proofs.Flow.Topology
import Dependence.Proofs.Flow.Shape
import Dependence.Proofs.Order
import Dependence.Proofs.Dominance.Immediate
import Dependence.Proofs.Dominance.Termination
import Dependence.Proofs.Graph.Listing
import Dependence.Proofs.Graph.History
import Dependence.Proofs.Renaming
import Dependence.Proofs.Method.Bytecode
import Dependence.Proofs.Method.Expansion
import Dependence.Proofs.Method.Transfer
import Dependence.Proofs.Loop
import Dependence.Proofs.Flow.Entrance
import Dependence.Proofs.Sweep
import Dependence.Proofs.Metric
import Dependence.Proofs.Flow.Diagnosis
import Dependence.Proofs.Lookup
import Dependence.Proofs.Dominance.Common
import Dependence.Proofs.Recursion
import Dependence.Proofs.Digraph.Postorder
import Dependence.Proofs.Union
import Dependence.Proofs.Digraph.Reversal
