import ReversibleLogic.Aig.Diagram
import ReversibleLogic.Aig.Graph
import ReversibleLogic.Aig.Signal
import ReversibleLogic.Bdd.Function
import ReversibleLogic.Bdd.Ite
import ReversibleLogic.Bdd.Manager
import ReversibleLogic.Bdd.Models
import ReversibleLogic.Bdd.Quantifier
import ReversibleLogic.Bdd.Reachable
import ReversibleLogic.Bdd.Ref
import ReversibleLogic.Bdd.Substitution
import ReversibleLogic.BooleanFunction
import ReversibleLogic.Circuit
import ReversibleLogic.Circuit.Edit
import ReversibleLogic.Cnf.Builder
import ReversibleLogic.Cnf.Encoding
import ReversibleLogic.Embedding
import ReversibleLogic.Error
import ReversibleLogic.Exact.Descriptor
import ReversibleLogic.Exact.Search
import ReversibleLogic.Gate.Basic
import ReversibleLogic.Gate.Checked
import ReversibleLogic.Permutation
import ReversibleLogic.Proofs.Aig.Built
import ReversibleLogic.Proofs.Aig.Diagrams
import ReversibleLogic.Proofs.Aig.Operations
import ReversibleLogic.Proofs.Aig.RoundTrip
import ReversibleLogic.Proofs.Aig.Signals
import ReversibleLogic.Proofs.Aig.Values
import ReversibleLogic.Proofs.Bdd.Construction
import ReversibleLogic.Proofs.Bdd.Counting
import ReversibleLogic.Proofs.Bdd.Cubes
import ReversibleLogic.Proofs.Bdd.Enumeration
import ReversibleLogic.Proofs.Bdd.Functions
import ReversibleLogic.Proofs.Bdd.Ite
import ReversibleLogic.Proofs.Bdd.Labels
import ReversibleLogic.Proofs.Bdd.ModelLists
import ReversibleLogic.Proofs.Bdd.Models
import ReversibleLogic.Proofs.Bdd.Paths
import ReversibleLogic.Proofs.Bdd.Quantification
import ReversibleLogic.Proofs.Bdd.Reached
import ReversibleLogic.Proofs.Bdd.Recall
import ReversibleLogic.Proofs.Bdd.Replay
import ReversibleLogic.Proofs.Bdd.RoundTrip
import ReversibleLogic.Proofs.Bdd.Semantics
import ReversibleLogic.Proofs.Bdd.Substitution
import ReversibleLogic.Proofs.Bdd.Support
import ReversibleLogic.Proofs.Bdd.Tables
import ReversibleLogic.Proofs.Bdd.Twins
import ReversibleLogic.Proofs.Bdd.Walks
import ReversibleLogic.Proofs.BooleanFunction
import ReversibleLogic.Proofs.Circuit
import ReversibleLogic.Proofs.Circuit.Edits
import ReversibleLogic.Proofs.Cnf.Cascades
import ReversibleLogic.Proofs.Cnf.Connectives
import ReversibleLogic.Proofs.Cnf.Definitions
import ReversibleLogic.Proofs.Cnf.Diagrams
import ReversibleLogic.Proofs.Cnf.Encoders
import ReversibleLogic.Proofs.Cnf.Graphs
import ReversibleLogic.Proofs.Computation
import ReversibleLogic.Proofs.Embedding.Diagrams
import ReversibleLogic.Proofs.Embedding.Multiplicity
import ReversibleLogic.Proofs.Embedding.Recovery
import ReversibleLogic.Proofs.Embedding.Tables
import ReversibleLogic.Proofs.Exact.Cascades
import ReversibleLogic.Proofs.Exact.Comparison
import ReversibleLogic.Proofs.Exact.Descriptors
import ReversibleLogic.Proofs.Exact.Search
import ReversibleLogic.Proofs.Exact.Symbolic
import ReversibleLogic.Proofs.Gate.Canonicity
import ReversibleLogic.Proofs.Gate.Cascade
import ReversibleLogic.Proofs.Gate.Cubes
import ReversibleLogic.Proofs.Gate.Normal
import ReversibleLogic.Proofs.Permutation
import ReversibleLogic.Proofs.Permutation.Laws
import ReversibleLogic.Proofs.Relation.Construction
import ReversibleLogic.Proofs.Relation.Functions
import ReversibleLogic.Proofs.Relation.Gates
import ReversibleLogic.Proofs.Relation.Pairs
import ReversibleLogic.Proofs.Relation.Questions
import ReversibleLogic.Proofs.Sat.Laws
import ReversibleLogic.Proofs.Storage
import ReversibleLogic.Proofs.Storage.History
import ReversibleLogic.Proofs.Storage.Numbering
import ReversibleLogic.Proofs.Storage.Pairing
import ReversibleLogic.Proofs.Transform.Choice
import ReversibleLogic.Proofs.Transform.Folding
import ReversibleLogic.Proofs.Transform.Following
import ReversibleLogic.Proofs.Transform.Injectivity
import ReversibleLogic.Proofs.Transform.Layers
import ReversibleLogic.Proofs.Transform.Merging
import ReversibleLogic.Proofs.Transform.Presentations
import ReversibleLogic.Proofs.Transform.Queries
import ReversibleLogic.Proofs.Transform.Relations
import ReversibleLogic.Proofs.Transform.Rows
import ReversibleLogic.Proofs.Transform.Runs
import ReversibleLogic.Proofs.Transform.Solvers
import ReversibleLogic.Proofs.Transform.Tables
import ReversibleLogic.Proofs.Transform.Wide
import ReversibleLogic.Proofs.Words
import ReversibleLogic.Relation
import ReversibleLogic.Report
import ReversibleLogic.Sat.Clause
import ReversibleLogic.Sat.Engine
import ReversibleLogic.Sat.Search
import ReversibleLogic.Sat.Solver
import ReversibleLogic.Storage.Cache
import ReversibleLogic.Storage.Pairing
import ReversibleLogic.Storage.Table
import ReversibleLogic.Task
import ReversibleLogic.Text.Align
import ReversibleLogic.Text.Decimal
import ReversibleLogic.Text.Escaped
import ReversibleLogic.Text.Quoted
import ReversibleLogic.Transform.Explicit
import ReversibleLogic.Transform.Lookback
import ReversibleLogic.Transform.Run
import ReversibleLogic.Transform.Solving
import ReversibleLogic.Transform.Step
import ReversibleLogic.Transform.Symbolic
import ReversibleLogic.Word
