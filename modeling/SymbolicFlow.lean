import SymbolicFlow.Text.Hex
import SymbolicFlow.Text.Hidden
import SymbolicFlow.Text.Quoted
import SymbolicFlow.Machine
import SymbolicFlow.Machine.X64
import SymbolicFlow.Instruction
import SymbolicFlow.Fault
import SymbolicFlow.RegisterMap
import SymbolicFlow.Digraph
import SymbolicFlow.Digraph.Search
import SymbolicFlow.Digraph.Dominators
import SymbolicFlow.Digraph.Frontier
import SymbolicFlow.Digraph.Loops
import SymbolicFlow.Procedure
import SymbolicFlow.Ssa
import SymbolicFlow.Ssa.Naming
import SymbolicFlow.Ssa.Placement
import SymbolicFlow.Ssa.Renaming
import SymbolicFlow.Value
import SymbolicFlow.Value.Render
import SymbolicFlow.Value.Store
import SymbolicFlow.Event
import SymbolicFlow.Policy
import SymbolicFlow.Evaluation
import SymbolicFlow.Schedule
import SymbolicFlow.Analysis
import SymbolicFlow.Client.Recorder
import SymbolicFlow.Client.Grouping
import SymbolicFlow.Proofs.Digraph.Representation
import SymbolicFlow.Proofs.Digraph.Paths
import SymbolicFlow.Proofs.Digraph.DepthFirst
import SymbolicFlow.Proofs.Digraph.Ancestry
import SymbolicFlow.Proofs.Digraph.Settling
import SymbolicFlow.Proofs.Digraph.Dominators
import SymbolicFlow.Proofs.Digraph.Frontiers
import SymbolicFlow.Proofs.Digraph.Postorder
import SymbolicFlow.Proofs.Digraph.Convergence
import SymbolicFlow.Proofs.Procedure
import SymbolicFlow.Proofs.Edits
import SymbolicFlow.Proofs.Ssa.Placement
import SymbolicFlow.Proofs.Ssa.Walk
import SymbolicFlow.Proofs.Ssa.Naming
import SymbolicFlow.Proofs.Ssa.Renaming
import SymbolicFlow.Proofs.Ssa.Construction
import SymbolicFlow.Proofs.Ssa.PathValues
import SymbolicFlow.Proofs.Ssa.Dominance
import SymbolicFlow.Proofs.Ssa.Orderly
import SymbolicFlow.Proofs.Ssa.SingleAssignment
import SymbolicFlow.Proofs.Ssa.Phis
import SymbolicFlow.Proofs.Evaluation.Expression
import SymbolicFlow.Proofs.Evaluation.Progress
import SymbolicFlow.Proofs.Evaluation.Operands
import SymbolicFlow.Proofs.Evaluation.Statements
import SymbolicFlow.Proofs.Evaluation.Walk
import SymbolicFlow.Proofs.Evaluation.Refinement
import SymbolicFlow.Proofs.Evaluation.Soundness
import SymbolicFlow.Proofs.Evaluation.Moves
import SymbolicFlow.Proofs.Evaluation.Acyclic
import SymbolicFlow.Proofs.Evaluation.Invariants
import SymbolicFlow.Proofs.Evaluation.Placeholders
import SymbolicFlow.Proofs.Evaluation.Results
import SymbolicFlow.Proofs.Evaluation.Loads
import SymbolicFlow.Proofs.Evaluation.Nesting
import SymbolicFlow.Proofs.Digraph.BreadthFirst
import SymbolicFlow.Proofs.Digraph.Distances
import SymbolicFlow.Proofs.Digraph.NaturalLoops
import SymbolicFlow.Proofs.Digraph.LoopGrowth
import SymbolicFlow.Proofs.Digraph.LoopNesting
import SymbolicFlow.Proofs.Digraph.LoopBodies
import SymbolicFlow.Proofs.Digraph.LoopForest
import SymbolicFlow.Proofs.Schedule.Run
import SymbolicFlow.Proofs.Schedule.Precedence
import SymbolicFlow.Proofs.Text.Words
import SymbolicFlow.Proofs.Value.Rendering
import SymbolicFlow.Proofs.Value.Reading
import SymbolicFlow.Proofs.Value.Faithful
import SymbolicFlow.Proofs.Value.Printing
import SymbolicFlow.Proofs.Evaluation.Growth
import SymbolicFlow.Proofs.Analysis.Depth
import SymbolicFlow.Proofs.Analysis.Protocol
import SymbolicFlow.Proofs.Analysis.Lasting
import SymbolicFlow.Proofs.Analysis.Values
import SymbolicFlow.Proofs.Client.Grouping
import SymbolicFlow.Proofs.Client.ArrayBases
import SymbolicFlow.Proofs.Evaluation.Outputs
import SymbolicFlow.Proofs.Evaluation.Shifts
import SymbolicFlow.Proofs.Ssa.CounterReads
import SymbolicFlow.Proofs.Analysis.CounterReads
import SymbolicFlow.Proofs.Analysis.Phis
