import FlowAnalysis.Analyses.Clamp
import FlowAnalysis.Analyses.GenKill
import FlowAnalysis.Analyses.Liveness
import FlowAnalysis.Constants.Registers
import FlowAnalysis.Constants.Bindings
import FlowAnalysis.Graph.Build
import FlowAnalysis.Graph.Adjacency
import FlowAnalysis.Proofs.Graph.Acyclic
import FlowAnalysis.Proofs.Graph.Reversal
import FlowAnalysis.Proofs.Graph.Commands
import FlowAnalysis.Proofs.Graph.Adjacency
import FlowAnalysis.Proofs.Solver.Runs
import FlowAnalysis.Proofs.Solver.Equations
import FlowAnalysis.Proofs.Solver.Ascent
import FlowAnalysis.Proofs.Solver.LeastSolution
import FlowAnalysis.Proofs.Solver.Acyclic
import FlowAnalysis.Proofs.Solver.History
import FlowAnalysis.Proofs.Solver.Schedule
import FlowAnalysis.Proofs.Solver.Lockstep
import FlowAnalysis.Proofs.Solver.Decisions
import FlowAnalysis.Proofs.Solver.Reversal
import FlowAnalysis.Proofs.Constants.Order
import FlowAnalysis.Proofs.Constants.Words
import FlowAnalysis.Proofs.Constants.Transfer
import FlowAnalysis.Proofs.Constants.Soundness
import FlowAnalysis.Proofs.Solver.Recurrence
import FlowAnalysis.Proofs.Constants.Termination
import FlowAnalysis.Proofs.Constants.Acyclic
import FlowAnalysis.Proofs.Constants.Slicing
import FlowAnalysis.Proofs.Solver.Budget
import FlowAnalysis.Proofs.Constants.Budget
import FlowAnalysis.Proofs.Solver.Paths
import FlowAnalysis.Proofs.Solver.Lookups
import FlowAnalysis.Proofs.Solver.TwoWay
import FlowAnalysis.Constants.Checked
import FlowAnalysis.Solver.Checked
import FlowAnalysis.Solver.TwoWay
import FlowAnalysis.Proofs.Constants.Untracked
import FlowAnalysis.Proofs.Constants.Tracking
import FlowAnalysis.Proofs.Constants.Failure
import FlowAnalysis.Proofs.Constants.Monotonicity
import FlowAnalysis.Proofs.Constants.Folding
import FlowAnalysis.Proofs.Constants.Bindings
import FlowAnalysis.Proofs.Constants.Merging
import FlowAnalysis.Proofs.Constants.Families
import FlowAnalysis.Proofs.Constants.Statements
import FlowAnalysis.Constants.Reporting
import FlowAnalysis.Proofs.Requests
import FlowAnalysis.Bytes
import FlowAnalysis.Constants.Printing
import FlowAnalysis.Names
import FlowAnalysis.Proofs.Constants.Printing
import FlowAnalysis.Program.Reading
import FlowAnalysis.Proofs.Program.Texts
import FlowAnalysis.Program.Draft
import FlowAnalysis.Proofs.Program.Objects
import FlowAnalysis.Proofs.Program.Drafts
import FlowAnalysis.Proofs.Program.Listings
