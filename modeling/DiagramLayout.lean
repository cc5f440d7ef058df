import DiagramLayout.Energy.Search
import DiagramLayout.Proofs.Energy.Accepted
import DiagramLayout.Proofs.Energy.Circles
import DiagramLayout.Proofs.Energy.Decomposition
import DiagramLayout.Proofs.Energy.Refused
import DiagramLayout.Proofs.Energy.Report
import DiagramLayout.Proofs.Energy.Unresolved
import DiagramLayout.Proofs.Graph.DeadBranch
import DiagramLayout.Proofs.Graph.Mixed
import DiagramLayout.Proofs.Graph.Power
import DiagramLayout.Proofs.Graph.Reused
import DiagramLayout.Proofs.Graph.Slope
import DiagramLayout.Proofs.Graph.Workspace
import DiagramLayout.Proofs.Lbfgs.Definite
import DiagramLayout.Proofs.Lbfgs.Dense
import DiagramLayout.Proofs.Lbfgs.Threaded
import DiagramLayout.Proofs.LineSearch.Bracket
import DiagramLayout.Proofs.Log.Aligned
import DiagramLayout.Proofs.Optimizer.Certificate
import DiagramLayout.Proofs.Optimizer.Descent
import DiagramLayout.Proofs.Optimizer.Escapes
import DiagramLayout.Proofs.Optimizer.LastReading
import DiagramLayout.Proofs.Optimizer.Monotone
import DiagramLayout.Proofs.Optimizer.Projection
import DiagramLayout.Proofs.Optimizer.Restart
import DiagramLayout.Proofs.Optimizer.Splitting
import DiagramLayout.Proofs.Optimizer.Stationary
import DiagramLayout.Proofs.Optimizer.Steepest
import DiagramLayout.Proofs.Optimizer.Unreferenced
import DiagramLayout.Proofs.Shapes.Arguments
import DiagramLayout.Proofs.Shapes.Declared
import DiagramLayout.Proofs.Shapes.Writable
import DiagramLayout.Proofs.Trace.Iterations
import DiagramLayout.Proofs.Trace.Searches
import DiagramLayout.Proofs.Trace.Statuses
import DiagramLayout.Trace.Record
import DiagramLayout.Value.Double
