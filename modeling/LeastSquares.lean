import LeastSquares.BlockMatrix.Coordinates
import LeastSquares.Progress
import LeastSquares.Proofs.Panels
import LeastSquares.Workspace.Run
import LeastSquares.Proofs.Products
import LeastSquares.Proofs.Conjugacy
import LeastSquares.Proofs.Termination
import LeastSquares.Proofs.Reachability
import LeastSquares.Proofs.Stretching
import LeastSquares.Proofs.Exactness
import LeastSquares.Proofs.Collation
import LeastSquares.Proofs.Jacobian
import LeastSquares.Proofs.Stacking
import LeastSquares.Proofs.Linearization
import LeastSquares.Proofs.LinearGraphs
import LeastSquares.Proofs.Costs
import LeastSquares.Proofs.GlobalMinimum
import LeastSquares.Proofs.Decrease
import LeastSquares.Proofs.Krylov
import LeastSquares.Proofs.Movement
import LeastSquares.Proofs.Distance
import LeastSquares.Proofs.NormalEquations
import LeastSquares.Proofs.Descent
import LeastSquares.Proofs.Lockstep
import LeastSquares.Proofs.FactorOrder
import LeastSquares.Proofs.Reordering
import LeastSquares.Proofs.InsertionOrder
import LeastSquares.Proofs.Bands
import LeastSquares.Proofs.Shapes
import LeastSquares.Proofs.Iterates
import LeastSquares.Proofs.Derivatives
import LeastSquares.Proofs.Sessions
import LeastSquares.Proofs.StoreCommands
import LeastSquares.Proofs.StoreRuns
import LeastSquares.Proofs.Frames
import LeastSquares.Proofs.Representations
import LeastSquares.Proofs.Resumption
import LeastSquares.Proofs.Sizes
import LeastSquares.Proofs.JointAxes
import LeastSquares.Proofs.Safety
import LeastSquares.Proofs.Coverage
import LeastSquares.Proofs.Landings
import LeastSquares.Proofs.Construction
import LeastSquares.Proofs.Embeddings
import LeastSquares.Proofs.Coordinates
import LeastSquares.Proofs.CollatedRows
import LeastSquares.Proofs.Layouts
import LeastSquares.Proofs.Refusals
import LeastSquares.Proofs.Loops
import LeastSquares.Proofs.Directions
import LeastSquares.Proofs.Multiples
import LeastSquares.Proofs.WarmStarts
import LeastSquares.Proofs.Weights
import LeastSquares.Proofs.Reuse
import LeastSquares.Proofs.Displacements
import LeastSquares.Proofs.Differences
import LeastSquares.Proofs.Settling
import LeastSquares.Proofs.MissingKeys
import LeastSquares.Proofs.RowShifts
import LeastSquares.Proofs.Windows
