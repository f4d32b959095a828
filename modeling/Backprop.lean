import Backprop.Net.Build
import Backprop.Net.Training
import Backprop.Graph.Operators
import Backprop.Schedule.Edit
import Backprop.Number.Scientific
import Backprop.Proofs.Outcome
import Backprop.Proofs.Table
import Backprop.Proofs.Liveness
import Backprop.Proofs.Valuation
import Backprop.Proofs.Forward
import Backprop.Proofs.Binding
import Backprop.Proofs.ForwardPass
import Backprop.Proofs.Adjoint
import Backprop.Proofs.Backward
import Backprop.Proofs.BackwardPass
import Backprop.Proofs.Evaluation
import Backprop.Proofs.Arena
import Backprop.Proofs.Order
import Backprop.Proofs.LeastOrder
import Backprop.Proofs.Naming
import Backprop.Proofs.Layout
import Backprop.Proofs.Compilation
import Backprop.Proofs.WellFormed
import Backprop.Proofs.Calls
import Backprop.Proofs.Nets
import Backprop.Proofs.Derivatives
import Backprop.Proofs.Reclamation
import Backprop.Proofs.Denotation
import Backprop.Proofs.Results
import Backprop.Proofs.Polynomial
import Backprop.Proofs.Chain
import Backprop.Proofs.Gradient
import Backprop.Proofs.Checked
import Backprop.Proofs.Agreement
import Backprop.Proofs.History
import Backprop.Proofs.Exclusion
import Backprop.Proofs.PassStates
import Backprop.Proofs.Recording
import Backprop.Proofs.Requests
import Backprop.Proofs.Construction
import Backprop.Proofs.References
import Backprop.Proofs.Summation
import Backprop.Proofs.Reading
import Backprop.Proofs.FreshNames
import Backprop.Proofs.Compilable
import Backprop.Proofs.Expression
import Backprop.Proofs.ExpressionValue
import Backprop.Proofs.ExpressionNet
import Backprop.Proofs.Resolution
import Backprop.Proofs.NamingSession
import Backprop.Proofs.SlotNames
import Backprop.Proofs.CompileOutcome
import Backprop.Proofs.Occupancy
import Backprop.Proofs.LiveProfile
import Backprop.Proofs.Positions
import Backprop.Proofs.Words
import Backprop.Proofs.Broadcasting
import Backprop.Proofs.MatrixProduct
import Backprop.Proofs.Finite
import Backprop.Proofs.Typed
import Backprop.Proofs.Axes
import Backprop.Proofs.Reductions
import Backprop.Proofs.Selection
import Backprop.Proofs.Indexing
import Backprop.Proofs.Varying
import Backprop.Proofs.Extents
import Backprop.Proofs.LinearExtents
import Backprop.Proofs.Responses
import Backprop.Proofs.Seeding
import Backprop.Proofs.Sweep
import Backprop.Proofs.GradientPaths
import Backprop.Proofs.Whole
import Backprop.Proofs.Steady
import Backprop.Proofs.Batches
import Backprop.Proofs.Moving
import Backprop.Proofs.Staging
import Backprop.Proofs.Shipments
import Backprop.Proofs.Books
import Backprop.Proofs.Overlay
import Backprop.Proofs.Occasions
import Backprop.Proofs.Transfers
import Backprop.Proofs.Registries
import Backprop.Proofs.Locality
import Backprop.Proofs.Accumulation
import Backprop.Proofs.SequentialNames
import Backprop.Proofs.Recompilation
import Backprop.Proofs.Accepted
