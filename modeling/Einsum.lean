import Einsum.Invocation
import Einsum.Document.Settings
import Einsum.Proofs.ContractionOrder
import Einsum.Proofs.Evaluation
import Einsum.Proofs.SingleAssignment
import Einsum.Proofs.Agreement
import Einsum.Proofs.Estimates
import Einsum.Proofs.Growing
import Einsum.Proofs.BestTrees
import Einsum.Proofs.FlopsOnly
import Einsum.Proofs.OptimalPlans
import Einsum.Proofs.Grammar
import Einsum.Proofs.Blame
import Einsum.Proofs.Printing
import Einsum.Proofs.Cycles
import Einsum.Proofs.Lifetimes
import Einsum.Proofs.Sizing
import Einsum.Proofs.Bindings
import Einsum.Proofs.RenamedPlans
import Einsum.Proofs.CompletePaths
import Einsum.Proofs.Diagonals
import Einsum.Proofs.AxisGroups
import Einsum.Proofs.RoundTrips
import Einsum.Proofs.IndexFormula
import Einsum.Proofs.ExactCounts
import Einsum.Proofs.ImplicitOutput
import Einsum.Proofs.SingleOperand
import Einsum.Proofs.CheapestPairs
import Einsum.Proofs.AxisSums
import Einsum.Proofs.AxisOrders
import Einsum.Proofs.PoolRuns
import Einsum.Proofs.SubsetEntries
import Einsum.Proofs.ErrorKinds
import Einsum.Proofs.Invocations
