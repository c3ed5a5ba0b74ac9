import DecisionModel.Number.DoubleScalar
import DecisionModel.Builder.Function
import DecisionModel.Builder.Model
import DecisionModel.Solution.Diagnostics
import DecisionModel.Solver.Session
import DecisionModel.Proofs.CpSat.Arithmetic
import DecisionModel.Proofs.CpSat.Logic
import DecisionModel.Proofs.Builder.Names
import DecisionModel.Proofs.Lowering.Solution
import DecisionModel.Proofs.Lowering.Model
import DecisionModel.Proofs.Lowering.Creation
import DecisionModel.Proofs.CpSat.Model
import DecisionModel.Proofs.Tolerant.Model
import DecisionModel.Proofs.Tolerant.Posting
import DecisionModel.Proofs.Evaluation.Termination
import DecisionModel.Proofs.Evaluation.Monotone
import DecisionModel.Proofs.Solution.Complete
import DecisionModel.Proofs.Solution.Faults
import DecisionModel.Proofs.Solution.Evaluable
import DecisionModel.Proofs.Solver.Idempotent
import DecisionModel.Proofs.Solver.Readback
import DecisionModel.Proofs.Solver.Binary
import DecisionModel.Proofs.Solver.Registry
import DecisionModel.Proofs.Solver.Boolean
import DecisionModel.Proofs.Solver.Sequence
import DecisionModel.Proofs.Solver.Verbosity
import DecisionModel.Proofs.CpSat.Domain
import DecisionModel.Proofs.Solver.Thresholds
import DecisionModel.Proofs.Solver.FirstMatch
import DecisionModel.Proofs.Solver.KeyedMembership
import DecisionModel.Proofs.Solver.VariablePosition
import DecisionModel.Proofs.Solver.BranchLookup
import DecisionModel.Proofs.Solver.Bounds
import DecisionModel.Proofs.Solution.Sequences
import DecisionModel.Proofs.Solution.Tolerance
import DecisionModel.Proofs.Z3.Quotient
import DecisionModel.Proofs.Z3.Divisors
import DecisionModel.Proofs.Z3.Constants
import DecisionModel.Proofs.Builder.Connective
import DecisionModel.Proofs.Builder.Operators
import DecisionModel.Proofs.Solver.Conjuncts
import DecisionModel.Proofs.Solver.UnknownVariable
import DecisionModel.Proofs.Solver.ConstantFolding
