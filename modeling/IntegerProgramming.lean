import IntegerProgramming.Arithmetic.Binary64
import IntegerProgramming.Arithmetic.Exact
import IntegerProgramming.LinearProgram.Error
import IntegerProgramming.LinearProgram.Run
import IntegerProgramming.Search.Run
import IntegerProgramming.Search.Solve
import IntegerProgramming.Proofs.Exact.Order
import IntegerProgramming.Proofs.Exact.Program
import IntegerProgramming.Proofs.Search.Region
import IntegerProgramming.Proofs.Search.Steps
import IntegerProgramming.Proofs.Search.Coverage
import IntegerProgramming.Proofs.Search.Optimality
import IntegerProgramming.Proofs.Search.Emptiness
import IntegerProgramming.Proofs.LinearProgram.Bases
import IntegerProgramming.Proofs.LinearProgram.Canonical
import IntegerProgramming.Proofs.LinearProgram.Choices
import IntegerProgramming.Proofs.LinearProgram.Phases
import IntegerProgramming.Proofs.LinearProgram.Artificials
import IntegerProgramming.Proofs.LinearProgram.Start
import IntegerProgramming.Proofs.LinearProgram.TwoPhases
import IntegerProgramming.Proofs.LinearProgram.Embed
import IntegerProgramming.Proofs.Frontier
import IntegerProgramming.Proofs.Intervals
import IntegerProgramming.Proofs.LinearProgram.Acceptance
import IntegerProgramming.Proofs.Denotation
import IntegerProgramming.Proofs.LinearProgram.Storage
import IntegerProgramming.Proofs.LinearProgram.Feasible
import IntegerProgramming.Proofs.LinearProgram.Outcomes
import IntegerProgramming.Proofs.LinearProgram.Verdicts
import IntegerProgramming.Proofs.LinearProgram.Vertices
import IntegerProgramming.Proofs.LinearProgram.Bland
import IntegerProgramming.Proofs.LinearProgram.Termination
import IntegerProgramming.Proofs.LinearProgram.Certificates
import IntegerProgramming.Proofs.Search.Origins
import IntegerProgramming.Proofs.Search.Snapping
import IntegerProgramming.Proofs.Search.Trajectories
import IntegerProgramming.Proofs.Search.Partition
import IntegerProgramming.Proofs.Search.Boxes
import IntegerProgramming.Proofs.Search.Depth
import IntegerProgramming.Proofs.Lawful
import IntegerProgramming.Proofs.Search.Entries
import IntegerProgramming.Proofs.Search.Incumbents
import IntegerProgramming.Proofs.Search.Exits
import IntegerProgramming.Proofs.Search.Failures
import IntegerProgramming.Proofs.Search.Rays
import IntegerProgramming.Proofs.LinearProgram.Overruns
import IntegerProgramming.Proofs.LinearProgram.Solvable
import IntegerProgramming.Proofs.Search.Relaxations
import IntegerProgramming.Proofs.Search.CallTree
import IntegerProgramming.Proofs.Search.Lockstep
import IntegerProgramming.Proofs.Search.Limits
import IntegerProgramming.Proofs.Search.Reuse
import IntegerProgramming.Proofs.Search.BestFirst
import IntegerProgramming.Proofs.Search.Questions
import IntegerProgramming.Proofs.Search.Validity
import IntegerProgramming.Proofs.Search.Storage
import IntegerProgramming.Proofs.LinearProgram.Budgets
import IntegerProgramming.Proofs.Triplets
import IntegerProgramming.Proofs.Search.Rounding
import IntegerProgramming.Proofs.LinearProgram.Systems
import IntegerProgramming.Proofs.LinearProgram.Ties
import IntegerProgramming.Proofs.LinearProgram.Redundancy
import IntegerProgramming.Proofs.LinearProgram.InRange
