import LinearCongruence.Checked
import LinearCongruence.Word
import LinearCongruence.Euclid
import LinearCongruence.Refusal
import LinearCongruence.ResidueRing.Basic
import LinearCongruence.ResidueRing.Lemmas
import LinearCongruence.ResidueRing.Linear
import LinearCongruence.ResidueRing.Progression
import LinearCongruence.Augmented.Basic
import LinearCongruence.Augmented.Solution
import LinearCongruence.Tableau.Basic
import LinearCongruence.Tableau.Block
import LinearCongruence.Tableau.Candidate
import LinearCongruence.Tableau.Pivot
import LinearCongruence.Tableau.Sweep
import LinearCongruence.Tableau.BackSubstitution
import LinearCongruence.Tableau.Triangular
import LinearCongruence.Tableau.Exhaustive
import LinearCongruence.SolutionSet
import LinearCongruence.Options
import LinearCongruence.Solver
import LinearCongruence.Json.Basic
import LinearCongruence.Json.Reader
import LinearCongruence.Json.Record
import LinearCongruence.Json.Forms
import LinearCongruence.Proofs.Checked
import LinearCongruence.Proofs.Euclid
import LinearCongruence.Proofs.ResidueRing.Linear
import LinearCongruence.Proofs.ResidueRing.Progression
import LinearCongruence.Proofs.ResidueRing.Units
import LinearCongruence.Proofs.ResidueRing.Arithmetic
import LinearCongruence.Proofs.ResidueRing.Kernel
import LinearCongruence.Proofs.Augmented.Count
import LinearCongruence.Proofs.Augmented.Residuals
import LinearCongruence.Proofs.Tableau.Entries
import LinearCongruence.Proofs.Tableau.Steps
import LinearCongruence.Proofs.Tableau.FilledRows
import LinearCongruence.Proofs.Tableau.System
import LinearCongruence.Proofs.Tableau.Order
import LinearCongruence.Proofs.Tableau.WorkingForm
import LinearCongruence.Proofs.Tableau.Kernel
import LinearCongruence.Proofs.Tableau.Block
import LinearCongruence.Proofs.Tableau.Exhaustive
import LinearCongruence.Proofs.Tableau.Pivot
import LinearCongruence.Proofs.Tableau.Choice
import LinearCongruence.Proofs.Tableau.Sweep
import LinearCongruence.Proofs.Tableau.Echelon
import LinearCongruence.Proofs.Tableau.Operations
import LinearCongruence.Proofs.Tableau.Coefficients
import LinearCongruence.Proofs.Tableau.BackSubstitution
import LinearCongruence.Proofs.Tableau.Enumeration
import LinearCongruence.Proofs.Tableau.Triangular
import LinearCongruence.Proofs.SolutionSet
import LinearCongruence.Proofs.Json.Reader
import LinearCongruence.Proofs.Json.Forms
import LinearCongruence.Proofs.SolutionSet.Canonical
import LinearCongruence.Proofs.Tableau.Uniqueness
import LinearCongruence.Proofs.Solver.Verdict
import LinearCongruence.Proofs.Solver.Correctness
import LinearCongruence.Proofs.Solver.Safety
import LinearCongruence.Proofs.Solver.Options
import LinearCongruence.Proofs.Solver.Multiplicity
import LinearCongruence.Proofs.Solver.Limit
import LinearCongruence.Proofs.Solver.Coefficients
import LinearCongruence.Proofs.Solver.NoPivot
import LinearCongruence.Proofs.Solver.PrimeModulus
import LinearCongruence.Proofs.Json.RoundTrip
import LinearCongruence.Proofs.Solver.Reading
import LinearCongruence.Proofs.Tableau.Rounds
