import NamedLambda.Main
import NamedLambda.Proofs.Church.Arithmetic
import NamedLambda.Proofs.Church.Consistency
import NamedLambda.Proofs.Church.Inversion
import NamedLambda.Proofs.Church.Logic
import NamedLambda.Proofs.Church.StepCount
import NamedLambda.Proofs.Environment.Define
import NamedLambda.Proofs.FreeVariables
import NamedLambda.Proofs.Invariance
import NamedLambda.Proofs.Name.Search
import NamedLambda.Proofs.Reduction.Agreement
import NamedLambda.Proofs.Reduction.Budget
import NamedLambda.Proofs.Reduction.Comparison
import NamedLambda.Proofs.Reduction.Completeness
import NamedLambda.Proofs.Reduction.FirstRedex
import NamedLambda.Proofs.Reduction.Outermost
import NamedLambda.Proofs.Reduction.StoppingForm
import NamedLambda.Proofs.Session.Application
import NamedLambda.Proofs.Session.Conservation
import NamedLambda.Proofs.Session.Continuation
import NamedLambda.Proofs.Session.LogicalLine
import NamedLambda.Proofs.Session.ReadBack
import NamedLambda.Proofs.Session.Sequencing
import NamedLambda.Proofs.Source.CommandError
import NamedLambda.Proofs.Source.Layout
import NamedLambda.Proofs.Source.Parentheses
import NamedLambda.Proofs.Source.RoundTrip
import NamedLambda.Proofs.Source.TermError
import NamedLambda.Proofs.Source.ViablePrefix
import NamedLambda.Proofs.Term.Alpha
import NamedLambda.Proofs.Term.Replacement
