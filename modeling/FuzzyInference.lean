import FuzzyInference.Proofs.Crisp.Refusals
import FuzzyInference.Proofs.Crisp.Rescaling
import FuzzyInference.Proofs.Crisp.Singletons
import FuzzyInference.Proofs.Crisp.Tabulation
import FuzzyInference.Proofs.Curve.Interpolation
import FuzzyInference.Proofs.Curve.Monotone
import FuzzyInference.Proofs.Curve.Outline
import FuzzyInference.Proofs.Curve.Partition
import FuzzyInference.Proofs.Engine.Duality
import FuzzyInference.Proofs.Engine.Evidence
import FuzzyInference.Proofs.Engine.Hull
import FuzzyInference.Proofs.Engine.Indexed
import FuzzyInference.Proofs.Engine.Interval
import FuzzyInference.Proofs.Engine.Restatement
import FuzzyInference.Proofs.Logic.Boolean
import FuzzyInference.Proofs.Logic.Loss
import FuzzyInference.Proofs.Logic.Rearrangement
import FuzzyInference.Proofs.Rule.Building
import FuzzyInference.Proofs.Rule.PrintedForm
import FuzzyInference.Proofs.Text.Spelling
import FuzzyInference.Proofs.Variable
