import DataCalculus.Interpreter
import DataCalculus.Proofs.Acceptance
import DataCalculus.Proofs.CaseAnalysis
import DataCalculus.Proofs.Conflicts
import DataCalculus.Proofs.Constants
import DataCalculus.Proofs.DanglingTypes
import DataCalculus.Proofs.DepthLimit
import DataCalculus.Proofs.FreeVariables
import DataCalculus.Proofs.Inhabitants
import DataCalculus.Proofs.JoinAlgebra
import DataCalculus.Proofs.LiftedValues
import DataCalculus.Proofs.Locality
import DataCalculus.Proofs.NormalForm
import DataCalculus.Proofs.ReadFaults
import DataCalculus.Proofs.RegistryCheck
import DataCalculus.Proofs.RegistryGrowth
import DataCalculus.Proofs.RegistryRuns
import DataCalculus.Proofs.Renaming
import DataCalculus.Proofs.ResultTypes
import DataCalculus.Proofs.RoundTrip
import DataCalculus.Proofs.Soundness
import DataCalculus.Proofs.StringParts
import DataCalculus.Proofs.Substitution
import DataCalculus.Proofs.TextRoundTrip
import DataCalculus.Proofs.ValueReading
import DataCalculus.Proofs.ValueText
import DataCalculus.Registry.History
import DataCalculus.Surface.Printer
import DataCalculus.Surface.Reader
import DataCalculus.Term.Equality
import DataCalculus.Text
