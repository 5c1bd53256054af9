import LiveStyle.Session.Run
import LiveStyle.Settings
import LiveStyle.Tree.BuildLog
import LiveStyle.Tree.Release
import LiveStyle.Proofs.Tree.Passes
import LiveStyle.Proofs.Tree.Reading
import LiveStyle.Proofs.Tree.Grammar
import LiveStyle.Proofs.Tree.Diagnosis
import LiveStyle.Proofs.Tree.Induction
import LiveStyle.Proofs.Tree.Matching
import LiveStyle.Proofs.Tree.BuildReports
import LiveStyle.Proofs.Tree.Stack
import LiveStyle.Proofs.Tree.Teardown
import LiveStyle.Proofs.Evaluation.Live
import LiveStyle.Proofs.Evaluation.Memory
import LiveStyle.Proofs.Evaluation.Runs
import LiveStyle.Proofs.Evaluation.RunningTotal
import LiveStyle.Proofs.Evaluation.Constancy
import LiveStyle.Proofs.Evaluation.Filling
import LiveStyle.Proofs.Evaluation.Computation
import LiveStyle.Proofs.Evaluation.History
import LiveStyle.Proofs.Evaluation.Sampling
import LiveStyle.Proofs.Evaluation.Places
import LiveStyle.Proofs.Evaluation.StaticUnits
import LiveStyle.Proofs.Evaluation.DivisionPolicies
import LiveStyle.Proofs.Evaluation.LiteralUnits
import LiveStyle.Proofs.Evaluation.Reports
import LiveStyle.Proofs.Evaluation.Journal
import LiveStyle.Proofs.Spherical.Computation
import LiveStyle.Proofs.Spherical.Sampling
import LiveStyle.Proofs.Spherical.LiteralUnits
import LiveStyle.Proofs.Spherical.Reports
import LiveStyle.Proofs.Spherical.BuildReports
import LiveStyle.Proofs.Binding.Delivery
import LiveStyle.Proofs.Evaluation.Interchange
import LiveStyle.Proofs.Spherical.Interchange
import LiveStyle.Proofs.Evaluation.Grouping
import LiveStyle.Proofs.Spherical.ConstantFolding
import LiveStyle.Proofs.Spherical.Parenthesised
import LiveStyle.Proofs.Session.Repeatability
import LiveStyle.Proofs.Session.Sharing
import LiveStyle.Proofs.Session.Interleaving
import LiveStyle.Proofs.Quantity.Outcomes
import LiveStyle.Proofs.Text.Spelling
import LiveStyle.Proofs.Settings
import LiveStyle.Proofs.Spherical.Values
import LiveStyle.Proofs.Decimal.Reading
import LiveStyle.Proofs.Term.Unambiguous
