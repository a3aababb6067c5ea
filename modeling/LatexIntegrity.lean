import LatexIntegrity.Main
import LatexIntegrity.Source.FileTree
import LatexIntegrity.Proofs.Sanitize.Idempotence
import LatexIntegrity.Proofs.Sanitize.Dollars
import LatexIntegrity.Proofs.Region.Splitting
import LatexIntegrity.Proofs.Span.Lookup
import LatexIntegrity.Proofs.Balance.Delimiters
import LatexIntegrity.Proofs.Balance.Tally
import LatexIntegrity.Proofs.Edit.Order
import LatexIntegrity.Proofs.Edit.Draft
import LatexIntegrity.Proofs.Include.Commands
import LatexIntegrity.Proofs.Text.Occurrences
import LatexIntegrity.Proofs.Submission.Comments
import LatexIntegrity.Proofs.Markup.Tokens
import LatexIntegrity.Proofs.Balance.Hidden
import LatexIntegrity.Proofs.Repair.BalancedText
import LatexIntegrity.Proofs.Repair.Validation
import LatexIntegrity.Proofs.Repair.Figures
import LatexIntegrity.Proofs.Repair.TagPairs
import LatexIntegrity.Proofs.Log.Diagnosis
import LatexIntegrity.Proofs.Include.Origins
import LatexIntegrity.Proofs.Repair.Residual
import LatexIntegrity.Proofs.Sanitize.OnlyTables
import LatexIntegrity.Proofs.Repair.FixList
import LatexIntegrity.Proofs.Repair.WellFormed
import LatexIntegrity.Proofs.Repair.Retagging
import LatexIntegrity.Proofs.Repair.KeptRegions
import LatexIntegrity.Proofs.Submission.Citations
import LatexIntegrity.Proofs.Report.LineChanges
import LatexIntegrity.Proofs.Command.Diagnostics
import LatexIntegrity.Proofs.Source.RepairedLines
import LatexIntegrity.Proofs.Source.Registration
import LatexIntegrity.Proofs.Settings.Assignments
import LatexIntegrity.Proofs.Command.Refusals
import LatexIntegrity.Proofs.Sanitize.Columns
import LatexIntegrity.Proofs.Repair.MarkedBalance
import LatexIntegrity.Proofs.Repair.SecondPass
import LatexIntegrity.Proofs.Log.LineNumbers
import LatexIntegrity.Proofs.Settings.RoundCounts
import LatexIntegrity.Proofs.Submission.Blanking
import LatexIntegrity.Proofs.Submission.Markers
import LatexIntegrity.Proofs.Repair.SettledFiles
import LatexIntegrity.Proofs.Include.Disjointness
import LatexIntegrity.Proofs.Source.Locations
import LatexIntegrity.Proofs.Repair.MergedFixes
import LatexIntegrity.Proofs.Sanitize.Normalized
import LatexIntegrity.Proofs.Submission.Excerpts
import LatexIntegrity.Proofs.Submission.IssueMessages
import LatexIntegrity.Proofs.Markup.BraceLanguage
