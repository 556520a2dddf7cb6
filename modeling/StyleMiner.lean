import StyleMiner.Token.Scan
import StyleMiner.Component.Tree
import StyleMiner.Value.Canonical
import StyleMiner.Sheet.Rules
import StyleMiner.Mining.IdRow
import StyleMiner.Mining.LinkedTree
import StyleMiner.Mining.Run
import StyleMiner.Report.Json
import StyleMiner.Report.Terminal
import StyleMiner.CommandLine
import StyleMiner.Main
import StyleMiner.Proofs.CommonSupport
import StyleMiner.Proofs.ResultLists
import StyleMiner.Proofs.Subsumption
import StyleMiner.Proofs.PathTotals
import StyleMiner.Proofs.TreeRefinement
import StyleMiner.Proofs.Transactions
import StyleMiner.Proofs.SharedPaths
import StyleMiner.Proofs.SinglePath
import StyleMiner.Proofs.Projections
import StyleMiner.Proofs.Offers
import StyleMiner.Proofs.GrowthRuns
import StyleMiner.Proofs.Joining
import StyleMiner.Proofs.Levels
import StyleMiner.Proofs.Exactness
import StyleMiner.Proofs.Unfailing
import StyleMiner.Proofs.Matching
import StyleMiner.Proofs.GroupRules
import StyleMiner.Proofs.LinkedReach
import StyleMiner.Proofs.TreeAgreement
import StyleMiner.Proofs.CanonicalForms
import StyleMiner.Proofs.TokenSpans
import StyleMiner.Proofs.Nesting
import StyleMiner.Proofs.Rereading
import StyleMiner.Proofs.QuotedValues
import StyleMiner.Proofs.Renaming
import StyleMiner.Proofs.Closures
import StyleMiner.Proofs.Reports
import StyleMiner.Proofs.Thresholds
import StyleMiner.Proofs.DocumentOrder
import StyleMiner.Proofs.Grouping
import StyleMiner.Proofs.Shortcut
import StyleMiner.Proofs.ItemSetEdits
import StyleMiner.Proofs.TwoViews
import StyleMiner.Proofs.FiledResults
import StyleMiner.Proofs.NoRepeats
import StyleMiner.Proofs.Segments
import StyleMiner.Proofs.SkippedRules
import StyleMiner.Proofs.CaseFolding
import StyleMiner.Proofs.Idempotence
import StyleMiner.Proofs.Quoting
import StyleMiner.Proofs.AscendingRows
import StyleMiner.Proofs.LongestNumerals
import StyleMiner.Proofs.LayoutChanges
