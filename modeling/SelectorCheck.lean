import SelectorCheck.Tree.Calls
import SelectorCheck.Json
import SelectorCheck.Rule
import SelectorCheck.Config.Reading
import SelectorCheck.Session
import SelectorCheck.Main
import SelectorCheck.Proofs.SelectorLanguage
import SelectorCheck.Proofs.Matching
import SelectorCheck.Proofs.Checking
import SelectorCheck.Proofs.Workers
import SelectorCheck.Proofs.Order
import SelectorCheck.Proofs.Outcomes
import SelectorCheck.Proofs.Parallel
import SelectorCheck.Proofs.Reading
import SelectorCheck.Proofs.TreeSelector
import SelectorCheck.Proofs.Places
import SelectorCheck.Proofs.Comments
import SelectorCheck.Proofs.Layouts
import SelectorCheck.Proofs.CallWriting
import SelectorCheck.Proofs.RelativePaths
import SelectorCheck.Proofs.Directory
import SelectorCheck.Proofs.ValidConfig
import SelectorCheck.Proofs.Revision
import SelectorCheck.Proofs.RuleByRule
import SelectorCheck.Proofs.Selection
import SelectorCheck.Proofs.PatternLanguage
import SelectorCheck.Proofs.Relocation
import SelectorCheck.Proofs.Blame
import SelectorCheck.Proofs.Parentheses
import SelectorCheck.Proofs.SourceOrder
import SelectorCheck.Proofs.Severities
import SelectorCheck.Proofs.FinalOrder
import SelectorCheck.Proofs.Depth
import SelectorCheck.Proofs.Unread
import SelectorCheck.Proofs.Lookup
import SelectorCheck.Proofs.ConfigSearch
import SelectorCheck.Proofs.MethodChecks
import SelectorCheck.Proofs.Snippets
