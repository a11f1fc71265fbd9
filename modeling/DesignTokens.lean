import DesignTokens.CommandLine.Help
import DesignTokens.CommandLine.Options
import DesignTokens.CommandLine.Program
import DesignTokens.Diff.Changes
import DesignTokens.Diff.TokenLine
import DesignTokens.Failure
import DesignTokens.Files.Braces
import DesignTokens.Files.Discovery
import DesignTokens.Files.Glob
import DesignTokens.Files.PathText
import DesignTokens.Files.Tree
import DesignTokens.Files.Wildcard
import DesignTokens.Files.Wildcard.Greedy
import DesignTokens.Git
import DesignTokens.History.Commit
import DesignTokens.History.Detector
import DesignTokens.History.Overview
import DesignTokens.History.Pointer
import DesignTokens.History.TokenFile
import DesignTokens.Main
import DesignTokens.Nesting
import DesignTokens.Number.Binary64
import DesignTokens.Number.Shortest
import DesignTokens.Pattern
import DesignTokens.Report.Basic
import DesignTokens.Report.Files
import DesignTokens.Report.Overview
import DesignTokens.Report.Page
import DesignTokens.Repository
import DesignTokens.Scan.Checkout
import DesignTokens.Scan.Result
import DesignTokens.Scan.Scanner
import DesignTokens.Settings.Basic
import DesignTokens.Settings.Document
import DesignTokens.Terminal.Color
import DesignTokens.Text.Blank
import DesignTokens.Text.Case
import DesignTokens.Text.CaseTable
import DesignTokens.Text.DigitTable
import DesignTokens.Text.Integer
import DesignTokens.Text.Lines
import DesignTokens.Text.PrintableTable
import DesignTokens.Text.Quoted
import DesignTokens.Text.Spelling
import DesignTokens.Text.Utf8
import DesignTokens.Timestamp
import DesignTokens.Token.Category
import DesignTokens.Token.ComponentUse
import DesignTokens.Token.Definition
import DesignTokens.Token.Dictionary
import DesignTokens.Token.Format
import DesignTokens.Token.Occurrence
import DesignTokens.Token.Statistics
import DesignTokens.Token.Tally
import DesignTokens.Token.Usage
import DesignTokens.UiPattern
import DesignTokens.Value.Basic
import DesignTokens.Value.Display
import DesignTokens.Value.Parser
import DesignTokens.Value.Printer
import DesignTokens.World
import DesignTokens.Proofs.Pattern.Runs
import DesignTokens.Proofs.Pattern.Starts
import DesignTokens.Proofs.Pattern.Choices
import DesignTokens.Proofs.Pattern.Ways
import DesignTokens.Proofs.Pattern.Leftmost
import DesignTokens.Proofs.Pattern.Apart
import DesignTokens.Proofs.Pattern.Lines
import DesignTokens.Proofs.Text.Blank
import DesignTokens.Proofs.Text.Integer
import DesignTokens.Proofs.Text.Lines
import DesignTokens.Proofs.Text.Utf8
import DesignTokens.Proofs.Files.Tree
import DesignTokens.Proofs.Lists
import DesignTokens.Proofs.Run
import DesignTokens.Proofs.Diff.Line
import DesignTokens.Proofs.Diff.Origin
import DesignTokens.Proofs.Diff.Account
import DesignTokens.Proofs.Diff.Hunk
import DesignTokens.Proofs.Diff.Pairing
import DesignTokens.Proofs.Diff.Numbering
import DesignTokens.Proofs.Diff.TokenLine
import DesignTokens.Proofs.History.Store
import DesignTokens.Proofs.History.Turn
import DesignTokens.Proofs.History.Pointer
import DesignTokens.Proofs.History.Log
import DesignTokens.Proofs.History.Chain
import DesignTokens.Proofs.History.Session
import DesignTokens.Proofs.Files.Location
import DesignTokens.Proofs.Files.Root
import DesignTokens.Proofs.Files.Glob
import DesignTokens.Proofs.Files.Found
import DesignTokens.Proofs.Files.Discovery
import DesignTokens.Proofs.Files.Braces
import DesignTokens.Proofs.Files.Alternatives
import DesignTokens.Proofs.Files.Exact
import DesignTokens.Proofs.Files.Skipped
import DesignTokens.Proofs.Files.Meanings
import DesignTokens.Proofs.Files.Containment
import DesignTokens.Proofs.Token.Ranking
import DesignTokens.Proofs.Token.Usage
import DesignTokens.Proofs.Token.Tables
import DesignTokens.Proofs.Scan.Account
import DesignTokens.Proofs.Scan.Once
import DesignTokens.Proofs.History.Failures
import DesignTokens.Proofs.History.Answered
import DesignTokens.Proofs.Token.Dictionary
import DesignTokens.Proofs.Token.Edits
import DesignTokens.Proofs.Token.Renewal
import DesignTokens.Proofs.Token.OwnNames
import DesignTokens.Proofs.Token.Place
import DesignTokens.Proofs.Token.Positions
import DesignTokens.Proofs.Token.Grouping
import DesignTokens.Proofs.Token.Variable
import DesignTokens.Proofs.Token.Mixin
import DesignTokens.Proofs.Token.Crosstalk
import DesignTokens.Proofs.Token.Sigil
import DesignTokens.Proofs.Token.CustomProperty
import DesignTokens.Proofs.Token.Known
import DesignTokens.Proofs.History.Printed
import DesignTokens.Proofs.History.Restart
import DesignTokens.Proofs.History.Loaded
import DesignTokens.Proofs.History.Subject
import DesignTokens.Proofs.History.Told
import DesignTokens.Proofs.History.Course
import DesignTokens.Proofs.Number.Binary64
import DesignTokens.Proofs.Token.Levels
import DesignTokens.Proofs.Token.Tally
import DesignTokens.Proofs.Token.Tiers
import DesignTokens.Proofs.Token.Merging
import DesignTokens.Proofs.UiPattern
import DesignTokens.Proofs.Token.Stages
import DesignTokens.Proofs.Ends
import DesignTokens.Proofs.Files.Possible
import DesignTokens.Proofs.Files.Opened
import DesignTokens.Proofs.Scan.Setbacks
import DesignTokens.Proofs.Scan.Complete
import DesignTokens.Proofs.Files.Straight
import DesignTokens.Proofs.Files.Below
import DesignTokens.Proofs.Files.Search
import DesignTokens.Proofs.Files.Made
import DesignTokens.Proofs.Scan.Shelf
import DesignTokens.Proofs.Scan.Parallel
import DesignTokens.Proofs.Scan.Isolation
import DesignTokens.Proofs.Report.Totals
import DesignTokens.Proofs.Value.Reader
import DesignTokens.Proofs.Settings.Load
import DesignTokens.Proofs.Settings.Definitions
import DesignTokens.Proofs.Files.Wanted
import DesignTokens.Proofs.Scan.Wanted
import DesignTokens.Proofs.Files.Thinned
import DesignTokens.Proofs.Files.ThinnedSearch
import DesignTokens.Proofs.Scan.Unreadable
import DesignTokens.Proofs.History.Search
import DesignTokens.Proofs.History.Exchanges
import DesignTokens.Proofs.History.Records
import DesignTokens.Proofs.Token.References
import DesignTokens.Proofs.Token.ComponentUse
import DesignTokens.Proofs.Token.Owners
import DesignTokens.Proofs.Settings.Tiers
import DesignTokens.Proofs.Scan.Entries
import DesignTokens.Proofs.Progress
import DesignTokens.Proofs.Value.Grammar
import DesignTokens.Proofs.CommandLine.Switches
import DesignTokens.Proofs.CommandLine.Progress
import DesignTokens.Proofs.CommandLine.Output
import DesignTokens.Proofs.Token.Rules
import DesignTokens.Proofs.Report.TopTokens
import DesignTokens.Proofs.Report.UniqueTokens
import DesignTokens.Proofs.Report.Page
import DesignTokens.Proofs.Terminal.Pieces
import DesignTokens.Proofs.Terminal.Emphasis
import DesignTokens.Proofs.Terminal.Overviews
import DesignTokens.Proofs.Terminal.Stripping
import DesignTokens.Proofs.Token.Context
