import RecordCheck.Calendar.Date
import RecordCheck.Checker.Basic
import RecordCheck.Checker.Settings
import RecordCheck.Command.Arguments
import RecordCheck.Command.Help
import RecordCheck.Command.Run
import RecordCheck.Files.Document
import RecordCheck.Files.Tree
import RecordCheck.Format.Basic
import RecordCheck.Format.BuiltIn
import RecordCheck.Json.Basic
import RecordCheck.Json.Pointer
import RecordCheck.Json.Reader
import RecordCheck.Json.Writer
import RecordCheck.Main
import RecordCheck.Number.Binary64
import RecordCheck.Number.Shortest
import RecordCheck.Pattern.Basic
import RecordCheck.Pattern.Reader
import RecordCheck.Proofs.Calendar.Date
import RecordCheck.Proofs.Calendar.Spelling
import RecordCheck.Proofs.Command.Lines
import RecordCheck.Proofs.Effects
import RecordCheck.Proofs.Files.Listing
import RecordCheck.Proofs.Format.Additions
import RecordCheck.Proofs.Json.Comparison
import RecordCheck.Proofs.Json.Distinct
import RecordCheck.Proofs.Json.Equality
import RecordCheck.Proofs.Json.Pointer
import RecordCheck.Proofs.Json.Quotes
import RecordCheck.Proofs.Json.Reading
import RecordCheck.Proofs.Json.Writer
import RecordCheck.Proofs.Report.Branches
import RecordCheck.Proofs.Report.Choosing
import RecordCheck.Proofs.Report.Completion
import RecordCheck.Proofs.Report.Extent
import RecordCheck.Proofs.Report.Flat
import RecordCheck.Proofs.Report.Fragments
import RecordCheck.Proofs.Report.LeftOver
import RecordCheck.Proofs.Report.Lists
import RecordCheck.Proofs.Report.Origin
import RecordCheck.Proofs.Report.Outcome
import RecordCheck.Proofs.Report.Parameters
import RecordCheck.Proofs.Report.Paths
import RecordCheck.Proofs.Report.Repeated
import RecordCheck.Proofs.Report.Resolution
import RecordCheck.Proofs.Report.Selection
import RecordCheck.Proofs.Report.Truth
import RecordCheck.Proofs.Report.Wording
import RecordCheck.Proofs.Schema.Accord
import RecordCheck.Proofs.Schema.Agreement
import RecordCheck.Proofs.Schema.Alternative
import RecordCheck.Proofs.Schema.CanonicalDates
import RecordCheck.Proofs.Schema.Choice
import RecordCheck.Proofs.Schema.Dates
import RecordCheck.Proofs.Schema.Governed
import RecordCheck.Proofs.Schema.Growth
import RecordCheck.Proofs.Schema.Hops
import RecordCheck.Proofs.Schema.Offers
import RecordCheck.Proofs.Schema.Preload
import RecordCheck.Proofs.Schema.SelfContained
import RecordCheck.Proofs.Schema.Walk
import RecordCheck.Proofs.Schema.Walking
import RecordCheck.Proofs.Text.Pieces
import RecordCheck.Proofs.Text.Utf8
import RecordCheck.Proofs.Uri.Behind
import RecordCheck.Proofs.Uri.Encoded
import RecordCheck.Proofs.Uri.Files
import RecordCheck.Proofs.Uri.Fragment
import RecordCheck.Proofs.Uri.Hosts
import RecordCheck.Proofs.Uri.Inline
import RecordCheck.Proofs.Uri.Literal
import RecordCheck.Proofs.Uri.Marks
import RecordCheck.Proofs.Uri.Normal
import RecordCheck.Proofs.Uri.Paths
import RecordCheck.Proofs.Uri.Reference
import RecordCheck.Proofs.Uri.Regular
import RecordCheck.Proofs.Uri.Relative
import RecordCheck.Proofs.Uri.Reread
import RecordCheck.Proofs.Uri.Whole
import RecordCheck.Proofs.Validator.Alike
import RecordCheck.Proofs.Validator.Allowed
import RecordCheck.Proofs.Validator.Alternatives
import RecordCheck.Proofs.Validator.Applied
import RecordCheck.Proofs.Validator.Blame
import RecordCheck.Proofs.Validator.Building
import RecordCheck.Proofs.Validator.Concurring
import RecordCheck.Proofs.Validator.Following
import RecordCheck.Proofs.Validator.Gathering
import RecordCheck.Proofs.Validator.Growth
import RecordCheck.Proofs.Validator.Home
import RecordCheck.Proofs.Validator.Keys
import RecordCheck.Proofs.Validator.Ledger
import RecordCheck.Proofs.Validator.Members
import RecordCheck.Proofs.Validator.Naming
import RecordCheck.Proofs.Validator.Places
import RecordCheck.Proofs.Validator.Question
import RecordCheck.Proofs.Validator.Requests
import RecordCheck.Proofs.Validator.Sessions
import RecordCheck.Proofs.Validator.Sound
import RecordCheck.Proofs.Validator.Stocked
import RecordCheck.Proofs.Validator.Visit
import RecordCheck.Proofs.Yaml.Conversion
import RecordCheck.Proofs.Yaml.Entries
import RecordCheck.Report.Classification
import RecordCheck.Report.Complaint
import RecordCheck.Report.Failure
import RecordCheck.Report.Issue
import RecordCheck.Report.Keyword
import RecordCheck.Report.Parameters
import RecordCheck.Report.Resolution
import RecordCheck.Schema.Alternative
import RecordCheck.Schema.Dates
import RecordCheck.Schema.Fault
import RecordCheck.Schema.MetaSchema
import RecordCheck.Schema.Node
import RecordCheck.Schema.Store
import RecordCheck.Schema.Walk
import RecordCheck.Text.Blank
import RecordCheck.Text.Letters
import RecordCheck.Text.Pieces
import RecordCheck.Text.Utf8
import RecordCheck.Uri.Host
import RecordCheck.Uri.Percent
import RecordCheck.Uri.Reference
import RecordCheck.Uri.Url
import RecordCheck.Uri.UrlReader
import RecordCheck.Validator.Build
import RecordCheck.Validator.Engine
import RecordCheck.Validator.Fault
import RecordCheck.Validator.Library
import RecordCheck.Validator.Violation
import RecordCheck.Yaml.Node
import RecordCheck.Yaml.Token
import RecordCheck.Yaml.Value
