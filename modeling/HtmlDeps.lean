import HtmlDeps.Build.Analyze
import HtmlDeps.Build.Completion
import HtmlDeps.Build.Fault
import HtmlDeps.Build.Index
import HtmlDeps.Build.Load
import HtmlDeps.Build.Outlet
import HtmlDeps.Build.Output
import HtmlDeps.Build.Pump
import HtmlDeps.Build.Schedule
import HtmlDeps.Build.State
import HtmlDeps.Build.Waitlist
import HtmlDeps.Command.Request
import HtmlDeps.Command.Run
import HtmlDeps.Command.Watch
import HtmlDeps.Config.Field
import HtmlDeps.Config.Load
import HtmlDeps.Config.Nested
import HtmlDeps.Config.Project
import HtmlDeps.Config.Settings
import HtmlDeps.Crawl.Crawler
import HtmlDeps.Crawl.Imports
import HtmlDeps.Crawl.Session
import HtmlDeps.Decimal.Rounded
import HtmlDeps.Decimal.Shortest
import HtmlDeps.Decimal.Written
import HtmlDeps.Digest.Sha256
import HtmlDeps.Disk
import HtmlDeps.Document.Reference
import HtmlDeps.Document.Survey
import HtmlDeps.Document.Warning
import HtmlDeps.File
import HtmlDeps.Glob.Brace
import HtmlDeps.Glob.Match
import HtmlDeps.Glob.Pattern
import HtmlDeps.Json.Printer
import HtmlDeps.Json.Reader
import HtmlDeps.Log.Entry
import HtmlDeps.Log.Format
import HtmlDeps.Log.Template
import HtmlDeps.Main
import HtmlDeps.Markup.Entity
import HtmlDeps.Markup.EntityNamesLowerAL
import HtmlDeps.Markup.EntityNamesLowerMZ
import HtmlDeps.Markup.EntityNamesUpper
import HtmlDeps.Markup.Scanner
import HtmlDeps.Markup.Tag
import HtmlDeps.Markup.Token
import HtmlDeps.Path.Basic
import HtmlDeps.Path.Home
import HtmlDeps.Proofs.Build.Account
import HtmlDeps.Proofs.Build.Accounting
import HtmlDeps.Proofs.Build.Acts
import HtmlDeps.Proofs.Build.Agreement
import HtmlDeps.Proofs.Build.Belt
import HtmlDeps.Proofs.Build.Calm
import HtmlDeps.Proofs.Build.Cases
import HtmlDeps.Proofs.Build.Closure
import HtmlDeps.Proofs.Build.Conveying
import HtmlDeps.Proofs.Build.Dealings
import HtmlDeps.Proofs.Build.Deeds
import HtmlDeps.Proofs.Build.Delivered
import HtmlDeps.Proofs.Build.Delivery
import HtmlDeps.Proofs.Build.Exclusive
import HtmlDeps.Proofs.Build.Fair
import HtmlDeps.Proofs.Build.Fetched
import HtmlDeps.Proofs.Build.Flight
import HtmlDeps.Proofs.Build.Footprint
import HtmlDeps.Proofs.Build.Honest
import HtmlDeps.Proofs.Build.Index
import HtmlDeps.Proofs.Build.Lifetimes
import HtmlDeps.Proofs.Build.Loaded
import HtmlDeps.Proofs.Build.Mirrored
import HtmlDeps.Proofs.Build.Orderly
import HtmlDeps.Proofs.Build.Outside
import HtmlDeps.Proofs.Build.Partition
import HtmlDeps.Proofs.Build.Placed
import HtmlDeps.Proofs.Build.Progress
import HtmlDeps.Proofs.Build.Pumping
import HtmlDeps.Proofs.Build.Recorded
import HtmlDeps.Proofs.Build.Replies
import HtmlDeps.Proofs.Build.Reported
import HtmlDeps.Proofs.Build.Roster
import HtmlDeps.Proofs.Build.Scanned
import HtmlDeps.Proofs.Build.Shared
import HtmlDeps.Proofs.Build.Silent
import HtmlDeps.Proofs.Build.Sorting
import HtmlDeps.Proofs.Build.Step
import HtmlDeps.Proofs.Build.Stocked
import HtmlDeps.Proofs.Build.Success
import HtmlDeps.Proofs.Build.Tally
import HtmlDeps.Proofs.Build.Ticketed
import HtmlDeps.Proofs.Build.Turns
import HtmlDeps.Proofs.Build.Verdict
import HtmlDeps.Proofs.Build.Waitlist
import HtmlDeps.Proofs.Build.Waked
import HtmlDeps.Proofs.Build.Waking
import HtmlDeps.Proofs.Build.Woven
import HtmlDeps.Proofs.Command.Printed
import HtmlDeps.Proofs.Command.Refused
import HtmlDeps.Proofs.Config.Anchored
import HtmlDeps.Proofs.Config.Fragments
import HtmlDeps.Proofs.Config.Precedence
import HtmlDeps.Proofs.Crawl.DepthFirst
import HtmlDeps.Proofs.Crawl.Ending
import HtmlDeps.Proofs.Crawl.Firsts
import HtmlDeps.Proofs.Crawl.Growth
import HtmlDeps.Proofs.Crawl.Handover
import HtmlDeps.Proofs.Crawl.Legible
import HtmlDeps.Proofs.Crawl.Orders
import HtmlDeps.Proofs.Crawl.Outcome
import HtmlDeps.Proofs.Crawl.Preorder
import HtmlDeps.Proofs.Crawl.Queue
import HtmlDeps.Proofs.Crawl.Rework
import HtmlDeps.Proofs.Crawl.Runs
import HtmlDeps.Proofs.Crawl.Scans
import HtmlDeps.Proofs.Crawl.Searches
import HtmlDeps.Proofs.Crawl.Tidy
import HtmlDeps.Proofs.Crawl.Transitive
import HtmlDeps.Proofs.Crawl.Trees
import HtmlDeps.Proofs.Crawl.Turn
import HtmlDeps.Proofs.Document.Collected
import HtmlDeps.Proofs.Document.References
import HtmlDeps.Proofs.Except
import HtmlDeps.Proofs.Glob.Below
import HtmlDeps.Proofs.Glob.Selection
import HtmlDeps.Proofs.Glob.Spelling
import HtmlDeps.Proofs.Json.Return
import HtmlDeps.Proofs.Markup.Obstacles
import HtmlDeps.Proofs.Markup.Passes
import HtmlDeps.Proofs.Markup.Places
import HtmlDeps.Proofs.Markup.Reads
import HtmlDeps.Proofs.Markup.Skims
import HtmlDeps.Proofs.Markup.Sources
import HtmlDeps.Proofs.Markup.TagLocal
import HtmlDeps.Proofs.Markup.TokenLocal
import HtmlDeps.Proofs.Path.Logical
import HtmlDeps.Proofs.Path.Order
import HtmlDeps.Proofs.Path.Project
import HtmlDeps.Proofs.Path.Scripts
import HtmlDeps.Proofs.Path.Seen
import HtmlDeps.Proofs.Path.Written
import HtmlDeps.Proofs.Split.Carrier
import HtmlDeps.Proofs.Split.Changed
import HtmlDeps.Proofs.Split.Consistent
import HtmlDeps.Proofs.Split.Dissected
import HtmlDeps.Proofs.Split.Edited
import HtmlDeps.Proofs.Split.Exact
import HtmlDeps.Proofs.Split.Groups
import HtmlDeps.Proofs.Split.Hidden
import HtmlDeps.Proofs.Split.Local
import HtmlDeps.Proofs.Split.Pieces
import HtmlDeps.Proofs.Split.Pipelines
import HtmlDeps.Proofs.Split.Regions
import HtmlDeps.Proofs.Split.Rescan
import HtmlDeps.Proofs.Split.RoundTrip
import HtmlDeps.Proofs.Split.Shuffled
import HtmlDeps.Proofs.Split.Stream
import HtmlDeps.Proofs.Split.Usage
import HtmlDeps.Proofs.Table
import HtmlDeps.Proofs.Text.Faithful
import HtmlDeps.Proofs.Text.Letters
import HtmlDeps.Proofs.Url.Contained
import HtmlDeps.Proofs.Url.Literal
import HtmlDeps.Proofs.Url.Locality
import HtmlDeps.Proofs.Url.Relative
import HtmlDeps.Proofs.Url.Resolved
import HtmlDeps.Proofs.Url.Return
import HtmlDeps.Proofs.Watch.Echo
import HtmlDeps.Split.Ledger
import HtmlDeps.Split.Pipeline
import HtmlDeps.Split.Region
import HtmlDeps.Split.Stage
import HtmlDeps.Table
import HtmlDeps.Text.Basic
import HtmlDeps.Text.Blank
import HtmlDeps.Text.Case
import HtmlDeps.Text.CaseTable
import HtmlDeps.Text.PrintableTable
import HtmlDeps.Text.Quoted
import HtmlDeps.Text.Undecodable
import HtmlDeps.Text.Utf8
import HtmlDeps.Url.Basic
import HtmlDeps.Url.Host
import HtmlDeps.Url.Local
import HtmlDeps.Url.Percent
import HtmlDeps.Value.Basic
import HtmlDeps.Watch.Scope
import HtmlDeps.Watch.Watcher
import HtmlDeps.Yaml.Binary
import HtmlDeps.Yaml.Cursor
import HtmlDeps.Yaml.Document
import HtmlDeps.Yaml.Fault
import HtmlDeps.Yaml.Moment
import HtmlDeps.Yaml.Node
import HtmlDeps.Yaml.Number
import HtmlDeps.Yaml.Plain
import HtmlDeps.Yaml.Scalar
import HtmlDeps.Yaml.Tag
import HtmlDeps.Yaml.Token
