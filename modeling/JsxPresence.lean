import JsxPresence.Bytes
import JsxPresence.Span
import JsxPresence.Source
import JsxPresence.Table
import JsxPresence.Token
import JsxPresence.Token.Lexer
import JsxPresence.Outline
import JsxPresence.Outline.Reader
import JsxPresence.Outline.Parse
import JsxPresence.Name
import JsxPresence.Name.Markup
import JsxPresence.Symbols
import JsxPresence.Options
import JsxPresence.Diagnostic
import JsxPresence.Path
import JsxPresence.FileSystem
import JsxPresence.Log.Level
import JsxPresence.Log.Filter
import JsxPresence.Log.Record
import JsxPresence.Log.Logger
import JsxPresence.Log.Arguments
import JsxPresence.Specifier
import JsxPresence.Workspace
import JsxPresence.Session
import JsxPresence.Reference
import JsxPresence.Presence
import JsxPresence.Marker
import JsxPresence.Edit
import JsxPresence.Edit.Plan
import JsxPresence.Json
import JsxPresence.Json.Printer
import JsxPresence.Analysis
import JsxPresence.Analysis.Report
import JsxPresence.Watch
import JsxPresence.CommandLine
import JsxPresence.CommandLine.Run
import JsxPresence.CommandLine.Survey
import JsxPresence.Main
import JsxPresence.Proofs.Token.Extent
import JsxPresence.Proofs.Token.Place
import JsxPresence.Proofs.Token.Partition
import JsxPresence.Proofs.Presence.Memory
import JsxPresence.Proofs.Analysis.Answers
import JsxPresence.Proofs.Analysis.Idempotence
import JsxPresence.Proofs.Edit.Splice
import JsxPresence.Proofs.Outline.Nesting
import JsxPresence.Proofs.Outline.Spacing
import JsxPresence.Proofs.Outline.Balance
import JsxPresence.Proofs.Analysis.Dependencies
import JsxPresence.Proofs.Analysis.History
import JsxPresence.Proofs.Reference.Exploration
import JsxPresence.Proofs.Analysis.Merging
import JsxPresence.Proofs.Edit.Pattern
import JsxPresence.Proofs.Name.Dotted
import JsxPresence.Proofs.Edit.Once
import JsxPresence.Proofs.Outline.Head
import JsxPresence.Proofs.Edit.Order
import JsxPresence.Proofs.Token.Layers
import JsxPresence.Proofs.Reference.Termination
import JsxPresence.Proofs.Outline.Termination
import JsxPresence.Proofs.Json.Grammar
import JsxPresence.Proofs.Json.Reader
import JsxPresence.Proofs.Log.Filter
import JsxPresence.Proofs.Json.Quoting
import JsxPresence.Proofs.Json.RoundTrip
import JsxPresence.Proofs.Log.Line
import JsxPresence.Proofs.Path.Ancestors
import JsxPresence.Proofs.Specifier.Resolution
import JsxPresence.Proofs.Source
import JsxPresence.Proofs.Token.Rewind
import JsxPresence.Proofs.CommandLine.Frame
import JsxPresence.Proofs.Outline.LookAhead
import JsxPresence.Proofs.Token.Newline
import JsxPresence.Proofs.CommandLine.Separation
import JsxPresence.Proofs.Outline.Gap
