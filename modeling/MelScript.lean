import MelScript.Command.Bundled
import MelScript.Command.Format
import MelScript.Command.Hover
import MelScript.Command.Load
import MelScript.Command.Table
import MelScript.CommandLine.Arguments
import MelScript.CommandLine.Run
import MelScript.Document.Buffer
import MelScript.Document.State
import MelScript.Editor.Protocol
import MelScript.Editor.Wire
import MelScript.Files.Path
import MelScript.Files.Place
import MelScript.Files.Tree
import MelScript.Files.Uri
import MelScript.Json.Number
import MelScript.Json.Reader
import MelScript.Json.Skip
import MelScript.Json.String
import MelScript.Json.Value
import MelScript.Json.Writer
import MelScript.Main
import MelScript.Outline.Json
import MelScript.Outline.Listing
import MelScript.Outline.Scanner
import MelScript.Outline.Symbol
import MelScript.Position
import MelScript.Proofs.Command.Catalogue
import MelScript.Proofs.Command.TableFormat
import MelScript.Proofs.Command.Words
import MelScript.Proofs.CommandLine.Hovers
import MelScript.Proofs.Document.Clamping
import MelScript.Proofs.Document.Offsets
import MelScript.Proofs.Document.Synchronisation
import MelScript.Proofs.Json.Layout
import MelScript.Proofs.Json.Lexemes
import MelScript.Proofs.Outline.Continuation
import MelScript.Proofs.Outline.Geometry
import MelScript.Proofs.Outline.LineCuts
import MelScript.Proofs.Outline.Listings
import MelScript.Proofs.Outline.Names
import MelScript.Proofs.Outline.Occurrences
import MelScript.Proofs.Outline.ReadingOrder
import MelScript.Proofs.Outline.Respacing
import MelScript.Proofs.Outline.RoundTrip
import MelScript.Proofs.Outline.Segments
import MelScript.Proofs.Outline.SourceOrder
import MelScript.Proofs.Outline.Spelling
import MelScript.Proofs.Server.Alike
import MelScript.Proofs.Server.Completions
import MelScript.Proofs.Server.Configuration
import MelScript.Proofs.Server.Cursor
import MelScript.Proofs.Server.Documents
import MelScript.Proofs.Server.Hovers
import MelScript.Proofs.Server.Isolation
import MelScript.Proofs.Server.Notifications
import MelScript.Proofs.Server.OutlineCache
import MelScript.Proofs.Server.Ranges
import MelScript.Proofs.Server.Replay
import MelScript.Proofs.Server.Rescans
import MelScript.Proofs.Server.SettingsHistory
import MelScript.Proofs.Server.Veils
import MelScript.Proofs.Text.Spacing
import MelScript.Proofs.Text.Stretches
import MelScript.Proofs.Vocabulary.ClosedForm
import MelScript.Proofs.Vocabulary.Fragments
import MelScript.Proofs.Vocabulary.Seams
import MelScript.Server.Configure
import MelScript.Server.Handlers
import MelScript.Server.Message
import MelScript.Server.Service
import MelScript.Server.Settings
import MelScript.Server.State
import MelScript.Text.Basic
import MelScript.Text.Blank
import MelScript.Text.Controls
import MelScript.Text.Lines
import MelScript.Text.Percent
import MelScript.Text.Runs
import MelScript.Token
import MelScript.Vocabulary.Fragment
import MelScript.Vocabulary.Index
import MelScript.Vocabulary.Listing
import MelScript.Vocabulary.Session
