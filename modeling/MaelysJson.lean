import MaelysJson.Code.Canon
import MaelysJson.Code.Canonical
import MaelysJson.Code.Common
import MaelysJson.Code.Document
import MaelysJson.Code.Keyset
import MaelysJson.Code.Messages
import MaelysJson.Code.Parser
import MaelysJson.Code.Pointer
import MaelysJson.Code.Serialize
import MaelysJson.Code.Stdio
import MaelysJson.Code.Utf8
import MaelysJson.Code.Writer
import MaelysJson.Copying.Documents
import MaelysJson.Copying.Drafts
import MaelysJson.Copying.Growth
import MaelysJson.Copying.Likeness
import MaelysJson.Copying.Numbers
import MaelysJson.Copying.Obstacles
import MaelysJson.Copying.Rewriting
import MaelysJson.Copying.Runs
import MaelysJson.Copying.Steps
import MaelysJson.General.Forest
import MaelysJson.General.Lexicographic
import MaelysJson.General.Probing
import MaelysJson.General.Rose
import MaelysJson.General.Run
import MaelysJson.General.Spine
import MaelysJson.General.Utf8
import MaelysJson.Json.Grammar
import MaelysJson.Json.LastWins
import MaelysJson.Json.Order
import MaelysJson.Json.Tree
import MaelysJson.Memory.Refusals
import MaelysJson.Memory.Requests
import MaelysJson.Pointer.Emission
import MaelysJson.Pointer.Path
import MaelysJson.Pointer.Position
import MaelysJson.Pointer.Scan
import MaelysJson.Reading.Accessors
import MaelysJson.Reading.Bound
import MaelysJson.Reading.Compaction
import MaelysJson.Reading.Completeness
import MaelysJson.Reading.Faults
import MaelysJson.Reading.Files
import MaelysJson.Reading.Handles
import MaelysJson.Reading.Language
import MaelysJson.Reading.Limits
import MaelysJson.Reading.Locations
import MaelysJson.Reading.Observation
import MaelysJson.Reading.Parse
import MaelysJson.Reading.Paths
import MaelysJson.Reading.Prefixes
import MaelysJson.Reading.Publication
import MaelysJson.Reading.Reaches
import MaelysJson.Reading.Reader
import MaelysJson.Reading.Refinement
import MaelysJson.Reading.Repeats
import MaelysJson.Reading.Representation
import MaelysJson.Reading.Requests
import MaelysJson.Reading.Soundness
import MaelysJson.Reading.Source
import MaelysJson.Reading.Spots
import MaelysJson.Reading.Steps
import MaelysJson.Reading.Stops
import MaelysJson.Reading.Strictness
import MaelysJson.Reading.Texts
import MaelysJson.Reading.Viable
import MaelysJson.RoundTrip.Agreement
import MaelysJson.RoundTrip.Built
import MaelysJson.RoundTrip.Canonical
import MaelysJson.RoundTrip.Copies
import MaelysJson.RoundTrip.Expected
import MaelysJson.RoundTrip.Files
import MaelysJson.RoundTrip.Fixpoint
import MaelysJson.RoundTrip.Output
import MaelysJson.RoundTrip.Reference
import MaelysJson.RoundTrip.Totality
import MaelysJson.RoundTrip.Width
import MaelysJson.Serializing.Acceptance
import MaelysJson.Serializing.Ascii
import MaelysJson.Serializing.Buffer
import MaelysJson.Serializing.Derivation
import MaelysJson.Serializing.Emission
import MaelysJson.Serializing.Events
import MaelysJson.Serializing.Finish
import MaelysJson.Serializing.NumberText
import MaelysJson.Serializing.Output
import MaelysJson.Serializing.Sorting
import MaelysJson.Serializing.Spelling
import MaelysJson.Table.Insertions
import MaelysJson.Table.Keys
import MaelysJson.Table.Keyset
import MaelysJson.Table.Layout
import MaelysJson.Table.Links
import MaelysJson.Text.Content
import MaelysJson.Text.Decimal
import MaelysJson.Text.Decode
import MaelysJson.Text.Integer
import MaelysJson.Text.KeyOrder
import MaelysJson.Text.Literal
import MaelysJson.Text.Number
import MaelysJson.Text.Scan
import MaelysJson.Text.Utf16
import MaelysJson.Text.Utf8
import MaelysJson.Tool.Canon
import MaelysJson.Tool.Collapse
import MaelysJson.Tool.Input
import MaelysJson.Tool.Messages
import MaelysJson.Tool.Reports
import MaelysJson.Writing.Building
import MaelysJson.Writing.Calls
import MaelysJson.Writing.Draft
import MaelysJson.Writing.Failures
import MaelysJson.Writing.Nodes
import MaelysJson.Writing.Operations
import MaelysJson.Writing.Outcomes
import MaelysJson.Writing.Schedules
import MaelysJson.Writing.Sticky
import MaelysJson.Writing.Streams
