import Protobuf.Atom
import Protobuf.Atom.Payload
import Protobuf.Datum.Basic
import Protobuf.Datum.Building
import Protobuf.Datum.Reading
import Protobuf.Graph.Basic
import Protobuf.Graph.Entity
import Protobuf.Graph.Field
import Protobuf.Graph.Name
import Protobuf.Graph.Slot
import Protobuf.Keyed
import Protobuf.Message.Basic
import Protobuf.Message.Decoding
import Protobuf.Message.Encoding
import Protobuf.Message.Place
import Protobuf.Number.Binary
import Protobuf.Number.Notation
import Protobuf.Number.Range
import Protobuf.Number.Shortest
import Protobuf.Registry.Access
import Protobuf.Registry.Basic
import Protobuf.Registry.Create
import Protobuf.Registry.Error
import Protobuf.Registry.Link
import Protobuf.Scalar
import Protobuf.Schema.Decl
import Protobuf.Schema.Lexer
import Protobuf.Schema.Parser.Basic
import Protobuf.Schema.Parser.File
import Protobuf.Schema.Parser.Message
import Protobuf.Schema.Parser.Option
import Protobuf.Schema.Scanner
import Protobuf.Schema.Token
import Protobuf.Text.CamelCase
import Protobuf.Text.Path
import Protobuf.Text.Quoted
import Protobuf.Text.UpperCase
import Protobuf.Text.Utf8
import Protobuf.Text.Visible
import Protobuf.Value.Basic
import Protobuf.Value.Display
import Protobuf.Value.Error
import Protobuf.Value.Fit
import Protobuf.Value.Map
import Protobuf.Wire.Cursor
import Protobuf.Wire.Fixed
import Protobuf.Wire.Key
import Protobuf.Wire.Record
import Protobuf.Wire.Skip
import Protobuf.Wire.Varint
import Protobuf.Wire.Zigzag
import Protobuf.Proofs.Keyed
import Protobuf.Proofs.Wire.Item
import Protobuf.Proofs.Wire.Record
import Protobuf.Proofs.Wire.Extent
import Protobuf.Proofs.Wire.Skip
import Protobuf.Proofs.Atom.Payload
import Protobuf.Proofs.Action
import Protobuf.Proofs.Coupled
import Protobuf.Proofs.Text.Dotted
import Protobuf.Proofs.Schema.Tokens
import Protobuf.Proofs.Schema.Textual
import Protobuf.Proofs.Graph.Sound
import Protobuf.Proofs.Graph.Tree
import Protobuf.Proofs.Graph.Step
import Protobuf.Proofs.Graph.Member
import Protobuf.Proofs.Graph.Growth
import Protobuf.Proofs.Graph.Outline
import Protobuf.Proofs.Graph.Rename
import Protobuf.Proofs.Graph.Label
import Protobuf.Proofs.Registry.Create
import Protobuf.Proofs.Registry.Outline
import Protobuf.Proofs.Registry.Coupled
import Protobuf.Proofs.Registry.Step
import Protobuf.Proofs.Registry.Link
import Protobuf.Proofs.Registry.Built
import Protobuf.Proofs.Registry.Faithful
import Protobuf.Proofs.Message.WellTyped
import Protobuf.Proofs.Registry.Loaded
import Protobuf.Proofs.Registry.Standing
import Protobuf.Proofs.Registry.Lookup
import Protobuf.Proofs.Registry.Call
import Protobuf.Proofs.Registry.Closed
import Protobuf.Proofs.Registry.Current
import Protobuf.Proofs.Registry.Fields
import Protobuf.Proofs.Registry.Files
import Protobuf.Proofs.Registry.Imports
import Protobuf.Proofs.Registry.Unlinked
import Protobuf.Proofs.Registry.Tied
import Protobuf.Proofs.Registry.Resolved
import Protobuf.Proofs.Registry.Served
import Protobuf.Proofs.Message.Decoded
import Protobuf.Proofs.Message.Made
import Protobuf.Proofs.Message.Normal
import Protobuf.Proofs.Message.Carried
import Protobuf.Proofs.Message.Part
import Protobuf.Proofs.Message.Sent
import Protobuf.Proofs.Message.RoundTrip
import Protobuf.Proofs.Message.Omitted
import Protobuf.Proofs.Message.Reencoded
import Protobuf.Proofs.Message.Change
import Protobuf.Proofs.Message.Unknown
import Protobuf.Proofs.Message.Updated
import Protobuf.Proofs.Message.Packed
import Protobuf.Proofs.Message.Noted
import Protobuf.Proofs.Message.Lockstep
import Protobuf.Proofs.Message.Delimited
import Protobuf.Proofs.Message.Typed
import Protobuf.Proofs.Message.Writable
import Protobuf.Proofs.Message.Settable
import Protobuf.Proofs.Message.Sorted
import Protobuf.Proofs.Message.Reached
import Protobuf.Proofs.Message.Oneof
import Protobuf.Proofs.Message.Core
import Protobuf.Proofs.Message.Unordered
import Protobuf.Proofs.Value.FiniteMap
import Protobuf.Proofs.Graph.Merged
import Protobuf.Proofs.Graph.Renamed
import Protobuf.Proofs.Message.Renamed
import Protobuf.Proofs.Registry.Exchanged
import Protobuf.Proofs.Registry.Order
import Protobuf.Proofs.Schema.Dialects
import Protobuf.Proofs.Schema.Nesting
import Protobuf.Proofs.Schema.Layout
import Protobuf.Proofs.Schema.Spelling
import Protobuf.Proofs.Schema.Reading
import Protobuf.Proofs.Schema.Setting
import Protobuf.Proofs.Registry.Default
import Protobuf.Proofs.Message.Defaults
import Protobuf.Proofs.Message.Conversion
import Protobuf.Proofs.Message.Effect
import Protobuf.Proofs.Message.Replay
import Protobuf.Proofs.Message.Rebuilt
import Protobuf.Proofs.Message.Assembled
import Protobuf.Proofs.Number.Binary
import Protobuf.Proofs.Datum.Echo
import Protobuf.Proofs.Datum.RoundTrip
import Protobuf.Proofs.Number.Shortest
import Protobuf.Proofs.Value.KeyText
import Protobuf.Proofs.Registry.Refused
import Protobuf.Proofs.Message.Levels
import Protobuf.Proofs.Registry.Asking
import Protobuf.Proofs.Message.Refilled
import Protobuf.Proofs.Message.ReadAlike
import Protobuf.Proofs.Registry.Scoping
import Protobuf.Proofs.Registry.Texts
import Protobuf.Proofs.Registry.Required
import Protobuf.Proofs.Registry.Navigation
import Protobuf.Proofs.Schema.Lookahead
import Protobuf.Proofs.Schema.Origin
import Protobuf.Proofs.Wire.Varint
import Protobuf.Proofs.Wire.Bounds
import Protobuf.Proofs.Schema.Literal
