import Bilrost.Base.BijectiveDigits
import Bilrost.Base.Buf
import Bilrost.Base.KeyedSort
import Bilrost.Base.SortedMap
import Bilrost.Wire.Basic
import Bilrost.Wire.Varint
import Bilrost.Wire.DecodeVarint
import Bilrost.Wire.VarintEncoders
import Bilrost.Wire.VarintClasses
import Bilrost.Wire.Tags
import Bilrost.Derive.FieldsSorted
import Bilrost.Derive.SortGroups
import Bilrost.Derive.PlanInvariant
import Bilrost.Derive.EncodeOrder
import Bilrost.Derive.TagLists
import Bilrost.Derive.MessageFields
import Bilrost.Buffer.ReverseBuffer
import Bilrost.Buffer.Refinement
import Bilrost.Buffer.Runs
import Bilrost.Buffer.Growth
import Bilrost.Buffer.Reachable
import Bilrost.Buffer.Exact
import Bilrost.Buffer.Assertions
import Bilrost.Buffer.Planned
import Bilrost.Codec.Scalars
import Bilrost.Decode.FieldLoop
import Bilrost.Codec.Merge
import Bilrost.Codec.Opaque
import Bilrost.Codec.OpaqueBijection
import Bilrost.Codec.Arrays
import Bilrost.Codec.Proxied
import Bilrost.Codec.Fields
import Bilrost.Codec.MessageWays
import Bilrost.Schema.MessageLocks
import Bilrost.Schema.Regular
import Bilrost.Schema.Tallies
import Bilrost.Schema.Counted
import Bilrost.Schema.Recursive
import Bilrost.Guarantees.Agreement
import Bilrost.Guarantees.Recursion
import Bilrost.Guarantees.SoftCaps
import Bilrost.Guarantees.Restricted
import Bilrost.Wire.Records
import Bilrost.Guarantees.TagKeys
import Bilrost.Schema.Emptiness
import Bilrost.Decode.Parses
import Bilrost.Schema.Payloads
import Bilrost.Schema.Items
import Bilrost.Schema.Forms
import Bilrost.Schema.ArrayForms
import Bilrost.Schema.Writes
import Bilrost.Schema.MessageWrites
import Bilrost.Guarantees.Emptiness
import Bilrost.Guarantees.SortedCollections
import Bilrost.Guarantees.Interchange
import Bilrost.Guarantees.ArrayRuns
import Bilrost.Guarantees.Encoders
import Bilrost.Decode.Reading
import Bilrost.Schema.Readings
import Bilrost.Schema.OneofSplit
import Bilrost.Guarantees.Singular
import Bilrost.Guarantees.Oneofs
import Bilrost.Types.Conversions
import Bilrost.Types.Years
import Bilrost.Types.CivilTime
import Bilrost.Types.Text
import Bilrost.Types.Grammar
import Bilrost.Types.Parsers
import Bilrost.Types.TextRoundTrip
import Bilrost.Guarantees.TimeSpans
import Bilrost.Guarantees.TrimmedArrays
import Bilrost.Codec.CalendarParts
import Bilrost.Schema.PartLists
import Bilrost.Guarantees.PartsSupport
import Bilrost.Guarantees.CalendarParts
import Bilrost.Guarantees.Calendar
import Bilrost.Codec.DateTimes
import Bilrost.Schema.Pairs
import Bilrost.Guarantees.Zones
import Bilrost.Guarantees.Offsets
import Bilrost.Guarantees.DateTimes
import Bilrost.Schema.ReadBack
import Bilrost.Schema.MessageReadBack
import Bilrost.Schema.Values
import Bilrost.Guarantees.JsonValues
import Bilrost.Codec.Streams
import Bilrost.Guarantees.Widening
import Bilrost.Guarantees.Extensions
import Bilrost.Guarantees.Replacement
import Bilrost.Guarantees.Streams
import Bilrost.Codec.OneofMessages
import Bilrost.Decode.Following
import Bilrost.Guarantees.Harnesses
import Bilrost.Guarantees.InlineVariants
import Bilrost.Guarantees.OneofMessages
import Bilrost.Guarantees.Ranges
import Bilrost.Guarantees.Equality
import Bilrost.Schema.Obtained
import Bilrost.Schema.Compatible
import Bilrost.Guarantees.Compatibility
