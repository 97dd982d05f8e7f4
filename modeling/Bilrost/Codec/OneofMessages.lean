import Bilrost.Codec.MessageWays

/-!
Oneofs that are derived as messages. An enum with an empty variant may be a
message of its own, with a field for each of the other variants.
-/

namespace Bilrost

open Program

namespace Oneof

variable {T : Type} (oneof : Oneof T)

/-- What `try_message_via_oneof` generates. Whether a field has the same tag as
the one before is not looked at. -/
def message : MessageCodec T where
  empty := oneof.field.empty
  isEmpty := oneof.field.isEmpty
  clear := oneof.field.clear
  rawEncode value := do
    let (bytes, _) ← oneof.field.encode value TagWriter.new
    some bytes
  rawPrepend value buf := do
    let (buf, tw) ← oneof.field.prependEncode value buf TagRevWriter.new
    some (tw.finalize buf)
  rawEncodedLen value := do
    let (len, _) ← oneof.field.encodedLen value (tagMeasurer oneof.tags)
    some len
  rawDecodeField mode depth tag wireType _ value :=
    if tag ∈ oneof.tags then oneof.decodeField mode depth tag wireType value
    else do
      skipField wireType
      .done value
  rawDecodeFieldDistinguished mode depth tag wireType _ value :=
    if tag ∈ oneof.tags then oneof.decodeFieldDistinguished mode depth tag wireType value
    else do
      let canon ← checked .hasExtensions
      skipField wireType
      .done (value, canon)
  same := oneof.field.same
  nestsWithin := oneof.field.nestsWithin

end Oneof

end Bilrost
