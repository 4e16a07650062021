import Aigate.BridgeEvents
import Aigate.Watermark

/-!
# Watermarks in a stream

A stream is marked while its chunks pass. A tile is put behind the end of a sentence in the text
of a delta, once so many characters were counted since the last tile; a stream that ends without
any tile is given an event of its own that carries one.
-/
namespace Aigate.WatermarkStream
open Text BridgeEvents Watermark

/-- `stream_watermark_state_t`; the tile of `wm_utf8` is that of the payload. -/
structure StreamWatermark where
  payload : WatermarkPayload
  enabled : Bool
  tileInjected : Bool
  charsSinceLastTile : ℕ
  minInterval : ℕ
  format : Bytes

/-- `watermark_stream_init`. -/
def StreamWatermark.init (payload : Option WatermarkPayload) (format : Bytes)
    (minInterval : ℕ) : StreamWatermark where
  payload := payload.getD ⟨0, 0, 0⟩
  enabled := payload.isSome
  tileInjected := false
  charsSinceLastTile := 0
  minInterval := if 0 < minInterval then minInterval else 100
  format := snprintf 16 (if format = [] then ascii "openai" else format)

/-- The parts of an output: what comes from the chunk, a tile, and an event made up to carry a
tile. -/
inductive Part where
  | text (s : Bytes)
  | tile
  | event (s : Bytes)
  deriving DecidableEq

def Part.bytes (p : WatermarkPayload) : Part → Bytes
  | .text s => s
  | .tile => Watermark.tile p
  | .event s => s

/-- The bytes that are written to the buffer. -/
def render (p : WatermarkPayload) (parts : List Part) : Bytes := parts.flatMap (Part.bytes p)

def StreamWatermark.isAnthropic (st : StreamWatermark) : Bool := st.format = ascii "anthropic"

/-- The event that carries a tile at the end of a stream. -/
def StreamWatermark.synthEvent (st : StreamWatermark) : Bytes :=
  snprintf 512 (if st.isAnthropic then
    ascii "event: content_block_delta" ++ '\n' :: dataEvent
      (ascii "\x7b\"type\":\"content_block_delta\",\"index\":0,\"delta\":\x7b" ++
        ascii "\"type\":\"text_delta\",\"text\":\"" ++ Watermark.tile st.payload ++
        ascii "\"\x7d\x7d")
  else dataEvent (ascii "\x7b\"choices\":[\x7b\"index\":0,\"delta\":\x7b\"content\":\"" ++
    Watermark.tile st.payload ++ ascii "\"\x7d\x7d]\x7d"))

theorem length_synthEvent (st : StreamWatermark) : st.synthEvent.length ≤ 511 :=
  List.length_take_le _ _

def StreamWatermark.streamEnds (st : StreamWatermark) (chunk : Bytes) (isFinal : Bool) : Bool :=
  isFinal || occursIn (ascii "data: [DONE]") chunk ||
    (st.isAnthropic && occursIn (ascii "message_stop") chunk)

/-- The key in front of the text of a delta, with the quote that opens the text. -/
def StreamWatermark.valueKey (st : StreamWatermark) : Bytes :=
  if st.isAnthropic then ascii "\"text\":\"" else ascii "\"content\":\""

/-- What stands behind the first key in a chunk. -/
def StreamWatermark.valueStart (st : StreamWatermark) (chunk : Bytes) : Option Bytes :=
  ((strstr st.valueKey chunk).map (·.drop st.valueKey.length)).filter (· ≠ [])

/-- The loop over a value, with the character before the next one: the count of characters, and
the place for a tile. -/
def scanValue (minInterval : ℕ) : Option Char → ℕ → ℕ → Bytes → ℕ × Option ℕ
  | _, _, chars, [] => (chars, none)
  | prev, idx, chars, c :: rest =>
    if c = '"' ∧ prev ≠ some '\\' then (chars, none)
    else
      let a := anchorLength (c :: rest)
      if a = 0 then scanValue minInterval (some c) (idx + 1) chars rest
      else if minInterval ≤ chars + idx then (chars + idx, some (idx + a))
      else scanValue minInterval (some c) (idx + 1) (chars + idx) rest

/-- The made up event stands in front of the end of the stream, or else behind the chunk. -/
def StreamWatermark.withEvent (st : StreamWatermark) (chunk : Bytes) : List Part :=
  let ending := if st.isAnthropic then ascii "event: message_stop" else ascii "data: [DONE]"
  match strstr ending chunk with
  | some tail =>
    [.text (chunk.take (chunk.length - tail.length)), .event st.synthEvent, .text tail]
  | none => [.text chunk, .event st.synthEvent]

/-- What is written when there is room for it. -/
def StreamWatermark.written (st : StreamWatermark) (outCap : ℕ) (parts : List Part) :
    Option (List Part) :=
  if outCap < (render st.payload parts).length then none else some parts

/-- `watermark_stream_feed`: the state behind it, and the output unless it fails. A chunk is a C
string, without zeros. -/
def streamFeed (st : StreamWatermark) (chunk : Bytes) (isFinal : Bool) (outCap : ℕ) :
    StreamWatermark × Option (List Part) :=
  if st.enabled = false then (st, st.written outCap [.text chunk])
  else if st.streamEnds chunk isFinal = true ∧ st.tileInjected = false then
    ({ st with tileInjected := true }, st.written outCap (st.withEvent chunk))
  else
    match st.valueStart chunk with
    | none => (st, st.written outCap [.text chunk])
    | some value =>
      match scanValue st.minInterval none 0 st.charsSinceLastTile value with
      | (chars, none) =>
        ({ st with charsSinceLastTile := chars + value.length }, st.written outCap [.text chunk])
      | (chars, some place) =>
        let split := chunk.length - value.length + place
        match st.written outCap [.text (chunk.take split), .tile, .text (chunk.drop split)] with
        | some parts => ({ st with charsSinceLastTile := 0, tileInjected := true }, some parts)
        | none => ({ st with charsSinceLastTile := chars }, none)

end Aigate.WatermarkStream
