import Aigate.Text

/-!
# Watermarks

A tile is a frame of 19 bytes, written in zero-width characters: a magic byte, the time, the
id of a key, a fingerprint of a trace, and a checksum over all these. Tiles are put into a
text behind ends of sentences that are far enough apart, or else at its end.
-/
namespace Aigate.Watermark
open Text

structure WatermarkPayload where
  timestamp : UInt32
  keyId : UInt32
  shortTrace : UInt64
  deriving DecidableEq

def crcBit (crc : UInt16) : UInt16 :=
  if crc &&& 0x8000 ≠ 0 then (crc <<< 1) ^^^ 0x1021 else crc <<< 1

def crcByte (crc : UInt16) (byte : UInt8) : UInt16 :=
  let shifted : UInt16 := byte.toUInt16 <<< 8
  crcBit^[8] (crc ^^^ shifted)

/-- `crc16_ccitt`. -/
def crc16Ccitt (data : List UInt8) : UInt16 := data.foldl crcByte 0xFFFF

def bytesOf16 (v : UInt16) : List UInt8 := [(v >>> 8).toUInt8, v.toUInt8]

def bytesOf32 (v : UInt32) : List UInt8 :=
  [(v >>> 24).toUInt8, (v >>> 16).toUInt8, (v >>> 8).toUInt8, v.toUInt8]

def bytesOf64 (v : UInt64) : List UInt8 :=
  [(v >>> 56).toUInt8, (v >>> 48).toUInt8, (v >>> 40).toUInt8, (v >>> 32).toUInt8,
    (v >>> 24).toUInt8, (v >>> 16).toUInt8, (v >>> 8).toUInt8, v.toUInt8]

def magicByte : UInt8 := 0x57

/-- The bytes of a frame that its checksum is over. -/
def frameHead (p : WatermarkPayload) : List UInt8 :=
  magicByte :: (bytesOf32 p.timestamp ++ bytesOf32 p.keyId ++ bytesOf64 p.shortTrace)

def frame (p : WatermarkPayload) : List UInt8 :=
  frameHead p ++ bytesOf16 (crc16Ccitt (frameHead p))

/-- A byte in pairs of bits, the highest first. -/
def symbolsOf (byte : UInt8) : List (Fin 4) :=
  [Fin.ofNat 4 (byte.toNat / 64), Fin.ofNat 4 (byte.toNat / 16), Fin.ofNat 4 (byte.toNat / 4),
    Fin.ofNat 4 byte.toNat]

/-- The zero-width characters, in UTF-8. -/
def zwSymbol : Fin 4 → Bytes
  | 0 => [Char.ofNat 0xE2, Char.ofNat 0x80, Char.ofNat 0x8B]
  | 1 => [Char.ofNat 0xE2, Char.ofNat 0x80, Char.ofNat 0x8C]
  | 2 => [Char.ofNat 0xE2, Char.ofNat 0x80, Char.ofNat 0x8D]
  | 3 => [Char.ofNat 0xEF, Char.ofNat 0xBB, Char.ofNat 0xBF]

/-- `encode_payload_to_utf8`. -/
def tile (p : WatermarkPayload) : Bytes := ((frame p).flatMap symbolsOf).flatMap zwSymbol

/-- The full-width marks at which a sentence ends. -/
def wideAnchors : List Bytes :=
  [[Char.ofNat 0xE3, Char.ofNat 0x80, Char.ofNat 0x82],
    [Char.ofNat 0xEF, Char.ofNat 0xBC, Char.ofNat 0x81],
    [Char.ofNat 0xEF, Char.ofNat 0xBC, Char.ofNat 0x9F],
    [Char.ofNat 0xEF, Char.ofNat 0xBC, Char.ofNat 0x9B]]

/-- `is_punctuation_anchor`: the bytes of the mark that a text begins with, zero if there is
none. A point in front of a digit is part of a number. -/
def anchorLength : Bytes → ℕ
  | [] => 0
  | c :: rest =>
    if c = '?' ∨ c = '!' ∨ c = ';' ∨ c = '\n' then 1
    else if c = '.' then if rest.head?.any Char.isDigit then 0 else 1
    else if wideAnchors.any (·.isPrefixOf (c :: rest)) then 3
    else 0

/-- The places for the tiles, from a position on: so many bytes belong to a mark that was read,
the last place, and how many there are. -/
def collectAnchors (minInterval : ℕ) : ℕ → ℕ → ℕ → ℕ → Bytes → List ℕ
  | _, _, _, _, [] => []
  | skip + 1, pos, last, n, _ :: rest => collectAnchors minInterval skip (pos + 1) last n rest
  | 0, pos, last, n, c :: rest =>
    let advance := anchorLength (c :: rest)
    if advance ≠ 0 ∧ minInterval ≤ pos + advance - last ∧ n < 256 then
      (pos + advance) ::
        collectAnchors minInterval (advance - 1) (pos + 1) (pos + advance) (n + 1) rest
    else collectAnchors minInterval (advance - 1) (pos + 1) last n rest

/-- Put a tile at each of some places of a text, whose first byte is at a position. -/
def splice (wm : Bytes) : ℕ → List ℕ → Bytes → Bytes
  | _, [], text => text
  | pos, place :: places, text =>
    text.take (place - pos) ++ wm ++ splice wm place places (text.drop (place - pos))

/-- `watermark_inject_multi_tile`. -/
def watermarkInjectMultiTile (p : WatermarkPayload) (minInterval : ℕ) (text : Bytes) : Bytes :=
  let anchors := collectAnchors (max minInterval 20) 0 0 0 0 text
  splice (tile p) 0 (if anchors = [] then [text.length] else anchors) text

/-- `watermark_inject`. -/
def watermarkInject (p : WatermarkPayload) (text : Bytes) : Bytes :=
  watermarkInjectMultiTile p 100 text

/-- The value of a hexadecimal digit. -/
def hexDigit (c : Char) : Option ℕ :=
  if c.isDigit then some (c.toNat - 48)
  else if 'a' ≤ c ∧ c ≤ 'f' then some (c.toNat - 87)
  else if 'A' ≤ c ∧ c ≤ 'F' then some (c.toNat - 55)
  else none

/-- `strtoull` in base 16, which stops at the largest number. -/
def strtoull16 (s : Bytes) : UInt64 :=
  UInt64.ofNat (min (2 ^ 64 - 1) (((s.takeWhile fun c => (hexDigit c).isSome).filterMap hexDigit).foldl
    (fun n d => n * 16 + d) 0))

/-- The fingerprint of a trace; one that is no number is hashed. -/
def shortTrace (traceId : Bytes) (keyId timestamp : UInt32) : UInt64 :=
  if traceId = [] then (keyId.toUInt64 <<< 32) ^^^ timestamp.toUInt64
  else if strtoull16 traceId = 0 then
    traceId.foldl (fun h c => h * 31 + UInt64.ofNat c.toNat) 0
  else strtoull16 traceId

/-- The payload of a whole answer: the time and the id of the key, in 32 bits each. -/
def answerPayload (keyId now : Int64) (traceId : Bytes) : WatermarkPayload where
  timestamp := now.toUInt64.toUInt32
  keyId := keyId.toUInt64.toUInt32
  shortTrace := shortTrace traceId keyId.toUInt64.toUInt32 now.toUInt64.toUInt32

end Aigate.Watermark
