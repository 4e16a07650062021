import Aigate.JsonRoundtrip

/-!
# The response cache key

The canonical text that `response_cache_fingerprint` assembles in its fixed buffer, the
offset of every write, and what the text says about the request. Beyond the buffer the
program's behaviour is undefined; there the text stands for what it asked to be written.
-/
namespace Aigate.ResponseCacheKey
open Text JsonTree JsonText JsonRoundtrip

/-- `sizeof(buf)`. -/
def bufferSize : ℕ := 16384

/-- The text written so far and the offset at which each write started, latest first. -/
structure KeyBuffer where
  text : Bytes
  writes : List ℕ
  deriving DecidableEq, Repr

def KeyBuffer.off (b : KeyBuffer) : ℕ := b.text.length

def KeyBuffer.empty : KeyBuffer := ⟨[], []⟩

/-- `off += snprintf(buf + off, sizeof(buf) - off, ...)`, and the other writes. -/
def KeyBuffer.put (b : KeyBuffer) (s : Bytes) : KeyBuffer := ⟨b.text ++ s, b.off :: b.writes⟩

/-- `buf[off] = '\0'`. -/
def KeyBuffer.terminate (b : KeyBuffer) : KeyBuffer := ⟨b.text, b.off :: b.writes⟩

/-- A write under a guard that keeps a number of bytes free. -/
def KeyBuffer.putWithin (b : KeyBuffer) (reserve : ℕ) (s : Bytes) : KeyBuffer :=
  if b.off < bufferSize - reserve then b.put s else b

/-- Conversion of a natural number to the nearest double, ties to even. -/
def nearestDouble (n : ℕ) : ℕ :=
  if n < 2 ^ 53 then n
  else
    let unit := 2 ^ (n.log2 - 52)
    let q := n / unit
    let r := n % unit
    if 2 * r < unit ∨ (2 * r = unit ∧ q % 2 = 0) then q * unit else (q + 1) * unit

/-- Whether the digits after the second decimal round the last kept digit up. -/
def roundsUp (odd : Bool) : Bytes → Bool
  | [] => false
  | d :: ds => decide ('5' < d) || (d = '5' && (odd || ds.any (fun c => c ≠ '0')))

/-- The conversion `%.2f` of a number of hundredths. -/
def hundredths (negative : Bool) (c : ℕ) : Bytes :=
  (if negative then ['-'] else []) ++ decimal (c / 100) ++
    ['.', Char.ofNat (48 + c / 10 % 10), Char.ofNat (48 + c % 10)]

/-- The conversion `%.2f` of `json_number_value`, on a number. -/
def fixedTwo : Json → Option Bytes
  | .integer n => some (hundredths (decide (n.toInt < 0)) (nearestDouble n.toInt.natAbs * 100))
  | .real x =>
    let c := x.whole * 100 + ofDecimal ((x.fraction ++ ['0', '0']).take 2)
    let up := roundsUp (decide (c % 2 = 1)) (x.fraction.drop 2)
    some (hundredths x.negative (if up then c + 1 else c))
  | _ => none

/-- The model in lower case, cut to the size of `model_lower`. -/
def modelText (model : Bytes) : Bytes := ascii "model:" ++ lower (model.take 63) ++ ['|']

def putNumber (b : KeyBuffer) (root : Json) (key label : String) : KeyBuffer :=
  match (root.get key).bind fixedTwo with
  | some t => b.putWithin 32 (ascii label ++ t ++ ['|'])
  | none => b

def putSystem (b : KeyBuffer) (root : Json) : KeyBuffer :=
  match root.getString "system" with
  | some s => b.putWithin 64 (ascii "sys:" ++ s ++ ['|'])
  | none => b

def roleText (i : ℕ) (role : Bytes) : Bytes :=
  ascii "msg[" ++ decimal i ++ ascii "]:" ++ role ++ ['=']

def partText (i : ℕ) (text : Bytes) : Bytes :=
  ascii "part[" ++ decimal i ++ ascii "]:" ++ text ++ ['|']

def putRole (b : KeyBuffer) (i : ℕ) (m : Json) : KeyBuffer :=
  match m.getString "role" with
  | some role => b.putWithin 128 (roleText i role)
  | none => b

def putParts (b : KeyBuffer) (i : ℕ) : List Json → KeyBuffer
  | [] => b
  | part :: rest =>
    match part.getString "text" with
    | some t => putParts (b.putWithin 128 (partText i t)) (i + 1) rest
    | none => putParts b (i + 1) rest

/-- The `content` of a message, else its `parts`. -/
def messageContent (m : Json) : Option Json := (m.get "content").or (m.get "parts")

/-- A text content is cut to its first 256 bytes; part texts are not. -/
def putContent (b : KeyBuffer) (content : Option Json) : KeyBuffer :=
  match content with
  | some (.string c) =>
    if b.off < bufferSize - 128 then
      if b.off + (c.take 256).length < bufferSize - 10 then (b.put (c.take 256)).put ['|'] else b
    else b
  | some (.array parts) => putParts b 0 parts
  | _ => b

def putMessage (b : KeyBuffer) (i : ℕ) (m : Json) : KeyBuffer :=
  putContent (putRole b i m) (messageContent m)

def putMessages (b : KeyBuffer) (i : ℕ) : List Json → KeyBuffer
  | [] => b
  | m :: rest =>
    if m.isObject then
      if bufferSize - 256 ≤ (putMessage b i m).off then putMessage b i m
      else putMessages (putMessage b i m) (i + 1) rest
    else putMessages b (i + 1) rest

/-- `messages`, or `contents` when `messages` is not an array. -/
def requestMessages (root : Json) : List Json :=
  ((root.getArray "messages").or (root.getArray "contents")).getD []

def toolName (tool : Json) : Option Bytes := ((tool.get "function").getD tool).getString "name"

def putToolNames (b : KeyBuffer) : List Json → KeyBuffer
  | [] => b
  | tool :: rest =>
    match toolName tool with
    | some name => putToolNames (b.putWithin 64 (name ++ [','])) rest
    | none => putToolNames b rest

def putTools (b : KeyBuffer) (root : Json) : KeyBuffer :=
  match root.getArray "tools" with
  | some tools =>
    if b.off < bufferSize - 128 then (putToolNames (b.put (ascii "tools:")) tools).put ['|'] else b
  | none => b

/-- The part of the key before the messages. -/
def keyHead (model : Bytes) (root : Json) : KeyBuffer :=
  putSystem (putNumber (putNumber (KeyBuffer.empty.put (modelText model)) root
    "temperature" "temp:") root "top_p" "topp:") root

def buildKey (model : Bytes) (root : Json) : KeyBuffer :=
  (putTools (putMessages (keyHead model root) 0 (requestMessages root)) root).terminate

/-- Two lower-case hexadecimal digits for each byte of a digest. -/
def hexText (bytes : Bytes) : Bytes :=
  bytes.flatMap fun c => [Nat.digitChar (c.toNat / 16), Nat.digitChar (c.toNat % 16)]

/-- `response_cache_fingerprint`: the hash of the canonical text, or of the model alone
for an empty body. -/
def responseCacheFingerprint (sha256 : Bytes → Bytes) (model body : Bytes) : Option Bytes :=
  if body = [] then some (hexText (sha256 model))
  else
    match loads body with
    | some root =>
      if root.isObject then some (hexText (sha256 (buildKey model root).text)) else none
    | none => none

example : ((loads (ascii "\x7b\"messages\":[\x7b\"role\":\"user\",\"content\":\"hi\"\x7d],\"top_p\":0.255\x7d")).map
    fun root => (buildKey (ascii "GPT-4o") root).text) =
    some (ascii "model:gpt-4o|topp:0.26|msg[0]:user=hi|") := by decide +kernel

end Aigate.ResponseCacheKey
