import Aigate.JailbreakDetector
import Aigate.StreamCache

/-!
# Compression of a prompt

A rule decides which messages of a conversation go on. White space is collapsed in their texts,
and at the higher level the sentences of long answers are thinned out.
-/
namespace Aigate.PromptCompressor
open Text JsonTree JsonText Guardrails JailbreakDetector Utf8 StreamCache

inductive CompressorLevel where
  | off
  | moderate
  | aggressive
  deriving DecidableEq

/-- `compressor_rule_t`. The ratio is there as the range it must lie in and as the product with a
length, which the source takes in floating point. -/
structure CompressorRule where
  enabled : Bool
  level : CompressorLevel
  minTokens : ℕ
  maxHistoryTurns : ℕ
  ratioInRange : Bool
  targetLen : ℕ → ℕ
  preserveSystem : Bool
  preserveCode : Bool
  preserveTools : Bool

/-! ### The number of tokens -/

/-- `ispunct` in the C locale. -/
def isPunctC (c : Char) : Bool := 33 ≤ c.toNat && c.toNat ≤ 126 && !c.isAlphanum

structure TokenScan where
  words : ℕ
  multibyteChars : ℕ
  inWord : Bool

def TokenScan.byte (t : TokenScan) (c : Char) : TokenScan :=
  if 0x80 ≤ c.toNat then
    { t with
      multibyteChars := t.multibyteChars + if c.toNat / 64 = 2 then 0 else 1
      inWord := false }
  else if isSpaceC c || isPunctC c then
    { t with
      words := t.words + (if t.inWord then 1 else 0) + if isPunctC c then 1 else 0
      inWord := false }
  else { t with inWord := true }

/-- `compressor_estimate_tokens`: 1.3 tokens for a word. -/
def compressorEstimateTokens (text : Bytes) : ℕ :=
  if text = [] then 0
  else
    let t := text.foldl TokenScan.byte ⟨0, 0, false⟩
    max 1 ((t.words + if t.inWord then 1 else 0) * 13 / 10 + t.multibyteChars)

/-! ### The text of a message -/

/-- `compressor_sanitize_whitespace`, from a place on: so many characters of a fence that was read,
whether a line starts here or a block of code is open, how many ends of lines and whether a blank
were just written. The result is never longer than the text, which is what its buffer holds. -/
def sanitize (preserveCode : Bool) : ℕ → Bool → Bool → ℕ → Bool → Bytes → Bytes
  | _, _, _, _, _, [] => []
  | skip + 1, _, code, newlines, run, c :: rest =>
    c :: sanitize preserveCode skip false code newlines run rest
  | 0, start, code, newlines, run, c :: rest =>
    let start' : Bool := c = '\n'
    if preserveCode ∧ start ∧ ['`', '`', '`'].isPrefixOf (c :: rest) then
      c :: sanitize preserveCode 2 false (!code) 0 false rest
    else if code then c :: sanitize preserveCode 0 start' code newlines run rest
    else if c = '\r' then sanitize preserveCode 0 start' code newlines run rest
    else if c = '\n' then
      let after := sanitize preserveCode 0 start' code (newlines + 1) false rest
      if newlines + 1 ≤ 2 then c :: after else after
    else if c = ' ' ∨ c = '\t' then
      let after := sanitize preserveCode 0 start' code 0 true rest
      if run then after else ' ' :: after
    else c :: sanitize preserveCode 0 start' code 0 false rest

def compressorSanitizeWhitespace (preserveCode : Bool) (text : Bytes) : Bytes :=
  sanitize preserveCode 0 true false 0 false text

/-- The full-width marks at which a sentence ends. -/
def wideEnds : List Bytes :=
  [[Char.ofNat 0xE3, Char.ofNat 0x80, Char.ofNat 0x82],
    [Char.ofNat 0xEF, Char.ofNat 0xBC, Char.ofNat 0x81],
    [Char.ofNat 0xEF, Char.ofNat 0xBC, Char.ofNat 0x9F]]

/-- The length of the sentence that a text begins with, its mark included. -/
def sentenceLength : Bytes → ℕ
  | [] => 0
  | c :: rest =>
    if c = '.' ∨ c = '!' ∨ c = '?' ∨ c = '\n' then 1
    else if wideEnds.any (·.isPrefixOf (c :: rest)) then 3
    else sentenceLength rest + 1

/-- The first sentences of a text, at most so many. -/
def splitSentences : ℕ → Bytes → List Bytes
  | 0, _ => []
  | n + 1, text =>
    let text := text.dropWhile isSpaceC
    if text = [] then []
    else text.take (sentenceLength text) :: splitSentences n (text.drop (sentenceLength text))

structure Sentence where
  text : Bytes
  isProtected : Bool
  filler : Bool
  keep : Bool

/-- The bytes of a text in the source, which is in UTF-8. -/
def utf8Bytes (codes : List ℕ) : Bytes := codes.map Char.ofNat

/-- Words of instructions; the last two are Chinese. -/
def essentialWords : List Bytes :=
  [ascii "must", ascii "json", ascii "schema", ascii "format",
    utf8Bytes [0xE5, 0xBF, 0x85, 0xE9, 0xA1, 0xBB], utf8Bytes [0xE7, 0xA6, 0x81, 0xE6, 0xAD, 0xA2]]

/-- Phrases of politeness; the last two are Chinese. -/
def fillerPhrases : List Bytes :=
  [ascii "As an AI", ascii "as an ai", ascii "pleased to assist", ascii "feel free to ask",
    utf8Bytes [0xE5, 0xBE, 0x88, 0xE9, 0xAB, 0x98, 0xE5, 0x85, 0xB4, 0xE4, 0xB8, 0xBA, 0xE6, 0x82,
      0xA8],
    utf8Bytes [0xE4, 0xBD, 0x9C, 0xE4, 0xB8, 0xBA] ++ ascii "AI"]

def readSentence (text : Bytes) : Sentence where
  text := text
  isProtected := occursIn (ascii "\x7b\x7bPII_") text || essentialWords.any (occursIn · text)
  filler := fillerPhrases.any (occursIn · text)
  keep := false

/-- The first and the last of more than two sentences stay, unless they are fillers. -/
def protectEnds (sents : List Sentence) : List Sentence :=
  if 2 < sents.length then
    sents.zipIdx.map fun p =>
      if (p.2 = 0 ∨ p.2 + 1 = sents.length) ∧ p.1.filler = false then
        { p.1 with isProtected := true }
      else p.1
  else sents

def keptLength (sents : List Sentence) : ℕ :=
  ((sents.filter Sentence.keep).map fun s => s.text.length).sum

/-- The next sentence in the greedy selection: the first that is no filler, or else the first. -/
def bestIdx (sents : List Sentence) : Option ℕ :=
  (sents.findIdx? fun s => !s.keep && !s.filler).or (sents.findIdx? fun s => !s.keep)

/-- The greedy selection, in at most so many rounds. -/
def select (targetLen : ℕ) : ℕ → List Sentence → List Sentence
  | 0, sents => sents
  | n + 1, sents =>
    if keptLength sents < targetLen then
      match bestIdx sents with
      | some i => select targetLen n (sents.modify i fun s => { s with keep := true })
      | none => sents
    else sents

/-- Put a sentence behind those that are written; the buffer holds so many bytes. -/
def assemble (cap : ℕ) (dst : Bytes) (s : Sentence) : Bytes :=
  if s.keep then
    let spaced := if dst ≠ [] ∧ dst.length < cap ∧ dst.getLast? ≠ some '\n' ∧
      dst.getLast? ≠ some ' ' then dst ++ [' '] else dst
    spaced ++ s.text.take (cap - spaced.length)
  else dst

/-- `compressor_prune_sentence_density`. -/
def compressorPruneSentenceDensity (rule : CompressorRule) (src : Bytes) : Bytes :=
  if src = [] then []
  else if rule.ratioInRange = false then src
  else
    let sents := protectEnds ((splitSentences 128 src).map readSentence)
    let kept := sents.map fun s => { s with keep := s.isProtected }
    (select (max 1 (rule.targetLen src.length)) sents.length kept).foldl (assemble src.length) []

/-- The role of a message. -/
def role (msg : Json) : Option Bytes := msg.getString "role"

/-- What becomes of a text that is kept. -/
def compressText (rule : CompressorRule) (msg : Json) (text : Bytes) : Bytes :=
  let sanitized := compressorSanitizeWhitespace rule.preserveCode text
  if rule.level = .aggressive ∧ role msg = some (ascii "assistant") ∧ 120 < sanitized.length then
    compressorPruneSentenceDensity rule sanitized
  else sanitized

/-- A message that is kept. A text that is cut within a character stays as it was. -/
def compressContent (rule : CompressorRule) (msg : Json) : Json :=
  match msg.getString "content" with
  | some text =>
    let text := compressText rule msg text
    if utf8Check text then msg.set "content" (.string text) else msg
  | none => msg

/-! ### The messages that are kept -/

/-- The role of the message at a place. -/
def roleAt (msgs : List Json) (i : ℕ) : Option Bytes := msgs[i]?.bind role

/-- The place of the last message of the user. -/
def lastUserIdx (msgs : List Json) : Option ℕ :=
  (List.range msgs.length).reverse.find? fun i => roleAt msgs i = some (ascii "user")

/-- The array of flags with one of them set. -/
def setKeep (keep : ℕ → Bool) (i : ℕ) : ℕ → Bool := fun j => if j = i then true else keep j

def isSystem (msg : Json) : Bool :=
  role msg = some (ascii "system") || role msg = some (ascii "developer")

/-- The prompts at the beginning, from a place on. -/
def keepSystem (preserve : Bool) : ℕ → List Json → (ℕ → Bool) → ℕ → Bool
  | _, [], keep => keep
  | i, msg :: rest, keep =>
    if isSystem msg then
      keepSystem preserve (i + 1) rest (if preserve then setKeep keep i else keep)
    else keep

/-- One message of the history, and the number of turns so far. -/
def windowStep (rule : CompressorRule) (msgs : List Json) (s : (ℕ → Bool) × ℕ) (i : ℕ) :
    (ℕ → Bool) × ℕ :=
  if s.1 i then s
  else
    let r := roleAt msgs i
    if r = some (ascii "assistant") ∨ r = some (ascii "user") ∨ r = some (ascii "tool") then
      if s.2 < rule.maxHistoryTurns then
        (setKeep s.1 i, if r = some (ascii "user") then s.2 + 1 else s.2)
      else s
    else s

/-- The message has a member `tool_calls`. -/
def hasToolCalls (msgs : List Json) (i : ℕ) : Bool := (msgs[i]?.bind (·.get "tool_calls")).isSome

/-- The tool message behind a message with calls. -/
def toolStep (msgs : List Json) (keep : ℕ → Bool) (i : ℕ) : ℕ → Bool :=
  if keep i ∧ hasToolCalls msgs i ∧ roleAt msgs (i + 1) = some (ascii "tool") then
    setKeep keep (i + 1)
  else keep

/-- The place from which the history is scanned to its beginning. -/
def scanEnd (msgs : List Json) : ℕ := (lastUserIdx msgs).getD msgs.length

/-- The flags of the last question and of the prompts at the beginning. -/
def keepFixed (rule : CompressorRule) (msgs : List Json) : ℕ → Bool :=
  keepSystem rule.preserveSystem 0 msgs fun i => lastUserIdx msgs = some i

/-- The flags behind the scan of the history. -/
def keepWindow (rule : CompressorRule) (msgs : List Json) : (ℕ → Bool) × ℕ :=
  (List.range (scanEnd msgs)).reverse.foldl (windowStep rule msgs) (keepFixed rule msgs, 0)

/-- The flags of all messages. -/
def keepFlags (rule : CompressorRule) (msgs : List Json) : ℕ → Bool :=
  if rule.preserveTools then
    (List.range msgs.length).foldl (toolStep msgs) (keepWindow rule msgs).1
  else (keepWindow rule msgs).1

/-- A rule that leaves every prompt as it is. -/
def CompressorRule.Inactive (rule : CompressorRule) : Prop := rule.enabled = false ∨ rule.level = .off

instance (rule : CompressorRule) : Decidable rule.Inactive := inferInstanceAs (Decidable (_ ∨ _))

/-- The places of the messages that go on. -/
def survivors (rule : CompressorRule) (msgs : List Json) : List ℕ :=
  if rule.Inactive then List.range msgs.length
  else (List.range msgs.length).filter (keepFlags rule msgs)

/-- The new array of messages. -/
def compressMessages (rule : CompressorRule) (msgs : List Json) : List Json :=
  (survivors rule msgs).filterMap fun i => msgs[i]?.map (compressContent rule)

/-! ### The payload -/

/-- `prompt_compressor_process_payload`: none for a payload that is no object, and the new payload
if there is one. -/
def promptCompressorProcessPayload (payload : Bytes) (rule : CompressorRule) :
    Option (Option Bytes) :=
  if payload = [] then none
  else if rule.Inactive then some none
  else if compressorEstimateTokens payload < rule.minTokens then some none
  else
    match (jsonLoads (cString payload)).filter Json.isObject with
    | none => none
    | some root =>
      match root.getArray "messages" with
      | none => some none
      | some msgs =>
        if msgs = [] then some none
        else
          let dumped := dumps (root.set "messages" (.array (compressMessages rule msgs)))
          some (if compressorEstimateTokens dumped < compressorEstimateTokens payload then some dumped
            else none)

end Aigate.PromptCompressor
