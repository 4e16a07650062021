import Aigate.JsonText
import Aigate.KeywordSearch
import Aigate.PiiText

/-!
# The inbound guardrails

Stored rules are loaded into two keyword automata and a bounded table of webhooks. A body
is refused when a blocklisted keyword occurs in it and no exempt keyword does; otherwise
its texts are scanned for sensitive entities, which are replaced in place.
-/
namespace Aigate.Guardrails
open Text JsonTree JsonText KeywordTrie PiiText

/-- Guardrail rule record. -/
structure GuardrailRule where
  id : ℤ
  ruleType : Bytes
  pattern : Bytes
  action : Bytes
  enabled : Bool
  webhookSecret : Bytes
  timeoutMs : ℤ
  failMode : Bytes
  phase : Bytes
  deriving DecidableEq

/-- The rule declares a type. -/
def GuardrailRule.isA (rule : GuardrailRule) (ruleType : String) : Bool :=
  rule.ruleType = ascii ruleType

/-- The rule declares an action. -/
def GuardrailRule.does (rule : GuardrailRule) (action : String) : Bool :=
  rule.action = ascii action

/-- The loader inserts the pattern into the blocklist. -/
def GuardrailRule.inBlocklist (rule : GuardrailRule) : Bool :=
  rule.enabled && !rule.isA "webhook" && (rule.isA "keyword" || rule.does "block")

/-- The loader inserts the pattern into the exempt list. -/
def GuardrailRule.inExemptList (rule : GuardrailRule) : Bool :=
  rule.enabled && rule.isA "exempt" && !rule.does "block"

/-- The loader looks for a place in the webhook table. -/
def GuardrailRule.isWebhook (rule : GuardrailRule) : Bool := rule.enabled && rule.isA "webhook"

/-- Webhook rule runtime definition. -/
structure WebhookRule where
  id : ℤ
  url : Bytes
  secret : Bytes
  timeoutMs : ℤ
  failMode : Bytes
  phase : Bytes
  deriving DecidableEq

/-- Maximum concurrent external webhook rules. -/
def maxWebhookRules : ℕ := 16

/-- Guardrails engine instance. -/
structure GuardrailsCtx where
  acBlock : AcTrie
  acExempt : AcTrie
  piiCfg : PiiConfig
  webhooks : List WebhookRule
  bounded : webhooks.length ≤ maxWebhookRules

/-- The runtime fields of a webhook rule, in their buffers and with their defaults. -/
def WebhookRule.ofRule (rule : GuardrailRule) : WebhookRule where
  id := rule.id
  url := rule.pattern.take 511
  secret := rule.webhookSecret.take 255
  timeoutMs := if rule.timeoutMs > 0 then rule.timeoutMs else 500
  failMode := (if rule.failMode ≠ [] then rule.failMode else ascii "open").take 15
  phase := (if rule.phase ≠ [] then rule.phase else ascii "inbound").take 15

/-- What `guardrails_load_rules` has collected so far. -/
structure Loading where
  newBlock : AcTrie
  newExempt : AcTrie
  webhooks : List WebhookRule
  bounded : webhooks.length ≤ maxWebhookRules

def Loading.start : Loading := ⟨acTrieCreate, acTrieCreate, [], Nat.zero_le _⟩

def Loading.step (l : Loading) (rule : GuardrailRule) : Loading :=
  if !rule.enabled then l
  else if rule.ruleType = ascii "webhook" then
    if h : l.webhooks.length < maxWebhookRules then
      { l with
        webhooks := l.webhooks ++ [WebhookRule.ofRule rule]
        bounded := by simpa using Nat.succ_le_of_lt h }
    else l
  else if rule.ruleType = ascii "keyword" ∨ rule.action = ascii "block" then
    { l with newBlock := acTrieInsert l.newBlock rule.pattern }
  else if rule.ruleType = ascii "exempt" then
    { l with newExempt := acTrieInsert l.newExempt rule.pattern }
  else l

/-- `guardrails_load_rules`: the new rules replace all old ones. -/
def guardrailsLoadRules (ctx : GuardrailsCtx) (rules : List GuardrailRule) : GuardrailsCtx :=
  let l := rules.foldl Loading.step Loading.start
  { ctx with
    acBlock := acTrieBuildFailureLinks l.newBlock
    acExempt := acTrieBuildFailureLinks l.newExempt
    webhooks := l.webhooks
    bounded := l.bounded }

/-- `guardrails_create`: no rules, the default configuration. -/
def guardrailsCreate : GuardrailsCtx where
  acBlock := acTrieCreate
  acExempt := acTrieCreate
  piiCfg := defaultPiiConfig
  webhooks := []
  bounded := Nat.zero_le _

/-- The part of a buffer that string functions see. -/
def cString (body : Bytes) : Bytes := body.takeWhile (·.toNat ≠ 0)

/-- A text ends at its first zero. -/
abbrev nul : Char := Char.ofNat 0

theorem nul_not_mem_cString (s : Bytes) : nul ∉ cString s := by
  intro h
  have hzero := List.mem_takeWhile_imp h
  simp [nul] at hzero

theorem toNat_ne_zero {s : Bytes} (h : nul ∉ s) : ∀ c ∈ s, decide (c.toNat ≠ 0) = true := by
  intro c hc
  rw [decide_eq_true_iff]
  intro hzero
  refine h ?_
  rwa [nul, ← hzero, Char.ofNat_toNat]

theorem cString_eq_self_iff {s : Bytes} : cString s = s ↔ nul ∉ s := by
  constructor
  · intro h
    rw [← h]
    exact nul_not_mem_cString s
  · intro h
    exact List.takeWhile_eq_self_iff.mpr (toNat_ne_zero h)

theorem cString_append_of_not_mem {a : Bytes} (h : nul ∉ a) (b : Bytes) :
    cString (a ++ b) = a ++ cString b :=
  List.takeWhile_append_of_pos (toNat_ne_zero h)

/-- Why a request is refused. -/
inductive BlockReason where
  | keyword (kw : Bytes)
  | sensitiveData
  deriving DecidableEq

/-- The text written to a buffer of the given size. -/
def BlockReason.text (size : ℕ) : BlockReason → Bytes
  | .keyword kw => kw.take (size - 1)
  | .sensitiveData => (ascii "sensitive_data_blocked").take (size - 1)

/-- Inbound check result: pass, pass with a masked body, block. -/
inductive Verdict where
  | pass
  | masked (body : Bytes)
  | blocked (reason : BlockReason)
  deriving DecidableEq

/-- A verdict with the session map behind it, and the entities that were replaced. -/
structure Inspection where
  verdict : Verdict
  map : Option SessionMap
  originals : List Bytes

/-- The session map and the `json_changed` flag of a scan, and the entities replaced. -/
structure Scan where
  map : Option SessionMap
  changed : Bool
  originals : List Bytes

/-- A scan of a subtree; nothing when an entity of a blocking type is found. -/
abbrev Scanner := Json → Scan → Option (Json × Scan)

/-- Transform the string member of a key in place. -/
def scanString (cfg : PiiConfig) (key : String) : Scanner := fun obj scan =>
  match obj.getString key with
  | none => some (obj, scan)
  | some text =>
    let t := transformPiiText cfg scan.map text
    if t.action = .block then none
    else some (if t.changed then obj.set key (.string t.text) else obj,
      ⟨t.map, scan.changed || t.changed, scan.originals ++ t.originals⟩)

def scanItems (scanItem : Scanner) : List Json → Scan → Option (List Json × Scan)
  | [], scan => some ([], scan)
  | item :: rest, scan =>
    (scanItem item scan).bind fun r =>
      (scanItems scanItem rest r.2).map fun s => (r.1 :: s.1, s.2)

/-- Scan the items of the array member of a key. -/
def scanArray (key : String) (scanItem : Scanner) : Scanner := fun obj scan =>
  match obj.getArray key with
  | none => some (obj, scan)
  | some items => (scanItems scanItem items scan).map fun r => (obj.set key (.array r.1), r.2)

/-- A content is a string or an array of parts. -/
def scanMessage (cfg : PiiConfig) : Scanner := fun message scan =>
  match message.getString "content" with
  | some _ => scanString cfg "content" message scan
  | none => scanArray "content" (scanString cfg "text") message scan

def scanContents (cfg : PiiConfig) : Scanner := scanArray "parts" (scanString cfg "text")

def Scanner.next (first second : Scanner) : Scanner := fun j scan =>
  (first j scan).bind fun r => second r.1 r.2

/-- The four places of a body that are scanned, in order. -/
def scanBody (cfg : PiiConfig) : Scanner :=
  ((Scanner.next (scanArray "messages" (scanMessage cfg)) (scanString cfg "prompt")).next
    (scanString cfg "system")).next (scanArray "contents" (scanContents cfg))

/-- A body that is not a JSON object is scanned as one text. -/
def inspectText (cfg : PiiConfig) (map : Option SessionMap) (text : Bytes) : Inspection :=
  let t := transformPiiText cfg map text
  if t.action = .block then ⟨.blocked .sensitiveData, map, []⟩
  else ⟨if t.changed then .masked t.text else .pass, t.map, t.originals⟩

def inspectObject (cfg : PiiConfig) (map : Option SessionMap) (root : Json) : Inspection :=
  match scanBody cfg root ⟨map, false, []⟩ with
  | none => ⟨.blocked .sensitiveData, map, []⟩
  | some (masked, scan) =>
    ⟨if scan.changed then .masked (dumps masked) else .pass, scan.map, scan.originals⟩

/-- The PII stage of `guardrails_inspect_inbound_with_pii`. -/
def inspectPii (cfg : PiiConfig) (map : Option SessionMap) (rawBody : Bytes) : Inspection :=
  match loads (cString rawBody) with
  | some root =>
    if root.isObject then inspectObject cfg map root else inspectText cfg map (cString rawBody)
  | none => inspectText cfg map (cString rawBody)

/-- `guardrails_inspect_inbound_with_pii`. -/
def guardrailsInspectInboundWithPii (ctx : GuardrailsCtx) (rawBody : Bytes)
    (map : Option SessionMap) : Inspection :=
  if rawBody = [] then ⟨.pass, map, []⟩
  else
    match acTrieSearch ctx.acBlock rawBody, acTrieSearch ctx.acExempt rawBody with
    | some kw, none => ⟨.blocked (.keyword kw), map, []⟩
    | _, _ => inspectPii ctx.piiCfg map rawBody

/-- `guardrails_inspect_inbound`: no session map, so nothing can be restored. -/
def guardrailsInspectInbound (ctx : GuardrailsCtx) (rawBody : Bytes) : Verdict :=
  (guardrailsInspectInboundWithPii ctx rawBody none).verdict

/-- The keyword that stops a body before the PII stage. -/
def keywordBlock (ctx : GuardrailsCtx) (rawBody : Bytes) : Option Bytes :=
  if rawBody = [] then none
  else
    match acTrieSearch ctx.acBlock rawBody, acTrieSearch ctx.acExempt rawBody with
    | some kw, none => some kw
    | _, _ => none

theorem inspect_of_keywordBlock {ctx : GuardrailsCtx} {rawBody kw : Bytes}
    (map : Option SessionMap) (h : keywordBlock ctx rawBody = some kw) :
    guardrailsInspectInboundWithPii ctx rawBody map = ⟨.blocked (.keyword kw), map, []⟩ := by
  unfold keywordBlock at h
  unfold guardrailsInspectInboundWithPii
  split at h
  · simp at h
  · rename_i hne
    rw [if_neg hne]
    split at h
    · simp_all
    · simp at h

theorem inspect_of_not_keywordBlock {ctx : GuardrailsCtx} {rawBody : Bytes}
    (map : Option SessionMap) (hne : rawBody ≠ []) (h : keywordBlock ctx rawBody = none) :
    guardrailsInspectInboundWithPii ctx rawBody map = inspectPii ctx.piiCfg map rawBody := by
  unfold keywordBlock at h
  unfold guardrailsInspectInboundWithPii
  rw [if_neg hne] at h ⊢
  split at h
  · simp at h
  · rfl

theorem inspectPii_ne_keyword (cfg : PiiConfig) (map : Option SessionMap) (rawBody kw : Bytes) :
    (inspectPii cfg map rawBody).verdict ≠ .blocked (.keyword kw) := by
  have htext : ∀ t, (inspectText cfg map t).verdict ≠ .blocked (.keyword kw) := by
    intro t
    simp only [inspectText]
    split
    · simp
    · simp only
      split <;> simp
  unfold inspectPii
  split
  · split
    · unfold inspectObject
      split
      · simp
      · simp only
        split <;> simp
    · exact htext _
  · exact htext _

/-- A keyword is reported exactly when the keyword stage stops the body. -/
theorem inspect_blocked_keyword_iff (ctx : GuardrailsCtx) (rawBody : Bytes)
    (map : Option SessionMap) (kw : Bytes) :
    (guardrailsInspectInboundWithPii ctx rawBody map).verdict = .blocked (.keyword kw) ↔
      keywordBlock ctx rawBody = some kw := by
  constructor
  · intro h
    cases hk : keywordBlock ctx rawBody with
    | some kw' =>
      rw [inspect_of_keywordBlock map hk] at h
      simp only [Verdict.blocked.injEq, BlockReason.keyword.injEq] at h
      rw [h]
    | none =>
      by_cases hne : rawBody = []
      · simp [guardrailsInspectInboundWithPii, hne] at h
      · rw [inspect_of_not_keywordBlock map hne hk] at h
        exact absurd h (inspectPii_ne_keyword _ _ _ _)
  · intro h
    rw [inspect_of_keywordBlock map h]

end Aigate.Guardrails
