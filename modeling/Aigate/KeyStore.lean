import Aigate.Text

/-!
# Client keys in PostgreSQL

`pq_create_key` writes a key record as the texts of one INSERT, the two readers decode
the texts of one SELECT. In between stand the column types: a text array, a numeric with
four decimals and a time stamp. Budgets are exact rationals here, where the program has
doubles.
-/
namespace Aigate.KeyStore
open Text

/-- The fields of `key_rec_t`; `has_expiry` says whether `expiresAt` is present. -/
structure KeyRec where
  keyId : ℤ
  keyHash : Bytes
  name : Bytes
  allowedModels : List Bytes
  rateQps : ℤ
  dailyTokenQuota : ℤ
  expiresAt : Option ℤ
  revoked : Bool
  groupId : ℤ
  guardrailsEnabled : Bool
  monthlyCostBudget : ℚ
  monthlyTokenBudget : ℤ
  systemPrompt : Bytes
  promptMode : ℤ
  watermarkEnabled : Bool
  isCanary : Bool
  dailyReasoningQuota : ℤ
  deriving DecidableEq, Repr

/-! Texts on the wire. -/

/-- `%d` and `%ld`. -/
def intText (n : ℤ) : Bytes :=
  if n < 0 then '-' :: decimal n.natAbs else decimal n.natAbs

/-- `atol` and `atoi`: an optional sign and the digits after it, up to the first other byte. -/
def atol (s : Bytes) : ℤ :=
  match s with
  | '-' :: t => -(ofDecimal (t.takeWhile Char.isDigit) : ℤ)
  | '+' :: t => ofDecimal (t.takeWhile Char.isDigit)
  | t => ofDecimal (t.takeWhile Char.isDigit)

def digit (n : ℕ) : Char := Nat.digitChar (n % 10)

def twoDigits (n : ℕ) : Bytes := [digit (n / 10), digit n]

def fourDigits (n : ℕ) : Bytes := [digit (n / 1000), digit (n / 100), digit (n / 10), digit n]

/-- Rounding to the nearest integer, ties to even. -/
def roundEven (q : ℚ) : ℤ :=
  if q - ⌊q⌋ < 1 / 2 then ⌊q⌋
  else if q - ⌊q⌋ = 1 / 2 ∧ ⌊q⌋ % 2 = 0 then ⌊q⌋
  else ⌊q⌋ + 1

/-- `%.4f` of a number of ten-thousandths. -/
def fixedFour (c : ℤ) : Bytes :=
  (if c < 0 then ['-'] else []) ++ decimal (c.natAbs / 10000) ++ '.' :: fourDigits (c.natAbs % 10000)

/-- `atof` on a plain decimal numeral. -/
def atof (s : Bytes) : ℚ :=
  let negative : Bool := s.head? = some '-'
  let t := if negative then s.tail else s
  let fraction := ((t.dropWhile Char.isDigit).drop 1).takeWhile Char.isDigit
  let value : ℚ := ofDecimal (t.takeWhile Char.isDigit) +
    (ofDecimal fraction : ℚ) / 10 ^ fraction.length
  if negative then -value else value

/-! The column types. -/

/-- `NUMERIC(12,4)` input, in ten-thousandths; out of range is an error. -/
def numericIn (s : Bytes) : Option ℤ :=
  let c := roundEven (atof s * 10000)
  if c.natAbs < 10 ^ 12 then some c else none

/-- `to_timestamp` of whole seconds, inside the range of a time stamp. -/
def toTimestamp (seconds : ℤ) : Option ℤ :=
  if -210866803200 ≤ seconds ∧ seconds < 9224318016000 then some seconds else none

/-- `string_to_array`. -/
def stringToArray (s : Bytes) : List Bytes := if s = [] then [] else s.splitOn '|'

/-- `array_to_string`. -/
def arrayToString (a : List Bytes) : Bytes := ['|'].intercalate a

/-- Year, month and day of a day number counted from 1970-01-01. -/
def civil (days : ℤ) : ℤ × ℤ × ℤ :=
  let z := days + 719468
  let era := z / 146097
  let doe := z - era * 146097
  let yoe := (doe - doe / 1460 + doe / 36524 - doe / 146096) / 365
  let doy := doe - (365 * yoe + yoe / 4 - yoe / 100)
  let mp := (5 * doy + 2) / 153
  let d := doy - (153 * mp + 2) / 5 + 1
  let m := if mp < 10 then mp + 3 else mp - 9
  (yoe + era * 400 + if m ≤ 2 then 1 else 0, m, d)

/-- The ISO text of a time stamp in a UTC session. -/
def timestampOut (seconds : ℤ) : Bytes :=
  let (y, m, d) := civil (seconds / 86400)
  let year := if 0 < y then y.toNat else (1 - y).toNat
  let tod := (seconds % 86400).toNat
  (if year < 10000 then fourDigits year else decimal year) ++
    '-' :: twoDigits m.toNat ++ '-' :: twoDigits d.toNat ++
    ' ' :: twoDigits (tod / 3600) ++ ':' :: twoDigits (tod / 60 % 60) ++
    ':' :: twoDigits (tod % 60) ++ ascii "+00" ++ if 0 < y then [] else ascii " BC"

def boolOut (b : Bool) : Bytes := if b then ['t'] else ['f']

/-- A row of `api_keys`. -/
structure ApiKeyRow where
  keyId : ℤ
  keyHash : Bytes
  name : Bytes
  allowedModels : List Bytes
  rateQps : ℤ
  dailyTokenQuota : ℤ
  expiresAt : Option ℤ
  revokedAt : Option ℤ
  groupId : Option ℤ
  guardrailsEnabled : Bool
  monthlyCostBudget : ℤ
  monthlyTokenBudget : ℤ
  systemPrompt : Option Bytes
  promptMode : ℤ
  watermarkEnabled : Bool
  isCanary : Bool
  dailyReasoningQuota : ℤ
  deriving DecidableEq, Repr

/-- `join_model_list`: the names with bars between them, if they fit the buffer. -/
def joinModelList (cap : ℕ) (buf : Bytes) (first : Bool) : List Bytes → Option Bytes
  | [] => some buf
  | m :: rest =>
    let w := if first then m else '|' :: m
    if cap - buf.length ≤ w.length then none else joinModelList cap (buf ++ w) false rest

/-- `parse_model_list`: the non-empty pieces between the bars. -/
def parseModelList (joined : Bytes) : List Bytes :=
  (joined.splitOn '|').filter fun tok => 0 < tok.length

/-- The parameters `$1` to `$15` of the INSERT. -/
structure InsertValues where
  keyHash : Bytes
  name : Bytes
  joined : Bytes
  rate : Bytes
  quota : Bytes
  exp : Bytes
  gid : Bytes
  guardrails : Bytes
  mcb : Bytes
  mtb : Bytes
  systemPrompt : Bytes
  promptMode : Bytes
  watermark : Bytes
  canary : Bytes
  drq : Bytes

def boolIn (s : Bytes) : Bool := s = ascii "true"

/-- What `pq_create_key` sends. A budget too long for its 32 bytes is out of range for the
column, cut or not. -/
def createKeyValues (k : KeyRec) : Option InsertValues :=
  (joinModelList 512 [] true k.allowedModels).map fun joined =>
    { keyHash := k.keyHash
      name := k.name
      joined := joined
      rate := intText k.rateQps
      quota := intText k.dailyTokenQuota
      exp := match k.expiresAt with
        | some e => intText e
        | none => ascii "null"
      gid := intText k.groupId
      guardrails := if k.guardrailsEnabled then ascii "true" else ascii "false"
      mcb := fixedFour (roundEven (k.monthlyCostBudget * 10000))
      mtb := intText k.monthlyTokenBudget
      systemPrompt := k.systemPrompt
      promptMode := intText k.promptMode
      watermark := if k.watermarkEnabled then ascii "true" else ascii "false"
      canary := if k.isCanary then ascii "true" else ascii "false"
      drq := intText k.dailyReasoningQuota }

/-- The row that the INSERT makes; `revoked_at` keeps its default. -/
def insertRow (keyId : ℤ) (v : InsertValues) : Option ApiKeyRow :=
  (numericIn v.mcb).bind fun budget =>
    (if v.exp = ascii "null" then some none else (toTimestamp (atol v.exp)).map some).map fun exp =>
      { keyId := keyId
        keyHash := v.keyHash
        name := v.name
        allowedModels := if v.joined = [] then [] else stringToArray v.joined
        rateQps := atol v.rate
        dailyTokenQuota := atol v.quota
        expiresAt := exp
        revokedAt := none
        groupId := if v.gid = ['0'] then none else some (atol v.gid)
        guardrailsEnabled := boolIn v.guardrails
        monthlyCostBudget := budget
        monthlyTokenBudget := atol v.mtb
        systemPrompt := if v.systemPrompt = [] then none else some v.systemPrompt
        promptMode := atol v.promptMode
        watermarkEnabled := boolIn v.watermark
        isCanary := boolIn v.canary
        dailyReasoningQuota := atol v.drq }

/-- `fill_key_row`, on the texts that the SELECT returns for a row: a NULL is read as an
empty text, a time stamp in its ISO form. -/
def fillKeyRow (r : ApiKeyRow) : KeyRec :=
  let exp := (r.expiresAt.map timestampOut).getD []
  let rev := (r.revokedAt.map timestampOut).getD []
  { keyId := atol (intText r.keyId)
    keyHash := r.keyHash
    name := r.name
    allowedModels := parseModelList (arrayToString r.allowedModels)
    rateQps := atol (intText r.rateQps)
    dailyTokenQuota := atol (intText r.dailyTokenQuota)
    expiresAt := if exp = [] then none else some (atol exp)
    revoked := decide (rev ≠ [])
    groupId := atol (intText (r.groupId.getD 0))
    guardrailsEnabled := decide (boolOut r.guardrailsEnabled ≠ ['f'])
    monthlyCostBudget := atof (fixedFour r.monthlyCostBudget)
    monthlyTokenBudget := atol (intText r.monthlyTokenBudget)
    systemPrompt := r.systemPrompt.getD []
    promptMode := atol (intText r.promptMode)
    watermarkEnabled := decide (boolOut r.watermarkEnabled = ['t'])
    isCanary := decide (boolOut r.isCanary = ['t'])
    dailyReasoningQuota := atol (intText r.dailyReasoningQuota) }

/-- The table: key hashes are unique and identifiers are handed out in order. -/
structure KeyTable where
  rows : List ApiKeyRow
  groups : List ℤ
  nextId : ℤ
  unique : (rows.map ApiKeyRow.keyHash).Nodup
  fresh : ∀ r ∈ rows, r.keyId < nextId

/-- `pq_create_key`: the new table and the identifier, or nothing when the names do not
fit, a value is out of range, the hash is taken or the group is unknown. -/
def pqCreateKey (t : KeyTable) (k : KeyRec) : Option (KeyTable × ℤ) :=
  match (createKeyValues k).bind (insertRow t.nextId) with
  | none => none
  | some r =>
    if h : r.keyHash ∉ t.rows.map ApiKeyRow.keyHash ∧ r.groupId.all (· ∈ t.groups) = true ∧
        r.keyId = t.nextId then
      some (⟨r :: t.rows, t.groups, t.nextId + 1, by
        rw [List.map_cons, List.nodup_cons]
        exact ⟨h.1, t.unique⟩, by
        intro x hx
        rcases List.mem_cons.mp hx with rfl | hx
        · have := h.2.2
          omega
        · have := t.fresh x hx
          omega⟩, t.nextId)
    else none

def pqGetKeyByHash (t : KeyTable) (keyHash : Bytes) : Option KeyRec :=
  (t.rows.find? (fun r => r.keyHash = keyHash)).map fillKeyRow

def pqGetKeyById (t : KeyTable) (keyId : ℤ) : Option KeyRec :=
  (t.rows.find? (fun r => r.keyId = keyId)).map fillKeyRow

/-- The expiry test of `auth_key_resolve`. -/
def keyExpired (k : KeyRec) (now : ℤ) : Bool :=
  match k.expiresAt with
  | some e => decide (e < now)
  | none => false

/-- `key_allows_model`: an empty list allows every model. -/
def keyAllowsModel (k : KeyRec) (model : Bytes) : Bool :=
  k.allowedModels.isEmpty || decide (model ∈ k.allowedModels)

example : timestampOut 1893456000 = ascii "2030-01-01 00:00:00+00" := by decide +kernel

end Aigate.KeyStore
