import Aigate.AdminRequests

/-!
# API keys

A key is stored with its limits, and the record of a key that was looked up is kept in a
cache. A change of a key checks all fields of the body before it is stored with one
statement, and takes the record out of the cache.
-/
namespace Aigate.KeyAdmin
open Text JsonTree JsonNumbers AdminRequests QueryParams

/-- A key record; group 0 is no group. -/
structure KeyRec where
  keyHash : Bytes
  name : Field 127
  allowedModels : List Bytes
  rateQps : ℤ
  dailyTokenQuota : ℤ
  expiresAt : Option ℤ
  groupId : ℤ
  guardrailsEnabled : Bool
  watermarkEnabled : Bool
  isCanary : Bool
  monthlyCostBudget : ℚ
  monthlyTokenBudget : ℤ
  systemPrompt : Field 4095
  promptMode : ℤ
  dailyReasoningQuota : ℤ

/-- The table of keys and the cache by hash, which has hashes of stored keys only. -/
structure Keys where
  rows : ℕ → Option KeyRec
  lastId : ℕ
  cache : Bytes → Option KeyRec
  cached : ∀ hash k, cache hash = some k → ∃ id row, rows id = some row ∧ row.keyHash = hash
  fresh : ∀ id, lastId < id → rows id = none

/-- A row that has the hash of the row it replaces. -/
def Keys.putRow (ks : Keys) (id : ℕ) (row : KeyRec)
    (h : ∀ old, ks.rows id = some old → old.keyHash = row.keyHash) : Keys where
  rows := Function.update ks.rows id (some row)
  lastId := max ks.lastId id
  cache := ks.cache
  cached hash k hk := by
    obtain ⟨id', row', hrow', hhash⟩ := ks.cached hash k hk
    by_cases hid : id' = id
    · subst hid
      exact ⟨id', row, Function.update_self .., (h row' hrow').symm.trans hhash⟩
    · exact ⟨id', row', by rw [Function.update_of_ne hid, hrow'], hhash⟩
  fresh k hk := by
    rw [Function.update_of_ne (by omega)]
    exact ks.fresh k (by omega)

/-- `auth_key_invalidate`. -/
def Keys.invalidate (ks : Keys) (hash : Bytes) : Keys where
  rows := ks.rows
  lastId := ks.lastId
  cache := Function.update ks.cache hash none
  cached other k hk := by
    by_cases hother : other = hash
    · subst hother
      simp at hk
    · rw [Function.update_of_ne hother] at hk
      exact ks.cached other k hk
  fresh := ks.fresh

def Keys.hashTaken (ks : Keys) (hash : Bytes) : Bool :=
  (List.range (ks.lastId + 1)).any fun id => (ks.rows id).any fun row => row.keyHash = hash

/-- How a store operation on a key ends. -/
inductive Outcome where
  | done (ks : Keys)
  | noGroup
  | failed

def allowCap : ℕ := 512

/-- `create_key`: the row under the next id. -/
def createKey (fails : Bool) (knownGroup : ℤ → Bool) (ks : Keys) (k : KeyRec) : Outcome :=
  if fails ∨ allowCap ≤ (joined k.allowedModels).length ∨ ks.hashTaken k.keyHash then .failed
  else if k.groupId ≠ 0 ∧ knownGroup k.groupId = false then .noGroup
  else
    .done (ks.putRow (ks.lastId + 1)
      { k with
        allowedModels := storedModels k.allowedModels
        monthlyCostBudget := fourDecimals k.monthlyCostBudget }
      fun old hold => by rw [ks.fresh _ (Nat.lt_succ_self _)] at hold; cases hold)

/-- The bits of the mask of `update_key`. -/
inductive KeyColumn where
  | rate
  | quota
  | allowlist
  | expiry
  | group
  | guardrails
  | watermark
  | canary
  | costBudget
  | tokenBudget
  | systemPrompt
  | promptMode
  | reasoningQuota
  deriving DecidableEq

def KeyColumn.write (k row : KeyRec) : KeyColumn → KeyRec
  | .rate => { row with rateQps := k.rateQps }
  | .quota => { row with dailyTokenQuota := k.dailyTokenQuota }
  | .allowlist => { row with allowedModels := storedModels k.allowedModels }
  | .expiry => { row with expiresAt := k.expiresAt }
  | .group => { row with groupId := k.groupId }
  | .guardrails => { row with guardrailsEnabled := k.guardrailsEnabled }
  | .watermark => { row with watermarkEnabled := k.watermarkEnabled }
  | .canary => { row with isCanary := k.isCanary }
  | .costBudget => { row with monthlyCostBudget := fourDecimals k.monthlyCostBudget }
  | .tokenBudget => { row with monthlyTokenBudget := k.monthlyTokenBudget }
  | .systemPrompt => { row with systemPrompt := k.systemPrompt }
  | .promptMode => { row with promptMode := k.promptMode }
  | .reasoningQuota => { row with dailyReasoningQuota := k.dailyReasoningQuota }

theorem foldl_write_keyHash (k row : KeyRec) (mask : List KeyColumn) :
    (mask.foldl (KeyColumn.write k) row).keyHash = row.keyHash := by
  induction mask generalizing row with
  | nil => rfl
  | cons column rest ih =>
    rw [List.foldl_cons, ih]
    cases column <;> rfl

/-- `update_key`: the columns of the mask in the row with the id. -/
def updateKey (fails : Bool) (knownGroup : ℤ → Bool) (ks : Keys) (id : ℕ) (k : KeyRec)
    (mask : List KeyColumn) : Outcome :=
  if fails then .failed
  else if mask = [] then .done ks
  else if allowCap ≤ (joined k.allowedModels).length then .failed
  else if .group ∈ mask ∧ k.groupId ≠ 0 ∧ knownGroup k.groupId = false then .noGroup
  else
    match h : ks.rows id with
    | none => .done ks
    | some row =>
      .done (ks.putRow id (mask.foldl (KeyColumn.write k) row) fun old hold => by
        rw [h] at hold
        rw [foldl_write_keyHash, Option.some_inj.mp hold])

/-- The fields of a key that an answer has. -/
structure KeyFields where
  name : Field 127
  groupId : Option ℤ
  guardrailsEnabled : Bool
  watermarkEnabled : Bool
  isCanary : Bool
  monthlyCostBudget : ℚ
  monthlyTokenBudget : ℤ
  dailyReasoningQuota : ℤ
  systemPrompt : Option (Field 4095)
  promptMode : ℤ

def KeyRec.fields (k : KeyRec) : KeyFields where
  name := k.name
  groupId := if 0 < k.groupId then some k.groupId else none
  guardrailsEnabled := k.guardrailsEnabled
  watermarkEnabled := k.watermarkEnabled
  isCanary := k.isCanary
  monthlyCostBudget := k.monthlyCostBudget
  monthlyTokenBudget := k.monthlyTokenBudget
  dailyReasoningQuota := k.dailyReasoningQuota
  systemPrompt := if k.systemPrompt.1 = [] then none else some k.systemPrompt
  promptMode := k.promptMode

/-- The plaintext is shown once, in the answer to the creation. -/
structure KeyReport where
  keyId : ℕ
  plaintext : Option Bytes
  fields : Option KeyFields

abbrev KeyReply := Reply KeyReport

/-- A list of names: at most 64, and strings all of them. -/
def allowedNames (items : List Json) : Except String (List Bytes) :=
  if 64 < items.length then .error "allowed_models overflow"
  else
    match items.mapM Json.stringValue with
    | some models => .ok models
    | none => .error "allowed_models entries must be strings"

/-- The record of `key_create`; of fields that are not what they should be it takes the
default. -/
def newKey (jbody : Json) (allowed : List Bytes) (hash : Bytes) : KeyRec where
  keyHash := hash
  name :=
    orElse (copyField 127 ((jbody.getString "name").getD [])) (copyField 127 (ascii "unnamed"))
  allowedModels := allowed
  rateQps := ((integerField jbody "rate_qps").map castInt).getD 0
  dailyTokenQuota := (integerField jbody "daily_token_quota").getD 0
  expiresAt := integerField jbody "expires_at"
  groupId := (integerField jbody "group_id").getD 0
  guardrailsEnabled := (boolField jbody "guardrails_enabled").getD true
  watermarkEnabled := (boolField jbody "watermark_enabled").getD false
  isCanary := (boolField jbody "is_canary").getD false
  monthlyCostBudget := ((jbody.get "monthly_cost_budget").bind numberValue).getD 0
  monthlyTokenBudget := (integerField jbody "monthly_token_budget").getD 0
  systemPrompt := copyField 4095 ((jbody.getString "system_prompt").getD [])
  promptMode := ((jbody.get "prompt_mode").map fun v => parsePromptMode v 0).getD 0
  dailyReasoningQuota := (integerField jbody "daily_reasoning_quota").getD 0

/-- What a handler knows of the gateway: how plaintexts are hashed, and the groups. -/
structure Context where
  sha256Hex : Bytes → Bytes
  knownGroup : ℤ → Bool

def groupNotFound : KeyReply := .refused .notFound "group_not_found" "group not found"

/-- `key_create`, with the plaintext that was drawn. -/
def keyCreate (adm : Context) (c : Call) (plain : Bytes) (ks : Keys) : KeyReply × Keys :=
  match parseBody c.body with
  | none => (badRequest "invalid json body", ks)
  | some jbody =>
    match ((jbody.getArray "allowed_models").map allowedNames).getD (.ok []) with
    | .error message => (badRequest message, ks)
    | .ok allowed =>
      let k := newKey jbody allowed (adm.sha256Hex plain)
      match createKey (c.faults 0) adm.knownGroup ks k with
      | .done ks' => (.created ⟨ks.lastId + 1, some plain, some k.fields⟩, ks')
      | .noGroup => (groupNotFound, ks)
      | .failed => (.refused .internal "internal_error" "key create failed", ks)

/-- `path_key_id`: the whole rest of the path is a positive number. -/
def pathKeyId (rest : Bytes) : Option ℕ :=
  let digits := rest.dropWhile isCSpace
  let digits := if digits.head? = some '-' ∨ digits.head? = some '+' then digits.tail else digits
  if digits ≠ [] ∧ digits.all Char.isDigit ∧ 0 < strtol rest then some (strtol rest).toNat
  else none

/-- The list of a change of a key. -/
def allowedReading (v : Json) : Reading (List Bytes) :=
  match v.arrayItems.map allowedNames with
  | none => .refused "allowed_models must be an array"
  | some (.error message) => .refused message
  | some (.ok models) => .value models

/-- The fields that `key_patch` sets, in the order of its checks. -/
def patchFields (jbody : Json) (existing : KeyRec) :
    Except String (KeyRec × List KeyColumn) := do
  let k ← changeField (orIgnored integerValue)
    (fun x k => { k with rateQps := castInt x }) KeyColumn.rate (jbody.get "rate_qps")
    (existing, [])
  let k ← changeField (orIgnored integerValue)
    (fun x k => { k with dailyTokenQuota := x }) .quota (jbody.get "daily_token_quota") k
  let k ← changeField allowedReading (fun x k => { k with allowedModels := x }) .allowlist
    (jbody.get "allowed_models") k
  let k ← changeField
    (orRefused "expires_at must be integer or null"
      (orNull (fun v => (integerValue v).map some) none))
    (fun x k => { k with expiresAt := x }) .expiry (jbody.get "expires_at") k
  let k ← changeField (orRefused "group_id must be integer or null" (orNull integerValue 0))
    (fun x k => { k with groupId := x }) .group (jbody.get "group_id") k
  let k ← changeField (orRefused "guardrails_enabled must be boolean" boolValue)
    (fun x k => { k with guardrailsEnabled := x }) .guardrails (jbody.get "guardrails_enabled") k
  let k ← changeField (orRefused "watermark_enabled must be boolean" boolValue)
    (fun x k => { k with watermarkEnabled := x }) .watermark (jbody.get "watermark_enabled") k
  let k ← changeField (orRefused "is_canary must be boolean" boolValue)
    (fun x k => { k with isCanary := x }) .canary (jbody.get "is_canary") k
  let k ← changeField (orRefused "monthly_cost_budget must be a number" numberValue)
    (fun x k => { k with monthlyCostBudget := x }) .costBudget (jbody.get "monthly_cost_budget") k
  let k ← changeField (orRefused "monthly_token_budget must be integer" integerValue)
    (fun x k => { k with monthlyTokenBudget := x }) .tokenBudget
    (jbody.get "monthly_token_budget") k
  let k ← changeField
    (orRefused "system_prompt must be string or null" (orNull Json.stringValue []))
    (fun x k => { k with systemPrompt := copyField 4095 x }) .systemPrompt
    (jbody.get "system_prompt") k
  let k ← changeField (fun v => .value (parsePromptMode v 0))
    (fun x k => { k with promptMode := x }) .promptMode (jbody.get "prompt_mode") k
  changeField (orIgnored integerValue) (fun x k => { k with dailyReasoningQuota := x })
    .reasoningQuota (jbody.get "daily_reasoning_quota") k

/-- `key_patch`, for what follows the path of the keys. -/
def keyPatch (adm : Context) (c : Call) (rest : Bytes) (ks : Keys) : KeyReply × Keys :=
  match pathKeyId rest with
  | none => (.refused .notFound "not_found" "key id not found", ks)
  | some id =>
    match attempt (c.faults 0) (ks.rows id) with
    | none => (.refused .notFound "not_found" "key not found", ks)
    | some existing =>
      match parseBody c.body with
      | none => (badRequest "invalid json body", ks)
      | some jbody =>
        match patchFields jbody existing with
        | .error message => (badRequest message, ks)
        | .ok (k, mask) =>
          match updateKey (c.faults 1) adm.knownGroup ks id k mask with
          | .done ks' => (.updated ⟨id, none, none⟩, ks'.invalidate existing.keyHash)
          | .noGroup => (groupNotFound, ks)
          | .failed => (.refused .internal "internal_error" "key update failed", ks)

/-- The row of the key has what the report has of it, and it is this row that a lookup of
the key finds. -/
def KeyReport.Holds (adm : Context) (r : KeyReport) (ks : Keys) : Prop :=
  ∃ row, ks.rows r.keyId = some row ∧ (ks.cache row.keyHash).getD row = row ∧
    (∀ plain, r.plaintext = some plain → row.keyHash = adm.sha256Hex plain) ∧
    ∀ f, r.fields = some f → row.fields = f

/-- The budget of a key that is created has no more than four decimals. -/
def CreateFits (adm : Context) (c : Call) (plain : Bytes) (ks : Keys) : Prop :=
  ∀ jbody allowed ks', parseBody c.body = some jbody →
    ((jbody.getArray "allowed_models").map allowedNames).getD (.ok []) = .ok allowed →
    createKey (c.faults 0) adm.knownGroup ks (newKey jbody allowed (adm.sha256Hex plain)) =
      .done ks' →
    ∀ x, (jbody.get "monthly_cost_budget").bind numberValue = some x → fourDecimals x = x

theorem fourDecimals_zero : fourDecimals 0 = 0 := by
  unfold fourDecimals llround
  norm_num

theorem Keys.hash_free (ks : Keys) {hash : Bytes} (h : ks.hashTaken hash = false) :
    ks.cache hash = none := by
  rw [Option.eq_none_iff_forall_ne_some]
  intro k hk
  obtain ⟨id, row, hrow, hhash⟩ := ks.cached hash k hk
  have hid : id ≤ ks.lastId := by
    by_contra hlt
    rw [ks.fresh id (by omega)] at hrow
    cases hrow
  have htaken : ks.hashTaken hash = true := by
    unfold Keys.hashTaken
    rw [List.any_eq_true]
    exact ⟨id, List.mem_range.mpr (by omega), by simp [hrow, hhash]⟩
  rw [h] at htaken
  cases htaken

/-- A key that is created is stored but for the decimals of its budget. -/
theorem createKey_done {fails : Bool} {knownGroup : ℤ → Bool} {ks ks' : Keys} {k : KeyRec}
    (h : createKey fails knownGroup ks k = .done ks') :
    ∃ row, ks'.rows (ks.lastId + 1) = some row ∧ row.keyHash = k.keyHash ∧
      ks'.cache row.keyHash = none ∧
      row.fields = { k.fields with monthlyCostBudget := fourDecimals k.monthlyCostBudget } := by
  unfold createKey at h
  split_ifs at h with hfails hgroup
  obtain rfl := Outcome.done.inj h
  have hfree : ks.hashTaken k.keyHash = false := by
    simp only [not_or, Bool.not_eq_true] at hfails
    exact hfails.2.2
  exact ⟨_, Function.update_self .., rfl, ks.hash_free hfree, rfl⟩

theorem createFits_iff {adm : Context} {c : Call} {plain : Bytes} {ks : Keys} {jbody : Json}
    {allowed : List Bytes} (hbody : parseBody c.body = some jbody)
    (hallowed : ((jbody.getArray "allowed_models").map allowedNames).getD (.ok []) =
      .ok allowed) :
    CreateFits adm c plain ks ↔ ∀ ks',
      createKey (c.faults 0) adm.knownGroup ks (newKey jbody allowed (adm.sha256Hex plain)) =
        .done ks' →
      ∀ x, (jbody.get "monthly_cost_budget").bind numberValue = some x →
        fourDecimals x = x := by
  constructor
  · exact fun h ks' => h jbody allowed ks' hbody hallowed
  · intro h jbody' allowed' ks' hbody' hallowed'
    obtain rfl := Option.some_inj.mp (hbody.symm.trans hbody')
    obtain rfl := Except.ok.inj (hallowed.symm.trans hallowed')
    exact h ks'

theorem keyCreate_atomic (adm : Context) (c : Call) (plain : Bytes) (ks : Keys) :
    Atomic (KeyReport.Holds adm) ks (keyCreate adm c plain ks) ↔ CreateFits adm c plain ks := by
  unfold keyCreate
  cases hbody : parseBody c.body with
  | none =>
    refine iff_of_true ((atomic_of_none rfl).mpr rfl) fun _ _ _ h => ?_
    rw [hbody] at h
    cases h
  | some jbody =>
    dsimp only
    cases hallowed : ((jbody.getArray "allowed_models").map allowedNames).getD (.ok []) with
    | error message =>
      refine iff_of_true ((atomic_of_none rfl).mpr rfl) fun _ _ _ hbody' hallowed' => ?_
      obtain rfl := Option.some_inj.mp (hbody.symm.trans hbody')
      rw [hallowed] at hallowed'
      cases hallowed'
    | ok allowed =>
      rw [createFits_iff hbody hallowed]
      dsimp only
      cases hcreate : createKey (c.faults 0) adm.knownGroup ks
          (newKey jbody allowed (adm.sha256Hex plain)) with
      | noGroup => exact iff_of_true ((atomic_of_none rfl).mpr rfl) nofun
      | failed => exact iff_of_true ((atomic_of_none rfl).mpr rfl) nofun
      | done ks' =>
        obtain ⟨row, hrow, hhash, hcache, hfields⟩ := createKey_done hcreate
        dsimp only
        rw [atomic_of_some rfl]
        constructor
        · rintro ⟨row', hrow', -, -, hreported⟩ _ - x hx
          obtain rfl := Option.some_inj.mp (hrow.symm.trans hrow')
          have hcost := congrArg KeyFields.monthlyCostBudget (hfields.symm.trans (hreported _ rfl))
          simp only [KeyRec.fields, newKey, hx, Option.getD_some] at hcost
          exact hcost
        · intro h
          have hcost : fourDecimals (newKey jbody allowed (adm.sha256Hex plain)).monthlyCostBudget =
              (newKey jbody allowed (adm.sha256Hex plain)).monthlyCostBudget := by
            simp only [newKey]
            cases hx : (jbody.get "monthly_cost_budget").bind numberValue with
            | none => exact fourDecimals_zero
            | some x => exact h ks' rfl x hx
          refine ⟨row, hrow, by rw [hcache, Option.getD_none], ?_, ?_⟩
          · rintro _ ⟨⟩
            exact hhash
          · rintro _ ⟨⟩
            rw [hfields, hcost]
            rfl

/-- A change of a key is stored in a row that keeps its hash. -/
theorem updateKey_done {fails : Bool} {knownGroup : ℤ → Bool} {ks ks' : Keys} {id : ℕ}
    {k row : KeyRec} {mask : List KeyColumn} (hrow : ks.rows id = some row)
    (h : updateKey fails knownGroup ks id k mask = .done ks') :
    ∃ row', ks'.rows id = some row' ∧ row'.keyHash = row.keyHash := by
  unfold updateKey at h
  split_ifs at h
  · obtain rfl := Outcome.done.inj h
    exact ⟨row, hrow, rfl⟩
  · split at h
    · rename_i hnone
      rw [hrow] at hnone
      cases hnone
    · rename_i row₀ hrow₀
      obtain rfl := Outcome.done.inj h
      obtain rfl := Option.some_inj.mp (hrow.symm.trans hrow₀)
      exact ⟨_, Function.update_self .., foldl_write_keyHash ..⟩

/-- A change of a key leaves the key as it was when it is refused, and afterwards the stored
row is looked up. -/
theorem keyPatch_atomic (adm : Context) (c : Call) (rest : Bytes) (ks : Keys) :
    Atomic (KeyReport.Holds adm) ks (keyPatch adm c rest ks) := by
  unfold keyPatch
  split
  · exact (atomic_of_none rfl).mpr rfl
  rename_i id hid
  split
  · exact (atomic_of_none rfl).mpr rfl
  rename_i existing hexisting
  split
  · exact (atomic_of_none rfl).mpr rfl
  split
  · exact (atomic_of_none rfl).mpr rfl
  split
  · rename_i ks' hupdate
    obtain ⟨row, hrow, hhash⟩ := updateKey_done (attempt_eq_some hexisting) hupdate
    rw [atomic_of_some rfl]
    refine ⟨row, hrow, ?_, nofun, nofun⟩
    have hdropped : (ks'.invalidate existing.keyHash).cache existing.keyHash = none :=
      Function.update_self ..
    rw [hhash, hdropped, Option.getD_none]
  · exact (atomic_of_none rfl).mpr rfl
  · exact (atomic_of_none rfl).mpr rfl

end Aigate.KeyAdmin
