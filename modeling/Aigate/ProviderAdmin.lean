import Aigate.AdminRequests
import Aigate.QueryParams

/-!
# Providers and the rows of their models

An upstream provider is stored with the models that it serves. Creating or updating it also
writes the rows of these models, from which requests are routed: the row itself has a
provider type, an endpoint and a key reference, and so has each of its targets.
-/
namespace Aigate.ProviderAdmin
open Text JsonTree AdminRequests QueryParams

/-- The provider type when none is given. -/
def openai : Field 31 := copyField 31 (ascii "openai")

/-- The vendor's type, where requests are sent to, and with which key. -/
abbrev Route := Field 31 × Field 511 × Field 1023

structure Target where
  provider : Field 31
  endpoint : Field 511
  upstreamKeyRef : Field 1023
  weight : ℕ
  priority : ℕ
  maxConcurrent : ℕ

def Target.route (t : Target) : Route := (t.provider, t.endpoint, t.upstreamKeyRef)

/-- A model record but for its name; the table has no column for `maxConcurrent`. -/
structure ModelRec where
  provider : Field 31
  endpoint : Field 511
  upstreamKeyRef : Field 1023
  defaultParamsJson : Field 1023
  enabled : Bool
  targets : List Target
  lbPolicy : Field 31
  pricingJson : Field 1023
  systemPrompt : Field 4095
  promptMode : ℤ
  hedgedDelayMs : ℤ
  hedgeBudgetPct : ℤ
  hedgedEnabled : Bool
  maxConcurrent : ℤ
  defaultThinkingBudget : ℤ
  supportsReasoning : Bool
  tagEmulationDefault : Bool

def ModelRec.route (m : ModelRec) : Route := (m.provider, m.endpoint, m.upstreamKeyRef)

def maxTargets : ℕ := 8

/-- A target as `serialize_targets_json` writes it. -/
def Target.stored (t : Target) : Target :=
  { t with
    provider := if t.provider.1 = [] then openai else t.provider
    weight := if 0 < t.weight then t.weight else 1 }

/-- What every stored list of targets is like. -/
def StoredTargets (ts : List Target) : Prop :=
  ts.length ≤ maxTargets ∧ ∀ t ∈ ts, t.provider.1 ≠ [] ∧ 0 < t.weight

/-- A row of the table of models. -/
abbrev ModelRow := { m : ModelRec // StoredTargets m.targets }

/-- The target that stands for the columns of the row. -/
def ModelRec.primary (m : ModelRec) : Target where
  provider := m.provider
  endpoint := m.endpoint
  upstreamKeyRef := m.upstreamKeyRef
  weight := 1
  priority := 0
  maxConcurrent := 0

/-- `serialize_targets_json`: a record without targets gets one from its own columns. -/
def serializeTargets (m : ModelRec) : List Target :=
  if m.targets = [] ∧ m.endpoint.1 ≠ [] then
    [Target.stored { m.primary with maxConcurrent := m.maxConcurrent.toNat }]
  else (m.targets.take maxTargets).map Target.stored

/-- `fill_model_row`: a row without targets is read with one from its own columns. -/
def fillModelRow (m : ModelRec) : ModelRec :=
  if m.targets = [] then { m with targets := [m.primary] } else m

structure ProviderRec where
  id : ℕ
  name : Field 63
  providerType : Field 31
  endpoint : Field 511
  apiKey : Field 1023
  models : List Bytes
  enabled : Bool

/-- The type that a provider stands for. -/
def ProviderRec.kind (p : ProviderRec) : Field 31 :=
  if p.providerType.1 = [] then openai else p.providerType

def ProviderRec.route (p : ProviderRec) : Route := (p.kind, p.endpoint, p.apiKey)

/-- The tables of providers and models, and the last id of a provider. -/
structure Store where
  providers : List ProviderRec
  models : Bytes → Option ModelRow
  lastId : ℕ

def Store.putModel (st : Store) (name : Bytes) (row : ModelRow) : Store :=
  { st with models := Function.update st.models name (some row) }

theorem stored_named (t : Target) : t.stored.provider.1 ≠ [] ∧ 0 < t.stored.weight := by
  unfold Target.stored
  constructor
  · dsimp only
    split_ifs with hempty
    · decide +kernel
    · exact hempty
  · dsimp only
    split_ifs with hweight
    · exact hweight
    · exact one_pos

theorem storedTargets_serialize (m : ModelRec) : StoredTargets (serializeTargets m) := by
  unfold serializeTargets
  split_ifs
  · refine ⟨by simp [maxTargets], fun t ht => ?_⟩
    rw [List.mem_singleton.mp ht]
    exact stored_named _
  · refine ⟨?_, fun t ht => ?_⟩
    · rw [List.length_map]
      exact List.length_take_le _ _
    · obtain ⟨u, -, rfl⟩ := List.mem_map.mp ht
      exact stored_named u

theorem stored_of_named {t : Target} (hname : t.provider.1 ≠ []) (hweight : 0 < t.weight) :
    t.stored = t := by
  unfold Target.stored
  rw [if_neg hname, if_pos hweight]

/-- `get_model`: only enabled rows are found. -/
def getModel (st : Store) (name : Bytes) : Option ModelRec :=
  (st.models name).bind fun row =>
    if row.1.enabled then some (fillModelRow row.1) else none

def emptyObject : Field 1023 := copyField 1023 ['{', '}']

/-- `create_model`: it fails on a name that is taken, and does not write the switch, which
is on in a new row. -/
def createModel (st : Store) (name : Bytes) (m : ModelRec) : Option Store :=
  match st.models name with
  | some _ => none
  | none =>
    let first := m.targets.head?
    let row : ModelRec :=
      { m with
        provider := orElse m.provider ((first.map Target.provider).getD openai)
        endpoint := orElse m.endpoint ((first.map Target.endpoint).getD (noText 511))
        upstreamKeyRef :=
          orElse m.upstreamKeyRef ((first.map Target.upstreamKeyRef).getD (noText 1023))
        defaultParamsJson := orElse m.defaultParamsJson emptyObject
        enabled := true
        targets := serializeTargets m
        lbPolicy := orElse m.lbPolicy (copyField 31 (ascii "priority"))
        pricingJson := orElse m.pricingJson emptyObject
        hedgeBudgetPct := if 0 < m.hedgeBudgetPct then m.hedgeBudgetPct else 15
        maxConcurrent := 0 }
    some (st.putModel name ⟨row, storedTargets_serialize m⟩)

/-- The bits of the mask of `update_model`. -/
inductive ModelColumn where
  | endpoint
  | params
  | enabled
  | keyRef
  | targets
  | lbPolicy
  | pricing
  | systemPrompt
  | promptMode
  | hedgedDelay
  | hedgeBudget
  | hedgedEnabled
  | maxConcurrent
  | thinkingBudget
  | supportsReasoning
  | tagEmulationDefault
  deriving DecidableEq

def ModelColumn.write (m : ModelRec) (row : ModelRow) : ModelColumn → ModelRow
  | .endpoint => ⟨{ row.1 with endpoint := m.endpoint }, row.2⟩
  | .params => ⟨{ row.1 with defaultParamsJson := m.defaultParamsJson }, row.2⟩
  | .enabled => ⟨{ row.1 with enabled := m.enabled }, row.2⟩
  | .keyRef => ⟨{ row.1 with upstreamKeyRef := m.upstreamKeyRef }, row.2⟩
  | .targets => ⟨{ row.1 with targets := serializeTargets m }, storedTargets_serialize m⟩
  | .lbPolicy =>
    ⟨{ row.1 with lbPolicy := orElse m.lbPolicy (copyField 31 (ascii "priority")) }, row.2⟩
  | .pricing => ⟨{ row.1 with pricingJson := orElse m.pricingJson emptyObject }, row.2⟩
  | .systemPrompt => ⟨{ row.1 with systemPrompt := m.systemPrompt }, row.2⟩
  | .promptMode => ⟨{ row.1 with promptMode := m.promptMode }, row.2⟩
  | .hedgedDelay => ⟨{ row.1 with hedgedDelayMs := m.hedgedDelayMs }, row.2⟩
  | .hedgeBudget => ⟨{ row.1 with hedgeBudgetPct := m.hedgeBudgetPct }, row.2⟩
  | .hedgedEnabled => ⟨{ row.1 with hedgedEnabled := m.hedgedEnabled }, row.2⟩
  -- the statement has no column for this bit
  | .maxConcurrent => row
  | .thinkingBudget => ⟨{ row.1 with defaultThinkingBudget := m.defaultThinkingBudget }, row.2⟩
  | .supportsReasoning => ⟨{ row.1 with supportsReasoning := m.supportsReasoning }, row.2⟩
  | .tagEmulationDefault =>
    ⟨{ row.1 with tagEmulationDefault := m.tagEmulationDefault }, row.2⟩

/-- `update_model`: the columns of the mask, in the row with the name if there is one. A
statement without a column fails. -/
def updateModel (st : Store) (name : Bytes) (m : ModelRec) (mask : List ModelColumn) :
    Option Store :=
  if mask = [] then some st
  else if mask.filter (· ≠ .maxConcurrent) = [] then none
  else
    match st.models name with
    | some row => some (st.putModel name (mask.foldl (ModelColumn.write m) row))
    | none => some st

/-- What a sync leaves: the tables, how many models failed, and which rows it has written. -/
structure Synced where
  store : Store
  failed : ℕ
  written : List Bytes

/-- The first target of a model is overwritten with the provider. -/
def retarget (p : ProviderRec) (t : Target) : Target :=
  { t with
    endpoint := p.endpoint
    upstreamKeyRef := p.apiKey
    provider := if p.providerType.1 ≠ [] then p.providerType else t.provider }

/-- The record of a model that exists, overwritten with the provider. -/
def overwrite (p : ProviderRec) (existing : ModelRec) : ModelRec :=
  { existing with
    endpoint := p.endpoint
    upstreamKeyRef := p.apiKey
    enabled := p.enabled
    provider := if p.providerType.1 ≠ [] then p.providerType else existing.provider
    targets := existing.targets.modifyHead (retarget p) }

/-- The record of a new model. -/
def newModel (p : ProviderRec) : ModelRec where
  provider := if p.providerType.1 ≠ [] then p.providerType else openai
  endpoint := p.endpoint
  upstreamKeyRef := p.apiKey
  defaultParamsJson := noText 1023
  enabled := p.enabled
  targets := []
  lbPolicy := copyField 31 (ascii "priority")
  pricingJson := noText 1023
  systemPrompt := noText 4095
  promptMode := 0
  hedgedDelayMs := 0
  hedgeBudgetPct := 0
  hedgedEnabled := false
  maxConcurrent := 0
  defaultThinkingBudget := 0
  supportsReasoning := false
  tagEmulationDefault := false

def nameCap : ℕ := 127

/-- One model of a sync; the flags tell which of its two store operations fail. -/
def syncModel (p : ProviderRec) (getFails writeFails : Bool) (s : Synced) (name : Bytes) :
    Synced :=
  if name = [] then s
  else
    match attempt getFails (getModel s.store name) with
    | some existing =>
      let m := overwrite p existing
      let mask : List ModelColumn :=
        if existing.targets ≠ [] then [.endpoint, .keyRef, .enabled, .targets]
        else [.endpoint, .keyRef, .enabled]
      match attempt writeFails (updateModel s.store name m mask) with
      | some st => { s with store := st, written := name :: s.written }
      | none => { s with failed := s.failed + 1 }
    | none =>
      let key := name.take nameCap
      match attempt writeFails (createModel s.store key (newModel p)) with
      | some st => { s with store := st, written := key :: s.written }
      | none => { s with failed := s.failed + 1 }

/-- `sync_provider_models`, from the given operation of the request on. -/
def syncModels (p : ProviderRec) (faults : ℕ → Bool) : ℕ → List Bytes → Synced → Synced
  | _, [], s => s
  | op, name :: rest, s =>
    syncModels p faults (op + 2) rest (syncModel p (faults op) (faults (op + 1)) s name)

/-- What a handler knows of the gateway. -/
structure Context where
  haveMaster : Bool
  allowPlaintextKeys : Bool

/-- `process_api_key_for_storage`: references are stored as they are, and other keys
encrypted, or as plain text where that is allowed. -/
def processApiKeyForStorage (adm : Context) (encrypt : Bytes → Option Bytes)
    (inputKey : Bytes) : Option (Field 1023) :=
  if inputKey = [] then some (noText 1023)
  else if (ascii "env:").isPrefixOf inputKey || (ascii "pg:").isPrefixOf inputKey then
    some (copyField 1023 inputKey)
  else
    match if adm.haveMaster then (encrypt inputKey).filter (·.length + 4 ≤ 1024) else none with
    | some enc => some (copyField 1023 (ascii "pg:" ++ enc))
    | none => if adm.allowPlaintextKeys then some (copyField 1023 inputKey) else none

/-- `parse_provider_models_json`: the names that are not empty; nothing from 257 items on. -/
def parseProviderModelsJson (jarr : Option Json) : Option (List Bytes) :=
  match jarr.bind Json.arrayItems with
  | none => some []
  | some items =>
    if 256 < items.length then none
    else some ((items.filterMap Json.stringValue).filter (· ≠ []))

def joinCap : ℕ := 4096

/-- `create_provider`: it fails on a name that is taken and on too long a list of models. -/
def createProvider (st : Store) (p : ProviderRec) : Option (Store × ℕ) :=
  if joinCap ≤ (joined p.models).length ∨ st.providers.any (·.name = p.name) then
    none
  else
    let id := st.lastId + 1
    let row := { p with id := id, models := storedModels p.models }
    some ({ st with providers := st.providers ++ [row], lastId := id }, id)

inductive ProviderColumn where
  | type
  | endpoint
  | apiKey
  | models
  | enabled
  deriving DecidableEq

def ProviderColumn.write (p row : ProviderRec) : ProviderColumn → ProviderRec
  | .type => { row with providerType := p.providerType }
  | .endpoint => { row with endpoint := p.endpoint }
  | .apiKey => { row with apiKey := p.apiKey }
  | .models => { row with models := storedModels p.models }
  | .enabled => { row with enabled := p.enabled }

/-- `update_provider`: the columns of the mask in the row with the id. -/
def updateProvider (st : Store) (p : ProviderRec) (mask : List ProviderColumn) :
    Option Store :=
  if .models ∈ mask ∧ joinCap ≤ (joined p.models).length then none
  else
    some { st with
      providers := st.providers.map fun row =>
        if row.id = p.id then mask.foldl (ProviderColumn.write p) row else row }

def getProvider (st : Store) (id : ℤ) : Option ProviderRec :=
  st.providers.find? fun p => (p.id : ℤ) = id

structure ProviderReport where
  id : ℕ
  name : Field 63
  syncFailed : ℕ

/-- The answer, the tables, and the provider whose models were synced with the rows that
were written for it. -/
structure Handled where
  reply : Reply ProviderReport
  store : Store
  synced : Option (ProviderRec × List Bytes)

def refuse (reply : Reply ProviderReport) (st : Store) : Handled := ⟨reply, st, none⟩

/-- The sync after a provider was stored. -/
def syncProviderModels (p : ProviderRec) (faults : ℕ → Bool) (op : ℕ) (st : Store) : Synced :=
  syncModels p faults op p.models ⟨st, 0, []⟩

def keyRequired : Reply ProviderReport :=
  .refused .badRequest "provider_key_required"
    "set AIGATE_MASTER_KEY to encrypt provider keys, or enable AIGATE_ALLOW_PLAINTEXT_KEYS=1"

/-- `provider_create`. -/
def providerCreate (adm : Context) (c : Call) (st : Store) : Handled :=
  match parseBody c.body with
  | none => refuse (badRequest "invalid json body") st
  | some jbody =>
    let name := (jbody.getString "name").getD []
    let endpoint := (jbody.getString "endpoint").getD []
    if name = [] ∨ endpoint = [] then
      refuse (badRequest "name and endpoint required") st
    else
      let ptype := (jbody.getString "provider_type").getD []
      let ptype :=
        if ptype = [] then (jbody.getString "provider").getD (ascii "openai") else ptype
      let key := (jbody.getString "api_key").getD []
      match processApiKeyForStorage adm c.encrypt key with
      | none => refuse keyRequired st
      | some apiKey =>
        match parseProviderModelsJson (jbody.get "models") with
        | none => refuse (badRequest "invalid models array") st
        | some models =>
          let p : ProviderRec :=
            { id := 0
              name := copyField 63 name
              providerType := copyField 31 ptype
              endpoint := copyField 511 endpoint
              apiKey := apiKey
              models := models
              enabled := match jbody.get "enabled" with
                | none => true
                | some (.bool b) => b
                | some _ => false }
          match attempt (c.faults 0) (createProvider st p) with
          | none =>
            refuse (badRequest "provider create failed (duplicate name?)") st
          | some (stored, id) =>
            let p := { p with id := id }
            let s := syncProviderModels p c.faults 1 stored
            ⟨.created ⟨id, p.name, s.failed⟩, s.store, some (p, s.written)⟩

/-- The bullets that a listing shows in place of a key. -/
def maskedDots : Bytes :=
  (List.replicate 4 [Char.ofNat 0xE2, Char.ofNat 0x80, Char.ofNat 0xA2]).flatten

/-- A record under change with the columns that changed. -/
abbrev Patched := ProviderRec × List ProviderColumn

def patchType (jbody : Json) (k : Patched) : Patched :=
  match jbody.getString "provider_type" with
  | some v => ({ k.1 with providerType := copyField 31 v }, .type :: k.2)
  | none => k

def patchEndpoint (jbody : Json) (k : Patched) : Patched :=
  match jbody.getString "endpoint" with
  | some v => ({ k.1 with endpoint := copyField 511 v }, .endpoint :: k.2)
  | none => k

/-- A new key, unless the body has the bullets of a listing; nothing if it is refused. -/
def patchApiKey (adm : Context) (encrypt : Bytes → Option Bytes) (jbody : Json)
    (k : Patched) : Option Patched :=
  match jbody.getString "api_key" with
  | some v =>
    if occursIn maskedDots v = false ∧ v ≠ [] then
      (processApiKeyForStorage adm encrypt v).map fun apiKey =>
        ({ k.1 with apiKey := apiKey }, .apiKey :: k.2)
    else some k
  | none => some k

def patchEnabled (jbody : Json) (k : Patched) : Patched :=
  match jbody.get "enabled" with
  | some (.bool b) => ({ k.1 with enabled := b }, .enabled :: k.2)
  | _ => k

def patchModels (jbody : Json) (k : Patched) : Patched :=
  match jbody.getArray "models" with
  | some items =>
    match parseProviderModelsJson (some (.array items)) with
    | some models => ({ k.1 with models := models }, .models :: k.2)
    | none => k
  | none => k

/-- `provider_patch`, for what follows the path of the providers. -/
def providerPatch (adm : Context) (c : Call) (rest : Bytes) (st : Store) : Handled :=
  if rest = [] then refuse (.refused .notFound "not_found" "provider id not found") st
  else if strtol rest ≤ 0 then
    refuse (badRequest "invalid provider id") st
  else
    match attempt (c.faults 0) (getProvider st (strtol rest)) with
    | none => refuse (.refused .notFound "not_found" "provider not found") st
    | some existing =>
      match parseBody c.body with
      | none => refuse (badRequest "invalid json body") st
      | some jbody =>
        match patchApiKey adm c.encrypt jbody
            (patchEndpoint jbody (patchType jbody (existing, []))) with
        | none => refuse keyRequired st
        | some keyed =>
          let (p, mask) := patchModels jbody (patchEnabled jbody keyed)
          match attempt (c.faults 1) (updateProvider st p mask) with
          | none =>
            refuse (.refused .internal "internal_error" "provider update failed") st
          | some stored =>
            let s := syncProviderModels p c.faults 2 stored
            ⟨.updated ⟨p.id, p.name, s.failed⟩, s.store, some (p, s.written)⟩

end Aigate.ProviderAdmin
