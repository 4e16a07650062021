import Aigate.JsonEdit
import Aigate.KeyedRows
import Aigate.Secrets
import Aigate.Transaction

/-!
# Rotation of the master key

`pg_store_rotate_master_key` on the PostgreSQL store: every `pg:` secret is first rotated
into a scratch buffer of 4096 bytes, then each row is rewritten through buffers of 2048
bytes inside one transaction.
-/
namespace Aigate.KeyRotation
open Text JsonTree JsonText Secrets Transaction KeyedRows

/-- `strncmp(ref, "pg:", 3) == 0`. -/
def isPg (ref : Bytes) : Bool := (ascii "pg:").isPrefixOf ref

/-- A row of `models`: the columns that the rotation touches, and the rest of them. -/
structure ModelRow (R : Type) where
  modelName : Bytes
  upstreamKeyRef : Option Bytes
  targets : Bytes
  rest : R

structure ProviderRow (R : Type) where
  id : ℤ
  apiKey : Bytes
  rest : R

/-- The tables, with their primary keys. -/
structure Store (R : Type) where
  models : List (ModelRow R)
  providers : List (ProviderRow R)
  modelKey : (models.map ModelRow.modelName).Nodup
  providerKey : (providers.map ProviderRow.id).Nodup

def ModelRow.setColumns {R : Type} (keyRef : Option Bytes) (targets : Bytes) (m : ModelRow R) :
    ModelRow R :=
  { m with upstreamKeyRef := keyRef, targets := targets }

def ProviderRow.setKey {R : Type} (apiKey : Bytes) (p : ProviderRow R) : ProviderRow R :=
  { p with apiKey := apiKey }

/-- `UPDATE models SET upstream_key_ref = $1, targets = $2 WHERE model_name = $3`. -/
def Store.updateModel {R : Type} (t : Store R) (name : Bytes) (keyRef : Option Bytes)
    (targets : Bytes) : Store R where
  models := putAt ModelRow.modelName name (ModelRow.setColumns keyRef targets) t.models
  providers := t.providers
  modelKey := by
    rw [map_key_putAt _ name (f := ModelRow.setColumns keyRef targets) (fun _ => rfl)]
    exact t.modelKey
  providerKey := t.providerKey

/-- `UPDATE providers SET api_key = $1 WHERE id = $2`. -/
def Store.updateProvider {R : Type} (t : Store R) (id : ℤ) (apiKey : Bytes) : Store R where
  models := t.models
  providers := putAt ProviderRow.id id (ProviderRow.setKey apiKey) t.providers
  modelKey := t.modelKey
  providerKey := by
    rw [map_key_putAt _ id (f := ProviderRow.setKey apiKey) (fun _ => rfl)]
    exact t.providerKey

/-- The nonces drawn in one pass over the tables. -/
structure Nonces where
  keyRef : ℕ → Nonce
  target : ℕ → ℕ → Nonce
  provider : ℕ → Nonce

/-- The key reference of a target. -/
def targetRef (item : Json) : Option Bytes := item.getString "upstream_key_ref"

/-- The targets of a row, when its column holds an array. -/
def targetItems (targets : Bytes) : List Json :=
  match loads targets with
  | some (.array items) => items
  | _ => []

section Rotation

variable {R : Type} (g : Gcm) (oldMaster newMaster : MasterKey)

/-- The first pass over one reference. -/
def checkRef (nonce : Nonce) (ref : Bytes) : Bool :=
  !isPg ref || (secretRotate g oldMaster newMaster nonce (ref.drop 3) 4096).isSome

def checkModel (n : Nonces) (i : ℕ) (m : ModelRow R) : Bool :=
  checkRef g oldMaster newMaster (n.keyRef i) (m.upstreamKeyRef.getD []) &&
    (targetItems m.targets).zipIdx.all fun p =>
      (targetRef p.1).all (checkRef g oldMaster newMaster (n.target i p.2))

def checkStore (n : Nonces) (t : Store R) : Bool :=
  t.models.zipIdx.all (fun p => checkModel g oldMaster newMaster n p.2 p.1) &&
    t.providers.zipIdx.all fun p => checkRef g oldMaster newMaster (n.provider p.2) p.1.apiKey

/-- `snprintf(buf, cap, "pg:%.*s", cap - 4, enc)`. -/
def pgRef (cap : ℕ) (enc : Bytes) : Bytes := ascii "pg:" ++ enc.take (cap - 4)

/-- A `pg:` reference under the new key, through buffers of 2048 bytes. -/
def rotateRef (nonce : Nonce) (ref : Bytes) : Option Bytes :=
  (secretRotate g oldMaster newMaster nonce (ref.drop 3) 2048).map (pgRef 2048)

/-- `new_kref` and whether it changed: a secret that is not rotated leaves it empty, and
another reference is copied into the buffer. -/
def newKeyRef (nonce : Nonce) (ref : Bytes) : Bytes × Bool :=
  if isPg ref then
    match rotateRef g oldMaster newMaster nonce ref with
    | some new => (new, true)
    | none => ([], false)
  else (ref.take 2047, false)

/-- A target after the rewriting, if it is rewritten. -/
def newItem (nonce : Nonce) (item : Json) : Option Json :=
  match targetRef item with
  | some ref =>
    if isPg ref then (rotateRef g oldMaster newMaster nonce ref).map fun new =>
      item.set "upstream_key_ref" (.string new)
    else none
  | none => none

def newItems (nonce : ℕ → Nonce) (items : List Json) : List Json :=
  rewritten (fun j item => (newItem g oldMaster newMaster (nonce j) item).map fun new _ => new)
    0 items

/-- `new_targets_str`, if a target changed. -/
def newTargets (nonce : ℕ → Nonce) (targets : Bytes) : Option Bytes :=
  match loads targets with
  | some (.array items) =>
    if items.zipIdx.any fun p => (newItem g oldMaster newMaster (nonce p.2) p.1).isSome then
      some (dumps (.array (newItems g oldMaster newMaster nonce items)))
    else none
  | _ => none

/-- The new columns of a row, if it changed: an empty reference is written as NULL. -/
def rotateModel (n : Nonces) (i : ℕ) (m : ModelRow R) : Option (Option Bytes × Bytes) :=
  let kref := newKeyRef g oldMaster newMaster (n.keyRef i) (m.upstreamKeyRef.getD [])
  let targets := newTargets g oldMaster newMaster (n.target i) m.targets
  if kref.2 || targets.isSome then
    some (if kref.1 = [] then none else some kref.1, targets.getD m.targets)
  else none

def rotateProvider (n : Nonces) (i : ℕ) (p : ProviderRow R) : Option Bytes :=
  if isPg p.apiKey then rotateRef g oldMaster newMaster (n.provider i) p.apiKey else none

/-- The updates of the models, in the order of the rows. -/
def modelUpdates (n : Nonces) (i : ℕ) : List (ModelRow R) → List (Store R → Store R)
  | [] => []
  | m :: rest =>
    match rotateModel g oldMaster newMaster n i m with
    | some new => (fun t => t.updateModel m.modelName new.1 new.2) :: modelUpdates n (i + 1) rest
    | none => modelUpdates n (i + 1) rest

def providerUpdates (n : Nonces) (i : ℕ) : List (ProviderRow R) → List (Store R → Store R)
  | [] => []
  | p :: rest =>
    match rotateProvider g oldMaster newMaster n i p with
    | some new => (fun t => t.updateProvider p.id new) :: providerUpdates n (i + 1) rest
    | none => providerUpdates n (i + 1) rest

def storeUpdates (n : Nonces) (t : Store R) : List (Store R → Store R) :=
  modelUpdates g oldMaster newMaster n 0 t.models ++
    providerUpdates g oldMaster newMaster n 0 t.providers

/-- How the statements of one rotation end. A transaction is atomic: no commit fails after
it took effect. -/
structure RotateOutcomes where
  connected : Bool
  read : Bool
  begin : Outcome
  update : ℕ → Outcome
  commit : Outcome
  rollback : Outcome
  atomic : commit ≠ .lost true

/-- The second pass, after every secret was checked. -/
def rotateChecked (n : Nonces) (t : Store R) (o : RotateOutcomes) : Session (Store R) × ℤ :=
  let begun := Session.exec ⟨t, .idle⟩ .begin o.begin
  if begun.2 then
    let run := begun.1.execAll o.update 0 (storeUpdates g oldMaster newMaster n t)
    if run.2 then
      let committed := run.1.exec .commit o.commit
      if committed.2 then (committed.1, 0)
      else ((committed.1.exec .rollback o.rollback).1, -1)
    else ((run.1.exec .rollback o.rollback).1, -1)
  else (begun.1, -1)

/-- `pg_store_rotate_master_key` on a libpq context: the store afterwards and the returned
code. The two passes draw their own nonces. -/
def rotateMasterKey (first second : Nonces) (t : Store R) (o : RotateOutcomes) : Store R × ℤ :=
  if o.connected && o.read && checkStore g oldMaster newMaster first t then
    let result := rotateChecked g oldMaster newMaster second t o
    (result.1.durable, result.2)
  else (t, -1)

/-- A secret that opens under the new key as its predecessor did under the old one. -/
def SecretKept (ref ref' : Bytes) : Prop :=
  isPg ref' = true ∧ ∃ p, plainOf g newMaster (ref'.drop 3) = some p ∧
    plainOf g oldMaster (ref.drop 3) = some p

/-- A secret is rotated, and any other reference is kept. -/
def RefRotated (ref ref' : Bytes) : Prop :=
  if isPg ref then SecretKept g oldMaster newMaster ref ref' else ref' = ref

/-- Only the secret of a target changes. -/
def ItemRotated (item item' : Json) : Prop :=
  match targetRef item with
  | some ref => ∃ ref', RefRotated g oldMaster newMaster ref ref' ∧
      item' = item.set "upstream_key_ref" (.string ref')
  | none => item' = item

def TargetsRotated (targets targets' : Bytes) : Prop :=
  match loads targets with
  | some (.array items) => ∃ items', loads targets' = some (.array items') ∧
      List.Forall₂ (ItemRotated g oldMaster newMaster) items items'
  | _ => targets' = targets

def ModelRotated (m m' : ModelRow R) : Prop :=
  m'.modelName = m.modelName ∧ m'.rest = m.rest ∧
    Option.Rel (RefRotated g oldMaster newMaster) m.upstreamKeyRef m'.upstreamKeyRef ∧
    TargetsRotated g oldMaster newMaster m.targets m'.targets

def ProviderRotated (p p' : ProviderRow R) : Prop :=
  p'.id = p.id ∧ p'.rest = p.rest ∧ RefRotated g oldMaster newMaster p.apiKey p'.apiKey

/-- Every secret is rotated and every other field is unchanged. -/
def StoreRotated (t t' : Store R) : Prop :=
  List.Forall₂ (ModelRotated g oldMaster newMaster) t.models t'.models ∧
    List.Forall₂ (ProviderRotated g oldMaster newMaster) t.providers t'.providers

/-- Success rotates the store, failure leaves it alone. -/
def AllOrNothing (t : Store R) (result : Store R × ℤ) : Prop :=
  result.2 = 0 ∧ StoreRotated g oldMaster newMaster t result.1 ∨
    result.2 = -1 ∧ result.1 = t

end Rotation

end Aigate.KeyRotation
