import Aigate.KeyRotationPq

/-!
# Rotation without a transaction

The path of `pg_store_rotate_master_key` for other backends: the first 64 models and the
first 64 providers are read into records of fixed size, rotated and written back one by
one, and the first failure ends it.
-/
namespace Aigate.KeyRotationOps
open Text Secrets Transaction KeyedRows KeyRotation KeyRotationPq

/-- The content of a field `char [1024]`. -/
abbrev Field := { b : Bytes // b.length < 1024 }

structure Target (R : Type) where
  upstreamKeyRef : Field
  rest : R

structure ModelRec (R : Type) where
  name : Bytes
  upstreamKeyRef : Field
  targets : List (Target R)
  rest : R

structure ProviderRec (R : Type) where
  id : ℤ
  apiKey : Field
  rest : R

structure OpsStore (R : Type) where
  models : List (ModelRec R)
  providers : List (ProviderRec R)
  modelKey : (models.map ModelRec.name).Nodup
  providerKey : (providers.map ProviderRec.id).Nodup

/-- The capacity of the arrays that the records are listed into. -/
def listCap : ℕ := 64

theorem length_fieldRef (enc : Bytes) : (pgRef 1024 enc).length < 1024 := by
  have hlen : (ascii "pg:").length = 3 := by
    rw [ascii_length]
    decide
  rw [pgRef, List.length_append, hlen, List.length_take]
  omega

/-- `snprintf(field, 1024, "pg:%.*s", 1020, enc)`. -/
def fieldRef (enc : Bytes) : Field := ⟨pgRef 1024 enc, length_fieldRef enc⟩

section Rotation

variable {R : Type} (g : Gcm) (oldMaster newMaster : MasterKey)

/-- A field after the rotation, or nothing when its secret cannot be rotated. -/
def rotateField (nonce : Nonce) (ref : Field) : Option Field :=
  if isPg ref.1 then
    (secretRotate g oldMaster newMaster nonce (ref.1.drop 3) 2048).map fieldRef
  else some ref

/-- The loop over the targets of a model. -/
def rotateTargets (nonce : ℕ → Nonce) (i : ℕ) : List (Target R) → Option (List (Target R))
  | [] => some []
  | t :: rest => do
    let ref ← rotateField g oldMaster newMaster (nonce i) t.upstreamKeyRef
    let rest' ← rotateTargets nonce (i + 1) rest
    pure ({ t with upstreamKeyRef := ref } :: rest')

/-- `ops->update_model` with the mask of the changed fields. -/
def setModel (maskKeyRef maskTargets : Bool) (keyRef : Field) (targets : List (Target R))
    (m : ModelRec R) : ModelRec R :=
  { m with
    upstreamKeyRef := if maskKeyRef then keyRef else m.upstreamKeyRef
    targets := if maskTargets then targets else m.targets }

def setProvider (apiKey : Field) (p : ProviderRec R) : ProviderRec R := { p with apiKey := apiKey }

/-- What the loop does with one model: give up, nothing when the mask is empty, or update. -/
def modelStep (n : Nonces) (i : ℕ) (m : ModelRec R) : Step (ModelRec R) :=
  match rotateField g oldMaster newMaster (n.keyRef i) m.upstreamKeyRef,
    rotateTargets g oldMaster newMaster (n.target i) 0 m.targets with
  | some keyRef, some targets =>
    if isPg m.upstreamKeyRef.1 || m.targets.any fun t => isPg t.upstreamKeyRef.1 then
      .write (setModel (isPg m.upstreamKeyRef.1) (m.targets.any fun t => isPg t.upstreamKeyRef.1)
        keyRef targets)
    else .skip
  | _, _ => .stuck

def providerStep (n : Nonces) (i : ℕ) (p : ProviderRec R) : Step (ProviderRec R) :=
  if isPg p.apiKey.1 then
    match rotateField g oldMaster newMaster (n.provider i) p.apiKey with
    | some apiKey => .write (setProvider apiKey)
    | none => .stuck
  else .skip

/-- How the operations of the backend end; `modelOps` and `providerOps` say whether it has
the operations to list and update. -/
structure OpsOutcomes where
  modelOps : Bool
  listModels : Bool
  updateModel : ℕ → Outcome
  providerOps : Bool
  listProviders : Bool
  updateProvider : ℕ → Outcome

/-- The generic path: the tables afterwards and the returned code. Providers that cannot be
listed are passed over. -/
def rotateOps (n : Nonces) (t : OpsStore R) (o : OpsOutcomes) :
    (List (ModelRec R) × List (ProviderRec R)) × ℤ :=
  if o.modelOps && o.listModels then
    let models := sweep ModelRec.name (modelStep g oldMaster newMaster n) o.updateModel 0
      (t.models.take listCap) t.models
    if models.2 then
      if o.providerOps && o.listProviders then
        let providers := sweep ProviderRec.id (providerStep g oldMaster newMaster n)
          o.updateProvider 0 (t.providers.take listCap) t.providers
        ((models.1, providers.1), if providers.2 then 0 else -1)
      else ((models.1, t.providers), 0)
    else ((models.1, t.providers), -1)
  else ((t.models, t.providers), -1)

def TargetRotated (t t' : Target R) : Prop :=
  t'.rest = t.rest ∧ RefRotated g oldMaster newMaster t.upstreamKeyRef.1 t'.upstreamKeyRef.1

def ModelRecRotated (m m' : ModelRec R) : Prop :=
  m'.name = m.name ∧ m'.rest = m.rest ∧
    RefRotated g oldMaster newMaster m.upstreamKeyRef.1 m'.upstreamKeyRef.1 ∧
    List.Forall₂ (TargetRotated g oldMaster newMaster) m.targets m'.targets

def ProviderRecRotated (p p' : ProviderRec R) : Prop :=
  p'.id = p.id ∧ p'.rest = p.rest ∧ RefRotated g oldMaster newMaster p.apiKey.1 p'.apiKey.1

/-- Success rotates the records, failure leaves them alone. -/
def OpsAllOrNothing (t : OpsStore R) (result : (List (ModelRec R) × List (ProviderRec R)) × ℤ) :
    Prop :=
  result.2 = 0 ∧ List.Forall₂ (ModelRecRotated g oldMaster newMaster) t.models result.1.1 ∧
      List.Forall₂ (ProviderRecRotated g oldMaster newMaster) t.providers result.1.2 ∨
    result.2 = -1 ∧ result.1 = (t.models, t.providers)

/-- The references of a model record. -/
def recRefs (m : ModelRec R) : List Bytes :=
  m.upstreamKeyRef.1 :: m.targets.map fun t => t.upstreamKeyRef.1

/-- A secret that opens alike under both keys, so that it need not be rotated. -/
def RefSettled (ref : Bytes) : Prop := RefRotated g oldMaster newMaster ref ref

theorem rotateField_some {nonce : Nonce} {ref ref' : Field}
    (h : rotateField g oldMaster newMaster nonce ref = some ref') :
    RefRotated g oldMaster newMaster ref.1 ref'.1 ∧ (isPg ref.1 = false → ref' = ref) := by
  unfold rotateField at h
  unfold RefRotated
  by_cases hpg : isPg ref.1 = true
  · rw [if_pos hpg, Option.map_eq_some_iff] at h
    obtain ⟨out, hout, rfl⟩ := h
    refine ⟨?_, by simp [hpg]⟩
    rw [if_pos hpg]
    rcases secretRotate_cases g oldMaster newMaster nonce (ref.1.drop 3) 2048 with
      ⟨hnone, -⟩ | ⟨p, enc, hsome, hp, -, -, hnew, henc, -⟩
    · rw [hnone] at hout
      exact absurd hout (by simp)
    · rw [hsome, Option.some.injEq] at hout
      subst hout
      refine ⟨isPg_pgRef 1024 enc, p, ?_, hp⟩
      have hlen := ref_length g oldMaster hpg hp
      have hbound := ref.2
      rw [fieldRef, pgRef_drop, List.take_of_length_le (by omega)]
      exact hnew
  · rw [if_neg hpg, Option.some.injEq] at h
    subst h
    simp [hpg]

theorem rotateTargets_some {nonce : ℕ → Nonce} {i : ℕ} {targets targets' : List (Target R)}
    (h : rotateTargets g oldMaster newMaster nonce i targets = some targets') :
    List.Forall₂ (TargetRotated g oldMaster newMaster) targets targets' := by
  induction targets generalizing i targets' with
  | nil =>
    simp only [rotateTargets, Option.some.injEq] at h
    subst h
    exact List.Forall₂.nil
  | cons t rest ih =>
    simp only [rotateTargets, Option.bind_eq_bind, Option.bind_eq_some_iff] at h
    obtain ⟨ref, href, rest', hrest, h⟩ := h
    rw [← Option.some.inj h]
    exact List.Forall₂.cons ⟨rfl, (rotateField_some g oldMaster newMaster href).1⟩ (ih hrest)

theorem targetRotated_self {t : Target R} (h : isPg t.upstreamKeyRef.1 = false) :
    TargetRotated g oldMaster newMaster t t := by
  refine ⟨rfl, ?_⟩
  simp [RefRotated, h]

/-- A model that is written back is rotated, and one that is skipped holds no secret. -/
theorem modelStep_rotated (n : Nonces) (i : ℕ) (m : ModelRec R) :
    (modelStep g oldMaster newMaster n i m = .skip → ModelRecRotated g oldMaster newMaster m m) ∧
      ∀ f, modelStep g oldMaster newMaster n i m = .write f →
        ModelRecRotated g oldMaster newMaster m (f m) ∧ ∀ b, (f b).name = b.name := by
  have hself (h : (m.targets.any fun t => isPg t.upstreamKeyRef.1) = false) :
      List.Forall₂ (TargetRotated g oldMaster newMaster) m.targets m.targets := by
    rw [List.any_eq_false] at h
    exact List.forall₂_same.mpr fun t ht =>
      targetRotated_self g oldMaster newMaster (by simpa using h t ht)
  unfold modelStep
  split
  · rename_i keyRef targets hkey htargets
    have hkey' := rotateField_some g oldMaster newMaster hkey
    have htargets' := rotateTargets_some g oldMaster newMaster htargets
    split_ifs with hany
    · refine ⟨fun h => absurd h (by simp), fun f hf => ?_⟩
      obtain rfl := Step.write.inj hf
      refine ⟨⟨rfl, rfl, ?_, ?_⟩, fun _ => rfl⟩
      · cases hpg : isPg m.upstreamKeyRef.1 with
        | true => exact hkey'.1
        | false => simp [setModel, RefRotated, hpg]
      · cases hts : m.targets.any fun t => isPg t.upstreamKeyRef.1 with
        | true => exact htargets'
        | false => exact hself hts
    · refine ⟨fun _ => ?_, fun f hf => absurd hf (by simp)⟩
      simp only [Bool.or_eq_true, not_or, Bool.not_eq_true] at hany
      exact ⟨rfl, rfl, by simp [RefRotated, hany.1], hself hany.2⟩
  · exact ⟨fun h => absurd h (by simp), fun f hf => absurd hf (by simp)⟩

theorem providerStep_rotated (n : Nonces) (i : ℕ) (p : ProviderRec R) :
    (providerStep g oldMaster newMaster n i p = .skip →
        ProviderRecRotated g oldMaster newMaster p p) ∧
      ∀ f, providerStep g oldMaster newMaster n i p = .write f →
        ProviderRecRotated g oldMaster newMaster p (f p) ∧ ∀ b, (f b).id = b.id := by
  unfold providerStep
  split_ifs with hpg
  · split
    · rename_i apiKey hkey
      refine ⟨fun h => absurd h (by simp), fun f hf => ?_⟩
      obtain rfl := Step.write.inj hf
      exact ⟨⟨rfl, rfl, (rotateField_some g oldMaster newMaster hkey).1⟩, fun _ => rfl⟩
    · exact ⟨fun h => absurd h (by simp), fun f hf => absurd hf (by simp)⟩
  · exact ⟨fun _ => ⟨rfl, rfl, by simp [RefRotated, hpg]⟩, fun f hf => absurd hf (by simp)⟩

theorem modelRecRotated_self (m : ModelRec R) :
    ModelRecRotated g oldMaster newMaster m m ↔
      ∀ ref ∈ recRefs m, RefSettled g oldMaster newMaster ref := by
  simp only [ModelRecRotated, true_and, List.forall₂_same, TargetRotated, recRefs, RefSettled,
    List.mem_cons, List.mem_map, forall_eq_or_imp, forall_exists_index, and_imp,
    forall_apply_eq_imp_iff₂]

/-- The sweep over the first rows of a table, the rest of which it does not read. -/
theorem sweep_take {α κ : Type} [DecidableEq κ] (key : α → κ) {f : ℕ → α → Step α}
    (hf : ∀ i a u, f i a = .write u → ∀ b, key (u b) = key b) (o : ℕ → Outcome) (cap : ℕ)
    {rows : List α} (hnd : (rows.map key).Nodup) :
    sweep key f o 0 (rows.take cap) rows =
      ((swept f o 0 (rows.take cap)).1 ++ rows.drop cap, (swept f o 0 (rows.take cap)).2) := by
  have h := sweep_eq key hf o 0 [] (rows.take cap) (rows.drop cap)
    (by rwa [List.nil_append, List.take_append_drop])
  rwa [List.nil_append, List.take_append_drop, List.nil_append] at h

theorem forall₂_append_drop {α : Type} {P : α → α → Prop} {rows ys : List α} {cap : ℕ}
    (h : List.Forall₂ P (rows.take cap) ys) :
    List.Forall₂ P rows (ys ++ rows.drop cap) ↔ ∀ z ∈ rows.drop cap, P z z := by
  have happend (xs zs : List α) (hxs : List.Forall₂ P xs ys) :
      List.Forall₂ P (xs ++ zs) (ys ++ zs) ↔ ∀ z ∈ zs, P z z := by
    clear h
    induction hxs with
    | nil => simp [List.forall₂_same]
    | cons hab _ ih => simp [hab, ih]
  have := happend (rows.take cap) (rows.drop cap) h
  rwa [List.take_append_drop] at this

/-- What the sweep over the first rows leaves, in full: the table is as before when nothing
it wrote differs. -/
theorem take_append_drop_eq {α : Type} {xs rows : List α} {cap : ℕ} :
    xs ++ rows.drop cap = rows ↔ xs = rows.take cap := by
  constructor
  · intro h
    have : xs ++ rows.drop cap = rows.take cap ++ rows.drop cap := by
      rw [List.take_append_drop, h]
    exact List.append_cancel_right this
  · rintro rfl
    exact List.take_append_drop cap rows

/-- The models that are handled, and how. -/
def ModelsComplete (n : Nonces) (t : OpsStore R) (o : OpsOutcomes) : Prop :=
  Completes (modelStep g oldMaster newMaster n) o.updateModel 0 (t.models.take listCap)

def ProvidersComplete (n : Nonces) (t : OpsStore R) (o : OpsOutcomes) : Prop :=
  Completes (providerStep g oldMaster newMaster n) o.updateProvider 0 (t.providers.take listCap)

def ModelsUnchanged (n : Nonces) (t : OpsStore R) (o : OpsOutcomes) : Prop :=
  Unchanged (modelStep g oldMaster newMaster n) o.updateModel 0 (t.models.take listCap)

def ProvidersUnchanged (n : Nonces) (t : OpsStore R) (o : OpsOutcomes) : Prop :=
  Unchanged (providerStep g oldMaster newMaster n) o.updateProvider 0 (t.providers.take listCap)

/-- The records that are not listed need no rotation. -/
def RestSettled (t : OpsStore R) (o : OpsOutcomes) : Prop :=
  (∀ m ∈ t.models.drop listCap, ∀ ref ∈ recRefs m, RefSettled g oldMaster newMaster ref) ∧
    ∀ p ∈ t.providers.drop (if o.providerOps && o.listProviders then listCap else 0),
      RefSettled g oldMaster newMaster p.apiKey.1

/-- When the generic path is all or nothing: it fails before it changes a record, or it
comes to the end and leaves no secret out. -/
def OpsFine (n : Nonces) (t : OpsStore R) (o : OpsOutcomes) : Prop :=
  (o.modelOps && o.listModels) = false ∨
    (¬ ModelsComplete g oldMaster newMaster n t o ∧ ModelsUnchanged g oldMaster newMaster n t o) ∨
    (ModelsComplete g oldMaster newMaster n t o ∧ (o.providerOps && o.listProviders) = true ∧
      ¬ ProvidersComplete g oldMaster newMaster n t o ∧
      ModelsUnchanged g oldMaster newMaster n t o ∧
      ProvidersUnchanged g oldMaster newMaster n t o) ∨
    (ModelsComplete g oldMaster newMaster n t o ∧
      ((o.providerOps && o.listProviders) = true → ProvidersComplete g oldMaster newMaster n t o) ∧
      RestSettled g oldMaster newMaster t o)

theorem rotateOps_allOrNothing (n : Nonces) (t : OpsStore R) (o : OpsOutcomes) :
    OpsAllOrNothing g oldMaster newMaster t (rotateOps g oldMaster newMaster n t o) ↔
      OpsFine g oldMaster newMaster n t o := by
  have hms := sweep_take ModelRec.name (f := modelStep g oldMaster newMaster n)
    (fun i m u hu => ((modelStep_rotated g oldMaster newMaster n i m).2 u hu).2) o.updateModel
    listCap t.modelKey
  have hps := sweep_take ProviderRec.id (f := providerStep g oldMaster newMaster n)
    (fun i p u hu => ((providerStep_rotated g oldMaster newMaster n i p).2 u hu).2)
    o.updateProvider listCap t.providerKey
  have hmodels (hc : ModelsComplete g oldMaster newMaster n t o) := forall₂_append_drop
    (forall₂_swept hc (fun i m _ => (modelStep_rotated g oldMaster newMaster n i m).1)
      fun i m _ u hu => ((modelStep_rotated g oldMaster newMaster n i m).2 u hu).1)
  have hproviders (hc : ProvidersComplete g oldMaster newMaster n t o) := forall₂_append_drop
    (forall₂_swept hc (fun i p _ => (providerStep_rotated g oldMaster newMaster n i p).1)
      fun i p _ u hu => ((providerStep_rotated g oldMaster newMaster n i p).2 u hu).1)
  simp only [modelRecRotated_self] at hmodels
  have hself (p : ProviderRec R) : ProviderRecRotated g oldMaster newMaster p p ↔
      RefSettled g oldMaster newMaster p.apiKey.1 := by
    simp [ProviderRecRotated, RefSettled]
  have hfail (x : (List (ModelRec R) × List (ProviderRec R))) :
      OpsAllOrNothing g oldMaster newMaster t (x, -1) ↔ x = (t.models, t.providers) := by
    simp [OpsAllOrNothing]
  have hdone (x : (List (ModelRec R) × List (ProviderRec R))) :
      OpsAllOrNothing g oldMaster newMaster t (x, 0) ↔
        List.Forall₂ (ModelRecRotated g oldMaster newMaster) t.models x.1 ∧
          List.Forall₂ (ProviderRecRotated g oldMaster newMaster) t.providers x.2 := by
    simp [OpsAllOrNothing]
  unfold rotateOps OpsFine
  by_cases hops : (o.modelOps && o.listModels) = true
  · rw [if_pos hops, hms]
    simp only [hops, Bool.true_eq_false, false_or]
    by_cases hmc : ModelsComplete g oldMaster newMaster n t o
    · have hmc' := (swept_completes _ _ _ _).mpr hmc
      by_cases hlisted : (o.providerOps && o.listProviders) = true
      · rw [hps]
        by_cases hpc : ProvidersComplete g oldMaster newMaster n t o
        · have hpc' := (swept_completes _ _ _ _).mpr hpc
          simp only [hmc', hpc', hlisted, if_true, hdone, hmodels hmc, hproviders hpc, hself, hmc,
            hpc, RestSettled, not_true, false_and, and_false, false_or, true_and, forall_const]
        · have hpc' : (swept (providerStep g oldMaster newMaster n) o.updateProvider 0
              (t.providers.take listCap)).2 = false := by
            rw [← Bool.not_eq_true, swept_completes]
            exact hpc
          simp only [hmc', hpc', hlisted, if_true, Bool.false_eq_true, if_false, hfail,
            Prod.mk.injEq, take_append_drop_eq, swept_eq_self, hmc, hpc, not_true, not_false_eq_true,
            false_and, false_or, true_and, forall_const, or_false, ModelsUnchanged,
            ProvidersUnchanged]
      · have hlisted' : (o.providerOps && o.listProviders) = false := by simpa using hlisted
        simp only [hmc', hlisted', if_true, Bool.false_eq_true, if_false, hdone, hmodels hmc, hself,
          hmc, List.forall₂_same, RestSettled, not_true, false_and, and_false, false_or, true_and,
          IsEmpty.forall_iff, List.drop_zero]
    · have hmc' : (swept (modelStep g oldMaster newMaster n) o.updateModel 0
          (t.models.take listCap)).2 = false := by
        rw [← Bool.not_eq_true, swept_completes]
        exact hmc
      simp only [hmc', Bool.false_eq_true, if_false, hfail, Prod.mk.injEq, and_true,
        take_append_drop_eq, swept_eq_self, hmc, not_false_eq_true, false_and, true_and, or_false,
        ModelsUnchanged]
  · have hops' : (o.modelOps && o.listModels) = false := by simpa using hops
    rw [if_neg hops, hfail]
    exact iff_of_true rfl (Or.inl hops')

/-- Exactly when a rotation is all or nothing, on a libpq context and on other backends. -/
theorem rotate_allOrNothing_iff (first second n : Nonces) (t : Store R) (o : RotateOutcomes)
    (t' : OpsStore R) (o' : OpsOutcomes) :
    (AllOrNothing g oldMaster newMaster t
        (rotateMasterKey g oldMaster newMaster first second t o) ↔
      RotateFine g oldMaster newMaster t o) ∧
    (OpsAllOrNothing g oldMaster newMaster t' (rotateOps g oldMaster newMaster n t' o') ↔
      OpsFine g oldMaster newMaster n t' o') :=
  ⟨rotateMasterKey_allOrNothing g oldMaster newMaster first second t o,
    rotateOps_allOrNothing g oldMaster newMaster n t' o'⟩

end Rotation

def zeroNonce : Nonce := Vector.replicate 12 0

def zeroNonces : Nonces := ⟨fun _ => zeroNonce, fun _ _ => zeroNonce, fun _ => zeroNonce⟩

def oldKey : MasterKey := Vector.replicate 32 1

def newKey : MasterKey := Vector.replicate 32 2

def longPlain : List UInt8 := List.replicate 992 97

/-- A store with one provider, whose secret has 992 bytes. -/
def longSecret (g : Gcm) : Store Unit where
  models := []
  providers := [⟨1, ascii "pg:" ++
    (secretEncrypt g oldKey zeroNonce longPlain 4096).getD [], ()⟩]
  modelKey := List.nodup_nil
  providerKey := List.nodup_singleton _

def allDone : RotateOutcomes where
  connected := true
  read := true
  begin := .done
  update _ := .done
  commit := .done
  rollback := .done
  atomic := by decide

/-- The secret is cut short in the second pass, whatever the cipher does. -/
theorem rotate_loses_secret : ¬ ∃ g : Gcm, AllOrNothing g oldKey newKey (longSecret g)
    (rotateMasterKey g oldKey newKey zeroNonces zeroNonces (longSecret g) allDone) := by
  rintro ⟨g, h⟩
  have hlong : longPlain.length = 992 := List.length_replicate
  have hencrypted : ∃ blob, secretEncrypt g oldKey zeroNonce longPlain 4096 = some blob := by
    rw [← Option.ne_none_iff_exists', ne_eq, secretEncrypt_eq_none, hlong]
    decide
  obtain ⟨blob, hblob⟩ := hencrypted
  obtain ⟨hplain, hlen, -⟩ := plainOf_secretEncrypt g hblob
  have hprefix : (ascii "pg:").length = 3 := by
    rw [ascii_length]
    decide
  have hkey : (longSecret g).providers = [⟨1, ascii "pg:" ++ blob, ()⟩] := by
    rw [longSecret, hblob]
    rfl
  have hpg : isPg (ascii "pg:" ++ blob) = true := by
    rw [isPg, List.isPrefixOf_iff_prefix]
    exact List.prefix_append _ _
  have hdrop : (ascii "pg:" ++ blob).drop 3 = blob := List.drop_left' hprefix
  have hreflen : (ascii "pg:" ++ blob).length = 2049 := by
    rw [List.length_append, hprefix, hlen, hlong]
  have hreadable : StoreReadable g oldKey (longSecret g) := by
    refine ⟨fun m hm => absurd hm List.not_mem_nil, ?_⟩
    rw [hkey]
    intro p hp
    rw [List.mem_singleton.mp hp]
    exact fun _ => ⟨longPlain, by rw [hdrop]; exact hplain, by dsimp only; omega⟩
  have hdone : AllDone (longSecret g) allDone := ⟨rfl, fun _ _ => rfl, rfl⟩
  rcases (rotateMasterKey_allOrNothing g oldKey newKey _ _ _ _).mp h with
    hc | hr | hn | ha | ⟨-, hfine⟩
  · exact absurd hc (by decide)
  · exact absurd hr (by decide)
  · exact hn hreadable
  · exact ha hdone
  · rw [hkey] at hfine
    have := hfine _ (List.mem_singleton_self _) hpg
    rw [hreflen] at this
    omega

end Aigate.KeyRotationOps
