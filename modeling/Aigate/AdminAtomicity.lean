import Aigate.GroupAtomicity
import Aigate.KeyAdmin
import Aigate.ModelAdmin
import Aigate.ProviderSync

/-!
# Admin changes

Every request that creates or updates a group, a key, a model or a provider, on all that is
stored and in force: which of them leave everything as it was when they are refused, and
report what is stored when they are not.
-/
namespace Aigate.AdminAtomicity
open Text JsonTree AdminRequests ProviderAdmin ModelAdmin

/-- The tables, and what is in force in memory. -/
@[ext] structure World where
  groups : GroupAdmin.Groups
  keys : KeyAdmin.Keys
  models : Models

structure Context where
  sha256Hex : Bytes → Bytes
  haveMaster : Bool
  allowPlaintextKeys : Bool

/-- A group is known if it has a row. -/
def Context.keys (adm : Context) (w : World) : KeyAdmin.Context where
  sha256Hex := adm.sha256Hex
  knownGroup id := 0 < id ∧ (w.groups.rows id.toNat).isSome

def Context.providers (adm : Context) : ProviderAdmin.Context :=
  ⟨adm.haveMaster, adm.allowPlaintextKeys⟩

/-- The cached records of the models that a sync has gone through are dropped. -/
def dropRoutes (names : List Bytes) (ms : Models) : Models :=
  (names.filter (· ≠ [])).foldl Models.invalidate ms

/-- A request on a provider, with what its sync does to the routes. -/
def withRoutes (h : Handled) (ms : Models) : Reply ProviderReport × Models :=
  let stored := { ms with store := h.store }
  (h.reply, h.synced.elim stored fun s => dropRoutes s.1.models stored)

/-- A request to create or to update, with the rest of its path. -/
inductive Request where
  | groupCreate (c : Call)
  | groupPatch (rest : Bytes) (c : Call)
  | keyCreate (plain : Bytes) (c : Call)
  | keyPatch (rest : Bytes) (c : Call)
  | modelCreate (c : Call)
  | modelPatch (rest : Bytes) (c : Call)
  | providerCreate (c : Call)
  | providerPatch (rest : Bytes) (c : Call)

inductive Report where
  | group (r : GroupAdmin.GroupReport)
  | key (r : KeyAdmin.KeyReport)
  | model (r : ModelReport)
  | provider (r : ProviderReport)

/-- The answer and what it leaves. -/
def handle (adm : Context) (r : Request) (w : World) : Reply Report × World :=
  let onGroups := fun out : GroupAdmin.GroupReply × GroupAdmin.Groups =>
    (out.1.map Report.group, { w with groups := out.2 })
  let onKeys := fun out : KeyAdmin.KeyReply × KeyAdmin.Keys =>
    (out.1.map Report.key, { w with keys := out.2 })
  let onModels := fun out : ModelReply × Models =>
    (out.1.map Report.model, { w with models := out.2 })
  let onProviders := fun h : Handled =>
    let out := withRoutes h w.models
    (out.1.map Report.provider, { w with models := out.2 })
  match r with
  | .groupCreate c => onGroups (GroupAdmin.groupCreate c w.groups)
  | .groupPatch rest c => onGroups (GroupAdmin.groupPatch c rest w.groups)
  | .keyCreate plain c => onKeys (KeyAdmin.keyCreate (adm.keys w) c plain w.keys)
  | .keyPatch rest c => onKeys (KeyAdmin.keyPatch (adm.keys w) c rest w.keys)
  | .modelCreate c => onModels (modelCreate c w.models)
  | .modelPatch rest c => onModels (modelPatch c rest w.models)
  | .providerCreate c => onProviders (providerCreate adm.providers c w.models.store)
  | .providerPatch rest c => onProviders (providerPatch adm.providers c rest w.models.store)

/-- The provider is stored under its id with its name. -/
def ProviderReport.Holds (r : ProviderReport) (ms : Models) : Prop :=
  ∃ p ∈ ms.store.providers, p.id = r.id ∧ p.name = r.name

/-- What a report says is stored and in force. -/
def Report.Holds (adm : Context) : Report → World → Prop
  | .group r, w => GroupAtomicity.GroupReport.Holds r w.groups
  | .key r, w => KeyAdmin.KeyReport.Holds (adm.keys w) r w.keys
  | .model r, w => ModelReport.Holds r w.models
  | .provider r, w => ProviderReport.Holds r w.models

/-- The condition of a request; changes of keys and of models, and requests on providers
have none. -/
def Request.Fits (adm : Context) (w : World) : Request → Prop
  | .groupCreate c => GroupAtomicity.CreateFits c w.groups
  | .groupPatch rest c => GroupAtomicity.PatchFits c rest w.groups
  | .keyCreate plain c => KeyAdmin.CreateFits (adm.keys w) c plain w.keys
  | .modelCreate c => ModelAdmin.CreateFits c w.models
  | _ => True

section providers

/-- The same provider, whatever else of it has changed. -/
def Same (p q : ProviderRec) : Prop := p.id = q.id ∧ p.name = q.name

theorem same_patchType {q : ProviderRec} (jbody : Json) {k : Patched} (h : Same k.1 q) :
    Same (patchType jbody k).1 q := by
  unfold patchType
  split
  · exact h
  · exact h

theorem same_patchEndpoint {q : ProviderRec} (jbody : Json) {k : Patched} (h : Same k.1 q) :
    Same (patchEndpoint jbody k).1 q := by
  unfold patchEndpoint
  split
  · exact h
  · exact h

theorem same_patchApiKey {q : ProviderRec} {adm : ProviderAdmin.Context}
    {encrypt : Bytes → Option Bytes} {jbody : Json} {k k' : Patched} (h : Same k.1 q)
    (hk : patchApiKey adm encrypt jbody k = some k') : Same k'.1 q := by
  unfold patchApiKey at hk
  split at hk
  · split_ifs at hk
    · obtain ⟨apiKey, -, rfl⟩ := Option.map_eq_some_iff.mp hk
      exact h
    · rwa [← Option.some_inj.mp hk]
  · rwa [← Option.some_inj.mp hk]

theorem same_patchEnabled {q : ProviderRec} (jbody : Json) {k : Patched} (h : Same k.1 q) :
    Same (patchEnabled jbody k).1 q := by
  unfold patchEnabled
  split
  · exact h
  · exact h

theorem same_patchModels {q : ProviderRec} (jbody : Json) {k : Patched} (h : Same k.1 q) :
    Same (patchModels jbody k).1 q := by
  unfold patchModels
  split
  · split
    · exact h
    · exact h
  · exact h

theorem same_foldl_write (p row : ProviderRec) (mask : List ProviderColumn) :
    Same (mask.foldl (ProviderColumn.write p) row) row := by
  induction mask generalizing row with
  | nil => exact ⟨rfl, rfl⟩
  | cons column rest ih =>
    have hwrite : Same (ProviderColumn.write p row column) row := by
      cases column <;> exact ⟨rfl, rfl⟩
    rw [List.foldl_cons]
    exact ⟨(ih _).1.trans hwrite.1, (ih _).2.trans hwrite.2⟩

theorem createModel_providers {st st' : Store} {name : Bytes} {m : ModelRec}
    (h : createModel st name m = some st') : st'.providers = st.providers := by
  unfold createModel at h
  split at h
  · cases h
  · rw [← Option.some_inj.mp h]
    rfl

theorem updateModel_providers {st st' : Store} {name : Bytes} {m : ModelRec}
    {mask : List ModelColumn} (h : updateModel st name m mask = some st') :
    st'.providers = st.providers := by
  unfold updateModel at h
  split_ifs at h
  · rw [← Option.some_inj.mp h]
  · split at h
    · rw [← Option.some_inj.mp h]
      rfl
    · rw [← Option.some_inj.mp h]

/-- A sync writes rows of models only. -/
theorem syncModel_providers (p : ProviderRec) (getFails writeFails : Bool) (s : Synced)
    (name : Bytes) :
    (syncModel p getFails writeFails s name).store.providers = s.store.providers := by
  unfold syncModel
  split
  · rfl
  split
  · dsimp only
    split
    · rename_i st hst
      exact updateModel_providers (attempt_eq_some hst)
    · rfl
  · dsimp only
    split
    · rename_i st hst
      exact createModel_providers (attempt_eq_some hst)
    · rfl

theorem syncModels_providers (p : ProviderRec) (faults : ℕ → Bool) (op : ℕ)
    (names : List Bytes) (s : Synced) :
    (syncModels p faults op names s).store.providers = s.store.providers := by
  induction names generalizing op s with
  | nil => rfl
  | cons name rest ih => exact (ih _ _).trans (syncModel_providers ..)

theorem dropRoutes_store (names : List Bytes) (ms : Models) :
    (dropRoutes names ms).store = ms.store := by
  unfold dropRoutes
  induction names.filter (· ≠ []) generalizing ms with
  | nil => rfl
  | cons name rest ih => exact (ih _).trans rfl

/-- A provider that is stored and synced. -/
theorem holds_withRoutes {h : Handled} {ms : Models} {r : ProviderReport}
    (hstored : ∃ p ∈ h.store.providers, p.id = r.id ∧ p.name = r.name) :
    ProviderReport.Holds r (withRoutes h ms).2 := by
  unfold ProviderReport.Holds withRoutes
  dsimp only
  cases h.synced with
  | none => exact hstored
  | some s =>
    rw [Option.elim_some, dropRoutes_store]
    exact hstored

theorem createProvider_some {st st' : Store} {p : ProviderRec} {id : ℕ}
    (h : createProvider st p = some (st', id)) :
    ∃ row ∈ st'.providers, row.id = id ∧ row.name = p.name := by
  unfold createProvider at h
  split_ifs at h
  obtain ⟨rfl, rfl⟩ := Prod.mk.inj (Option.some_inj.mp h)
  exact ⟨_, List.mem_append_right _ (List.mem_singleton_self _), rfl, rfl⟩

theorem providerCreate_atomic (adm : ProviderAdmin.Context) (c : Call) (ms : Models) :
    Atomic ProviderReport.Holds ms (withRoutes (providerCreate adm c ms.store) ms) := by
  unfold providerCreate
  split
  · exact (atomic_of_none rfl).mpr rfl
  dsimp only
  split
  · exact (atomic_of_none rfl).mpr rfl
  split
  · exact (atomic_of_none rfl).mpr rfl
  split
  · exact (atomic_of_none rfl).mpr rfl
  split
  · exact (atomic_of_none rfl).mpr rfl
  rename_i stored id hcreate
  refine (atomic_of_some rfl).mpr (holds_withRoutes ?_)
  obtain ⟨row, hrow, hid, hname⟩ := createProvider_some (attempt_eq_some hcreate)
  refine ⟨row, ?_, hid, hname⟩
  exact (syncModels_providers ..).symm ▸ hrow

theorem updateProvider_some {st st' : Store} {p existing : ProviderRec}
    {mask : List ProviderColumn} (hmem : existing ∈ st.providers) (hsame : Same p existing)
    (h : updateProvider st p mask = some st') :
    ∃ row ∈ st'.providers, row.id = p.id ∧ row.name = p.name := by
  unfold updateProvider at h
  split_ifs at h
  rw [← Option.some_inj.mp h]
  refine ⟨_, List.mem_map_of_mem hmem, ?_⟩
  rw [if_pos hsame.1.symm, hsame.1, hsame.2]
  exact same_foldl_write ..

theorem providerPatch_atomic (adm : ProviderAdmin.Context) (c : Call) (rest : Bytes)
    (ms : Models) :
    Atomic ProviderReport.Holds ms (withRoutes (providerPatch adm c rest ms.store) ms) := by
  unfold providerPatch
  split
  · exact (atomic_of_none rfl).mpr rfl
  split
  · exact (atomic_of_none rfl).mpr rfl
  split
  · exact (atomic_of_none rfl).mpr rfl
  rename_i existing hexisting
  split
  · exact (atomic_of_none rfl).mpr rfl
  rename_i jbody hbody
  split
  · exact (atomic_of_none rfl).mpr rfl
  rename_i keyed hkeyed
  dsimp only
  split
  · exact (atomic_of_none rfl).mpr rfl
  rename_i stored hupdate
  refine (atomic_of_some rfl).mpr (holds_withRoutes ?_)
  have hmem : existing ∈ ms.store.providers :=
    List.mem_of_find?_eq_some (attempt_eq_some hexisting)
  have hsame : Same (patchModels jbody (patchEnabled jbody keyed)).1 existing :=
    same_patchModels jbody (same_patchEnabled jbody (same_patchApiKey
      (same_patchEndpoint jbody (same_patchType jbody ⟨rfl, rfl⟩)) hkeyed))
  obtain ⟨row, hrow, hid, hname⟩ :=
    updateProvider_some hmem hsame (attempt_eq_some hupdate)
  refine ⟨row, ?_, hid, hname⟩
  exact (syncModels_providers ..).symm ▸ hrow

end providers

/-- A request is atomic on everything if it is on the part that it is about. -/
theorem handle_atomic (adm : Context) (w : World) :
    (∀ out, Atomic (Report.Holds adm) w
        (Reply.map Report.group out.1, { w with groups := out.2 }) ↔
      Atomic GroupAtomicity.GroupReport.Holds w.groups out) ∧
    (∀ out, Atomic (Report.Holds adm) w (Reply.map Report.key out.1, { w with keys := out.2 }) ↔
      Atomic (KeyAdmin.KeyReport.Holds (adm.keys w)) w.keys out) ∧
    (∀ out, Atomic (Report.Holds adm) w
        (Reply.map Report.model out.1, { w with models := out.2 }) ↔
      Atomic ModelReport.Holds w.models out) ∧
    ∀ out, Atomic (Report.Holds adm) w
        (Reply.map Report.provider out.1, { w with models := out.2 }) ↔
      Atomic ProviderReport.Holds w.models out := by
  have hgroups (g : GroupAdmin.Groups) : { w with groups := g } = w ↔ g = w.groups := by
    simp [World.ext_iff]
  have hkeys (ks : KeyAdmin.Keys) : { w with keys := ks } = w ↔ ks = w.keys := by
    simp [World.ext_iff]
  have hmodels (ms : Models) : { w with models := ms } = w ↔ ms = w.models := by
    simp [World.ext_iff]
  refine ⟨fun out => ?_, fun out => ?_, fun out => ?_, fun out => ?_⟩
  · exact atomic_map Report.group _ hgroups (fun _ _ => Iff.rfl) out
  · exact atomic_map Report.key _ hkeys (fun _ _ => Iff.rfl) out
  · exact atomic_map Report.model _ hmodels (fun _ _ => Iff.rfl) out
  · exact atomic_map Report.provider _ hmodels (fun _ _ => Iff.rfl) out

/-- A request is atomic exactly if it meets its condition. -/
theorem atomic_iff (adm : Context) (w : World) (r : Request) :
    Atomic (Report.Holds adm) w (handle adm r w) ↔ r.Fits adm w := by
  obtain ⟨onGroups, onKeys, onModels, onProviders⟩ := handle_atomic adm w
  cases r with
  | groupCreate c => exact (onGroups _).trans (GroupAtomicity.groupCreate_atomic c w.groups)
  | groupPatch rest c =>
    exact (onGroups _).trans (GroupAtomicity.groupPatch_atomic c rest w.groups)
  | keyCreate plain c =>
    exact (onKeys _).trans (KeyAdmin.keyCreate_atomic (adm.keys w) c plain w.keys)
  | keyPatch rest c =>
    exact iff_of_true ((onKeys _).mpr (KeyAdmin.keyPatch_atomic _ c rest w.keys)) trivial
  | modelCreate c => exact (onModels _).trans (modelCreate_atomic c w.models)
  | modelPatch rest c =>
    exact iff_of_true ((onModels _).mpr (modelPatch_atomic c rest w.models)) trivial
  | providerCreate c =>
    exact iff_of_true ((onProviders _).mpr (providerCreate_atomic _ c w.models)) trivial
  | providerPatch rest c =>
    exact iff_of_true ((onProviders _).mpr (providerPatch_atomic _ c rest w.models)) trivial

/-- A gateway with one group. -/
def oneGroup : World where
  groups :=
    { rows := fun id => if id = 1 then some ⟨copyField 127 (ascii "a"), 0, 0⟩ else none
      limits := fun _ => GroupAdmin.noLimits
      lastId := 1
      fresh := fun id hid => ⟨if_neg (by omega), rfl⟩ }
  keys :=
    { rows := fun _ => none
      lastId := 0
      cache := fun _ => none
      cached := fun _ _ h => by cases h
      fresh := fun _ _ => rfl }
  models := ⟨⟨[], fun _ => none, 0⟩, fun _ => none, fun _ => none⟩

/-- A new name, and a budget that is no number. -/
def nameAndText : Request :=
  .groupPatch (ascii "1")
    ⟨some (ascii "\x7b\"name\":\"b\",\"monthly_budget_usd\":\"x\"\x7d"), fun _ => none,
      fun _ => false⟩

/-- Hashes of plaintexts play no role here. -/
def gateway : Context := ⟨id, false, true⟩

/-- The request is refused, and the group has the new name. -/
theorem not_atomic_nameAndText :
    ¬Atomic (Report.Holds gateway) oneGroup (handle gateway nameAndText oneGroup) := by
  intro h
  have hstatus : 400 ≤ (handle gateway nameAndText oneGroup).1.status := by decide +kernel
  have hname := congrArg (fun w : World => (w.groups.rows 1).map fun row => row.name.1)
    (h.refused hstatus)
  revert hname
  decide +kernel

end Aigate.AdminAtomicity
