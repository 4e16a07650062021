import Aigate.ProviderAdmin

/-!
# Routes after a sync of providers

A row and a target that a sync has written should send requests to one provider: its type,
its endpoint and its key. The update of a row that exists leaves out the column with the
type, and it takes the first target, whosever that is.
-/
namespace Aigate.ProviderSync
open Text AdminRequests ProviderAdmin

inductive Request where
  | create (c : Call)
  | patch (rest : Bytes) (c : Call)

def Request.call : Request → Call
  | .create c => c
  | .patch _ c => c

def handle (adm : Context) (st : Store) : Request → Handled
  | .create c => providerCreate adm c st
  | .patch rest c => providerPatch adm c rest st

/-- The tables in a run, and the provider record that a row was last written for. -/
structure Admin where
  store : Store
  writer : Bytes → Option ProviderRec

def step (adm : Context) (a : Admin) (r : Request) : Admin :=
  let h := handle adm a.store r
  { store := h.store
    writer := match h.synced with
      | some (p, written) => fun name => if name ∈ written then some p else a.writer name
      | none => a.writer }

/-- Tables that no sync has written to. -/
def start (st : Store) : Admin := ⟨st, fun _ => none⟩

/-- The row and its first target have the type, the endpoint and the key of the provider. -/
def OfProvider (p : ProviderRec) (row : ModelRow) : Prop :=
  row.1.route = p.route ∧
    ∀ t : Target, (fillModelRow row.1).targets.head? = some t → t.route = p.route

/-- Everything that syncs have written is of one provider record. -/
def Coherent (a : Admin) : Prop :=
  ∀ name p row, a.writer name = some p → a.store.models name = some row → OfProvider p row

/-- A target with the type, the endpoint and the key of another provider is still there. -/
def KeepsOthers (before after : Store) (p : ProviderRec) : Prop :=
  ∀ name row (i : ℕ) (t : Target), before.models name = some row →
    (fillModelRow row.1).targets[i]? = some t →
    (∃ q ∈ before.providers, q.id ≠ p.id ∧ q.route = t.route) →
    ∃ row', after.models name = some row' ∧ (fillModelRow row'.1).targets[i]? = some t

/-- Every listed model with an enabled row has the type of the provider in its row, and its
first target is not another provider's. -/
def Fits (st : Store) (p : ProviderRec) : Prop :=
  ∀ name ∈ p.models, ∀ m, getModel st name = some m → m.provider = p.kind ∧
    ∀ t : Target, m.targets.head? = some t → (p.providerType.1 = [] → t.provider = p.kind) ∧
      ∀ q ∈ st.providers, q.id ≠ p.id → q.route = t.route → t.route = p.route

/-- No store operation of the request fails, and its provider fits. -/
def Meets (adm : Context) (a : Admin) (r : Request) : Prop :=
  (∀ n, r.call.faults n = false) ∧
    ∀ p written, (handle adm a.store r).synced = some (p, written) → Fits a.store p

def AllMeet (adm : Context) : Admin → List Request → Prop
  | _, [] => True
  | a, r :: rest => Meets adm a r ∧ AllMeet adm (step adm a r) rest

/-- Every state of the run is coherent, and no request takes another provider's target. -/
def Lawful (adm : Context) : Admin → List Request → Prop
  | a, [] => Coherent a
  | a, r :: rest =>
    Coherent a ∧
      (∀ p written, (handle adm a.store r).synced = some (p, written) →
        KeepsOthers a.store (handle adm a.store r).store p) ∧
      Lawful adm (step adm a r) rest

theorem openai_named : openai.1 ≠ [] := by
  decide +kernel

theorem kind_named (p : ProviderRec) : p.kind.1 ≠ [] := by
  unfold ProviderRec.kind
  split_ifs with hempty
  · exact openai_named
  · exact hempty

theorem kind_of_type {p : ProviderRec} (h : p.providerType.1 ≠ []) : p.kind = p.providerType :=
  if_neg h

theorem fill_targets_ne_nil (m : ModelRec) : (fillModelRow m).targets ≠ [] := by
  unfold fillModelRow
  split_ifs with hempty
  · simp
  · exact hempty

theorem fill_provider (m : ModelRec) : (fillModelRow m).provider = m.provider := by
  unfold fillModelRow
  split_ifs <;> rfl

theorem fill_of_ne_nil {m : ModelRec} (h : m.targets ≠ []) : fillModelRow m = m := if_neg h

/-- The type that a first target gets. -/
theorem retarget_provider {p : ProviderRec} {t : Target}
    (h : p.providerType.1 = [] → t.provider = p.kind) : (retarget p t).provider = p.kind := by
  unfold retarget
  by_cases htype : p.providerType.1 = []
  · simp [htype, h htype]
  · simp [htype, kind_of_type htype]

theorem retarget_route {p : ProviderRec} {t : Target}
    (h : p.providerType.1 = [] → t.provider = p.kind) : (retarget p t).route = p.route := by
  unfold Target.route
  rw [retarget_provider h]
  rfl

/-- A target that is the provider's already stays as it is. -/
theorem retarget_of_route {p : ProviderRec} {t : Target} (h : t.route = p.route) :
    retarget p t = t := by
  obtain ⟨hkind, hendpoint, hkey⟩ : t.provider = p.kind ∧ t.endpoint = p.endpoint ∧
      t.upstreamKeyRef = p.apiKey := by
    simpa [Target.route, ProviderRec.route] using h
  have hprovider := retarget_provider (p := p) (t := t) fun _ => hkind
  cases t
  simp only [retarget] at hprovider ⊢
  simp only at hkind hendpoint hkey
  rw [hprovider, hkind, hendpoint, hkey]

/-- The targets of a row that stay: all but the first, and a first one that is the
provider's already. -/
def Keeps (p : ProviderRec) (row row' : ModelRow) : Prop :=
  ∀ i (t : Target), (fillModelRow row.1).targets[i]? = some t →
    (i = 0 → t.route = p.route) → (fillModelRow row'.1).targets[i]? = some t

theorem Keeps.refl (p : ProviderRec) (row : ModelRow) : Keeps p row row :=
  fun _ _ ht _ => ht

theorem Keeps.trans {p : ProviderRec} {row row' row'' : ModelRow} (h : Keeps p row row')
    (h' : Keeps p row' row'') : Keeps p row row'' :=
  fun i t ht hroute => h' i t (h i t ht hroute) hroute

theorem map_stored {ts : List Target} (h : StoredTargets ts) : ts.map Target.stored = ts := by
  refine (List.map_congr_left fun t ht => ?_).trans ts.map_id'
  exact stored_of_named (h.2 t ht).1 (h.2 t ht).2

/-- The targets that are written for a record that was read from a row. -/
theorem serialize_overwrite {p : ProviderRec} {row : ModelRow}
    (hhead : ∀ t, (fillModelRow row.1).targets.head? = some t →
      p.providerType.1 = [] → t.provider = p.kind) :
    serializeTargets (overwrite p (fillModelRow row.1)) =
      (fillModelRow row.1).targets.modifyHead (retarget p) := by
  obtain ⟨t, rest, hts⟩ := List.exists_cons_of_ne_nil (fill_targets_ne_nil row.1)
  rw [hts] at hhead
  have hprovider : (retarget p t).provider = p.kind := retarget_provider (hhead t rfl)
  have hstored : StoredTargets (retarget p t :: rest) := by
    have hnamed : (retarget p t).provider.1 ≠ [] := hprovider ▸ kind_named p
    by_cases hempty : row.1.targets = []
    · have hone : t = row.1.primary ∧ rest = [] := by
        simpa [fillModelRow, hempty, eq_comm] using hts
      obtain ⟨rfl, rfl⟩ := hone
      refine ⟨by simp [maxTargets], fun u hu => ?_⟩
      rw [List.mem_singleton.mp hu]
      exact ⟨hnamed, one_pos⟩
    · rw [fill_of_ne_nil hempty] at hts
      obtain ⟨hlen, hall⟩ := hts ▸ row.2
      refine ⟨by simpa using hlen, fun u hu => ?_⟩
      rcases List.mem_cons.mp hu with rfl | hu
      · exact ⟨hnamed, (hall t (List.mem_cons_self ..)).2⟩
      · exact hall u (List.mem_cons_of_mem _ hu)
  have htargets : (overwrite p (fillModelRow row.1)).targets = retarget p t :: rest := by
    unfold overwrite
    rw [hts]
    rfl
  unfold serializeTargets
  rw [htargets, if_neg (by simp), List.take_of_length_le hstored.1, map_stored hstored, hts]
  rfl

/-- The row after the update of a model that fits. -/
theorem update_row {p : ProviderRec} {row row' : ModelRow} (hkind : row.1.provider = p.kind)
    (hhead : ∀ t, (fillModelRow row.1).targets.head? = some t →
      p.providerType.1 = [] → t.provider = p.kind)
    (hrow : row' = [ModelColumn.endpoint, .keyRef, .enabled, .targets].foldl
      (ModelColumn.write (overwrite p (fillModelRow row.1))) row) :
    OfProvider p row' ∧ Keeps p row row' := by
  have htargets : row'.1.targets = (fillModelRow row.1).targets.modifyHead (retarget p) := by
    rw [hrow, ← serialize_overwrite hhead]
    rfl
  have hroute : row'.1.route = p.route := by
    rw [hrow]
    show (row.1.provider, p.endpoint, p.apiKey) = p.route
    rw [hkind]
    rfl
  obtain ⟨t, rest, hts⟩ := List.exists_cons_of_ne_nil (fill_targets_ne_nil row.1)
  have hfill : (fillModelRow row'.1).targets = retarget p t :: rest := by
    rw [fill_of_ne_nil (by rw [htargets, hts]; simp), htargets, hts]
    rfl
  refine ⟨⟨hroute, fun u hu => ?_⟩, fun i u hu hown => ?_⟩
  · rw [hfill, List.head?_cons, Option.some_inj] at hu
    rw [← hu]
    exact retarget_route (hhead t (by rw [hts]; rfl))
  · rw [hts] at hu
    rw [hfill]
    cases i with
    | zero =>
      have htu : t = u := by simpa using hu
      rw [htu, retarget_of_route (hown rfl)]
      rfl
    | succ i => exact hu

theorem newModel_provider (p : ProviderRec) : (newModel p).provider = p.kind := by
  unfold newModel
  by_cases htype : p.providerType.1 = []
  · simp [htype, ProviderRec.kind]
  · simp [htype, kind_of_type htype]

theorem orElse_of_ne_nil {n : ℕ} {a : Field n} (h : a.1 ≠ []) (b : Field n) : orElse a b = a :=
  if_neg h

theorem orElse_noText {n : ℕ} (a : Field n) : orElse a (noText n) = a := by
  unfold orElse
  split_ifs with hempty
  · exact Subtype.ext hempty.symm
  · rfl

theorem newModel_targets (p : ProviderRec) :
    serializeTargets (newModel p) = [] ∨
      serializeTargets (newModel p) = [(newModel p).primary] := by
  have hnamed : (newModel p).primary.provider.1 ≠ [] := by
    show (newModel p).provider.1 ≠ []
    rw [newModel_provider]
    exact kind_named p
  unfold serializeTargets
  split_ifs
  · exact .inr (congrArg (fun t => [t]) (stored_of_named hnamed one_pos))
  · exact .inl rfl

/-- The row of a new model. -/
theorem create_row {p : ProviderRec} {st st' : Store} {key : Bytes}
    (h : createModel st key (newModel p) = some st') :
    st.models key = none ∧ ∃ row, st' = st.putModel key row ∧ OfProvider p row := by
  unfold createModel at h
  cases hfree : st.models key with
  | some row => simp [hfree] at h
  | none =>
    simp only [hfree, Option.some.injEq] at h
    refine ⟨rfl, _, h.symm, ?_⟩
    have hprovider (b : Field 31) : orElse (newModel p).provider b = p.kind := by
      rw [newModel_provider, orElse_of_ne_nil (kind_named p)]
    have hroute : (newModel p).primary.route = p.route := by
      show ((newModel p).provider, p.endpoint, p.apiKey) = p.route
      rw [newModel_provider]
      rfl
    have hcolumns : (p.kind, orElse (newModel p).endpoint (noText 511),
        orElse (newModel p).upstreamKeyRef (noText 1023)) = p.route := by
      rw [orElse_noText, orElse_noText]
      rfl
    constructor
    · show (orElse (newModel p).provider openai, _, _) = p.route
      rw [hprovider]
      exact hcolumns
    · intro t ht
      rcases newModel_targets p with hnone | hone
      · simp only [fillModelRow, hnone, if_true, List.head?_cons, Option.some_inj] at ht
        rw [← ht]
        show (orElse (newModel p).provider openai, _, _) = p.route
        rw [hprovider]
        exact hcolumns
      · simp only [fillModelRow, hone, List.cons_ne_nil, if_false, List.head?_cons,
          Option.some_inj] at ht
        rw [← ht, hroute]

/-- A row that was there before the sync: it was enabled and listed, and keeps its targets. -/
def KeptFrom (p : ProviderRec) (st : Store) (name : Bytes) (row : ModelRow) : Prop :=
  ∀ row₀, st.models name = some row₀ →
    name ∈ p.models ∧ row₀.1.enabled = true ∧ Keeps p row₀ row

/-- How far a sync has got: the rows it has written are of the provider, and it has written
no other ones. -/
structure Progress (p : ProviderRec) (st : Store) (s : Synced) : Prop where
  frame : ∀ name, name ∉ s.written → s.store.models name = st.models name
  written : ∀ name ∈ s.written, ∃ row, s.store.models name = some row ∧ OfProvider p row ∧
    KeptFrom p st name row

theorem Progress.start {p : ProviderRec} {st stored : Store} (h : stored.models = st.models) :
    Progress p st ⟨stored, 0, []⟩ where
  frame _ _ := by rw [h]
  written _ hname := absurd hname List.not_mem_nil

/-- Every row of a sync that fits is one from before that fits, or one it has written. -/
theorem Progress.getModel {p : ProviderRec} {st : Store} {s : Synced} (h : Progress p st s)
    (hfits : Fits st p) {name : Bytes} (hname : name ∈ p.models) {m : ModelRec}
    (hm : ProviderAdmin.getModel s.store name = some m) :
    ∃ row, s.store.models name = some row ∧ row.1.enabled = true ∧ m = fillModelRow row.1 ∧
      row.1.provider = p.kind ∧
      ∀ t, m.targets.head? = some t → p.providerType.1 = [] → t.provider = p.kind := by
  obtain ⟨row, hrow, hread⟩ := Option.bind_eq_some_iff.mp hm
  obtain ⟨henabled, hmrow⟩ : row.1.enabled = true ∧ m = fillModelRow row.1 := by
    split_ifs at hread with hon
    exact ⟨hon, (Option.some_inj.mp hread).symm⟩
  refine ⟨row, hrow, henabled, hmrow, ?_⟩
  by_cases hw : name ∈ s.written
  · obtain ⟨row', hrow', ⟨hroute, hhead⟩, -⟩ := h.written name hw
    obtain rfl : row = row' := Option.some_inj.mp (hrow.symm.trans hrow')
    refine ⟨congrArg Prod.fst hroute, fun t ht _ => ?_⟩
    rw [hmrow] at ht
    exact congrArg Prod.fst (hhead t ht)
  · rw [ProviderAdmin.getModel, h.frame name hw] at hm
    obtain ⟨hkind, hfirst⟩ := hfits name hname m hm
    refine ⟨?_, fun t ht htype => (hfirst t ht).1 htype⟩
    rw [← hkind, hmrow, fill_provider]

theorem putModel_self (st : Store) (name : Bytes) (row : ModelRow) :
    (st.putModel name row).models name = some row :=
  Function.update_self ..

theorem putModel_of_ne {st : Store} {name other : Bytes} (h : other ≠ name) (row : ModelRow) :
    (st.putModel name row).models other = st.models other :=
  Function.update_of_ne h ..

/-- A row that is written on top of what the sync has done. -/
theorem Progress.put {p : ProviderRec} {st : Store} {s : Synced} (h : Progress p st s)
    {name : Bytes} {row : ModelRow} (hrow : OfProvider p row)
    (hkept : KeptFrom p st name row) :
    Progress p st { s with store := s.store.putModel name row, written := name :: s.written }
    where
  frame other hother := by
    rw [List.mem_cons, not_or] at hother
    rw [putModel_of_ne hother.1, h.frame other hother.2]
  written other hother := by
    by_cases hsame : other = name
    · subst hsame
      exact ⟨row, putModel_self .., hrow, hkept⟩
    · rw [putModel_of_ne hsame]
      exact h.written other ((List.mem_cons.mp hother).resolve_left hsame)

/-- What a row that is found has kept so far. -/
theorem Progress.kept {p : ProviderRec} {st : Store} {s : Synced} (h : Progress p st s)
    {name : Bytes} (hname : name ∈ p.models) {row : ModelRow}
    (hrow : s.store.models name = some row) (henabled : row.1.enabled = true) :
    KeptFrom p st name row := by
  intro row₀ hrow₀
  by_cases hw : name ∈ s.written
  · obtain ⟨row', hrow', -, hkept⟩ := h.written name hw
    obtain rfl : row = row' := Option.some_inj.mp (hrow.symm.trans hrow')
    exact hkept row₀ hrow₀
  · rw [h.frame name hw, hrow₀] at hrow
    obtain rfl := Option.some_inj.mp hrow
    exact ⟨hname, henabled, Keeps.refl p row₀⟩

theorem Progress.free {p : ProviderRec} {st : Store} {s : Synced} (h : Progress p st s)
    {key : Bytes} (hfree : s.store.models key = none) : st.models key = none := by
  by_cases hw : key ∈ s.written
  · obtain ⟨row, hrow, -⟩ := h.written key hw
    rw [hfree] at hrow
    cases hrow
  · rw [← h.frame key hw, hfree]

theorem updateModel_synced {st : Store} {name : Bytes} (m : ModelRec) {row : ModelRow}
    (hrow : st.models name = some row) :
    updateModel st name m [.endpoint, .keyRef, .enabled, .targets] =
      some (st.putModel name ([ModelColumn.endpoint, .keyRef, .enabled, .targets].foldl
        (ModelColumn.write m) row)) := by
  unfold updateModel
  rw [if_neg (by simp), if_neg (by decide), hrow]

theorem Progress.syncModel {p : ProviderRec} {st : Store} {s : Synced} (h : Progress p st s)
    (hfits : Fits st p) {name : Bytes} (hname : name ∈ p.models) :
    Progress p st (ProviderAdmin.syncModel p false false s name) := by
  unfold ProviderAdmin.syncModel
  by_cases hempty : name = []
  · rw [if_pos hempty]
    exact h
  rw [if_neg hempty, attempt_false]
  cases hm : ProviderAdmin.getModel s.store name with
  | some m =>
    obtain ⟨row, hrow, henabled, rfl, hkind, hhead⟩ := h.getModel hfits hname hm
    obtain ⟨hof, hkeep⟩ := update_row hkind hhead rfl
    simp only [ne_eq, fill_targets_ne_nil, not_false_eq_true, if_true, attempt_false,
      updateModel_synced _ hrow]
    refine h.put hof fun row₀ hrow₀ => ?_
    obtain ⟨hlisted, hon, hkept⟩ := h.kept hname hrow henabled row₀ hrow₀
    exact ⟨hlisted, hon, hkept.trans hkeep⟩
  | none =>
    simp only [attempt_false]
    cases hcreate : createModel s.store (name.take nameCap) (newModel p) with
    | none => exact ⟨h.frame, h.written⟩
    | some st' =>
      obtain ⟨hfree, row, rfl, hof⟩ := create_row hcreate
      refine h.put hof fun row₀ hrow₀ => ?_
      rw [h.free hfree] at hrow₀
      cases hrow₀

/-- The whole sync. -/
theorem Progress.syncModels {p : ProviderRec} {st : Store} (hfits : Fits st p)
    {faults : ℕ → Bool} (hfaults : ∀ n, faults n = false) (op : ℕ) (names : List Bytes)
    (hnames : ∀ name ∈ names, name ∈ p.models) {s : Synced} (h : Progress p st s) :
    Progress p st (ProviderAdmin.syncModels p faults op names s) := by
  induction names generalizing op s with
  | nil => exact h
  | cons name rest ih =>
    unfold ProviderAdmin.syncModels
    rw [hfaults, hfaults]
    exact ih (op + 2) (fun other hother => hnames other (List.mem_cons_of_mem _ hother))
      (h.syncModel hfits (hnames name (List.mem_cons_self ..)))

/-- A sync that fits takes no target of another provider. -/
theorem Progress.keepsOthers {p : ProviderRec} {st : Store} {s : Synced} (h : Progress p st s)
    (hfits : Fits st p) : KeepsOthers st s.store p := by
  rintro name row i t hrow ht ⟨q, hq, hid, hroute⟩
  by_cases hw : name ∈ s.written
  · obtain ⟨row', hrow', -, hkept⟩ := h.written name hw
    obtain ⟨hlisted, henabled, hkeeps⟩ := hkept row hrow
    refine ⟨row', hrow', hkeeps i t ht ?_⟩
    rintro rfl
    have hfound : ProviderAdmin.getModel st name = some (fillModelRow row.1) := by
      simp [ProviderAdmin.getModel, hrow, henabled]
    have hhead : (fillModelRow row.1).targets.head? = some t := by
      rw [List.head?_eq_getElem?]
      exact ht
    exact ((hfits name hlisted _ hfound).2 t hhead).2 q hq hid hroute
  · exact ⟨row, by rw [h.frame name hw, hrow], ht⟩

theorem createProvider_models {st stored : Store} {p : ProviderRec} {id : ℕ}
    (h : createProvider st p = some (stored, id)) : stored.models = st.models := by
  unfold createProvider at h
  split_ifs at h
  simp only [Option.some.injEq, Prod.mk.injEq] at h
  rw [← h.1]

theorem updateProvider_models {st stored : Store} {p : ProviderRec}
    {mask : List ProviderColumn} (h : updateProvider st p mask = some stored) :
    stored.models = st.models := by
  unfold updateProvider at h
  split_ifs at h
  rw [← Option.some_inj.mp h]

/-- A request is refused and leaves the tables alone, or syncs a provider that is stored. -/
def RefusesOrSyncs (faults : ℕ → Bool) (st : Store) (h : Handled) : Prop :=
  (h.synced = none ∧ h.store = st) ∨
    ∃ p op stored, stored.models = st.models ∧
      h.synced = some (p, (syncProviderModels p faults op stored).written) ∧
      h.store = (syncProviderModels p faults op stored).store

theorem providerCreate_cases (adm : Context) (c : Call) (st : Store) :
    RefusesOrSyncs c.faults st (providerCreate adm c st) := by
  unfold providerCreate
  split
  · exact .inl ⟨rfl, rfl⟩
  dsimp only
  split
  · exact .inl ⟨rfl, rfl⟩
  split
  · exact .inl ⟨rfl, rfl⟩
  split
  · exact .inl ⟨rfl, rfl⟩
  split
  · exact .inl ⟨rfl, rfl⟩
  · rename_i stored id hcreate
    exact .inr ⟨_, 1, stored, createProvider_models (attempt_eq_some hcreate), rfl, rfl⟩

theorem providerPatch_cases (adm : Context) (c : Call) (rest : Bytes) (st : Store) :
    RefusesOrSyncs c.faults st (providerPatch adm c rest st) := by
  unfold providerPatch
  split
  · exact .inl ⟨rfl, rfl⟩
  split
  · exact .inl ⟨rfl, rfl⟩
  split
  · exact .inl ⟨rfl, rfl⟩
  split
  · exact .inl ⟨rfl, rfl⟩
  split
  · exact .inl ⟨rfl, rfl⟩
  dsimp only
  split
  · exact .inl ⟨rfl, rfl⟩
  · rename_i stored hupdate
    exact .inr ⟨_, 2, stored, updateProvider_models (attempt_eq_some hupdate), rfl, rfl⟩

theorem handle_cases (adm : Context) (st : Store) (r : Request) :
    RefusesOrSyncs r.call.faults st (handle adm st r) := by
  cases r with
  | create c => exact providerCreate_cases adm c st
  | patch rest c => exact providerPatch_cases adm c rest st

/-- A request that meets the condition writes rows of its provider only, and takes no
target of another one. -/
theorem step_lawful {adm : Context} {a : Admin} {r : Request} (hmeets : Meets adm a r)
    (h : Coherent a) : Coherent (step adm a r) ∧
      ∀ p written, (handle adm a.store r).synced = some (p, written) →
        KeepsOthers a.store (handle adm a.store r).store p := by
  obtain ⟨hfaults, hfits⟩ := hmeets
  unfold step
  rcases handle_cases adm a.store r with ⟨hnone, hstore⟩ | ⟨p, op, stored, hmodels, hsome, hstore⟩
  · simp only [hnone, hstore]
    exact ⟨h, fun p written hw => by cases hw⟩
  · have hprogress : Progress p a.store (syncProviderModels p r.call.faults op stored) :=
      Progress.syncModels (hfits p _ hsome) hfaults op p.models (fun _ hname => hname)
        (Progress.start hmodels)
    simp only [hsome, hstore]
    constructor
    · intro name q row hwriter hrow
      simp only at hwriter hrow
      split_ifs at hwriter with hw
      · obtain ⟨row', hrow', hof, -⟩ := hprogress.written name hw
        rw [hrow, Option.some_inj] at hrow'
        rw [hrow', ← Option.some_inj.mp hwriter]
        exact hof
      · rw [hprogress.frame name hw] at hrow
        exact h name q row hwriter hrow
    · intro q written hq
      obtain ⟨rfl, -⟩ := Prod.mk.inj (Option.some_inj.mp hq)
      exact hprogress.keepsOthers (hfits p _ hsome)

theorem lawful_of_coherent {adm : Context} (reqs : List Request) {a : Admin} (h : Coherent a)
    (hmeets : AllMeet adm a reqs) : Lawful adm a reqs := by
  induction reqs generalizing a with
  | nil => exact h
  | cons r rest ih =>
    obtain ⟨hr, hrest⟩ := hmeets
    obtain ⟨hcoherent, hkeeps⟩ := step_lawful hr h
    exact ⟨h, hkeeps, ih hcoherent hrest⟩

/-- Keys are stored as they come. -/
def plaintext : Context := ⟨false, true⟩

def noTables : Store := ⟨[], fun _ => none, 0⟩

/-- The creation of a provider of a type with one model. -/
def creation (name type model : String) : Request :=
  .create ⟨some (ascii ("\x7b\"name\":\"" ++ name ++ "\",\"endpoint\":\"https://" ++ name ++
    "\",\"provider_type\":\"" ++ type ++ "\",\"api_key\":\"env:" ++ name ++
    "\",\"models\":[\"" ++ model ++ "\"]\x7d")), fun _ => none, fun _ => false⟩

/-- What coherence says of one row, to be evaluated. -/
theorem Coherent.route {a : Admin} (h : Coherent a) (name : Bytes) :
    ((a.writer name).all fun p =>
      (a.store.models name).all fun row => decide (row.1.route = p.route)) = true := by
  rw [Option.all_eq_true]
  intro p hp
  rw [Option.all_eq_true]
  intro row hrow
  exact decide_eq_true (h name p row hp hrow).1

end Aigate.ProviderSync
