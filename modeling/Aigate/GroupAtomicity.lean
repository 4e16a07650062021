import Aigate.GroupAdmin

/-!
# Changes of groups

Which requests on a group leave it as it was when they are refused, and report what is
stored and enforced when they are not.
-/
namespace Aigate.GroupAtomicity
open Text JsonTree JsonNumbers AdminRequests QueryParams GroupAdmin

/-- The row of the group and its limits in memory have the values of the report. -/
def GroupReport.Holds (r : GroupReport) (g : Groups) : Prop :=
  ∃ row, g.rows r.id = some row ∧ (∀ name, r.name = some name → row.name = name) ∧
    (∀ budget, r.monthlyBudgetUsd = some budget →
      row.monthlyBudgetUsd = budget ∧ (g.limits r.id).budgetUsd = budget) ∧
    ∀ quota, r.dailyReasoningQuota = some quota →
      row.dailyReasoningQuota = quota ∧ (g.limits r.id).dailyReasoningQuota = quota

/-- A limit is absent, or can be written: it is a number, not negative, and its operation
does not fail. -/
def LimitFits {α : Type} [Zero α] [LE α] (read : Json → Option α) (fails : Bool)
    (field : Option Json) : Prop :=
  ∀ v, field = some v → ∃ x, read v = some x ∧ 0 ≤ x ∧ fails = false

/-- The name is one that the group can be given. -/
def NameFits (fails : Bool) (g : Groups) (id : ℕ) (name : Bytes) : Prop :=
  name ≠ [] ∧ name.length ≤ 64 ∧ fails = false ∧ g.nameTaken id (copyField 127 name) = false

/-- A budget that is written and is not the one that is stored and enforced. -/
def BudgetChanges (fails : Bool) (g : Groups) (id : ℕ) (row : GroupRow)
    (field : Option Json) : Prop :=
  ∃ v x, field = some v ∧ numberValue v = some x ∧ 0 ≤ x ∧ fails = false ∧
    (fourDecimals x ≠ row.monthlyBudgetUsd ∨ x ≠ (g.limits id).budgetUsd)

/-- What comes after a name that changes can be written, and so can the quota after a budget
that changes. -/
def RowFits (c : Call) (g : Groups) (id : ℕ) (row : GroupRow) (name : Bytes)
    (jbudget jdrq : Option Json) : Prop :=
  (NameFits (c.faults 0) g id name → row.name ≠ copyField 127 name →
    LimitFits numberValue (c.faults 1) jbudget ∧ LimitFits integerValue (c.faults 2) jdrq) ∧
  (name = [] ∨ NameFits (c.faults 0) g id name →
    BudgetChanges (c.faults 1) g id row jbudget → LimitFits integerValue (c.faults 2) jdrq)

/-- The condition of a change of a group, which is there. -/
def PatchFits (c : Call) (rest : Bytes) (g : Groups) : Prop :=
  ∀ jbody row, 0 < strtol rest → parseBody c.body = some jbody →
    g.rows (strtol rest).toNat = some row →
    RowFits c g (strtol rest).toNat row ((jbody.getString "name").getD [])
      (jbody.get "monthly_budget_usd") (jbody.get "daily_reasoning_quota")

/-- A new group that is created has no negative limit, and its limits are stored: the
operations succeed, and the budget has no more than four decimals. -/
def CreateFits (c : Call) (g : Groups) : Prop :=
  ∀ jbody n g', parseBody c.body = some jbody → newGroup jbody = .ok n →
    createGroup (c.faults 0) g n.name = .done g' →
    0 ≤ n.monthlyBudgetUsd ∧ 0 ≤ n.dailyReasoningQuota ∧
      (0 < n.monthlyBudgetUsd →
        c.faults 1 = false ∧ fourDecimals n.monthlyBudgetUsd = n.monthlyBudgetUsd) ∧
      (0 < n.dailyReasoningQuota → c.faults 2 = false)

theorem limitFits_none {α : Type} [Zero α] [LE α] (read : Json → Option α) (fails : Bool) :
    LimitFits read fails none :=
  nofun

theorem le_lastId {g : Groups} {id : ℕ} {row : GroupRow} (h : g.rows id = some row) :
    id ≤ g.lastId := by
  by_contra hlt
  rw [(g.fresh id (by omega)).1] at h
  cases h

@[simp] theorem putRow_rows (g : Groups) (id : ℕ) (row : GroupRow) :
    (g.putRow id row).rows id = some row :=
  Function.update_self ..

@[simp] theorem putRow_limits (g : Groups) (id : ℕ) (row : GroupRow) :
    (g.putRow id row).limits = g.limits := rfl

@[simp] theorem setGroupBudget_rows (g : Groups) (id : ℕ) (budget : ℚ) :
    (g.setGroupBudget id budget).rows = g.rows := rfl

@[simp] theorem setGroupBudget_limits (g : Groups) (id : ℕ) (budget : ℚ) :
    (g.setGroupBudget id budget).limits id = { g.limits id with budgetUsd := budget } :=
  Function.update_self ..

@[simp] theorem setGroupReasoningQuota_rows (g : Groups) (id : ℕ) (quota : ℤ) :
    (g.setGroupReasoningQuota id quota).rows = g.rows := rfl

@[simp] theorem setGroupReasoningQuota_limits (g : Groups) (id : ℕ) (quota : ℤ) :
    (g.setGroupReasoningQuota id quota).limits id =
      { g.limits id with dailyReasoningQuota := quota } :=
  Function.update_self ..

/-- An update whose result is ignored, on a row that is there. -/
theorem updateGroup_orIgnore {g : Groups} {id : ℕ} {row : GroupRow} (h : g.rows id = some row)
    (fails : Bool) (f : GroupRow → GroupRow) :
    (updateGroup fails g id f).orIgnore g = if fails then g else g.putRow id (f row) := by
  unfold updateGroup
  cases fails with
  | true => rfl
  | false => simp [h, Outcome.orIgnore]

/-- The groups once the budget of a new group was written. -/
theorem storeBudget_eq {g : Groups} {id : ℕ} {row : GroupRow} (hrow : g.rows id = some row)
    (fails : Bool) (budget : ℚ) :
    (((patchGroupBudget fails g id budget).orIgnore g).setGroupBudget id budget).rows id =
        some (if fails then row else { row with monthlyBudgetUsd := fourDecimals budget }) ∧
      (((patchGroupBudget fails g id budget).orIgnore g).setGroupBudget id budget).limits id =
        { g.limits id with budgetUsd := budget } := by
  unfold patchGroupBudget
  rw [updateGroup_orIgnore hrow]
  cases fails with
  | true => simp [hrow]
  | false => simp

/-- The groups once the quota of a new group was written. -/
theorem storeQuota_eq {g : Groups} {id : ℕ} {row : GroupRow} (hrow : g.rows id = some row)
    (fails : Bool) (quota : ℤ) :
    (((patchGroupReasoningQuota fails g id quota).orIgnore g).setGroupReasoningQuota id
        quota).rows id =
        some (if fails then row else { row with dailyReasoningQuota := quota }) ∧
      (((patchGroupReasoningQuota fails g id quota).orIgnore g).setGroupReasoningQuota id
        quota).limits id = { g.limits id with dailyReasoningQuota := quota } := by
  unfold patchGroupReasoningQuota
  rw [updateGroup_orIgnore hrow]
  cases fails with
  | true => simp [hrow]
  | false => simp

/-- The row and the limits of a new group. -/
theorem storeLimits_eq {g : Groups} {id : ℕ} {n : NewGroup}
    (hrow : g.rows id = some ⟨n.name, 0, 0⟩) (hlimits : g.limits id = noLimits)
    (faults : ℕ → Bool) :
    (storeLimits faults id n g).rows id = some
      ⟨n.name,
        if 0 < n.monthlyBudgetUsd ∧ faults 1 = false then fourDecimals n.monthlyBudgetUsd else 0,
        if 0 < n.dailyReasoningQuota ∧ faults 2 = false then n.dailyReasoningQuota else 0⟩ ∧
    (storeLimits faults id n g).limits id =
      ⟨if 0 < n.monthlyBudgetUsd then n.monthlyBudgetUsd else 0,
        if 0 < n.dailyReasoningQuota then n.dailyReasoningQuota else 0⟩ := by
  unfold storeLimits
  -- the groups between the two writes
  generalize hmid : (if 0 < n.monthlyBudgetUsd then
    ((patchGroupBudget (faults 1) g id n.monthlyBudgetUsd).orIgnore g).setGroupBudget id
      n.monthlyBudgetUsd else g) = mid
  have hmid' : mid.rows id = some ⟨n.name, if 0 < n.monthlyBudgetUsd ∧ faults 1 = false then
        fourDecimals n.monthlyBudgetUsd else 0, 0⟩ ∧
      mid.limits id = ⟨if 0 < n.monthlyBudgetUsd then n.monthlyBudgetUsd else 0, 0⟩ := by
    obtain ⟨hr, hl⟩ := storeBudget_eq hrow (faults 1) n.monthlyBudgetUsd
    rw [← hmid]
    by_cases hpos : 0 < n.monthlyBudgetUsd
    · rw [if_pos hpos, hr, hl, hlimits]
      cases faults 1 with
      | true => simp [hpos, noLimits]
      | false => simp [hpos, noLimits]
    · simp [hpos, hrow, hlimits, noLimits]
  obtain ⟨hr, hl⟩ := storeQuota_eq hmid'.1 (faults 2) n.dailyReasoningQuota
  by_cases hpos : 0 < n.dailyReasoningQuota
  · simp only [if_pos hpos]
    rw [hr, hl, hmid'.2]
    cases faults 2 with
    | true => simp
    | false => simp [hpos]
  · simp [hpos, hmid'.1, hmid'.2]

/-- A limit that is stored if it is positive and its operation succeeds, and enforced if it
is positive, is the reported one. -/
theorem kept_iff {α : Type*} [LinearOrder α] [Zero α] (x stored : α) (fails : Bool) :
    ((if 0 < x ∧ fails = false then stored else 0) = x ∧ (if 0 < x then x else 0) = x) ↔
      0 ≤ x ∧ (0 < x → fails = false ∧ stored = x) := by
  rcases lt_trichotomy x 0 with hneg | rfl | hpos
  · simp [hneg.not_ge, hneg.not_gt, hneg.ne']
  · simp
  · cases fails with
    | true => simp [hpos, hpos.ne]
    | false => simp [hpos, hpos.le]

/-- What is stored and enforced for a new group is what is reported. -/
theorem holds_storeLimits {g : Groups} {id : ℕ} {n : NewGroup}
    (hrow : g.rows id = some ⟨n.name, 0, 0⟩) (hlimits : g.limits id = noLimits)
    (faults : ℕ → Bool) :
    GroupReport.Holds ⟨id, some n.name, some n.monthlyBudgetUsd, some n.dailyReasoningQuota⟩
        (storeLimits faults id n g) ↔
      0 ≤ n.monthlyBudgetUsd ∧ 0 ≤ n.dailyReasoningQuota ∧
        (0 < n.monthlyBudgetUsd →
          faults 1 = false ∧ fourDecimals n.monthlyBudgetUsd = n.monthlyBudgetUsd) ∧
        (0 < n.dailyReasoningQuota → faults 2 = false) := by
  obtain ⟨hr, hl⟩ := storeLimits_eq hrow hlimits faults
  unfold GroupReport.Holds
  simp only [hr, hl, Option.some.injEq, exists_eq_left']
  simp only [forall_eq', true_and]
  rw [kept_iff, kept_iff]
  tauto

theorem createGroup_done {fails : Bool} {g g' : Groups} {name : Field 127}
    (h : createGroup fails g name = .done g') :
    g'.rows (g.lastId + 1) = some ⟨name, 0, 0⟩ ∧ g'.limits (g.lastId + 1) = noLimits := by
  unfold createGroup at h
  split_ifs at h
  rw [← Outcome.done.inj h]
  exact ⟨putRow_rows .., (g.fresh _ (Nat.lt_succ_self _)).2⟩

theorem newGroup_error {jbody : Json} {reply : GroupReply} (h : newGroup jbody = .error reply) :
    reply.report = none := by
  unfold newGroup at h
  dsimp only at h
  split at h
  · cases h
    rfl
  split at h
  · cases h
    rfl
  split at h
  · cases h
    rfl
  split at h
  · cases h
    rfl
  · cases h

theorem groupCreate_atomic (c : Call) (g : Groups) :
    Atomic GroupReport.Holds g (groupCreate c g) ↔ CreateFits c g := by
  unfold groupCreate CreateFits
  cases hbody : parseBody c.body with
  | none => exact iff_of_true ((atomic_of_none rfl).mpr rfl) fun _ _ _ h => by cases h
  | some jbody =>
    dsimp only
    cases hn : newGroup jbody with
    | error reply =>
      refine iff_of_true ((atomic_of_none (newGroup_error hn)).mpr rfl) ?_
      rintro _ n g' ⟨⟩ hn'
      rw [hn] at hn'
      cases hn'
    | ok n =>
      dsimp only
      have honly {P : NewGroup → Groups → Prop} : (∀ jbody' n' g', some jbody = some jbody' →
          newGroup jbody' = .ok n' → createGroup (c.faults 0) g n'.name = .done g' → P n' g') ↔
          ∀ g', createGroup (c.faults 0) g n.name = .done g' → P n g' := by
        constructor
        · exact fun h g' => h jbody n g' rfl hn
        · rintro h _ n' g' ⟨⟩ hn'
          rw [hn] at hn'
          cases hn'
          exact h g'
      rw [honly]
      cases hc : createGroup (c.faults 0) g n.name with
      | done g' =>
        obtain ⟨hrow, hlimits⟩ := createGroup_done hc
        dsimp only
        rw [atomic_of_some rfl, holds_storeLimits hrow hlimits]
        exact ⟨fun h _ _ => h, fun h => h g' rfl⟩
      | taken => exact iff_of_true ((atomic_of_none rfl).mpr rfl) fun _ h => by cases h
      | notFound => exact iff_of_true ((atomic_of_none rfl).mpr rfl) fun _ h => by cases h
      | failed => exact iff_of_true ((atomic_of_none rfl).mpr rfl) fun _ h => by cases h

theorem nameStep_fits {fails : Bool} {g : Groups} {id : ℕ} {name : Bytes} {row : GroupRow}
    (hrow : g.rows id = some row) (h : NameFits fails g id name) :
    nameStep fails id name g =
      (g.putRow id { row with name := copyField 127 name }, none) := by
  obtain ⟨hne, hlen, rfl, hfree⟩ := h
  unfold nameStep patchGroup updateGroup
  rw [if_neg hne, if_neg (by omega)]
  simp [hrow, hfree]

theorem nameStep_error {fails : Bool} {g : Groups} {id : ℕ} {name : Bytes} (hne : name ≠ [])
    (h : g.rows id = none ∨ ¬NameFits fails g id name) :
    ∃ reply : GroupReply, reply.report = none ∧ nameStep fails id name g = (g, some reply) := by
  unfold nameStep
  rw [if_neg hne]
  by_cases hlen : 64 < name.length
  · exact ⟨_, rfl, if_pos hlen⟩
  rw [if_neg hlen]
  cases hpatch : patchGroup fails g id (copyField 127 name) with
  | taken => exact ⟨_, rfl, rfl⟩
  | notFound => exact ⟨_, rfl, rfl⟩
  | failed => exact ⟨_, rfl, rfl⟩
  | done g' =>
    -- a group that is not there or cannot have the name is not patched
    exfalso
    unfold patchGroup updateGroup at hpatch
    cases hrow : g.rows id with
    | none => cases fails <;> simp [hrow] at hpatch
    | some row =>
      simp only [hrow, Option.isSome_some, Bool.true_and] at hpatch
      split_ifs at hpatch with hfails htaken
      refine h.elim (fun hnone => by rw [hrow] at hnone; cases hnone) fun hmisfit => hmisfit ?_
      exact ⟨hne, by omega, by simpa using hfails, by simpa using htaken⟩

section limits

variable {α : Type} [Zero α] [LinearOrder α] {read : Json → Option α}
  {notNumber negative failed : String} {fails : Bool} {id : ℕ} {write : α → GroupRow → GroupRow}
  {enforce : Groups → α → Groups} {g : Groups}

theorem limitStep_fits {v : Json} {x : α} {row : GroupRow} (hx : read v = some x) (hpos : 0 ≤ x)
    (hfails : fails = false) (hrow : g.rows id = some row) :
    limitStep read notNumber negative failed (fun g x => updateGroup fails g id (write x))
      enforce (some v) g = (enforce (g.putRow id (write x row)) x, none) := by
  unfold limitStep updateGroup
  simp [hx, hpos.not_gt, hfails, hrow]

theorem limitStep_error {v : Json}
    (h : g.rows id = none ∨ ¬LimitFits read fails (some v)) :
    ∃ reply : GroupReply, reply.report = none ∧
      limitStep read notNumber negative failed (fun g x => updateGroup fails g id (write x))
        enforce (some v) g = (g, some reply) := by
  unfold limitStep
  dsimp only
  cases hx : read v with
  | none => exact ⟨_, rfl, rfl⟩
  | some x =>
    dsimp only
    by_cases hneg : x < 0
    · exact ⟨_, rfl, if_pos hneg⟩
    rw [if_neg hneg]
    cases hpatch : updateGroup fails g id (write x) with
    | notFound => exact ⟨_, rfl, rfl⟩
    | taken => exact ⟨_, rfl, rfl⟩
    | failed => exact ⟨_, rfl, rfl⟩
    | done g' =>
      exfalso
      unfold updateGroup at hpatch
      cases hrow : g.rows id with
      | none => cases fails <;> simp [hrow] at hpatch
      | some row =>
        simp only [hrow] at hpatch
        split_ifs at hpatch with hfails
        refine h.elim (fun hnone => by rw [hrow] at hnone; cases hnone) fun hmisfit =>
          hmisfit fun w hw => ?_
        rw [← Option.some_inj.mp hw]
        exact ⟨x, hx, not_lt.mp hneg, by simpa using hfails⟩

end limits

theorem putRow_self {g : Groups} {id : ℕ} {row : GroupRow} (h : g.rows id = some row) :
    g.putRow id row = g := by
  apply Groups.ext
  · exact Function.update_eq_self_iff.mpr h.symm
  · rfl
  · exact max_eq_left (le_lastId h)

theorem putRow_eq_iff {g : Groups} {id : ℕ} {row row' : GroupRow} (h : g.rows id = some row) :
    g.putRow id row' = g ↔ row' = row := by
  constructor
  · intro heq
    have hrow := putRow_rows g id row'
    rw [heq, h] at hrow
    exact (Option.some_inj.mp hrow).symm
  · rintro rfl
    exact putRow_self h

theorem putRow_putRow (g : Groups) (id : ℕ) (row row' : GroupRow) :
    (g.putRow id row).putRow id row' = g.putRow id row' := by
  apply Groups.ext
  · exact Function.update_idem ..
  · rfl
  · show max (max g.lastId id) id = max g.lastId id
    omega

/-- A row and a budget that are written back as they were. -/
theorem setGroupBudget_eq_iff {g : Groups} {id : ℕ} {row row' : GroupRow} {budget : ℚ}
    (h : g.rows id = some row) :
    (g.putRow id row').setGroupBudget id budget = g ↔
      row' = row ∧ budget = (g.limits id).budgetUsd := by
  constructor
  · intro heq
    have hrow : ((g.putRow id row').setGroupBudget id budget).rows id = some row' :=
      putRow_rows g id row'
    have hlimits := setGroupBudget_limits (g.putRow id row') id budget
    rw [heq, h] at hrow
    rw [heq] at hlimits
    exact ⟨(Option.some_inj.mp hrow).symm, (congrArg Limits.budgetUsd hlimits).symm⟩
  · rintro ⟨rfl, rfl⟩
    rw [putRow_self h]
    apply Groups.ext
    · rfl
    · exact Function.update_eq_self id g.limits
    · exact max_eq_left (le_lastId h)

theorem budgetStep_error {fails : Bool} {id : ℕ} {v : Json} {g : Groups}
    (h : g.rows id = none ∨ ¬LimitFits numberValue fails (some v)) :
    ∃ reply : GroupReply, reply.report = none ∧
      budgetStep fails id (some v) g = (g, some reply) :=
  limitStep_error h

theorem quotaStep_error {fails : Bool} {id : ℕ} {v : Json} {g : Groups}
    (h : g.rows id = none ∨ ¬LimitFits integerValue fails (some v)) :
    ∃ reply : GroupReply, reply.report = none ∧
      quotaStep fails id (some v) g = (g, some reply) :=
  limitStep_error h

theorem budgetStep_fits {fails : Bool} {id : ℕ} {v : Json} {x : ℚ} {g : Groups} {row : GroupRow}
    (hx : numberValue v = some x) (hpos : 0 ≤ x) (hfails : fails = false)
    (hrow : g.rows id = some row) : budgetStep fails id (some v) g =
      ((g.putRow id { row with monthlyBudgetUsd := fourDecimals x }).setGroupBudget id x,
        none) :=
  limitStep_fits hx hpos hfails hrow

theorem quotaStep_fits {fails : Bool} {id : ℕ} {v : Json} {x : ℤ} {g : Groups} {row : GroupRow}
    (hx : integerValue v = some x) (hpos : 0 ≤ x) (hfails : fails = false)
    (hrow : g.rows id = some row) : quotaStep fails id (some v) g =
      ((g.putRow id { row with dailyReasoningQuota := x }).setGroupReasoningQuota id x, none) :=
  limitStep_fits hx hpos hfails hrow

/-- The name is given and changes the row. -/
def NameChanges (fails : Bool) (g : Groups) (id : ℕ) (row : GroupRow) (name : Bytes) : Prop :=
  NameFits fails g id name ∧ row.name ≠ copyField 127 name

/-- The name of a change, on a group that is there. -/
theorem nameStep_cases (fails : Bool) {g : Groups} {id : ℕ} (name : Bytes) {row : GroupRow}
    (hrow : g.rows id = some row) :
    (∃ row', nameStep fails id name g = (g.putRow id row', none) ∧
      (name = [] ∨ NameFits fails g id name) ∧ (name ≠ [] → row'.name = copyField 127 name) ∧
      row'.monthlyBudgetUsd = row.monthlyBudgetUsd ∧
      (row' = row ↔ ¬NameChanges fails g id row name)) ∨
    (name ≠ [] ∧ ¬NameFits fails g id name ∧
      ∃ reply : GroupReply, reply.report = none ∧
        nameStep fails id name g = (g, some reply)) := by
  by_cases hempty : name = []
  · refine .inl ⟨row, ?_, .inl hempty, fun h => absurd hempty h, rfl, ?_⟩
    · rw [putRow_self hrow]
      exact if_pos hempty
    · exact iff_of_true rfl fun h => h.1.1 hempty
  by_cases hfits : NameFits fails g id name
  · refine .inl ⟨_, nameStep_fits hrow hfits, .inr hfits, fun _ => rfl, rfl, ?_⟩
    obtain ⟨rowName, budget, quota⟩ := row
    simp [NameChanges, hfits, eq_comm]
  · exact .inr ⟨hempty, hfits, nameStep_error hempty (.inr hfits)⟩

/-- The budget of a change, on a group that has its row from the name. -/
theorem budgetStep_cases (fails : Bool) {g : Groups} {id : ℕ} (field : Option Json)
    {row row' : GroupRow} (hrow : g.rows id = some row)
    (hsame : row'.monthlyBudgetUsd = row.monthlyBudgetUsd) :
    (∃ g', budgetStep fails id field (g.putRow id row') = (g', none) ∧
      LimitFits numberValue fails field ∧
      (g' = g ↔ row' = row ∧ ¬BudgetChanges fails g id row field) ∧
      ∃ row'', g'.rows id = some row'' ∧ row''.name = row'.name) ∨
    (¬LimitFits numberValue fails field ∧
      ∃ reply : GroupReply, reply.report = none ∧
        budgetStep fails id field (g.putRow id row') = (g.putRow id row', some reply)) := by
  cases field with
  | none =>
    refine .inl ⟨g.putRow id row', rfl, limitFits_none _ _, ?_, row', putRow_rows .., rfl⟩
    rw [putRow_eq_iff hrow, iff_self_and]
    rintro - ⟨v, x, hv, -⟩
    cases hv
  | some v =>
    by_cases hfits : LimitFits numberValue fails (some v)
    · obtain ⟨x, hx, hpos, hfails⟩ := hfits v rfl
      refine .inl ⟨_, budgetStep_fits hx hpos hfails (putRow_rows g id row'), hfits, ?_,
        { row' with monthlyBudgetUsd := fourDecimals x }, putRow_rows .., rfl⟩
      have hchanges : BudgetChanges fails g id row (some v) ↔
          fourDecimals x ≠ row.monthlyBudgetUsd ∨ x ≠ (g.limits id).budgetUsd := by
        constructor
        · rintro ⟨_, y, ⟨⟩, hy, -, -, h⟩
          rw [hx] at hy
          cases hy
          exact h
        · exact fun h => ⟨v, x, rfl, hx, hpos, hfails, h⟩
      have hrow' : ({ row' with monthlyBudgetUsd := fourDecimals x } : GroupRow) = row ↔
          row' = row ∧ fourDecimals x = row.monthlyBudgetUsd := by
        obtain ⟨name, budget, quota⟩ := row
        obtain ⟨name', budget', quota'⟩ := row'
        simp only at hsame
        simp only [GroupRow.mk.injEq, hsame, true_and]
        tauto
      rw [putRow_putRow, setGroupBudget_eq_iff hrow, hrow', hchanges]
      tauto
    · exact .inr ⟨hfits, budgetStep_error (.inr hfits)⟩

/-- The quota of a change, on a group that is there. -/
theorem quotaStep_cases (fails : Bool) {g : Groups} {id : ℕ} (field : Option Json)
    {row : GroupRow} (hrow : g.rows id = some row) :
    (∃ g' row', quotaStep fails id field g = (g', none) ∧
      LimitFits integerValue fails field ∧ g'.rows id = some row' ∧ row'.name = row.name) ∨
    (¬LimitFits integerValue fails field ∧
      ∃ reply : GroupReply, reply.report = none ∧
        quotaStep fails id field g = (g, some reply)) := by
  cases field with
  | none => exact .inl ⟨g, row, rfl, limitFits_none _ _, hrow, rfl⟩
  | some v =>
    by_cases hfits : LimitFits integerValue fails (some v)
    · obtain ⟨x, hx, hpos, hfails⟩ := hfits v rfl
      exact .inl ⟨_, _, quotaStep_fits hx hpos hfails hrow, hfits, putRow_rows .., rfl⟩
    · exact .inr ⟨hfits, quotaStep_error (.inr hfits)⟩

theorem BudgetChanges.limitFits {fails : Bool} {g : Groups} {id : ℕ} {row : GroupRow}
    {field : Option Json} (h : BudgetChanges fails g id row field) :
    LimitFits numberValue fails field := by
  obtain ⟨v, x, rfl, hx, hpos, hfails, -⟩ := h
  rintro _ ⟨⟩
  exact ⟨x, hx, hpos, hfails⟩

/-- A change of a group that is there. -/
theorem patchSteps_atomic {g : Groups} {id : ℕ} {row : GroupRow} (hrow : g.rows id = some row)
    (c : Call) (name : Bytes) (jbudget jdrq : Option Json) :
    Atomic GroupReport.Holds g (patchSteps c id name jbudget jdrq g) ↔
      RowFits c g id row name jbudget jdrq := by
  unfold patchSteps RowFits
  rcases nameStep_cases (c.faults 0) name hrow with
    ⟨row', hname, hgiven, hset, hsame, hunchanged⟩ | ⟨hne, hmisfit, reply, hreply, hname⟩
  · rw [hname]
    dsimp only [Stepped.next]
    rcases budgetStep_cases (c.faults 1) jbudget hrow hsame with
      ⟨g', hbudget, hfits, hback, row'', hrow'', hname''⟩ | ⟨hmisfit, reply, hreply, hbudget⟩
    · rw [hbudget]
      dsimp only
      rcases quotaStep_cases (c.faults 2) jdrq hrow'' with
        ⟨g'', row₃, hquota, hqfits, hrow₃, hname₃⟩ | ⟨hqmisfit, reply, hreply, hquota⟩
      · rw [hquota]
        dsimp only
        rw [atomic_of_some rfl]
        refine iff_of_true ⟨row₃, hrow₃, fun n hn => ?_, nofun, nofun⟩
          ⟨fun _ _ => ⟨hfits, hqfits⟩, fun _ _ => hqfits⟩
        dsimp only at hn
        split_ifs at hn with hempty
        rw [hname₃, hname'', hset hempty]
        exact Option.some_inj.mp hn
      · rw [hquota]
        dsimp only
        rw [atomic_of_none hreply, hback, hunchanged]
        unfold NameChanges
        tauto
    · rw [hbudget]
      dsimp only
      have hno : ¬BudgetChanges (c.faults 1) g id row jbudget := fun h => hmisfit h.limitFits
      rw [atomic_of_none hreply, putRow_eq_iff hrow, hunchanged]
      unfold NameChanges
      tauto
  · rw [hname]
    dsimp only [Stepped.next]
    rw [atomic_of_none hreply]
    tauto

/-- A change of a group that is not there. -/
theorem patchSteps_missing {g : Groups} {id : ℕ} (hrow : g.rows id = none) (c : Call)
    {name : Bytes} {jbudget jdrq : Option Json}
    (hsome : ¬(name = [] ∧ jbudget = none ∧ jdrq = none)) :
    Atomic GroupReport.Holds g (patchSteps c id name jbudget jdrq g) := by
  unfold patchSteps
  by_cases hname : name = []
  · subst hname
    have hstep : nameStep (c.faults 0) id [] g = (g, none) := if_pos rfl
    rw [hstep]
    dsimp only [Stepped.next]
    cases jbudget with
    | some v =>
      obtain ⟨reply, hreply, hbudget⟩ := @budgetStep_error (c.faults 1) id v g (.inl hrow)
      rw [hbudget]
      exact (atomic_of_none hreply).mpr rfl
    | none =>
      cases jdrq with
      | some v =>
        obtain ⟨reply, hreply, hquota⟩ := @quotaStep_error (c.faults 2) id v g (.inl hrow)
        have hbudget : budgetStep (c.faults 1) id none g = (g, none) := rfl
        rw [hbudget]
        dsimp only
        rw [hquota]
        exact (atomic_of_none hreply).mpr rfl
      | none => exact absurd ⟨rfl, rfl, rfl⟩ hsome
  · obtain ⟨reply, hreply, hstep⟩ := nameStep_error hname (.inl hrow)
    rw [hstep]
    exact (atomic_of_none hreply).mpr rfl

theorem groupPatch_atomic (c : Call) (rest : Bytes) (g : Groups) :
    Atomic GroupReport.Holds g (groupPatch c rest g) ↔ PatchFits c rest g := by
  unfold groupPatch PatchFits
  by_cases hid : strtol rest ≤ 0
  · rw [if_pos hid]
    exact iff_of_true ((atomic_of_none rfl).mpr rfl) fun _ _ h => absurd h hid.not_gt
  rw [if_neg hid]
  cases hbody : parseBody c.body with
  | none => exact iff_of_true ((atomic_of_none rfl).mpr rfl) fun _ _ _ h => by cases h
  | some jbody =>
    dsimp only
    have honly {P : Json → GroupRow → Prop} :
        (∀ jbody' row, 0 < strtol rest → some jbody = some jbody' →
          g.rows (strtol rest).toNat = some row → P jbody' row) ↔
        ∀ row, g.rows (strtol rest).toNat = some row → P jbody row := by
      constructor
      · exact fun h row => h jbody row (not_le.mp hid) rfl
      · rintro h _ row - ⟨⟩
        exact h row
    rw [honly]
    by_cases hnone : (jbody.getString "name").getD [] = [] ∧
        jbody.get "monthly_budget_usd" = none ∧ jbody.get "daily_reasoning_quota" = none
    · rw [if_pos hnone]
      refine iff_of_true ((atomic_of_none rfl).mpr rfl) fun row _ => ?_
      rw [hnone.1, hnone.2.1, hnone.2.2]
      exact ⟨fun h => absurd rfl h.1, fun _ _ => limitFits_none _ _⟩
    rw [if_neg hnone]
    cases hrow : g.rows (strtol rest).toNat with
    | none => exact iff_of_true (patchSteps_missing hrow c hnone) fun _ h => by cases h
    | some row =>
      rw [patchSteps_atomic hrow]
      constructor
      · rintro h _ ⟨⟩
        exact h
      · exact fun h => h row rfl

end Aigate.GroupAtomicity
