import Aigate.BudgetRollover

/-!
# The budgets after a restart

When the gateway starts, the manager reads the groups and the usage of the current month from
the store. What it records of a row of usage has no key and no cost.
-/
namespace Aigate.BudgetRestart
open HashChains BudgetEnforce BudgetRollover

variable {C : Type} [Cost C]

/-- A group as the store lists it, and whether the allocations of its node succeed. -/
structure GroupRec (C : Type) where
  id : Int64
  monthlyBudgetUsd : C
  dailyReasoningQuota : Int64
  budgetAllocated : Bool
  quotaAllocated : Bool

/-- The usage of a group as the store sums it up, and whether the allocation of its node
succeeds. -/
structure CostRow where
  groupId : Int64
  prompt : Int64
  completion : Int64
  allocated : Bool

/-- What the store answers. -/
structure PgOps (C : Type) where
  listGroups : Option (List (GroupRec C))
  queryCost : Option (List CostRow)

def initGroup (m : BudgetMgr C) (g : GroupRec C) : BudgetMgr C :=
  budgetEnforceSetGroupReasoningQuota
    (budgetEnforceSetGroupBudget m g.id g.monthlyBudgetUsd g.budgetAllocated)
    g.id g.dailyReasoningQuota g.quotaAllocated

def rowRequest (row : CostRow) : RecordRequest C :=
  ⟨0, row.groupId, 0, row.prompt + row.completion, false, row.allocated⟩

/-- `budget_enforce_init_from_db`, with arrays for 256 groups and 256 rows. -/
def budgetEnforceInitFromDb (m : BudgetMgr C) (ym : ℤ) (ops : PgOps C) : BudgetMgr C :=
  let m := ((ops.listGroups.getD []).take 256).foldl initGroup m
  ((ops.queryCost.getD []).take 256).foldl (fun m row => budgetEnforceRecord m ym (rowRequest row)) m

/-- A manager that has just been started. -/
def started (ym : ℤ) (ops : PgOps C) : BudgetMgr C :=
  budgetEnforceInitFromDb (budgetEnforceCreate ym) ym ops

/-- A month begins for a manager that has just been started, or whose last call was in another
month. -/
def Begins (m : BudgetMgr C) (ym : ℤ) : Prop := (∃ ops, m = started ym ops) ∨ m.currentYm ≠ ym

/-- The manager after a run of charges in one month. -/
def charged (m : BudgetMgr C) (ym : ℤ) (charges : List (RecordRequest C)) : BudgetMgr C :=
  charges.foldl (fun m r => budgetEnforceRecord m ym r) m

/-- The check rejects. -/
def exceeded (m : BudgetMgr C) (ym : ℤ) (r : CheckRequest C) : Bool :=
  (budgetEnforceCheck m ym r).2.isSome

/-- The tokens of the charges are in the rows of the store. -/
def Flushed (charges : List (RecordRequest C)) (rows : List CostRow) : Prop :=
  ∀ id, ((rows.filter fun row => row.groupId = id).map fun row => row.prompt + row.completion).sum =
    ((charges.filter fun r => r.groupId = id).map RecordRequest.tokens).sum

/-- The charges of a key that its node adds up: all from the first that gets a node. -/
def keyCharges (charges : List (RecordRequest C)) (id : Int64) : List (RecordRequest C) :=
  (charges.filter fun r => r.keyId = id).dropWhile fun r => !r.keyAllocated

/-- A group that is configured has a node from the start. -/
def groupCharges (m : BudgetMgr C) (charges : List (RecordRequest C)) (id : Int64) :
    List (RecordRequest C) :=
  if (m.findGroup id).isSome then charges.filter fun r => r.groupId = id
  else (charges.filter fun r => r.groupId = id).dropWhile fun r => !r.groupAllocated

def totalCost (charges : List (RecordRequest C)) : C :=
  charges.foldl (fun cost r => cost + r.costUsd) 0

def totalTokens (charges : List (RecordRequest C)) : Int64 :=
  charges.foldl (fun tokens r => tokens + r.tokens) 0

/-- The charges of the key have reached one of its budgets. -/
def KeyReached (charges : List (RecordRequest C)) (r : CheckRequest C) : Prop :=
  0 < r.keyId ∧
    (0 < r.keyCostBudget ∧ r.keyCostBudget ≤ totalCost (keyCharges charges r.keyId) ∨
      0 < r.keyTokenBudget ∧ r.keyTokenBudget ≤ totalTokens (keyCharges charges r.keyId))

/-- The budget that a group is checked against. -/
def groupBudget (m : BudgetMgr C) (r : CheckRequest C) : C :=
  if 0 < r.groupCostBudget then r.groupCostBudget else (limitsOf m r.groupId).budget

/-- The charges of the group have reached its budget. -/
def GroupReached (m : BudgetMgr C) (charges : List (RecordRequest C)) (r : CheckRequest C) :
    Prop :=
  0 < r.groupId ∧ 0 < groupBudget m r ∧
    groupBudget m r ≤ totalCost (groupCharges m charges r.groupId)

/-- What is used of zero and the order. -/
class LawfulCost (C : Type) [Cost C] : Prop where
  zero_add_zero : (0 : C) + 0 = 0
  not_le_zero : ∀ b : C, 0 < b → ¬ b ≤ 0

/-- Nothing has been spent, and no key has a node. -/
structure Unspent (m : BudgetMgr C) : Prop where
  key : ∀ id, m.findKey id = none
  group : ∀ id g, m.findGroup id = some g → g.spentCost = 0

/-! What one call of the manager changes. -/

theorem record_currentYm (m : BudgetMgr C) (r : RecordRequest C) :
    (budgetEnforceRecord m m.currentYm r).currentYm = m.currentYm := by
  have hroll : rollover m m.currentYm = m := if_neg (not_not.mpr rfl)
  rw [budgetEnforceRecord, hroll]
  unfold recordGroup recordKey BudgetMgr.putGroup
  split <;> split <;> rfl

theorem findKey_record (m : BudgetMgr C) (r : RecordRequest C) {id : Int64} (hpos : 0 < id) :
    (budgetEnforceRecord m m.currentYm r).findKey id =
      if r.keyId = id then ((m.findKey id).or (newKey id r.keyAllocated)).map (KeySpend.spend r)
      else m.findKey id := by
  have hroll : rollover m m.currentYm = m := if_neg (not_not.mpr rfl)
  have hgroup : ∀ m' : BudgetMgr C, (recordGroup m' r).findKey id = m'.findKey id := by
    intro m'
    unfold recordGroup
    split <;> rfl
  rw [budgetEnforceRecord, hroll, hgroup]
  unfold recordKey
  split
  · have hspend : ∀ k, (KeySpend.spend r k).keyId = k.keyId := fun _ => rfl
    have hnew : ∀ k ∈ newKey (C := C) r.keyId r.keyAllocated, k.keyId = r.keyId := by
      intro k hk
      unfold newKey at hk
      split at hk
      · obtain rfl := Option.some.inj hk
        rfl
      · cases hk
    refine (find_upsert hspend hnew id).trans ?_
    by_cases hid : r.keyId = id
    · rw [if_pos hid, if_pos hid.symm, hid]
      rfl
    · rw [if_neg hid, if_neg (Ne.symm hid)]
      rfl
  · have hid : r.keyId ≠ id := fun h => absurd hpos (h ▸ by assumption)
    rw [if_neg hid]

def GroupSpend.spend (r : RecordRequest C) (g : GroupSpend C) : GroupSpend C :=
  { g with spentCost := g.spentCost + r.costUsd }

theorem findGroup_record (m : BudgetMgr C) (r : RecordRequest C) {id : Int64} (hpos : 0 < id) :
    (budgetEnforceRecord m m.currentYm r).findGroup id =
      if r.groupId = id then
        ((m.findGroup id).or (newGroup id r.groupAllocated)).map (GroupSpend.spend r)
      else m.findGroup id := by
  have hroll : rollover m m.currentYm = m := if_neg (not_not.mpr rfl)
  have hkey : ∀ id, (recordKey m r).findGroup id = m.findGroup id := by
    intro id
    unfold recordKey
    split <;> rfl
  rw [budgetEnforceRecord, hroll]
  unfold recordGroup
  split
  · have hspend : ∀ g, (GroupSpend.spend r g).groupId = g.groupId := fun _ => rfl
    refine (findGroup_putGroup (recordKey m r) r.groupId r.groupAllocated hspend id).trans ?_
    by_cases hid : r.groupId = id
    · rw [if_pos hid, if_pos hid.symm, hid, hkey]
    · rw [if_neg hid, if_neg (Ne.symm hid), hkey]
  · have hid : r.groupId ≠ id := fun h => absurd hpos (h ▸ by assumption)
    rw [if_neg hid, hkey]

/-! A node through a run of charges. -/

section Nodes
variable {E α : Type} (f : E → α → α)

theorem foldl_node_some (fresh : E → Option α) (a : α) (events : List E) :
    events.foldl (fun o e => (o.or (fresh e)).map (f e)) (some a) =
      some (events.foldl (fun a e => f e a) a) := by
  induction events generalizing a with
  | nil => rfl
  | cons e rest ih => exact ih (f e a)

/-- A node that does not exist yet is made for the first event that gets one. -/
theorem foldl_node_none (allocated : E → Bool) (new : α) (events : List E) :
    events.foldl (fun o e => (o.or (if allocated e then some new else none)).map (f e)) none =
      if events.dropWhile (fun e => !allocated e) = [] then none
      else some ((events.dropWhile fun e => !allocated e).foldl (fun a e => f e a) new) := by
  induction events with
  | nil => rfl
  | cons e rest ih =>
    rw [List.foldl_cons]
    cases hallocated : allocated e with
    | true =>
      have hhere : (e :: rest).dropWhile (fun e => !allocated e) = e :: rest := by
        simp [hallocated]
      rw [hhere, if_neg (List.cons_ne_nil e rest)]
      exact foldl_node_some f _ (f e new) rest
    | false =>
      have hskip : (e :: rest).dropWhile (fun e => !allocated e) =
          rest.dropWhile fun e => !allocated e := by
        simp [hallocated]
      rw [hskip]
      exact ih

end Nodes

theorem foldl_keySpend (id : Int64) (cost : C) (tokens : Int64) (charges : List (RecordRequest C)) :
    charges.foldl (fun k r => KeySpend.spend r k) ⟨id, cost, tokens⟩ =
      ⟨id, charges.foldl (fun cost r => cost + r.costUsd) cost,
        charges.foldl (fun tokens r => tokens + r.tokens) tokens⟩ := by
  induction charges generalizing cost tokens with
  | nil => rfl
  | cons r rest ih => exact ih (cost + r.costUsd) (tokens + r.tokens)

theorem foldl_groupSpend (g : GroupSpend C) (charges : List (RecordRequest C)) :
    charges.foldl (fun g r => GroupSpend.spend r g) g =
      { g with spentCost := charges.foldl (fun cost r => cost + r.costUsd) g.spentCost } := by
  induction charges generalizing g with
  | nil => rfl
  | cons r rest ih => exact ih (GroupSpend.spend r g)

theorem charged_currentYm (m : BudgetMgr C) (charges : List (RecordRequest C)) :
    (charged m m.currentYm charges).currentYm = m.currentYm := by
  induction charges generalizing m with
  | nil => rfl
  | cons r rest ih =>
    have hrest := ih (budgetEnforceRecord m m.currentYm r)
    rw [record_currentYm] at hrest
    exact hrest

/-- What one charge changes for those of its own id only, all charges make of those of that id. -/
theorem charged_eq_foldl {β : Type*} (find : BudgetMgr C → β) (idOf : RecordRequest C → Int64)
    (spend : β → RecordRequest C → β) {id : Int64}
    (hrecord : ∀ m r, find (budgetEnforceRecord m m.currentYm r) =
      if idOf r = id then spend (find m) r else find m)
    (m : BudgetMgr C) (charges : List (RecordRequest C)) :
    find (charged m m.currentYm charges) =
      (charges.filter fun r => idOf r = id).foldl spend (find m) := by
  induction charges generalizing m with
  | nil => rfl
  | cons r rest ih =>
    have hrest := ih (budgetEnforceRecord m m.currentYm r)
    rw [record_currentYm, hrecord m r] at hrest
    refine hrest.trans ?_
    by_cases hid : idOf r = id
    · rw [if_pos hid, List.filter_cons_of_pos (by simpa using hid)]
      rfl
    · rw [if_neg hid, List.filter_cons_of_neg (by simpa using hid)]

theorem findKey_charged (m : BudgetMgr C) (charges : List (RecordRequest C)) {id : Int64}
    (hpos : 0 < id) : (charged m m.currentYm charges).findKey id =
      (charges.filter fun r => r.keyId = id).foldl
        (fun k r => (k.or (newKey id r.keyAllocated)).map (KeySpend.spend r)) (m.findKey id) :=
  charged_eq_foldl (fun m => m.findKey id) RecordRequest.keyId _
    (fun m r => findKey_record m r hpos) m charges

theorem findGroup_charged (m : BudgetMgr C) (charges : List (RecordRequest C)) {id : Int64}
    (hpos : 0 < id) : (charged m m.currentYm charges).findGroup id =
      (charges.filter fun r => r.groupId = id).foldl
        (fun g r => (g.or (newGroup id r.groupAllocated)).map (GroupSpend.spend r))
        (m.findGroup id) :=
  charged_eq_foldl (fun m => m.findGroup id) RecordRequest.groupId _
    (fun m r => findGroup_record m r hpos) m charges

/-- The node of a key holds the sums of its charges. -/
theorem keyNode_charged {m : BudgetMgr C} (h : Unspent m) (charges : List (RecordRequest C))
    {id : Int64} (hpos : 0 < id) : (charged m m.currentYm charges).findKey id =
      if keyCharges charges id = [] then none
      else some ⟨id, totalCost (keyCharges charges id), totalTokens (keyCharges charges id)⟩ := by
  rw [findKey_charged m charges hpos, h.key]
  refine (foldl_node_none KeySpend.spend RecordRequest.keyAllocated ⟨id, 0, 0⟩ _).trans ?_
  rw [foldl_keySpend]
  rfl

/-- The node of a group holds the sum of its charges beside what is configured. -/
theorem groupNode_charged {m : BudgetMgr C} (h : Unspent m) (charges : List (RecordRequest C))
    {id : Int64} (hpos : 0 < id) :
    (charged m m.currentYm charges).findGroup id = none ∧ groupCharges m charges id = [] ∨
      ∃ g, (charged m m.currentYm charges).findGroup id = some g ∧
        g.spentCost = totalCost (groupCharges m charges id) ∧
        g.budgetUsd = (limitsOf m id).budget := by
  rw [findGroup_charged m charges hpos]
  unfold groupCharges limitsOf
  cases hfind : m.findGroup id with
  | some g =>
    right
    refine ⟨_, foldl_node_some GroupSpend.spend _ g _, ?_, ?_⟩
    · rw [foldl_groupSpend, h.group id g hfind]
      rfl
    · rw [foldl_groupSpend]
      rfl
  | none =>
    have hnode := foldl_node_none GroupSpend.spend RecordRequest.groupAllocated
      (⟨id, 0, 0, 0⟩ : GroupSpend C) (charges.filter fun r => r.groupId = id)
    by_cases hnil : (charges.filter fun r => r.groupId = id).dropWhile
        (fun r => !r.groupAllocated) = []
    · rw [if_pos hnil] at hnode
      exact Or.inl ⟨hnode, hnil⟩
    · rw [if_neg hnil, foldl_groupSpend] at hnode
      exact Or.inr ⟨_, hnode, rfl, rfl⟩

/-! When a check rejects. -/

theorem checkKey_isSome (r : CheckRequest C) (k : KeySpend C) : (checkKey r k).isSome ↔
    0 < r.keyCostBudget ∧ r.keyCostBudget ≤ k.spentCost ∨
      0 < r.keyTokenBudget ∧ r.keyTokenBudget ≤ k.spentTokens := by
  unfold checkKey
  split_ifs with hcost htokens
  · exact iff_of_true rfl (Or.inl hcost)
  · exact iff_of_true rfl (Or.inr htokens)
  · exact iff_of_false Bool.false_ne_true (not_or.mpr ⟨hcost, htokens⟩)

theorem checkGroup_isSome (r : CheckRequest C) (configured spent : C) :
    (checkGroup r configured spent).isSome ↔
      0 < (if 0 < r.groupCostBudget then r.groupCostBudget else configured) ∧
        (if 0 < r.groupCostBudget then r.groupCostBudget else configured) ≤ spent := by
  unfold checkGroup
  dsimp only
  generalize (if 0 < r.groupCostBudget then r.groupCostBudget else configured) = budget
  split_ifs with hbudget
  · exact iff_of_true rfl hbudget
  · exact iff_of_false Bool.false_ne_true hbudget

theorem exceeded_iff (m : BudgetMgr C) (r : CheckRequest C) : exceeded m m.currentYm r ↔
    (0 < r.keyId ∧ ∃ k, m.findKey r.keyId = some k ∧ (checkKey r k).isSome) ∨
      (0 < r.groupId ∧ ∃ g, m.findGroup r.groupId = some g ∧
        (checkGroup r g.budgetUsd g.spentCost).isSome) := by
  have hroll : rollover m m.currentYm = m := if_neg (not_not.mpr rfl)
  unfold exceeded budgetEnforceCheck
  dsimp only
  rw [hroll, Option.isSome_or, Bool.or_eq_true]
  apply or_congr
  · by_cases hkey : 0 < r.keyId ∧ (0 < r.keyCostBudget ∨ 0 < r.keyTokenBudget)
    · rw [if_pos hkey, and_iff_right hkey.1]
      cases m.findKey r.keyId <;> simp
    · rw [if_neg hkey]
      refine iff_of_false Bool.false_ne_true fun ⟨hpos, k, _, hexceeded⟩ => hkey ⟨hpos, ?_⟩
      exact ((checkKey_isSome r k).mp hexceeded).imp And.left And.left
  · by_cases hgroup : 0 < r.groupId
    · rw [if_pos hgroup, and_iff_right hgroup]
      cases m.findGroup r.groupId <;> simp
    · rw [if_neg hgroup]
      exact iff_of_false Bool.false_ne_true fun h => hgroup h.1

/-- The running process rejects when the charges have reached a budget. -/
theorem exceeded_charged [LawfulCost C] {m : BudgetMgr C} (h : Unspent m)
    (charges : List (RecordRequest C)) (r : CheckRequest C) :
    exceeded (charged m m.currentYm charges) m.currentYm r ↔
      KeyReached charges r ∨ GroupReached m charges r := by
  have hexceeded := exceeded_iff (charged m m.currentYm charges) r
  rw [charged_currentYm] at hexceeded
  refine hexceeded.trans (or_congr (and_congr_right fun hpos => ?_)
    (and_congr_right fun hpos => ?_))
  · rw [keyNode_charged h charges hpos]
    by_cases hnil : keyCharges charges r.keyId = []
    · rw [if_pos hnil, hnil]
      refine iff_of_false (fun ⟨k, hk, _⟩ => nomatch hk) ?_
      rintro (⟨hbudget, hle⟩ | ⟨hbudget, hle⟩)
      · exact LawfulCost.not_le_zero r.keyCostBudget hbudget hle
      · exact Int64.not_le.mpr hbudget hle
    · rw [if_neg hnil]
      constructor
      · intro ⟨k, hk, hcheck⟩
        obtain rfl := Option.some.inj hk
        exact (checkKey_isSome r _).mp hcheck
      · intro hreached
        exact ⟨_, rfl, (checkKey_isSome r _).mpr hreached⟩
  · unfold groupBudget
    rcases groupNode_charged h charges hpos with ⟨hnode, hnil⟩ | ⟨g, hnode, hspent, hbudget⟩
    · rw [hnode, hnil]
      refine iff_of_false (fun ⟨g, hg, _⟩ => nomatch hg) fun ⟨hpositive, hle⟩ => ?_
      exact LawfulCost.not_le_zero _ hpositive hle
    · rw [hnode, ← hspent, ← hbudget, ← checkGroup_isSome]
      constructor
      · intro ⟨g', hg', hcheck⟩
        obtain rfl := Option.some.inj hg'
        exact hcheck
      · intro hcheck
        exact ⟨g, rfl, hcheck⟩

theorem Unspent.not_exceeded [LawfulCost C] {m : BudgetMgr C} (h : Unspent m)
    (r : CheckRequest C) : exceeded m m.currentYm r = false := by
  rw [Bool.eq_false_iff]
  intro hexceeded
  rcases (exceeded_iff m r).mp hexceeded with ⟨-, k, hk, -⟩ | ⟨-, g, hg, hcheck⟩
  · rw [h.key] at hk
    cases hk
  · rw [checkGroup_isSome, h.group r.groupId g hg] at hcheck
    exact LawfulCost.not_le_zero _ hcheck.1 hcheck.2

/-! What a manager has when it has been started. -/

theorem unspent_create (ym : ℤ) : Unspent (budgetEnforceCreate ym : BudgetMgr C) :=
  ⟨fun _ => rfl, (fun _ _ h => nomatch h)⟩

theorem Unspent.putGroup {m : BudgetMgr C} (h : Unspent m) (id : Int64) (allocated : Bool)
    {f : GroupSpend C → GroupSpend C} (hf : ∀ g, (f g).groupId = g.groupId)
    (hspent : ∀ g, g.spentCost = 0 → (f g).spentCost = 0) : Unspent (m.putGroup id allocated f) := by
  refine ⟨h.key, fun id' g hg => ?_⟩
  rw [findGroup_putGroup m id allocated hf] at hg
  split at hg
  · obtain ⟨g₀, hg₀, rfl⟩ := Option.map_eq_some_iff.mp hg
    apply hspent
    cases hfind : m.findGroup id with
    | some g₁ =>
      rw [hfind] at hg₀
      obtain rfl := Option.some.inj hg₀
      exact h.group id g₁ hfind
    | none =>
      rw [hfind, Option.none_or] at hg₀
      unfold newGroup at hg₀
      split at hg₀
      · obtain rfl := Option.some.inj hg₀
        rfl
      · cases hg₀
  · exact h.group id' g hg

theorem Unspent.initGroup {m : BudgetMgr C} (h : Unspent m) (g : GroupRec C) :
    Unspent (initGroup m g) := by
  have hbudget : Unspent (budgetEnforceSetGroupBudget m g.id g.monthlyBudgetUsd g.budgetAllocated) := by
    unfold budgetEnforceSetGroupBudget
    split
    · exact h.putGroup g.id g.budgetAllocated (fun _ => rfl) (fun _ hspent => hspent)
    · exact h
  unfold BudgetRestart.initGroup budgetEnforceSetGroupReasoningQuota
  split
  · exact hbudget.putGroup g.id g.quotaAllocated (fun _ => rfl) (fun _ hspent => hspent)
  · exact hbudget

/-- A row of usage leaves no key and no cost. -/
theorem Unspent.record [LawfulCost C] {m : BudgetMgr C} (h : Unspent m) (row : CostRow) :
    Unspent (budgetEnforceRecord m m.currentYm (rowRequest row)) := by
  have hroll : rollover m m.currentYm = m := if_neg (not_not.mpr rfl)
  rw [budgetEnforceRecord, hroll]
  have hkey : recordKey m (rowRequest row) = m := rfl
  rw [hkey]
  unfold recordGroup
  split
  · refine h.putGroup row.groupId row.allocated (fun _ => rfl) fun g hspent => ?_
    dsimp only [rowRequest]
    rw [hspent]
    exact LawfulCost.zero_add_zero
  · exact h

theorem initGroup_currentYm (m : BudgetMgr C) (g : GroupRec C) :
    (initGroup m g).currentYm = m.currentYm := by
  unfold initGroup budgetEnforceSetGroupReasoningQuota budgetEnforceSetGroupBudget BudgetMgr.putGroup
  split <;> rfl

theorem started_spec [LawfulCost C] (ym : ℤ) (ops : PgOps C) :
    Unspent (started ym ops) ∧ (started ym ops).currentYm = ym := by
  have hgroups : ∀ (groups : List (GroupRec C)) (m : BudgetMgr C), Unspent m ∧ m.currentYm = ym →
      Unspent (groups.foldl initGroup m) ∧ (groups.foldl initGroup m).currentYm = ym := by
    intro groups
    induction groups with
    | nil => exact fun m h => h
    | cons g rest ih =>
      intro m ⟨hunspent, hym⟩
      exact ih _ ⟨hunspent.initGroup g, (initGroup_currentYm m g).trans hym⟩
  have hrows : ∀ (rows : List CostRow) (m : BudgetMgr C), Unspent m ∧ m.currentYm = ym →
      Unspent (rows.foldl (fun m row => budgetEnforceRecord m ym (rowRequest row)) m) ∧
        (rows.foldl (fun m row => budgetEnforceRecord m ym (rowRequest row)) m).currentYm = ym := by
    intro rows
    induction rows with
    | nil => exact fun m h => h
    | cons row rest ih =>
      intro m ⟨hunspent, hym⟩
      subst hym
      exact ih _ ⟨hunspent.record row, record_currentYm m (rowRequest row)⟩
  exact hrows _ _ (hgroups _ _ ⟨unspent_create ym, rfl⟩)

omit [Cost C] in
theorem rollover_idem (m : BudgetMgr C) (ym : ℤ) : rollover (rollover m ym) ym = rollover m ym := by
  have hym : (rollover m ym).currentYm = ym := by
    unfold rollover
    split_ifs with hchanged
    · rfl
    · exact (not_not.mp hchanged).symm
  exact if_neg (not_not.mpr hym.symm)

/-- The first call of a month clears the tables, if they are of another month. -/
theorem exceeded_rollover (m : BudgetMgr C) (ym : ℤ) (charges : List (RecordRequest C))
    (r : CheckRequest C) : exceeded (charged (rollover m ym) ym charges) ym r =
      exceeded (charged m ym charges) ym r := by
  cases charges with
  | nil =>
    dsimp only [charged, List.foldl_nil, exceeded, budgetEnforceCheck]
    rw [rollover_idem]
  | cons c rest =>
    dsimp only [charged, List.foldl_cons, budgetEnforceRecord]
    rw [rollover_idem]

theorem Begins.unspent [LawfulCost C] {m : BudgetMgr C} {ym : ℤ} (h : Begins m ym) :
    Unspent (rollover m ym) ∧ (rollover m ym).currentYm = ym := by
  rcases h with ⟨ops, rfl⟩ | hchanged
  · have hspec := started_spec ym ops
    have hroll : rollover (started ym ops) ym = started ym ops :=
      if_neg (not_not.mpr hspec.2.symm)
    rwa [hroll]
  · have hroll : rollover m ym = budgetEnforceReset m ym := if_pos (Ne.symm hchanged)
    rw [hroll]
    exact ⟨⟨fun _ => rfl, (fun _ _ h => nomatch h)⟩, rfl⟩

/-- After a restart a check decides as without it exactly if the charges have not reached a budget
that it checks. -/
theorem restart_iff [LawfulCost C] {m : BudgetMgr C} {ym : ℤ} (h : Begins m ym) (ops : PgOps C)
    (charges : List (RecordRequest C)) (r : CheckRequest C) :
    exceeded (started ym ops) ym r = exceeded (charged m ym charges) ym r ↔
      ¬ (KeyReached charges r ∨ GroupReached (rollover m ym) charges r) := by
  obtain ⟨hunspent, hym⟩ := h.unspent
  obtain ⟨hstarted, hstartedYm⟩ := started_spec ym ops
  have hrestarted : exceeded (started ym ops) ym r = false := by
    have hfalse := hstarted.not_exceeded r
    rwa [hstartedYm] at hfalse
  have hrunning := exceeded_charged hunspent charges r
  rw [hym, exceeded_rollover] at hrunning
  rw [hrestarted, ← hrunning, Bool.not_eq_true]
  exact eq_comm

instance : LawfulCost ℚ where
  zero_add_zero := Rat.add_zero 0
  not_le_zero _ h := Rat.not_le.mpr h

/-- The store at the start of the month. -/
def unused : PgOps ℚ := ⟨some [⟨1, 10, 0, true, true⟩], some []⟩

/-- The store after a charge of 12 for key 1 of group 1. -/
def flushed : PgOps ℚ := ⟨some [⟨1, 10, 0, true, true⟩], some [⟨1, 100, 20, true⟩]⟩

def charge : RecordRequest ℚ := ⟨1, 1, 12, 120, true, true⟩

/-- A key that was not charged, in a group that is not configured. -/
theorem restart_otherGroup :
    exceeded (started 202601 flushed) 202601 ⟨2, 2, 10, 0, 0⟩ =
      exceeded (charged (started 202601 unused) 202601 [charge]) 202601 ⟨2, 2, 10, 0, 0⟩ := by
  apply (restart_iff (Or.inl ⟨unused, rfl⟩) flushed [charge] ⟨2, 2, 10, 0, 0⟩).mpr
  unfold KeyReached GroupReached groupBudget
  decide +kernel

/-- The group has spent its budget, and so has the key, but not after a restart. -/
theorem restart_forgets : Flushed [charge] (flushed.queryCost.getD []) ∧
    ∀ r ∈ [(⟨1, 0, 10, 0, 0⟩ : CheckRequest ℚ), ⟨1, 0, 0, 120, 0⟩, ⟨1, 1, 0, 0, 0⟩],
      exceeded (started 202601 flushed) 202601 r = false ∧
        exceeded (charged (started 202601 unused) 202601 [charge]) 202601 r = true := by
  constructor
  · intro id
    by_cases hid : id = 1
    · subst hid
      decide
    · simp [flushed, charge, Ne.symm hid]
  · decide +kernel

end Aigate.BudgetRestart
