import Mathlib.Data.Int.Notation
import Aigate.HashChains

/-!
# The monthly budgets

What each key and each group has spent in the current month, in two hash tables. The node of
a group also holds what was configured for it. Every entry point that reads the clock clears
the tables first when the month has changed.
-/
namespace Aigate.BudgetEnforce
open HashChains

/-- Costs are only added and compared. -/
class Cost (C : Type) extends Zero C, Add C, LT C, LE C where
  decLt : DecidableLT C
  decLe : DecidableLE C

-- the numbers of a concrete type keep their own zero and order
attribute [instance (50)] Cost.toZero Cost.toAdd Cost.toLT Cost.toLE

instance (priority := 50) decidableLTCost {C : Type} [Cost C] : DecidableLT C := Cost.decLt

instance (priority := 50) decidableLECost {C : Type} [Cost C] : DecidableLE C := Cost.decLe

structure KeySpend (C : Type) where
  keyId : Int64
  spentCost : C
  spentTokens : Int64

structure GroupSpend (C : Type) where
  groupId : Int64
  spentCost : C
  budgetUsd : C
  dailyReasoningQuota : Int64

/-- `hash_id`. -/
def hashId (id : Int64) : Fin 1024 :=
  let x := id.toUInt64
  let x := (x ^^^ (x >>> 30)) * 0xbf58476d1ce4e5b9
  let x := (x ^^^ (x >>> 27)) * 0x94d049bb133111eb
  let x := x ^^^ (x >>> 31)
  Fin.ofNat 1024 x.toNat

structure BudgetMgr (C : Type) where
  currentYm : ℤ
  keyBuckets : Fin 1024 → List (KeySpend C)
  groupBuckets : Fin 1024 → List (GroupSpend C)

variable {C : Type} [Cost C]

def budgetEnforceCreate (ym : ℤ) : BudgetMgr C := ⟨ym, fun _ => [], fun _ => []⟩

def BudgetMgr.findKey (m : BudgetMgr C) (id : Int64) : Option (KeySpend C) :=
  find hashId KeySpend.keyId m.keyBuckets id

def BudgetMgr.findGroup (m : BudgetMgr C) (id : Int64) : Option (GroupSpend C) :=
  find hashId GroupSpend.groupId m.groupBuckets id

def clearBuckets (m : BudgetMgr C) : BudgetMgr C :=
  { m with keyBuckets := fun _ => [], groupBuckets := fun _ => [] }

/-- The month has changed. -/
def rollover (m : BudgetMgr C) (ym : ℤ) : BudgetMgr C :=
  if ym ≠ m.currentYm then { clearBuckets m with currentYm := ym } else m

def budgetEnforceReset (m : BudgetMgr C) (ym : ℤ) : BudgetMgr C :=
  { clearBuckets m with currentYm := ym }

/-- Which budget is exceeded, with what the message tells of it. -/
inductive Exceeded (C : Type) where
  | keyCost (budget spent : C)
  | keyTokens (budget spent : Int64)
  | groupCost (budget : C) (groupId : Int64) (spent : C)

/-- The arguments of `budget_enforce_check`. -/
structure CheckRequest (C : Type) where
  keyId : Int64
  groupId : Int64
  keyCostBudget : C
  keyTokenBudget : Int64
  groupCostBudget : C

def checkKey (r : CheckRequest C) (k : KeySpend C) : Option (Exceeded C) :=
  if 0 < r.keyCostBudget ∧ r.keyCostBudget ≤ k.spentCost then
    some (.keyCost r.keyCostBudget k.spentCost)
  else if 0 < r.keyTokenBudget ∧ r.keyTokenBudget ≤ k.spentTokens then
    some (.keyTokens r.keyTokenBudget k.spentTokens)
  else none

/-- The budget of the request, if it has one, stands before the configured one. -/
def checkGroup (r : CheckRequest C) (configured spent : C) : Option (Exceeded C) :=
  let budget := if 0 < r.groupCostBudget then r.groupCostBudget else configured
  if 0 < budget ∧ budget ≤ spent then some (.groupCost budget r.groupId spent) else none

/-- `budget_enforce_check`. -/
def budgetEnforceCheck (m : BudgetMgr C) (ym : ℤ) (r : CheckRequest C) :
    BudgetMgr C × Option (Exceeded C) :=
  let m := rollover m ym
  let byKey :=
    if 0 < r.keyId ∧ (0 < r.keyCostBudget ∨ 0 < r.keyTokenBudget) then
      (m.findKey r.keyId).bind (checkKey r)
    else none
  let byGroup :=
    if 0 < r.groupId then
      (m.findGroup r.groupId).bind fun g => checkGroup r g.budgetUsd g.spentCost
    else none
  (m, byKey.or byGroup)

/-- The arguments of `budget_enforce_record`, and whether its allocations succeed. -/
structure RecordRequest (C : Type) where
  keyId : Int64
  groupId : Int64
  costUsd : C
  tokens : Int64
  keyAllocated : Bool
  groupAllocated : Bool

def newKey (id : Int64) (allocated : Bool) : Option (KeySpend C) :=
  if allocated then some ⟨id, 0, 0⟩ else none

def newGroup (id : Int64) (allocated : Bool) : Option (GroupSpend C) :=
  if allocated then some ⟨id, 0, 0, 0⟩ else none

def BudgetMgr.putGroup (m : BudgetMgr C) (id : Int64) (allocated : Bool)
    (f : GroupSpend C → GroupSpend C) : BudgetMgr C :=
  { m with
    groupBuckets := upsert hashId GroupSpend.groupId m.groupBuckets id (newGroup id allocated) f }

def KeySpend.spend (r : RecordRequest C) (k : KeySpend C) : KeySpend C :=
  { k with spentCost := k.spentCost + r.costUsd, spentTokens := k.spentTokens + r.tokens }

def recordKey (m : BudgetMgr C) (r : RecordRequest C) : BudgetMgr C :=
  if 0 < r.keyId then
    { m with
      keyBuckets := upsert hashId KeySpend.keyId m.keyBuckets r.keyId
        (newKey r.keyId r.keyAllocated) (KeySpend.spend r) }
  else m

def recordGroup (m : BudgetMgr C) (r : RecordRequest C) : BudgetMgr C :=
  if 0 < r.groupId then
    m.putGroup r.groupId r.groupAllocated fun g => { g with spentCost := g.spentCost + r.costUsd }
  else m

/-- `budget_enforce_record`. -/
def budgetEnforceRecord (m : BudgetMgr C) (ym : ℤ) (r : RecordRequest C) : BudgetMgr C :=
  recordGroup (recordKey (rollover m ym) r) r

def budgetEnforceSetGroupBudget (m : BudgetMgr C) (id : Int64) (budget : C) (allocated : Bool) :
    BudgetMgr C :=
  if 0 < id then m.putGroup id allocated fun g => { g with budgetUsd := budget } else m

def budgetEnforceSetGroupReasoningQuota (m : BudgetMgr C) (id : Int64) (quota : Int64)
    (allocated : Bool) : BudgetMgr C :=
  if 0 < id then m.putGroup id allocated fun g => { g with dailyReasoningQuota := quota } else m

/-- `budget_enforce_get_group_reasoning_quota`. -/
def budgetEnforceGetGroupReasoningQuota (m : BudgetMgr C) (id : Int64) : Int64 :=
  if 0 < id then ((m.findGroup id).map (·.dailyReasoningQuota)).getD 0 else 0

/-- The entry points that change the state, with the month that the clock shows. -/
inductive Event (C : Type) where
  | check (ym : ℤ) (r : CheckRequest C)
  | record (ym : ℤ) (r : RecordRequest C)
  | reset (ym : ℤ)
  | setGroupBudget (id : Int64) (budget : C) (allocated : Bool)
  | setGroupReasoningQuota (id : Int64) (quota : Int64) (allocated : Bool)

def step (m : BudgetMgr C) : Event C → BudgetMgr C
  | .check ym r => (budgetEnforceCheck m ym r).1
  | .record ym r => budgetEnforceRecord m ym r
  | .reset ym => budgetEnforceReset m ym
  | .setGroupBudget id budget allocated => budgetEnforceSetGroupBudget m id budget allocated
  | .setGroupReasoningQuota id quota allocated =>
    budgetEnforceSetGroupReasoningQuota m id quota allocated

end Aigate.BudgetEnforce
