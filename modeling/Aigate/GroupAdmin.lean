import Aigate.AdminRequests
import Aigate.JsonNumbers
import Aigate.QueryParams

/-!
# Groups and their limits

A group is stored with a monthly budget and a daily quota of reasoning tokens; both are
also kept in memory, where they are enforced. A request writes name, budget and quota one
after the other.
-/
namespace Aigate.GroupAdmin
open Text JsonTree JsonNumbers AdminRequests QueryParams

structure GroupRow where
  name : Field 127
  monthlyBudgetUsd : ℚ
  dailyReasoningQuota : ℤ

/-- What the budget manager enforces for a group; zero is no limit. -/
structure Limits where
  budgetUsd : ℚ
  dailyReasoningQuota : ℤ

def noLimits : Limits := ⟨0, 0⟩

/-- The table of groups and the limits in memory. Ids come from a sequence: nothing is known
yet of an id that was not given away. -/
@[ext] structure Groups where
  rows : ℕ → Option GroupRow
  limits : ℕ → Limits
  lastId : ℕ
  fresh : ∀ id, lastId < id → rows id = none ∧ limits id = noLimits

def Groups.putRow (g : Groups) (id : ℕ) (row : GroupRow) : Groups where
  rows := Function.update g.rows id (some row)
  limits := g.limits
  lastId := max g.lastId id
  fresh k hk := by
    rw [Function.update_of_ne (by omega)]
    exact g.fresh k (by omega)

def Groups.putLimits (g : Groups) (id : ℕ) (l : Limits) : Groups where
  rows := g.rows
  limits := Function.update g.limits id l
  lastId := max g.lastId id
  fresh k hk := by
    rw [Function.update_of_ne (by omega)]
    exact g.fresh k (by omega)

/-- `budget_enforce_set_group_budget`. -/
def Groups.setGroupBudget (g : Groups) (id : ℕ) (budgetUsd : ℚ) : Groups :=
  g.putLimits id { g.limits id with budgetUsd := budgetUsd }

/-- `budget_enforce_set_group_reasoning_quota`. -/
def Groups.setGroupReasoningQuota (g : Groups) (id : ℕ) (quota : ℤ) : Groups :=
  g.putLimits id { g.limits id with dailyReasoningQuota := quota }

/-- Some group other than the given one has the name. -/
def Groups.nameTaken (g : Groups) (id : ℕ) (name : Field 127) : Bool :=
  (List.range (g.lastId + 1)).any fun k => k ≠ id && (g.rows k).any fun row => row.name = name

/-- How a store operation on a group ends. -/
inductive Outcome where
  | done (g : Groups)
  | notFound
  | taken
  | failed

/-- `create_group`: the row under the next id. -/
def createGroup (fails : Bool) (g : Groups) (name : Field 127) : Outcome :=
  if fails then .failed
  else if g.nameTaken (g.lastId + 1) name then .taken
  else .done (g.putRow (g.lastId + 1) ⟨name, 0, 0⟩)

/-- An update of the row with the id. -/
def updateGroup (fails : Bool) (g : Groups) (id : ℕ) (f : GroupRow → GroupRow) : Outcome :=
  if fails then .failed
  else
    match g.rows id with
    | none => .notFound
    | some row => .done (g.putRow id (f row))

/-- `patch_group`. -/
def patchGroup (fails : Bool) (g : Groups) (id : ℕ) (name : Field 127) : Outcome :=
  if fails then .failed
  else if (g.rows id).isSome && g.nameTaken id name then .taken
  else updateGroup false g id fun row => { row with name := name }

/-- `patch_group_budget`: the column keeps four decimals. -/
def patchGroupBudget (fails : Bool) (g : Groups) (id : ℕ) (budget : ℚ) : Outcome :=
  updateGroup fails g id fun row => { row with monthlyBudgetUsd := fourDecimals budget }

/-- `patch_group_reasoning_quota`. -/
def patchGroupReasoningQuota (fails : Bool) (g : Groups) (id : ℕ) (quota : ℤ) : Outcome :=
  updateGroup fails g id fun row => { row with dailyReasoningQuota := quota }

/-- The groups after an operation whose result is ignored. -/
def Outcome.orIgnore (o : Outcome) (g : Groups) : Groups :=
  match o with
  | .done g' => g'
  | _ => g

structure GroupReport where
  id : ℕ
  name : Option (Field 127)
  monthlyBudgetUsd : Option ℚ
  dailyReasoningQuota : Option ℤ

abbrev GroupReply := Reply GroupReport

/-- What a body asks for a new group. -/
structure NewGroup where
  name : Field 127
  monthlyBudgetUsd : ℚ
  dailyReasoningQuota : ℤ

/-- The checks of `group_create` on the fields of the body. -/
def newGroup (jbody : Json) : Except GroupReply NewGroup :=
  let name := (jbody.getString "name").getD []
  if name = [] then .error (badRequest "name is required")
  else if 64 < name.length then .error (badRequest "name too long (max 64 chars)")
  else
    match (jbody.get "monthly_budget_usd").elim (some 0) numberValue with
    | none => .error (badRequest "monthly_budget_usd must be a number")
    | some budget =>
      match (jbody.get "daily_reasoning_quota").elim (some 0) integerValue with
      | none => .error (badRequest "daily_reasoning_quota must be an integer")
      | some quota => .ok ⟨copyField 127 name, budget, quota⟩

/-- The writes of `group_create` after the row was created. -/
def storeLimits (faults : ℕ → Bool) (id : ℕ) (n : NewGroup) (g : Groups) : Groups :=
  let g :=
    if 0 < n.monthlyBudgetUsd then
      ((patchGroupBudget (faults 1) g id n.monthlyBudgetUsd).orIgnore g).setGroupBudget id
        n.monthlyBudgetUsd
    else g
  if 0 < n.dailyReasoningQuota then
    ((patchGroupReasoningQuota (faults 2) g id n.dailyReasoningQuota).orIgnore g
      ).setGroupReasoningQuota id n.dailyReasoningQuota
  else g

/-- `group_create`. -/
def groupCreate (c : Call) (g : Groups) : GroupReply × Groups :=
  match parseBody c.body with
  | none => (badRequest "invalid json body", g)
  | some jbody =>
    match newGroup jbody with
    | .error reply => (reply, g)
    | .ok n =>
      match createGroup (c.faults 0) g n.name with
      | .done g' =>
        let id := g.lastId + 1
        (.created ⟨id, some n.name, some n.monthlyBudgetUsd, some n.dailyReasoningQuota⟩,
          storeLimits c.faults id n g')
      | .taken => (.refused .conflict "group_exists" "group name already exists", g)
      | _ => (.refused .internal "internal_error" "group create failed", g)

/-- The end of a step of `group_patch`: the groups so far, and the answer if it is an
error. -/
abbrev Stepped := Groups × Option GroupReply

def groupNotFound : GroupReply := .refused .notFound "group_not_found" "group not found"

/-- The name of `group_patch`, if there is one. -/
def nameStep (fails : Bool) (id : ℕ) (name : Bytes) (g : Groups) : Stepped :=
  if name = [] then (g, none)
  else if 64 < name.length then (g, some (badRequest "name too long (max 64 chars)"))
  else
    match patchGroup fails g id (copyField 127 name) with
    | .done g' => (g', none)
    | .taken => (g, some (.refused .conflict "group_exists" "group name already exists"))
    | .notFound => (g, some groupNotFound)
    | .failed => (g, some (.refused .internal "internal_error" "group patch failed"))

/-- A limit of `group_patch`, if there is one: it is checked, stored and enforced. -/
def limitStep {α : Type} [Zero α] [LT α] [DecidableLT α] (read : Json → Option α)
    (notNumber negative failed : String) (patch : Groups → α → Outcome)
    (enforce : Groups → α → Groups) (field : Option Json) (g : Groups) : Stepped :=
  match field with
  | none => (g, none)
  | some v =>
    match read v with
    | none => (g, some (badRequest notNumber))
    | some x =>
      if x < 0 then (g, some (badRequest negative))
      else
        match patch g x with
        | .done g' => (enforce g' x, none)
        | .notFound => (g, some groupNotFound)
        | _ => (g, some (.refused .internal "internal_error" failed))

/-- The budget of `group_patch`. -/
def budgetStep (fails : Bool) (id : ℕ) (jbudget : Option Json) (g : Groups) : Stepped :=
  limitStep numberValue "monthly_budget_usd must be a number"
    "monthly_budget_usd must be non-negative" "group budget patch failed"
    (fun g budget => patchGroupBudget fails g id budget)
    (fun g budget => g.setGroupBudget id budget) jbudget g

/-- The quota of `group_patch`. -/
def quotaStep (fails : Bool) (id : ℕ) (jdrq : Option Json) (g : Groups) : Stepped :=
  limitStep integerValue "daily_reasoning_quota must be an integer"
    "daily_reasoning_quota must be non-negative" "group reasoning quota patch failed"
    (fun g quota => patchGroupReasoningQuota fails g id quota)
    (fun g quota => g.setGroupReasoningQuota id quota) jdrq g

/-- The next step, unless there is an error. -/
def Stepped.next (s : Stepped) (f : Groups → Stepped) : Stepped :=
  match s with
  | (g, none) => f g
  | (g, some reply) => (g, some reply)

/-- The writes of `group_patch`, one field after the other, and its answer. -/
def patchSteps (c : Call) (id : ℕ) (name : Bytes) (jbudget jdrq : Option Json) (g : Groups) :
    GroupReply × Groups :=
  let s := ((nameStep (c.faults 0) id name g).next
    (budgetStep (c.faults 1) id jbudget)).next (quotaStep (c.faults 2) id jdrq)
  match s.2 with
  | some reply => (reply, s.1)
  | none =>
    (.updated ⟨id, if name = [] then none else some (copyField 127 name), none, none⟩, s.1)

/-- `group_patch`, for what follows the path of the groups. -/
def groupPatch (c : Call) (rest : Bytes) (g : Groups) : GroupReply × Groups :=
  if strtol rest ≤ 0 then (badRequest "invalid group id", g)
  else
    match parseBody c.body with
    | none => (badRequest "invalid json body", g)
    | some jbody =>
      let name := (jbody.getString "name").getD []
      let jbudget := jbody.get "monthly_budget_usd"
      let jdrq := jbody.get "daily_reasoning_quota"
      if name = [] ∧ jbudget = none ∧ jdrq = none then
        (badRequest "name, monthly_budget_usd or daily_reasoning_quota is required", g)
      else patchSteps c (strtol rest).toNat name jbudget jdrq g

end Aigate.GroupAdmin
