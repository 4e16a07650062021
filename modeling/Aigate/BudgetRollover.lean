import Mathlib.Data.Rat.Defs
import Aigate.BudgetEnforce

/-!
# The budgets after a month

The node of a group that a rollover frees holds its configured budget and quota as well as
what it has spent, so the limits survive exactly if there are none.
-/
namespace Aigate.BudgetRollover
open HashChains BudgetEnforce

variable {C : Type} [Cost C]

/-- What is configured for a group; zero stands for no limit. -/
structure Limits (C : Type) where
  budget : C
  quota : Int64
  deriving DecidableEq

def Limits.none : Limits C := ⟨0, 0⟩

def nodeLimits (g : GroupSpend C) : Limits C := ⟨g.budgetUsd, g.dailyReasoningQuota⟩

/-- The limits that the manager holds for a group. -/
def limitsOf (m : BudgetMgr C) (id : Int64) : Limits C :=
  ((m.findGroup id).map nodeLimits).getD Limits.none

/-- The limits that have been configured after an event. -/
def configure (m : BudgetMgr C) (configured : Int64 → Limits C) : Event C → Int64 → Limits C
  | .setGroupBudget id budget allocated =>
    if 0 < id ∧ (allocated = true ∨ (m.findGroup id).isSome = true) then
      Function.update configured id { configured id with budget := budget }
    else configured
  | .setGroupReasoningQuota id quota allocated =>
    if 0 < id ∧ (allocated = true ∨ (m.findGroup id).isSome = true) then
      Function.update configured id { configured id with quota := quota }
    else configured
  | _ => configured

/-- The month rolls over in an event. -/
def RollsOver (m : BudgetMgr C) : Event C → Prop
  | .check ym _ => ym ≠ m.currentYm
  | .record ym _ => ym ≠ m.currentYm
  | .reset _ => True
  | _ => False

/-- The manager right after the clock has been read. -/
def rolled (m : BudgetMgr C) : Event C → BudgetMgr C
  | .check ym _ => rollover m ym
  | .record ym _ => rollover m ym
  | .reset ym => budgetEnforceReset m ym
  | _ => m

/-- A rollover resets what has been spent, and nothing else. -/
structure Framed (m m' : BudgetMgr C) : Prop where
  limits : ∀ id, limitsOf m' id = limitsOf m id
  keySpent : ∀ id k, m'.findKey id = some k → k.spentCost = 0 ∧ k.spentTokens = 0
  groupSpent : ∀ id g, m'.findGroup id = some g → g.spentCost = 0

/-- A check of a group is made against its configured budget. -/
def ChecksConfigured (m : BudgetMgr C) (configured : Int64 → Limits C) : Event C → Prop
  | .check ym r => ∀ g, (rollover m ym).findGroup r.groupId = some g →
      g.budgetUsd = (configured r.groupId).budget
  | _ => True

/-- The manager holds what has been configured in every state of a run, every rollover resets
only what has been spent, and every check uses what has been configured. -/
def RunFramed (m : BudgetMgr C) (configured : Int64 → Limits C) : List (Event C) → Prop
  | [] => ∀ id, limitsOf m id = configured id
  | event :: events => (∀ id, limitsOf m id = configured id) ∧
      (RollsOver m event → Framed m (rolled m event)) ∧ ChecksConfigured m configured event ∧
      RunFramed (step m event) (configure m configured event) events

/-- There is nothing configured to lose when the month rolls over. -/
def StepUnlimited (m : BudgetMgr C) (event : Event C) : Prop :=
  RollsOver m event → ∀ id, limitsOf m id = Limits.none

def RunUnlimited (m : BudgetMgr C) : List (Event C) → Prop
  | [] => True
  | event :: events => StepUnlimited m event ∧ RunUnlimited (step m event) events

omit [Cost C] in
/-- What a rollover leaves: nothing. -/
theorem rolled_eq {m : BudgetMgr C} {event : Event C} (h : RollsOver m event) :
    ∃ ym, rolled m event = budgetEnforceReset m ym := by
  cases event with
  | check ym r => exact ⟨ym, if_pos h⟩
  | record ym r => exact ⟨ym, if_pos h⟩
  | reset ym => exact ⟨ym, rfl⟩
  | setGroupBudget id budget allocated => cases h
  | setGroupReasoningQuota id quota allocated => cases h

omit [Cost C] in
theorem rolled_of_not {m : BudgetMgr C} {event : Event C} (h : ¬RollsOver m event) :
    rolled m event = m := by
  cases event with
  | check ym r => exact if_neg h
  | record ym r => exact if_neg h
  | reset ym => exact absurd trivial h
  | setGroupBudget id budget allocated => rfl
  | setGroupReasoningQuota id quota allocated => rfl

theorem framed_iff {m : BudgetMgr C} {event : Event C} (h : RollsOver m event) :
    Framed m (rolled m event) ↔ ∀ id, limitsOf m id = Limits.none := by
  obtain ⟨ym, hrolled⟩ := rolled_eq h
  rw [hrolled]
  constructor
  · exact fun hframed id => (hframed.limits id).symm
  · intro hnone
    refine ⟨fun id => (hnone id).symm, fun id k hk => ?_, fun id g hg => ?_⟩
    · cases hk
    · cases hg

theorem findGroup_putGroup (m : BudgetMgr C) (id : Int64) (allocated : Bool)
    {f : GroupSpend C → GroupSpend C} (hf : ∀ g, (f g).groupId = g.groupId) (id' : Int64) :
    (m.putGroup id allocated f).findGroup id' =
      if id' = id then ((m.findGroup id).or (newGroup id allocated)).map f
      else m.findGroup id' := by
  refine find_upsert hf (fun g hg => ?_) id'
  unfold newGroup at hg
  split at hg
  · obtain rfl := Option.some.inj hg
    rfl
  · cases hg

/-- A node that is put in a table has the limits of the old one, changed. -/
theorem limitsOf_putGroup (m : BudgetMgr C) (id : Int64) (allocated : Bool)
    {f : GroupSpend C → GroupSpend C} (change : Limits C → Limits C)
    (hf : ∀ g, (f g).groupId = g.groupId) (hchange : ∀ g, nodeLimits (f g) = change (nodeLimits g))
    (id' : Int64) : limitsOf (m.putGroup id allocated f) id' =
      if id' = id ∧ (allocated = true ∨ (m.findGroup id).isSome = true) then
        change (limitsOf m id)
      else limitsOf m id' := by
  unfold limitsOf
  rw [findGroup_putGroup m id allocated hf]
  by_cases hid : id' = id
  · subst hid
    cases hfind : m.findGroup id' with
    | some g => simp [hchange]
    | none =>
      cases allocated with
      | true =>
        have hnew : nodeLimits (⟨id', 0, 0, 0⟩ : GroupSpend C) = Limits.none := rfl
        simp [newGroup, hchange, hnew]
      | false => simp [newGroup]
  · simp [hid]

/-- Recording adds to what has been spent. -/
theorem limitsOf_record (m : BudgetMgr C) (r : RecordRequest C) (id : Int64) :
    limitsOf (recordGroup (recordKey m r) r) id = limitsOf m id := by
  have hkey : ∀ id, limitsOf (recordKey m r) id = limitsOf m id := by
    intro id
    unfold recordKey
    split
    · rfl
    · rfl
  rw [← hkey]
  unfold recordGroup
  split
  · refine (limitsOf_putGroup (recordKey m r) r.groupId r.groupAllocated (fun l => l) ?_ ?_
      id).trans ?_
    · exact fun g => rfl
    · exact fun g => rfl
    · split
      · rename_i hid
        rw [hid.1]
      · rfl
  · rfl

/-- Configuring a group shows at its node. -/
theorem putGroup_tracks {m : BudgetMgr C} {configured : Int64 → Limits C}
    (h : ∀ id, limitsOf m id = configured id) {target : Int64} (hpos : 0 < target)
    (allocated : Bool) {f : GroupSpend C → GroupSpend C} (change : Limits C → Limits C)
    (hf : ∀ g, (f g).groupId = g.groupId) (hchange : ∀ g, nodeLimits (f g) = change (nodeLimits g))
    (id : Int64) : limitsOf (m.putGroup target allocated f) id =
      (if 0 < target ∧ (allocated = true ∨ (m.findGroup target).isSome = true) then
        Function.update configured target (change (configured target))
      else configured) id := by
  rw [limitsOf_putGroup m target allocated change hf hchange, h, h]
  by_cases hput : allocated = true ∨ (m.findGroup target).isSome = true
  · simp only [hput, hpos, and_true, if_true, Function.update_apply]
  · rw [if_neg fun hset => hput hset.2, if_neg fun hset => hput hset.2]

/-- Without a loss in the rollover, every step leaves what has been configured. -/
theorem step_tracks {m : BudgetMgr C} {configured : Int64 → Limits C} {event : Event C}
    (h : ∀ id, limitsOf m id = configured id)
    (hrolled : ∀ id, limitsOf (rolled m event) id = limitsOf m id) (id : Int64) :
    limitsOf (step m event) id = configure m configured event id := by
  cases event with
  | check ym r => exact (hrolled id).trans (h id)
  | record ym r => exact (limitsOf_record _ r id).trans ((hrolled id).trans (h id))
  | reset ym => exact (hrolled id).trans (h id)
  | setGroupBudget target budget allocated =>
    simp only [step, configure, budgetEnforceSetGroupBudget]
    split
    · refine putGroup_tracks h ‹_› allocated (fun l => { l with budget := budget }) ?_ ?_ id
      · exact fun g => rfl
      · exact fun g => rfl
    · rename_i hpos
      rw [if_neg fun hset => hpos hset.1]
      exact h id
  | setGroupReasoningQuota target quota allocated =>
    simp only [step, configure, budgetEnforceSetGroupReasoningQuota]
    split
    · refine putGroup_tracks h ‹_› allocated (fun l => { l with quota := quota }) ?_ ?_ id
      · exact fun g => rfl
      · exact fun g => rfl
    · rename_i hpos
      rw [if_neg fun hset => hpos hset.1]
      exact h id

theorem checks_tracks {m : BudgetMgr C} {configured : Int64 → Limits C} {event : Event C}
    (h : ∀ id, limitsOf (rolled m event) id = configured id) :
    ChecksConfigured m configured event := by
  cases event with
  | check ym r =>
    intro g hg
    have := h r.groupId
    unfold limitsOf rolled at this
    dsimp only at this
    rw [hg] at this
    exact congrArg Limits.budget this
  | _ => trivial

theorem rolled_limits {m : BudgetMgr C} {event : Event C}
    (h : RollsOver m event → Framed m (rolled m event)) (id : Int64) :
    limitsOf (rolled m event) id = limitsOf m id := by
  by_cases hrolls : RollsOver m event
  · exact (h hrolls).limits id
  · rw [rolled_of_not hrolls]

theorem runFramed_iff {m : BudgetMgr C} {configured : Int64 → Limits C}
    (h : ∀ id, limitsOf m id = configured id) (events : List (Event C)) :
    RunFramed m configured events ↔ RunUnlimited m events := by
  induction events generalizing m configured with
  | nil => exact iff_of_true h trivial
  | cons event events ih =>
    constructor
    · rintro ⟨-, hframed, -, hrest⟩
      have hunlimited : StepUnlimited m event := fun hrolls =>
        (framed_iff hrolls).mp (hframed hrolls)
      have hrolled := rolled_limits hframed
      exact ⟨hunlimited, (ih (step_tracks h hrolled)).mp hrest⟩
    · rintro ⟨hunlimited, hrest⟩
      have hframed : RollsOver m event → Framed m (rolled m event) := fun hrolls =>
        (framed_iff hrolls).mpr (hunlimited hrolls)
      have hrolled := rolled_limits hframed
      exact ⟨h, hframed, checks_tracks fun id => (hrolled id).trans (h id),
        (ih (step_tracks h hrolled)).mpr hrest⟩

/-- From the start, the limits are kept exactly if none are set when the month rolls over. -/
theorem limits_kept_iff (ym : ℤ) (events : List (Event C)) :
    RunFramed (budgetEnforceCreate ym) (fun _ => Limits.none) events ↔
      RunUnlimited (budgetEnforceCreate ym) events :=
  runFramed_iff (fun _ => rfl) events

instance : Cost ℚ where
  zero := 0
  add := (· + ·)
  lt := (· < ·)
  le := (· ≤ ·)
  decLt := inferInstance
  decLe := inferInstance

/-- A group with a budget of 10 that is checked in the next month. -/
theorem limits_not_kept : ¬RunFramed (C := ℚ) (budgetEnforceCreate 202601) (fun _ => Limits.none)
    [.setGroupBudget 1 10 true, .check 202602 ⟨0, 1, 0, 0, 0⟩] := by
  rintro ⟨-, -, -, -, hframed, -⟩
  have hrolls : (202602 : ℤ) ≠ 202601 := by decide
  have hkept := congrArg Limits.budget ((hframed hrolls).limits 1)
  have hbefore : (limitsOf (step (budgetEnforceCreate 202601) (.setGroupBudget 1 10 true)) 1 :
      Limits ℚ).budget = 10 := rfl
  rw [hbefore] at hkept
  cases hkept

end Aigate.BudgetRollover
