import Aigate.CostReport

/-!
# The parts of a charge

A request is charged for the input tokens in two parts, cached or not, and for the output tokens
in two parts, reasoning or not. The counts are what the upstream reports. The reasoning tokens
are held to the completion tokens that they are among; the cached tokens are charged as reported.
-/
namespace Aigate.CostPartition
open Text JsonTree CostReport

/-- The token counts that the four prices are multiplied with. -/
structure Billed where
  unhitPrompt : ℤ
  cached : ℤ
  normalCompletion : ℤ
  reasoning : ℤ

def billed (q : Request) : Billed where
  unhitPrompt := unhitPrompt q.prompt q.cached
  cached := q.cached
  normalCompletion := normalCompletion q
  reasoning := billedReasoning q

/-- The prices of a route and that of its reasoning tokens; nothing when all requests are free. -/
def routePrices (route : Option ModelRec) : Option (Rates × ℚ) :=
  route.bind fun m => (pricingObject m.pricingJson).bind fun jp =>
    (chargedRates jp).map fun r => (r, reasoningMtok jp r)

/-- No token has a negative price. -/
structure NonnegPrices (r : Rates) (reasoningMtok : ℚ) : Prop where
  input : 0 ≤ r.inMtok
  cached : 0 ≤ r.inMtok * r.cachedDiscount
  output : 0 ≤ r.outMtok
  reasoning : 0 ≤ reasoningMtok

/-- The billed tokens are the prompt and the completion tokens, each in two parts. -/
structure Billed.Splits (b : Billed) (q : Request) : Prop where
  input_nonneg : 0 ≤ b.unhitPrompt ∧ 0 ≤ b.cached
  input_sum : b.unhitPrompt + b.cached = q.prompt
  output_nonneg : 0 ≤ b.normalCompletion ∧ 0 ≤ b.reasoning
  output_sum : b.normalCompletion + b.reasoning = q.completion

/-- A charge that is made of parts, is not negative, and grows with the two counts. -/
structure Partitioned (route : Option ModelRec) (q : Request) : Prop where
  splits : (routePrices route).isSome → (billed q).Splits q
  cost_nonneg : 0 ≤ calcReqCostExt route q
  mono_prompt : ∀ p, q.prompt ≤ p → calcReqCostExt route q ≤ calcReqCostExt route { q with prompt := p }
  mono_completion : ∀ c, q.completion ≤ c →
    calcReqCostExt route q ≤ calcReqCostExt route { q with completion := c }

/-- Counts as they should be: cached tokens are some of the prompt, and no count is negative. -/
structure Consistent (q : Request) : Prop where
  cached_nonneg : 0 ≤ q.cached
  cached_le : q.cached ≤ q.prompt
  reasoning_nonneg : 0 ≤ q.reasoning
  completion_nonneg : 0 ≤ q.completion

/-- The cost from the billed counts. -/
def Billed.cost (b : Billed) (r : Rates) (reasoningMtok : ℚ) : ℚ :=
  (b.unhitPrompt * r.inMtok + b.cached * (r.inMtok * r.cachedDiscount) +
    b.normalCompletion * r.outMtok + b.reasoning * reasoningMtok) / 1000000

theorem calcReqCostExt_eq (route : Option ModelRec) (q : Request) :
    calcReqCostExt route q =
      ((routePrices route).map fun p => (billed q).cost p.1 p.2).getD 0 := by
  cases route with
  | none => rfl
  | some m =>
    rw [calcReqCostExt_some, routePrices, Option.bind_some]
    cases pricingObject m.pricingJson with
    | none => rfl
    | some jp =>
      cases hr : chargedRates jp with
      | none => simp [hr]
      | some r =>
        simp only [hr, Option.bind_some, Option.map_some, Option.getD_some]
        rw [charge, Billed.cost, mul_assoc (q.cached : ℚ)]
        rfl

theorem unhitPrompt_nonneg (prompt cached : ℤ) : 0 ≤ unhitPrompt prompt cached := by
  unfold unhitPrompt
  split <;> omega

theorem unhitPrompt_mono {p p' : ℤ} (cached : ℤ) (h : p ≤ p') :
    unhitPrompt p cached ≤ unhitPrompt p' cached := by
  unfold unhitPrompt
  split_ifs <;> omega

theorem normalCompletion_nonneg (q : Request) : 0 ≤ normalCompletion q := by
  unfold normalCompletion
  split <;> omega

theorem normalCompletion_mono (q : Request) {c : ℤ} (h : q.completion ≤ c) :
    normalCompletion q ≤ normalCompletion { q with completion := c } := by
  unfold normalCompletion
  dsimp only
  split_ifs <;> omega

/-- The reasoning tokens are held to the completion. -/
theorem billedReasoning_eq (q : Request) : billedReasoning q = min q.reasoning q.completion := by
  unfold billedReasoning
  split <;> omega

/-- The parts of the output are always right in sum; the parts of the input are when the cached
tokens are no more than the prompt. -/
theorem splits_iff (q : Request) : (billed q).Splits q ↔ Consistent q := by
  have hunhit := unhitPrompt_nonneg q.prompt q.cached
  have hnormal := normalCompletion_nonneg q
  have hreasoning := billedReasoning_eq q
  constructor
  · rintro ⟨⟨-, hcached⟩, hinput, ⟨-, hout⟩, -⟩
    dsimp only [billed] at hcached hinput hout
    rw [hreasoning] at hout
    exact ⟨hcached, by omega, by omega, by omega⟩
  · rintro ⟨hcached, hle, hreason, hcompletion⟩
    refine ⟨⟨hunhit, hcached⟩, ?_, ⟨hnormal, ?_⟩, completion_eq q⟩
    · dsimp only [billed]
      rw [unhitPrompt, if_pos hle]
      omega
    · dsimp only [billed]
      rw [hreasoning]
      exact le_min hreason hcompletion

/-- A cost of the parts is not negative when the parts are not. -/
theorem Billed.cost_nonneg {b : Billed} {q : Request} {r : Rates} {m : ℚ} (h : b.Splits q)
    (hprices : NonnegPrices r m) : 0 ≤ b.cost r m := by
  have hunhit : (0 : ℚ) ≤ b.unhitPrompt := by exact_mod_cast h.input_nonneg.1
  have hcached : (0 : ℚ) ≤ b.cached := by exact_mod_cast h.input_nonneg.2
  have hnormal : (0 : ℚ) ≤ b.normalCompletion := by exact_mod_cast h.output_nonneg.1
  have hreasoning : (0 : ℚ) ≤ b.reasoning := by exact_mod_cast h.output_nonneg.2
  obtain ⟨hin, hdisc, hout, hreason⟩ := hprices
  unfold Billed.cost
  positivity

/-- More tokens of a kind, and as many of the others. -/
theorem Billed.cost_mono {b b' : Billed} {r : Rates} {m : ℚ} (hprices : NonnegPrices r m)
    (hunhit : b.unhitPrompt ≤ b'.unhitPrompt) (hcached : b.cached = b'.cached)
    (hnormal : b.normalCompletion ≤ b'.normalCompletion) (hreasoning : b.reasoning ≤ b'.reasoning) :
    b.cost r m ≤ b'.cost r m := by
  have hunhit' : (b.unhitPrompt : ℚ) ≤ b'.unhitPrompt := by exact_mod_cast hunhit
  have hnormal' : (b.normalCompletion : ℚ) ≤ b'.normalCompletion := by exact_mod_cast hnormal
  have hreasoning' : (b.reasoning : ℚ) ≤ b'.reasoning := by exact_mod_cast hreasoning
  have hin := mul_le_mul_of_nonneg_right hunhit' hprices.input
  have hout := mul_le_mul_of_nonneg_right hnormal' hprices.output
  have hreason := mul_le_mul_of_nonneg_right hreasoning' hprices.reasoning
  unfold Billed.cost
  rw [hcached]
  gcongr

theorem cost_mono_prompt {r : Rates} {m : ℚ} (hprices : NonnegPrices r m) (q : Request) {p : ℤ}
    (h : q.prompt ≤ p) : (billed q).cost r m ≤ (billed { q with prompt := p }).cost r m :=
  Billed.cost_mono hprices (unhitPrompt_mono q.cached h) rfl le_rfl le_rfl

theorem cost_mono_completion {r : Rates} {m : ℚ} (hprices : NonnegPrices r m) (q : Request)
    {c : ℤ} (h : q.completion ≤ c) :
    (billed q).cost r m ≤ (billed { q with completion := c }).cost r m := by
  refine Billed.cost_mono hprices le_rfl rfl (normalCompletion_mono q h) ?_
  dsimp only [billed]
  rw [billedReasoning_eq, billedReasoning_eq]
  exact min_le_min_left q.reasoning h

/-- The charge is made of its parts exactly for consistent counts, unless the route is free. -/
theorem cost_partitioned_iff {route : Option ModelRec} (q : Request)
    (hprices : ∀ p, routePrices route = some p → NonnegPrices p.1 p.2) :
    Partitioned route q ↔ ((routePrices route).isSome → Consistent q) := by
  constructor
  · intro h hsome
    exact (splits_iff q).mp (h.splits hsome)
  · intro h
    cases hroute : routePrices route with
    | none =>
      have hfree : ∀ q, calcReqCostExt route q = 0 := fun q => by
        rw [calcReqCostExt_eq, hroute]
        rfl
      refine ⟨fun hsome => ?_, (hfree q).ge, fun p _ => ?_, fun c _ => ?_⟩
      · rw [hroute] at hsome
        cases hsome
      · rw [hfree, hfree]
      · rw [hfree, hfree]
    | some p =>
      have hnonneg := hprices p hroute
      have hcost : ∀ q, calcReqCostExt route q = (billed q).cost p.1 p.2 := fun q => by
        rw [calcReqCostExt_eq, hroute]
        rfl
      have hsplits := (splits_iff q).mpr (h (by rw [hroute]; rfl))
      refine ⟨fun _ => hsplits, ?_, fun prompt hp => ?_, fun completion hc => ?_⟩
      · rw [hcost]
        exact Billed.cost_nonneg hsplits hnonneg
      · rw [hcost, hcost]
        exact cost_mono_prompt hnonneg q hp
      · rw [hcost, hcost]
        exact cost_mono_completion hnonneg q hc

deriving instance DecidableEq for Rates

theorem nonnegPrices_reasoningModel (p : Rates × ℚ)
    (h : routePrices (some reasoningModel) = some p) : NonnegPrices p.1 p.2 := by
  have hprices : routePrices (some reasoningModel) = some (⟨1, 5, 1⟩, 10) := by decide +kernel
  obtain rfl := Option.some.inj (hprices.symm.trans h)
  constructor <;> norm_num

/-- Forty of a hundred input tokens are cached, twenty of fifty output tokens are reasoning. -/
theorem cost_partitioned_iff_reasoningModel :
    Partitioned (some reasoningModel) ⟨100, 50, 40, 20⟩ ↔
      ((routePrices (some reasoningModel)).isSome → Consistent ⟨100, 50, 40, 20⟩) :=
  cost_partitioned_iff _ nonnegPrices_reasoningModel

/-- An upstream that counts the cached tokens apart reports more of them than input tokens. -/
theorem not_partitioned_cached : ¬Partitioned (some reasoningModel) ⟨100, 0, 150, 0⟩ := by
  intro h
  have hsum := (h.splits (by decide +kernel)).input_sum
  revert hsum
  decide

end Aigate.CostPartition
