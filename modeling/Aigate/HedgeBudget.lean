import Aigate.GuardedRuns
import Aigate.LatencyTracker

/-!
# The budget for hedges

A request may be hedged if the hedges of its model are within a share of the requests. The requests
of a model would be counted by `latency_tracker_record_request`, which nothing calls, so that the
check only looks at the hedges. A hedge is sent some time behind the check, and is counted when it
is sent.
-/
namespace Aigate.HedgeBudget
open Text GuardedRuns LatencyTracker

/-- The budget of a call: 15 percent when none is given. -/
def effectiveBudget (budgetPct : ℤ) : ℤ := if 0 < budgetPct ∧ budgetPct ≤ 100 then budgetPct else 15

/-- A request that was not admitted, with the numbers of its model at that time. -/
structure Refusal where
  model : Bytes
  launched : ℕ
  seen : ℕ

/-- The tracker, how many requests of a model came and how many hedges were sent, the models of the
requests that may still be hedged, and the requests that may not. -/
structure Hedging where
  table : Table
  seen : Bytes → ℕ
  launched : Bytes → ℕ
  waiting : List Bytes
  refused : List Refusal

/-- A request with two candidates comes, it is hedged, with or without a thread for the hedge, or
it is answered before; and latencies are recorded. -/
inductive Event where
  | request (model : Bytes)
  | hedge (i : ℕ) (started : Bool)
  | settle (i : ℕ)
  | sample (p : Pair) (latencyNs : ℕ)

def start : Hedging := ⟨[], fun _ => 0, fun _ => 0, [], []⟩

/-- How many hedges are counted for a model. -/
def hedgedOf (t : Table) (model : Bytes) : ℕ :=
  (find t (anyEndpoint model)).elim 0 LatencyEntry.hedgedRequests

section Budget
variable (budgetPct : Bytes → ℤ)

/-- The budget of a model. -/
def budget (model : Bytes) : ℤ := effectiveBudget (budgetPct model)

/-- The first phase of `upstream_call_hedged`. -/
def requested (s : Hedging) (model : Bytes) : Hedging :=
  let admission := hedgeAdmitted s.table model (budget budgetPct model)
  let seen := Function.update s.seen model (s.seen model + 1)
  if admission.2 then
    { s with table := admission.1, seen := seen, waiting := s.waiting ++ [model] }
  else
    { s with
      table := admission.1
      seen := seen
      refused := ⟨model, s.launched model, s.seen model + 1⟩ :: s.refused }

/-- The fifth phase: the hedge is counted, and then its thread is made. -/
def hedged (s : Hedging) (i : ℕ) (started : Bool) : Hedging :=
  match s.waiting[i]? with
  | some model =>
    { s with
      table := recordHedge s.table model
      launched := Function.update s.launched model
        (s.launched model + if started then 1 else 0)
      waiting := s.waiting.eraseIdx i }
  | none => s

def step (s : Hedging) : Event → Hedging
  | .request model => requested budgetPct s model
  | .hedge i started => hedged s i started
  | .settle i => { s with waiting := s.waiting.eraseIdx i }
  | .sample p latencyNs => { s with table := record s.table p latencyNs }

/-- The hedges of a model are within its budget, but for one to start with, and no request was
refused while they were below it. -/
structure WithinBudget (s : Hedging) : Prop where
  bounded : ∀ model, 100 * (s.launched model : ℤ) ≤ budget budgetPct model * s.seen model + 100
  admitted : ∀ r ∈ s.refused, budget budgetPct r.model * r.seen ≤ 100 * r.launched

/-- A request of a model whose name fits finds its entry or room for one, and the counted hedges,
a hundred times, are within the budget, or the hedges that were sent have reached it. A hedge is
sent while the counted ones still are within the budget. -/
def StepOk (s : Hedging) : Event → Prop
  | .request model =>
    (anyEndpoint model).Fits ∧
      (find s.table (anyEndpoint model) ≠ none ∨ s.table.length < maxEntries) ∧
        (100 * (hedgedOf s.table model : ℤ) ≤ budget budgetPct model ∨
          budget budgetPct model * (s.seen model + 1 : ℕ) ≤ 100 * s.launched model)
  | .hedge i _ => ∀ model, s.waiting[i]? = some model →
    100 * (hedgedOf s.table model : ℤ) ≤ budget budgetPct model
  | _ => True

theorem budget_pos (model : Bytes) : 1 ≤ budget budgetPct model := by
  unfold budget effectiveBudget
  split <;> omega

variable {budgetPct}

/-- The names of the entries fit and no request is counted; what was sent is counted, and a request
that waits has an entry for its model. -/
structure Inv (s : Hedging) : Prop where
  fit : AllFit s.table
  uncounted : ∀ e ∈ s.table, e.totalRequests = 0
  launched_le : ∀ model, s.launched model ≤ hedgedOf s.table model
  waiting : ∀ model ∈ s.waiting, (anyEndpoint model).Fits ∧
    find s.table (anyEndpoint model) ≠ none ∧ 1 ≤ s.seen model

/-- A change of an entry that leaves its names and does not count a request. -/
structure KeepsTotal (f : LatencyEntry → LatencyEntry) : Prop where
  pair : KeepsPair f
  total : ∀ e, (f e).totalRequests = e.totalRequests

theorem uncounted_touch {t : Table} (h : ∀ e ∈ t, e.totalRequests = 0) (p : Pair)
    {f : LatencyEntry → LatencyEntry} (hf : KeepsTotal f) :
    ∀ e ∈ touch t p f, e.totalRequests = 0 := by
  intro e he
  rcases mem_touch he with hmem | ⟨x, hx, rfl⟩ | rfl
  · exact h e hmem
  · rw [hf.total]
    exact h x hx
  · rw [hf.total]
    rfl

/-- Only counting a hedge changes the counted ones. -/
theorem hedgedOf_touch {t : Table} (hfit : AllFit t) (p : Pair) {f : LatencyEntry → LatencyEntry}
    (hf : KeepsPair f) (hhedged : ∀ e, (f e).hedgedRequests = e.hedgedRequests) (model : Bytes) :
    hedgedOf (touch t p f) model = hedgedOf t model :=
  elim_touch hfit hf hhedged rfl _

/-- A step that does not count a hedge keeps the invariant. -/
theorem Inv.touch {s : Hedging} (h : Inv s) (p : Pair) {f : LatencyEntry → LatencyEntry}
    (hf : KeepsTotal f) (hhedged : ∀ e, (f e).hedgedRequests = e.hedgedRequests) :
    Inv { s with table := LatencyTracker.touch s.table p f } where
  fit := h.fit.touch p hf.pair
  uncounted := uncounted_touch h.uncounted p hf
  launched_le := fun model => by
    rw [hedgedOf_touch h.fit p hf.pair hhedged]
    exact h.launched_le model
  waiting := fun model hm => by
    obtain ⟨hfits, hfound, hseen⟩ := h.waiting model hm
    exact ⟨hfits, find_touch_ne_none hf.pair hfound, hseen⟩

/-- The check only looks at the counted hedges. -/
theorem admitted_iff {s : Hedging} (h : Inv s) {model : Bytes}
    (hroom : find s.table (anyEndpoint model) ≠ none ∨ s.table.length < maxEntries) :
    (hedgeAdmitted s.table model (budget budgetPct model)).2 = true ↔
      100 * (hedgedOf s.table model : ℤ) ≤ budget budgetPct model := by
  have hpos := budget_pos budgetPct model
  unfold hedgeAdmitted hedgedOf reached
  rw [if_neg (by omega)]
  cases hfind : find s.table (anyEndpoint model) with
  | some e =>
    have htotal : e.totalRequests = 0 := h.uncounted e (List.mem_of_find?_eq_some hfind)
    simp [htotal, mul_comm]
  | none =>
    have hlt := hroom.resolve_left fun hne => hne hfind
    rw [if_neg (by omega)]
    simp [newEntry]

/-- Counting a request that is seen, without a hedge. -/
theorem Inv.seen {s : Hedging} (h : Inv s) (model : Bytes) :
    Inv { s with seen := Function.update s.seen model (s.seen model + 1) } where
  fit := h.fit
  uncounted := h.uncounted
  launched_le := h.launched_le
  waiting := fun m hm => by
    obtain ⟨hfits, hfound, hseen⟩ := h.waiting m hm
    refine ⟨hfits, hfound, ?_⟩
    change 1 ≤ Function.update s.seen model (s.seen model + 1) m
    by_cases hmm : m = model
    · subst hmm
      rw [Function.update_self]
      omega
    · rw [Function.update_of_ne hmm]
      exact hseen

theorem bounded_seen {s : Hedging} (h : WithinBudget budgetPct s) (model m : Bytes) :
    100 * (s.launched m : ℤ) ≤
      budget budgetPct m * Function.update s.seen model (s.seen model + 1) m + 100 := by
  have hpos := budget_pos budgetPct m
  have hold := h.bounded m
  by_cases hmm : m = model
  · subst hmm
    rw [Function.update_self]
    push_cast
    rw [mul_add]
    omega
  · rw [Function.update_of_ne hmm]
    exact hold

/-- The entry for the requests of a model is there after the check. -/
theorem hedgeAdmitted_fst (t : Table) (model : Bytes) {pct : ℤ} (h : 1 ≤ pct) :
    (hedgeAdmitted t model pct).1 = touch t (anyEndpoint model) id := by
  rw [hedgeAdmitted, if_neg (by omega)]

theorem requested_keeps {s : Hedging} (hi : Inv s) (hw : WithinBudget budgetPct s) {model : Bytes}
    (hok : StepOk budgetPct s (.request model)) :
    Inv (requested budgetPct s model) ∧ WithinBudget budgetPct (requested budgetPct s model) := by
  obtain ⟨hfits, hroom, hcounted⟩ := hok
  have htable := hedgeAdmitted_fst s.table model (budget_pos budgetPct model)
  have hkeep : KeepsTotal id := ⟨fun _ => rfl, fun _ => rfl⟩
  have hinv := (hi.touch (anyEndpoint model) hkeep fun _ => rfl).seen model
  have hfound : find (touch s.table (anyEndpoint model) id) (anyEndpoint model) ≠ none := by
    rw [find_touch_self hkeep.pair hfits hroom]
    exact Option.some_ne_none _
  unfold requested
  dsimp only
  rw [htable]
  split
  · refine ⟨⟨hinv.fit, hinv.uncounted, hinv.launched_le, fun m hm => ?_⟩, ⟨bounded_seen hw model,
      hw.admitted⟩⟩
    rcases List.mem_append.mp hm with hm | hm
    · exact hinv.waiting m hm
    · obtain rfl := List.mem_singleton.mp hm
      refine ⟨hfits, hfound, ?_⟩
      change 1 ≤ Function.update s.seen m (s.seen m + 1) m
      rw [Function.update_self]
      omega
  · rename_i hrefused
    refine ⟨⟨hinv.fit, hinv.uncounted, hinv.launched_le, hinv.waiting⟩,
      ⟨bounded_seen hw model, fun r hr => ?_⟩⟩
    rcases List.mem_cons.mp hr with rfl | hr
    · -- the check did not pass, so the hedges that were sent have reached the budget
      exact hcounted.resolve_left fun h => hrefused ((admitted_iff hi hroom).mpr h)
    · exact hw.admitted r hr

theorem keepsTotal_hedge :
    KeepsTotal fun e => { e with hedgedRequests := e.hedgedRequests + 1 } :=
  ⟨fun _ => rfl, fun _ => rfl⟩

theorem hedgedOf_recordHedge {t : Table} {model : Bytes} (hfits : (anyEndpoint model).Fits)
    (hfound : find t (anyEndpoint model) ≠ none) (m : Bytes) :
    hedgedOf (recordHedge t model) m =
      if m = model then hedgedOf t model + 1 else hedgedOf t m := by
  have hkeep := keepsTotal_hedge.pair
  unfold hedgedOf recordHedge
  split
  · rename_i hm
    subst hm
    rw [find_touch_self hkeep hfits (Or.inl hfound)]
    obtain ⟨e, he⟩ := Option.ne_none_iff_exists'.mp hfound
    rw [he]
    rfl
  · rename_i hm
    have hne : anyEndpoint m ≠ anyEndpoint model := fun h => hm (congrArg Pair.model h)
    have hmade : ¬Made t (anyEndpoint model) := fun h => hfound h.1
    rw [find_touch_of_ne hkeep hne, if_neg fun h => hmade h.1, Option.or_none]

theorem hedged_keeps {s : Hedging} (hi : Inv s) (hw : WithinBudget budgetPct s) {i : ℕ}
    {started : Bool} (hok : StepOk budgetPct s (.hedge i started)) :
    Inv (hedged s i started) ∧ WithinBudget budgetPct (hedged s i started) := by
  unfold hedged
  split
  · rename_i model hmodel
    have hcounted := hok model hmodel
    have hmem : model ∈ s.waiting := List.mem_of_getElem? hmodel
    obtain ⟨hfits, hfound, hseen⟩ := hi.waiting model hmem
    have hpos := budget_pos budgetPct model
    have hle := hi.launched_le model
    have hsent : (s.launched model + if started then 1 else 0) ≤ s.launched model + 1 := by
      split <;> omega
    refine ⟨⟨hi.fit.touch _ keepsTotal_hedge.pair, uncounted_touch hi.uncounted _ keepsTotal_hedge,
      fun m => ?_, fun m hm => ?_⟩, ⟨fun m => ?_, hw.admitted⟩⟩
    · change Function.update s.launched model _ m ≤ hedgedOf (recordHedge s.table model) m
      rw [hedgedOf_recordHedge hfits hfound]
      by_cases hm : m = model
      · subst hm
        rw [Function.update_self, if_pos rfl]
        omega
      · rw [Function.update_of_ne hm, if_neg hm]
        exact hi.launched_le m
    · obtain ⟨hfits', hfound', hseen'⟩ := hi.waiting m (List.mem_of_mem_eraseIdx hm)
      exact ⟨hfits', find_touch_ne_none keepsTotal_hedge.pair hfound', hseen'⟩
    · change 100 * ((Function.update s.launched model _ m : ℕ) : ℤ) ≤ _
      by_cases hm : m = model
      · subst hm
        rw [Function.update_self]
        have hshare : budget budgetPct m * 1 ≤ budget budgetPct m * s.seen m :=
          mul_le_mul_of_nonneg_left (by exact_mod_cast hseen) (by omega)
        change _ ≤ budget budgetPct m * s.seen m + 100
        omega
      · rw [Function.update_of_ne hm]
        exact hw.bounded m
  · exact ⟨hi, hw⟩

theorem step_keeps (s : Hedging) (e : Event) (h : Inv s ∧ WithinBudget budgetPct s)
    (hok : StepOk budgetPct s e) :
    Inv (step budgetPct s e) ∧ WithinBudget budgetPct (step budgetPct s e) := by
  obtain ⟨hi, hw⟩ := h
  cases e with
  | request model => exact requested_keeps hi hw hok
  | hedge i started => exact hedged_keeps hi hw hok
  | settle i =>
    refine ⟨⟨hi.fit, hi.uncounted, hi.launched_le, fun m hm => ?_⟩, ⟨hw.bounded, hw.admitted⟩⟩
    exact hi.waiting m (List.mem_of_mem_eraseIdx hm)
  | sample p latencyNs =>
    have hkeep : KeepsTotal (·.sampled (latencyMs latencyNs)) := ⟨fun _ => rfl, fun _ => rfl⟩
    exact ⟨hi.touch p hkeep fun _ => rfl, hw.bounded, hw.admitted⟩

end Budget

def sampleModel : Bytes := ascii "gpt-4o"

/-- One request that is hedged. -/
def oneHedge : List Event := [.request sampleModel, .hedge 0 true]

/-- The first of seven requests is hedged, and no other is admitted. -/
def sevenRequests : List Event :=
  .request sampleModel :: .hedge 0 true :: List.replicate 6 (.request sampleModel)

end Aigate.HedgeBudget
