import Aigate.Text

/-!
# Choosing upstream targets

The targets of a model, those of them that the circuit breaker allows, and the order in
which they are tried: by priority, and within a priority by the load balancing of the model,
targets without a free slot last. When none is allowed, all are tried in the order in which
their cool-offs end.
-/
namespace Aigate.ModelRouter
open Text

/-- `MAX_TARGETS_PER_MODEL`. -/
def maxTargets : ℕ := 8

structure Target where
  provider : Bytes
  endpoint : Bytes
  weight : ℤ
  priority : ℤ
  maxConcurrent : ℤ
  endpoint_le : endpoint.length ≤ 511
  deriving DecidableEq

inductive LbPolicy where
  | roundRobin
  | weighted
  | latencyP95
  | dynamicWeighted
  | declared
  deriving DecidableEq, Repr

/-- The comparisons of `lb_policy`; what is not known keeps the declared order. -/
def lbPolicyOf (s : Bytes) : LbPolicy :=
  if s = ascii "round_robin" then .roundRobin
  else if s = ascii "weighted" ∨ s = ascii "weighted_round_robin" then .weighted
  else if s = ascii "latency_p95" then .latencyP95
  else if s = ascii "dynamic_weighted" then .dynamicWeighted
  else .declared

/-- The fields of `model_rec_t` that choose a target. -/
structure Route where
  name : Bytes
  provider : Bytes
  endpoint : Bytes
  targets : List Target
  lbPolicy : Bytes
  maxConcurrent : ℤ
  hedgedEnabled : Bool
  name_le : name.length ≤ 127
  endpoint_le : endpoint.length ≤ 511
  targets_le : targets.length ≤ maxTargets

/-- What the choice reads besides the model: the calls in flight and the latencies of an
endpoint, the counter as each priority draws it, the ends of the cool-offs, and for each
priority the places of `dyn_weights` that are not written. -/
structure Balance where
  inFlight : Bytes → ℤ
  counter : ℤ → ℕ
  p95Ms : Bytes → ℕ
  ewmaMs : Bytes → ℕ
  openUntil : Bytes → ℤ
  unwritten : ℤ → ℕ → ℤ

def defaultProvider (r : Route) : Bytes :=
  if r.provider ≠ [] then r.provider else ascii "openai"

/-- A target takes what it leaves open from the model. -/
def fillTarget (r : Route) (t : Target) : Target :=
  { t with
    maxConcurrent :=
      if t.maxConcurrent ≤ 0 ∧ 0 < r.maxConcurrent then r.maxConcurrent else t.maxConcurrent
    provider := if t.provider = [] then defaultProvider r else t.provider
    weight := if t.weight ≤ 0 then 1 else t.weight }

/-- The targets of a model; one without a list has its endpoint. -/
def sourceTargets (r : Route) : Option (List Target) :=
  if r.targets = [] then
    if r.endpoint = [] then none
    else some [⟨defaultProvider r, r.endpoint, 1, 0, r.maxConcurrent, r.endpoint_le⟩]
  else some (r.targets.map (fillTarget r))

variable {α : Type*}

/-- The inner loop of the sorts: the head is exchanged with every later element that is
less. -/
def exchangeHead (lt : α → α → Bool) (x : α) : List α → α × List α
  | [] => (x, [])
  | y :: ys =>
    if lt y x then ((exchangeHead lt y ys).1, x :: (exchangeHead lt y ys).2)
    else ((exchangeHead lt x ys).1, y :: (exchangeHead lt x ys).2)

/-- The sorts by exchange, one round for each of the first `n` places. -/
def exchangeSort (lt : α → α → Bool) : ℕ → List α → List α
  | _, [] => []
  | 0, xs => xs
  | n + 1, x :: xs => (exchangeHead lt x xs).1 :: exchangeSort lt n (exchangeHead lt x xs).2

def sortBy (lt : α → α → Bool) (xs : List α) : List α := exchangeSort lt xs.length xs

/-- The first element whose running total exceeds the pick, the first one if none does. -/
def rouletteIndex (weight : α → ℤ) (pick : ℤ) (acc : ℤ) : List α → Option ℕ
  | [] => none
  | x :: xs =>
    if pick < acc + weight x then some 0
    else (rouletteIndex weight pick (acc + weight x) xs).map (· + 1)

/-- A target and its place among the targets of the model. -/
abbrev Slot := Target × ℕ

/-- Policies B and D: one target by its share of the weight, then the others in the given order. -/
def rouletteOrder (weight : Slot → ℤ) (before : Slot → Slot → Bool) (counter : ℕ)
    (pool : List Slot) : List Slot :=
  let sum := (pool.map weight).sum
  let total := if sum ≤ 0 then (pool.length : ℤ) else sum
  let chosen := (rouletteIndex weight (counter % total) 0 pool).getD 0
  (pool.drop chosen).take 1 ++ sortBy before (pool.eraseIdx chosen)

/-- The weight of policy D. -/
def dynamicWeight (b : Balance) (t : Target) : ℤ :=
  let w : ℤ := 1000 / ((b.ewmaMs t.endpoint : ℤ) + 10)
  if w < 1 then 1 else w

/-- `dyn_weights`: the weights of the pool, and then what was never written. -/
def dynWeights (b : Balance) (p : ℤ) (pool : List Slot) (i : ℕ) : ℤ :=
  (pool[i]?).elim (b.unwritten p i) fun s => dynamicWeight b s.1

/-- The load balancing within one priority. Policy D sorts by the weights at the places that the
targets have in the model, although the weights stand at their places in the pool. -/
def balanceTier (b : Balance) (policy : LbPolicy) (p : ℤ) (pool : List Slot) : List Slot :=
  if pool.length ≤ 1 then pool
  else
    match policy with
    | .roundRobin =>
      pool.drop (b.counter p % pool.length) ++ pool.take (b.counter p % pool.length)
    | .weighted =>
      rouletteOrder (fun s => s.1.weight) (fun s t => t.1.weight < s.1.weight) (b.counter p) pool
    | .latencyP95 => sortBy (fun s t => b.p95Ms s.1.endpoint < b.p95Ms t.1.endpoint) pool
    | .dynamicWeighted =>
      rouletteOrder (fun s => dynamicWeight b s.1)
        (fun s t => dynWeights b p pool t.2 < dynWeights b p pool s.2) (b.counter p) pool
    | .declared => pool

def saturated (b : Balance) (t : Target) : Bool :=
  decide (0 < t.maxConcurrent) && decide (t.maxConcurrent ≤ b.inFlight t.endpoint)

/-- One priority: targets with a free slot first, when there are both. -/
def tierOrder (b : Balance) (policy : LbPolicy) (p : ℤ) (pool : List Slot) : List Slot :=
  let free := pool.filter fun s => !saturated b s.1
  let full := pool.filter fun s => saturated b s.1
  if free ≠ [] ∧ full ≠ [] then balanceTier b policy p free ++ full
  else balanceTier b policy p pool

/-- The priorities that occur, ascending. -/
def priorities (slots : List Slot) : List ℤ :=
  sortBy (fun p q => p < q) (slots.map fun s => s.1.priority).dedup

/-- The allowed targets, priority by priority. -/
def healthyOrder (b : Balance) (policy : LbPolicy) (slots healthy : List Slot) : List Slot :=
  (priorities slots).flatMap fun p =>
    tierOrder b policy p (healthy.filter fun s => s.1.priority = p)

/-- All targets, when none is allowed. -/
def emergencyOrder (b : Balance) (slots : List Slot) : List Slot :=
  sortBy (fun s t =>
    decide (b.openUntil s.1.endpoint < b.openUntil t.1.endpoint) ||
      (decide (b.openUntil s.1.endpoint = b.openUntil t.1.endpoint) &&
        decide (s.1.priority < t.1.priority))) slots

/-- The order for a provider that the client asks for; the breaker is not asked. -/
def targetedOrder (provider : Bytes) (ts : List Target) : Option (List Target) :=
  (ts.find? fun t => t.provider = provider).map fun t =>
    t :: ts.eraseP fun t => t.provider = provider

/-- The targets with their places. -/
def slotsOf (snapshot : List (Target × Bool)) : List Slot :=
  snapshot.zipIdx.map fun a => (a.1.1, a.2)

def allowedSlots (snapshot : List (Target × Bool)) : List Slot :=
  (snapshot.zipIdx.filter fun a => a.1.2).map fun a => (a.1.1, a.2)

/-- The answers of the breaker are there: `model_router_select_candidates_targeted` from its
third step on, with room for all targets. -/
def orderSlots (b : Balance) (policy : LbPolicy) (snapshot : List (Target × Bool)) : List Slot :=
  if allowedSlots snapshot ≠ [] then healthyOrder b policy (slotsOf snapshot) (allowedSlots snapshot)
  else emergencyOrder b (slotsOf snapshot)

def orderCandidates (b : Balance) (policy : LbPolicy) (snapshot : List (Target × Bool)) :
    List Target :=
  ((orderSlots b policy snapshot).map Prod.fst).take maxTargets

theorem exchangeHead_perm (lt : α → α → Bool) (x : α) (xs : List α) :
    ((exchangeHead lt x xs).1 :: (exchangeHead lt x xs).2).Perm (x :: xs) := by
  induction xs generalizing x with
  | nil => exact List.Perm.refl _
  | cons y ys ih =>
    unfold exchangeHead
    split
    · exact (List.Perm.swap _ _ _).trans ((ih y).cons x)
    · exact (List.Perm.swap _ _ _).trans (((ih x).cons y).trans (List.Perm.swap _ _ _))

theorem exchangeSort_perm (lt : α → α → Bool) (n : ℕ) (xs : List α) :
    (exchangeSort lt n xs).Perm xs := by
  induction n generalizing xs with
  | zero =>
    cases xs with
    | nil => exact List.Perm.refl _
    | cons x xs => exact List.Perm.refl _
  | succ n ih =>
    cases xs with
    | nil => exact List.Perm.refl _
    | cons x xs => exact ((ih _).cons _).trans (exchangeHead_perm lt x xs)

theorem sortBy_perm (lt : α → α → Bool) (xs : List α) : (sortBy lt xs).Perm xs :=
  exchangeSort_perm lt xs.length xs

theorem rouletteIndex_lt (weight : α → ℤ) (pick : ℤ) {xs : List α} {acc : ℤ} {i : ℕ}
    (h : rouletteIndex weight pick acc xs = some i) : i < xs.length := by
  induction xs generalizing acc i with
  | nil => cases h
  | cons x xs ih =>
    unfold rouletteIndex at h
    split at h
    · cases h
      simp
    · obtain ⟨j, hj, rfl⟩ := Option.map_eq_some_iff.mp h
      have hlt := ih hj
      simp only [List.length_cons]
      omega

theorem rouletteIndex_getD_lt (weight : α → ℤ) (pick : ℤ) {xs : List α} (hxs : xs ≠ []) :
    (rouletteIndex weight pick 0 xs).getD 0 < xs.length := by
  cases h : rouletteIndex weight pick 0 xs with
  | none => exact List.length_pos_iff.mpr hxs
  | some i => exact rouletteIndex_lt weight pick h

theorem rouletteOrder_perm (weight : Slot → ℤ) (before : Slot → Slot → Bool) (counter : ℕ)
    (pool : List Slot) (hpool : pool ≠ []) :
    (rouletteOrder weight before counter pool).Perm pool := by
  unfold rouletteOrder
  dsimp only
  generalize (if (pool.map weight).sum ≤ 0 then (pool.length : ℤ) else (pool.map weight).sum) =
    total
  have hlt := rouletteIndex_getD_lt weight (counter % total) hpool
  generalize (rouletteIndex weight (counter % total) 0 pool).getD 0 = i at hlt
  have htake : (pool.drop i).take 1 = [pool[i]] := by
    rw [List.drop_eq_getElem_cons hlt, List.take_succ_cons, List.take_zero]
  rw [htake]
  exact ((sortBy_perm _ _).cons _).trans (List.getElem_cons_eraseIdx_perm hlt)

theorem balanceTier_perm (b : Balance) (policy : LbPolicy) (p : ℤ) (pool : List Slot) :
    (balanceTier b policy p pool).Perm pool := by
  unfold balanceTier
  split
  · exact List.Perm.refl _
  · rename_i hlen
    have hpool : pool ≠ [] := by
      rintro rfl
      simp at hlen
    cases policy with
    | roundRobin =>
      exact List.perm_append_comm.trans (by rw [List.take_append_drop])
    | weighted => exact rouletteOrder_perm _ _ _ pool hpool
    | latencyP95 => exact sortBy_perm _ pool
    | dynamicWeighted => exact rouletteOrder_perm _ _ _ pool hpool
    | declared => exact List.Perm.refl _

theorem tierOrder_perm (b : Balance) (policy : LbPolicy) (p : ℤ) (pool : List Slot) :
    (tierOrder b policy p pool).Perm pool := by
  unfold tierOrder
  dsimp only
  split
  · refine ((balanceTier_perm b policy p _).append_right _).trans ?_
    have hsplit := List.filter_append_perm (fun s : Slot => !saturated b s.1) pool
    simpa using hsplit
  · exact balanceTier_perm b policy p pool

/-- Grouping by a list of keys that has every key once loses nothing. -/
theorem flatMap_filter_perm (keys : List ℤ) (hkeys : keys.Nodup) (f : ℤ → List Slot → List Slot)
    (hf : ∀ p us, (f p us).Perm us) (us : List Slot) (hus : ∀ u ∈ us, u.1.priority ∈ keys) :
    (keys.flatMap fun p => f p (us.filter fun u => u.1.priority = p)).Perm us := by
  induction keys generalizing us with
  | nil =>
    obtain rfl : us = [] := List.eq_nil_iff_forall_not_mem.mpr fun u hu => by simpa using hus u hu
    exact List.Perm.refl _
  | cons p keys ih =>
    obtain ⟨hp, hkeys⟩ := List.nodup_cons.mp hkeys
    let rest := us.filter fun u => !decide (u.1.priority = p)
    have hrest : ∀ q ∈ keys, (us.filter fun u => decide (u.1.priority = q)) =
        rest.filter fun u => decide (u.1.priority = q) := by
      intro q hq
      rw [List.filter_filter]
      apply List.filter_congr
      intro u _
      have hne : q ≠ p := fun h => hp (h ▸ hq)
      by_cases hu : u.1.priority = q
      · simp [hu, hne]
      · simp [hu]
    have hih := ih hkeys rest (by
      intro u hu
      obtain ⟨hu, hup⟩ := List.mem_filter.mp hu
      have hup : u.1.priority ≠ p := by simpa using hup
      exact (List.mem_cons.mp (hus u hu)).resolve_left hup)
    rw [List.flatMap_cons]
    have hcongr : (keys.flatMap fun q => f q (us.filter fun u => decide (u.1.priority = q))) =
        keys.flatMap fun q => f q (rest.filter fun u => decide (u.1.priority = q)) := by
      apply List.flatMap_congr
      intro q hq
      rw [hrest q hq]
    rw [hcongr]
    refine ((hf p _).append hih).trans ?_
    exact List.filter_append_perm (fun u => decide (u.1.priority = p)) us

theorem healthyOrder_perm (b : Balance) (policy : LbPolicy) {slots healthy : List Slot}
    (h : ∀ s ∈ healthy, s ∈ slots) : (healthyOrder b policy slots healthy).Perm healthy := by
  have hperm : (priorities slots).Perm (slots.map fun s => s.1.priority).dedup := sortBy_perm _ _
  refine flatMap_filter_perm (priorities slots) (hperm.nodup_iff.mpr (List.nodup_dedup _))
    (fun p us => tierOrder b policy p us) (fun p us => tierOrder_perm b policy p us) healthy ?_
  intro s hs
  rw [hperm.mem_iff, List.mem_dedup]
  exact List.mem_map_of_mem (h s hs)

/-- The candidates are the allowed targets, each at its place; if there are none, they are all
targets. -/
theorem orderSlots_perm (b : Balance) (policy : LbPolicy) (snapshot : List (Target × Bool)) :
    (orderSlots b policy snapshot).Perm
      (if allowedSlots snapshot ≠ [] then allowedSlots snapshot else slotsOf snapshot) := by
  have hallowed : ∀ s ∈ allowedSlots snapshot, s ∈ slotsOf snapshot := by
    intro s hs
    obtain ⟨a, ha, rfl⟩ := List.mem_map.mp hs
    exact List.mem_map_of_mem (List.mem_filter.mp ha).1
  unfold orderSlots
  split
  · exact healthyOrder_perm b policy hallowed
  · exact sortBy_perm _ _

theorem slotsOf_fst (snapshot : List (Target × Bool)) :
    (slotsOf snapshot).map Prod.fst = snapshot.map Prod.fst := by
  have hfst : snapshot.zipIdx.map Prod.fst = snapshot := List.zipIdx_map_fst 0 snapshot
  conv_rhs => rw [← hfst]
  unfold slotsOf
  rw [List.map_map, List.map_map]
  rfl

theorem allowedSlots_fst (snapshot : List (Target × Bool)) :
    (allowedSlots snapshot).map Prod.fst = (snapshot.filter Prod.snd).map Prod.fst := by
  have hfst : snapshot.zipIdx.map Prod.fst = snapshot := List.zipIdx_map_fst 0 snapshot
  conv_rhs => rw [← hfst]
  unfold allowedSlots
  rw [List.map_map, List.filter_map, List.map_map]
  rfl

/-- The candidates are the allowed targets, each as often as it is among the targets; if
there are none, they are all targets. -/
theorem orderCandidates_perm (b : Balance) (policy : LbPolicy) {snapshot : List (Target × Bool)}
    (hlen : snapshot.length ≤ maxTargets) :
    (orderCandidates b policy snapshot).Perm
      (if (snapshot.filter Prod.snd).map Prod.fst ≠ [] then
        (snapshot.filter Prod.snd).map Prod.fst
      else snapshot.map Prod.fst) := by
  have hperm := (orderSlots_perm b policy snapshot).map Prod.fst
  rw [apply_ite (List.map Prod.fst), allowedSlots_fst, slotsOf_fst] at hperm
  have hnil : allowedSlots snapshot = [] ↔ (snapshot.filter Prod.snd).map Prod.fst = [] := by
    rw [← allowedSlots_fst, List.map_eq_nil_iff]
  simp only [ne_eq, hnil] at hperm
  have hle : ((orderSlots b policy snapshot).map Prod.fst).length ≤ maxTargets := by
    rw [hperm.length_eq]
    split
    · rw [List.length_map]
      exact (List.length_filter_le _ _).trans hlen
    · rw [List.length_map]
      exact hlen
  rw [orderCandidates, List.take_of_length_le hle]
  exact hperm

end Aigate.ModelRouter
