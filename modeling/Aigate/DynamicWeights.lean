import Aigate.CandidateOrder

/-!
# Fallbacks by dynamic weight

Policy D draws one of the targets of a priority and sorts the others by weight for failover. The
weights are stored at the places of the pool and read at the places of the model: which
fallbacks are sorted by a weight of their own.
-/
namespace Aigate.DynamicWeights
open Text ModelRouter CandidateOrder

section Comparisons
variable {α : Type*}

/-- The comparisons of one round. -/
def headComparisons (lt : α → α → Bool) (x : α) : List α → List (α × α)
  | [] => []
  | y :: ys => (y, x) :: if lt y x then headComparisons lt y ys else headComparisons lt x ys

/-- The comparisons of a sort, in the order in which they are made. -/
def comparisons (lt : α → α → Bool) : ℕ → List α → List (α × α)
  | _, [] => []
  | 0, _ => []
  | n + 1, x :: xs => headComparisons lt x xs ++ comparisons lt n (exchangeHead lt x xs).2

theorem mem_of_headComparisons {lt : α → α → Bool} {x : α} {xs : List α} {c : α × α}
    (hc : c ∈ headComparisons lt x xs) : c.1 ∈ x :: xs ∧ c.2 ∈ x :: xs := by
  induction xs generalizing x with
  | nil => exact nomatch hc
  | cons y ys ih =>
    rcases List.mem_cons.mp hc with rfl | hc
    · simp
    · split at hc
      · obtain ⟨h1, h2⟩ := ih hc
        exact ⟨List.mem_cons_of_mem _ h1, List.mem_cons_of_mem _ h2⟩
      · obtain ⟨h1, h2⟩ := ih hc
        rw [List.mem_cons] at h1 h2
        constructor
        · rcases h1 with h1 | h1 <;> simp [h1]
        · rcases h2 with h2 | h2 <;> simp [h2]

theorem mem_of_comparisons {lt : α → α → Bool} {n : ℕ} {xs : List α} {c : α × α}
    (hc : c ∈ comparisons lt n xs) : c.1 ∈ xs ∧ c.2 ∈ xs := by
  induction n generalizing xs with
  | zero => cases xs <;> exact nomatch hc
  | succ n ih =>
    cases xs with
    | nil => exact nomatch hc
    | cons x xs =>
      rcases List.mem_append.mp hc with hc | hc
      · exact mem_of_headComparisons hc
      · have hperm := exchangeHead_perm lt x xs
        obtain ⟨h1, h2⟩ := ih hc
        exact ⟨hperm.mem_iff.mp (List.mem_cons_of_mem _ h1),
          hperm.mem_iff.mp (List.mem_cons_of_mem _ h2)⟩

/-- The first round already looks at every element. -/
theorem headComparisons_mem (lt : α → α → Bool) (x : α) {xs : List α} (hxs : xs ≠ []) {z : α}
    (hz : z ∈ x :: xs) : ∃ c ∈ headComparisons lt x xs, z = c.1 ∨ z = c.2 := by
  induction xs generalizing x with
  | nil => exact absurd rfl hxs
  | cons y ys ih =>
    rw [headComparisons]
    rcases List.mem_cons.mp hz with rfl | hz
    · exact ⟨(y, z), List.mem_cons_self, Or.inr rfl⟩
    rcases List.mem_cons.mp hz with rfl | hz
    · exact ⟨(z, x), List.mem_cons_self, Or.inl rfl⟩
    have hys : ys ≠ [] := List.ne_nil_of_mem hz
    split
    · obtain ⟨c, hc, hzc⟩ := ih y hys (List.mem_cons_of_mem _ hz)
      exact ⟨c, List.mem_cons_of_mem _ hc, hzc⟩
    · obtain ⟨c, hc, hzc⟩ := ih x hys (List.mem_cons_of_mem _ hz)
      exact ⟨c, List.mem_cons_of_mem _ hc, hzc⟩

/-- What a sort compares are the elements of its list, each of them if there are two. -/
theorem forall_compared (lt : α → α → Bool) (xs : List α) (P : α → Prop) :
    (∀ c ∈ comparisons lt xs.length xs, P c.1 ∧ P c.2) ↔ xs.length ≤ 1 ∨ ∀ x ∈ xs, P x := by
  constructor
  · intro h
    match xs with
    | [] => exact Or.inl (Nat.zero_le 1)
    | [_] => exact Or.inl (Nat.le_refl 1)
    | x :: y :: ys =>
      right
      intro z hz
      obtain ⟨c, hc, hzc⟩ := headComparisons_mem lt x (List.cons_ne_nil y ys) hz
      obtain ⟨h1, h2⟩ := h c (List.mem_append_left _ hc)
      rcases hzc with rfl | rfl
      · exact h1
      · exact h2
  · intro h c hc
    rcases h with hlen | h
    · match xs with
      | [] => exact nomatch hc
      | [_] => exact nomatch hc
      | _ :: _ :: _ => simp at hlen
    · obtain ⟨h1, h2⟩ := mem_of_comparisons hc
      exact ⟨h _ h1, h _ h2⟩

end Comparisons

/-- The targets of a priority that take part in the load balancing, `eval_pool`. -/
def evalPool (b : Balance) (healthy : List Slot) (p : ℤ) : List Slot :=
  let pool := healthy.filter fun s => s.1.priority = p
  let free := pool.filter fun s => !saturated b s.1
  let full := pool.filter fun s => saturated b s.1
  if free ≠ [] ∧ full ≠ [] then free else pool

def weightOf (b : Balance) (s : Slot) : ℤ := dynamicWeight b s.1

def weightSum (b : Balance) (pool : List Slot) : ℤ := (pool.map (weightOf b)).sum

/-- The place of the drawn target in the pool, `chosen_k`. -/
def drawn (b : Balance) (p : ℤ) (pool : List Slot) : ℕ :=
  let total := if weightSum b pool ≤ 0 then (pool.length : ℤ) else weightSum b pool
  (rouletteIndex (weightOf b) (b.counter p % total) 0 pool).getD 0

/-- The test of the sort of the others. -/
def heavier (b : Balance) (p : ℤ) (pool : List Slot) (s t : Slot) : Bool :=
  dynWeights b p pool t.2 < dynWeights b p pool s.2

/-- The pairs of targets whose weights policy D compares. -/
def compared (b : Balance) (p : ℤ) (pool : List Slot) : List (Slot × Slot) :=
  if pool.length ≤ 1 then []
  else
    let others := pool.eraseIdx (drawn b p pool)
    comparisons (heavier b p pool) others.length others

/-- The weight that is read for a target was computed for it. -/
def Attributed (pool : List Slot) (s : Slot) : Prop := pool[s.2]? = some s

/-- What the candidates owe the strategy for one priority: after the drawn target the others of
its pool do not gain weight, and the weights that were compared are those of the targets. -/
structure ByWeight (b : Balance) (p : ℤ) (pool out : List Slot) : Prop where
  ordered : ((out.filter fun s => s ∈ pool).tail).Pairwise
    fun s t => weightOf b t ≤ weightOf b s
  attributed : ∀ c ∈ compared b p pool, Attributed pool c.1 ∧ Attributed pool c.2

/-- The slots are the first of the model's targets. -/
def InPlace (pool : List Slot) : Prop := ∀ (k : ℕ) (s : Slot), pool[k]? = some s → s.2 = k

/-- The pool has at most two targets, or is in place, or is in place but for its last target and
the counter points behind the others. -/
def Aligned (b : Balance) (p : ℤ) (pool : List Slot) : Prop :=
  pool.length ≤ 2 ∨ InPlace pool ∨
    InPlace pool.dropLast ∧ weightSum b pool.dropLast ≤ b.counter p % weightSum b pool

/-! Places and slots. -/

/-- The slots are in the order of the targets. -/
def Ascending (pool : List Slot) : Prop := (pool.map Prod.snd).Pairwise (· < ·)

theorem ascending_zipIdx (ts : List Target) : Ascending ts.zipIdx := by
  unfold Ascending
  rw [List.zipIdx_map_snd]
  exact List.pairwise_lt_range'

theorem Ascending.sublist {pool pool' : List Slot} (h : Ascending pool)
    (hsub : pool'.Sublist pool) : Ascending pool' :=
  List.Pairwise.sublist (hsub.map Prod.snd) h

theorem Ascending.lt {pool : List Slot} (h : Ascending pool) {j k : ℕ} {s t : Slot}
    (hs : pool[j]? = some s) (ht : pool[k]? = some t) (hjk : j < k) : s.2 < t.2 := by
  obtain ⟨hj, rfl⟩ := List.getElem?_eq_some_iff.mp hs
  obtain ⟨hk, rfl⟩ := List.getElem?_eq_some_iff.mp ht
  have hlt := List.pairwise_iff_getElem.mp h j k (by simpa using hj) (by simpa using hk) hjk
  simpa using hlt

theorem Ascending.le {pool : List Slot} (h : Ascending pool) {k : ℕ} {s : Slot}
    (hs : pool[k]? = some s) : k ≤ s.2 := by
  induction k generalizing s with
  | zero => exact Nat.zero_le _
  | succ k ih =>
    obtain ⟨hk, -⟩ := List.getElem?_eq_some_iff.mp hs
    have hprev : pool[k]? = some pool[k] := List.getElem?_eq_getElem (Nat.lt_of_succ_lt hk)
    have hle := ih hprev
    have hlt := h.lt hprev hs (Nat.lt_succ_self k)
    omega

/-- A weight is read at its place if the slot has the same place in the pool as in the model. -/
theorem attributed_iff {pool : List Slot} (h : Ascending pool) {k : ℕ} {s : Slot}
    (hs : pool[k]? = some s) : Attributed pool s ↔ s.2 = k := by
  constructor
  · intro hat
    by_contra hne
    rcases Nat.lt_or_gt_of_ne hne with hlt | hlt
    · exact Nat.lt_irrefl _ (h.lt hat hs hlt)
    · exact Nat.lt_irrefl _ (h.lt hs hat hlt)
  · intro heq
    rw [Attributed, heq]
    exact hs

theorem weightOf_pos (b : Balance) (s : Slot) : 0 < weightOf b s := by
  unfold weightOf dynamicWeight
  dsimp only
  split <;> omega

theorem weightSum_nonneg (b : Balance) (pool : List Slot) : 0 ≤ weightSum b pool := by
  apply List.sum_nonneg
  intro w hw
  obtain ⟨s, -, rfl⟩ := List.mem_map.mp hw
  exact (weightOf_pos b s).le

theorem weightSum_cons (b : Balance) (s : Slot) (pool : List Slot) :
    weightSum b (s :: pool) = weightOf b s + weightSum b pool := List.sum_cons

theorem weightSum_pos (b : Balance) {pool : List Slot} (h : pool ≠ []) : 0 < weightSum b pool := by
  cases pool with
  | nil => exact absurd rfl h
  | cons s pool =>
    have hs := weightOf_pos b s
    have hpool := weightSum_nonneg b pool
    rw [weightSum_cons]
    omega

/-- The last target is drawn if the pick is not among the weights of the others. -/
theorem rouletteIndex_last (b : Balance) {pick : ℤ} (acc : ℤ) (pool : List Slot) (s : Slot)
    (hacc : acc ≤ pick) (hpick : pick < acc + weightSum b (pool ++ [s])) :
    rouletteIndex (weightOf b) pick acc (pool ++ [s]) = some pool.length ↔
      acc + weightSum b pool ≤ pick := by
  induction pool generalizing acc with
  | nil =>
    have hlt : pick < acc + weightOf b s := by simpa [weightSum] using hpick
    simp [rouletteIndex, hlt, weightSum, hacc]
  | cons t pool ih =>
    rw [List.cons_append, weightSum_cons] at hpick
    have hrest := weightSum_nonneg b pool
    rw [List.cons_append, rouletteIndex, weightSum_cons]
    by_cases hlt : pick < acc + weightOf b t
    · rw [if_pos hlt]
      constructor
      · intro h
        simp at h
      · intro h
        omega
    · rw [if_neg hlt, List.length_cons, Option.map_eq_some_iff]
      have hih := ih (acc + weightOf b t) (by omega) (by omega)
      constructor
      · rintro ⟨i, hi, heq⟩
        obtain rfl := Nat.succ.inj heq
        have hle := hih.mp hi
        omega
      · intro hle
        exact ⟨pool.length, hih.mpr (by omega), rfl⟩

theorem drawn_eq (b : Balance) (p : ℤ) {pool : List Slot} (h : pool ≠ []) :
    drawn b p pool =
      (rouletteIndex (weightOf b) (b.counter p % weightSum b pool) 0 pool).getD 0 := by
  have hpos := weightSum_pos b h
  unfold drawn
  rw [if_neg (by omega)]

theorem drawn_lt (b : Balance) (p : ℤ) {pool : List Slot} (h : pool ≠ []) :
    drawn b p pool < pool.length :=
  rouletteIndex_getD_lt _ _ h

theorem drawn_last_iff (b : Balance) (p : ℤ) {pool : List Slot} (hlen : 2 < pool.length) :
    drawn b p pool = pool.length - 1 ↔
      weightSum b pool.dropLast ≤ b.counter p % weightSum b pool := by
  have hne : pool ≠ [] := List.ne_nil_of_length_pos (by omega)
  have hsum := weightSum_pos b hne
  have hsplit : pool.dropLast ++ [pool.getLast hne] = pool := List.dropLast_append_getLast hne
  have hpick : (b.counter p : ℤ) % weightSum b pool <
      0 + weightSum b (pool.dropLast ++ [pool.getLast hne]) := by
    rw [hsplit, Int.zero_add]
    exact Int.emod_lt_of_pos _ hsum
  have hlast := rouletteIndex_last b 0 pool.dropLast (pool.getLast hne)
    (Int.emod_nonneg _ (by omega)) hpick
  rw [hsplit, Int.zero_add, List.length_dropLast] at hlast
  rw [drawn_eq b p hne, ← hlast]
  cases rouletteIndex (weightOf b) (b.counter p % weightSum b pool) 0 pool with
  | none =>
    simp only [Option.getD_none, reduceCtorEq, iff_false]
    omega
  | some i => simp

/-- Every place but the drawn one is its own place in the model. -/
theorem aligned_iff (b : Balance) (p : ℤ) {pool : List Slot} (h : Ascending pool) :
    Aligned b p pool ↔
      pool.length ≤ 2 ∨ ∀ s ∈ pool.eraseIdx (drawn b p pool), Attributed pool s := by
  unfold Aligned
  rcases Nat.lt_or_ge 2 pool.length with hlen | hlen
  swap
  · simp [hlen]
  have hne : pool ≠ [] := List.ne_nil_of_length_pos (by omega)
  have hlt := drawn_lt b p hne
  have hmem : (∀ s ∈ pool.eraseIdx (drawn b p pool), Attributed pool s) ↔
      ∀ (k : ℕ) (s : Slot), k ≠ drawn b p pool → pool[k]? = some s → s.2 = k := by
    constructor
    · intro hall k s hk hs
      apply (attributed_iff h hs).mp
      exact hall s (List.mem_eraseIdx_iff_getElem?.mpr ⟨k, hk, hs⟩)
    · intro hall s hs
      obtain ⟨k, hk, hs⟩ := List.mem_eraseIdx_iff_getElem?.mp hs
      exact (attributed_iff h hs).mpr (hall k s hk hs)
  rw [← drawn_last_iff b p hlen, hmem]
  simp only [show ¬ pool.length ≤ 2 by omega, false_or]
  constructor
  · rintro (hplace | ⟨hplace, hlast⟩) k s hk hs
    · exact hplace k s hs
    · obtain ⟨hklt, -⟩ := List.getElem?_eq_some_iff.mp hs
      apply hplace k s
      rw [List.getElem?_dropLast, if_pos (by omega)]
      exact hs
  · intro hall
    by_cases hlast : drawn b p pool = pool.length - 1
    · refine Or.inr ⟨fun k s hs => ?_, hlast⟩
      rw [List.getElem?_dropLast] at hs
      split at hs
      · exact hall k s (by omega) hs
      · cases hs
    · -- the target after the drawn one is in place, so the drawn one is too
      left
      intro k s hs
      by_cases hk : k = drawn b p pool
      · have hlen : k + 1 < pool.length := by omega
        have hnext : pool[k + 1]? = some pool[k + 1] := List.getElem?_eq_getElem hlen
        have heq := hall (k + 1) _ (by omega) hnext
        have hle := h.le hs
        have hless := h.lt hs hnext (Nat.lt_succ_self k)
        omega
      · exact hall k s hk hs

/-! The candidates of a priority. -/

theorem balanceTier_tail (b : Balance) (p : ℤ) {pool : List Slot} (hlen : 1 < pool.length) :
    (balanceTier b .dynamicWeighted p pool).tail =
      sortBy (heavier b p pool) (pool.eraseIdx (drawn b p pool)) := by
  have hlt : drawn b p pool < pool.length := drawn_lt b p (List.ne_nil_of_length_pos (by omega))
  have hdrop : (pool.drop (drawn b p pool)).take 1 = [pool[drawn b p pool]] := by
    rw [List.drop_eq_getElem_cons hlt, List.take_succ_cons, List.take_zero]
  have heq : balanceTier b .dynamicWeighted p pool = (pool.drop (drawn b p pool)).take 1 ++
      sortBy (heavier b p pool) (pool.eraseIdx (drawn b p pool)) := by
    rw [balanceTier, if_neg (by omega)]
    rfl
  rw [heq, hdrop]
  rfl

theorem dynWeights_of_attributed (b : Balance) (p : ℤ) {pool : List Slot} {s : Slot}
    (h : Attributed pool s) : dynWeights b p pool s.2 = weightOf b s := by
  rw [dynWeights, h]
  rfl

theorem sortBy_heavier_pairwise (b : Balance) (p : ℤ) {pool : List Slot} {others : List Slot}
    (h : others.length ≤ 1 ∨ ∀ s ∈ others, Attributed pool s) :
    (sortBy (heavier b p pool) others).Pairwise fun s t => weightOf b t ≤ weightOf b s := by
  have hperm : (sortBy (heavier b p pool) others).Perm others := sortBy_perm _ others
  rcases h with hlen | hall
  · rw [← hperm.length_eq] at hlen
    match hsort : sortBy (heavier b p pool) others with
    | [] => exact List.Pairwise.nil
    | [s] => exact List.pairwise_singleton _ s
    | _ :: _ :: _ => simp [hsort] at hlen
  · have hsorted : (sortBy (heavier b p pool) others).Pairwise
        fun s t => dynWeights b p pool t.2 ≤ dynWeights b p pool s.2 := by
      apply sortBy_pairwise
      · intro s t
        simp [heavier]
      · exact fun s t => Int.le_total _ _
      · exact fun s t u hst htu => Int.le_trans htu hst
    refine hsorted.imp_of_mem fun {s t} hs ht hle => ?_
    rw [← dynWeights_of_attributed b p (hall s (hperm.mem_iff.mp hs)),
      ← dynWeights_of_attributed b p (hall t (hperm.mem_iff.mp ht))]
    exact hle

theorem tierOrder_eq (b : Balance) (policy : LbPolicy) (p : ℤ) (healthy : List Slot) :
    ∃ full : List Slot, (∀ s ∈ full, s ∉ evalPool b healthy p) ∧
      tierOrder b policy p (healthy.filter fun s => s.1.priority = p) =
        balanceTier b policy p (evalPool b healthy p) ++ full := by
  unfold tierOrder evalPool
  dsimp only
  split
  · refine ⟨_, fun s hs hfree => ?_, rfl⟩
    have hfull : saturated b s.1 = true := (List.mem_filter.mp hs).2
    simpa [hfull] using (List.mem_filter.mp hfree).2
  · exact ⟨[], fun s hs => (nomatch hs), (List.append_nil _).symm⟩

theorem flatMap_of_mem {α : Type*} {keys : List ℤ} (hkeys : keys.Nodup) {p : ℤ} (hp : p ∈ keys)
    {f : ℤ → List α} (hf : ∀ q, q ≠ p → f q = []) : keys.flatMap f = f p := by
  induction keys with
  | nil => exact nomatch hp
  | cons q keys ih =>
    obtain ⟨hq, hkeys⟩ := List.nodup_cons.mp hkeys
    rw [List.flatMap_cons]
    rcases List.mem_cons.mp hp with rfl | hp
    · have hnil : keys.flatMap f = [] := by
        apply List.flatMap_eq_nil_iff.mpr
        intro t ht
        exact hf t fun h => hq (h ▸ ht)
      rw [hnil, List.append_nil]
    · rw [hf q fun h => hq (h ▸ hp), List.nil_append]
      exact ih hkeys hp

theorem mem_of_mem_evalPool {b : Balance} {healthy : List Slot} {p : ℤ} {s : Slot}
    (h : s ∈ evalPool b healthy p) : s ∈ healthy ∧ s.1.priority = p := by
  have hpool : s ∈ healthy.filter fun s => s.1.priority = p := by
    unfold evalPool at h
    dsimp only at h
    split at h
    · exact (List.mem_filter.mp h).1
    · exact h
  simpa using hpool

theorem evalPool_sublist (b : Balance) (healthy : List Slot) (p : ℤ) :
    (evalPool b healthy p).Sublist healthy := by
  unfold evalPool
  dsimp only
  split
  · exact List.filter_sublist.trans List.filter_sublist
  · exact List.filter_sublist

/-- Of the candidates, those of a pool are the ones that the load balancing ordered. -/
theorem healthyOrder_filter (b : Balance) (policy : LbPolicy) {slots healthy : List Slot}
    (h : ∀ s ∈ healthy, s ∈ slots) (p : ℤ) :
    (healthyOrder b policy slots healthy).filter (fun s => s ∈ evalPool b healthy p) =
      balanceTier b policy p (evalPool b healthy p) := by
  have hother : ∀ q, q ≠ p →
      (tierOrder b policy q (healthy.filter fun s => s.1.priority = q)).filter
        (fun s => s ∈ evalPool b healthy p) = [] := by
    intro q hq
    apply List.filter_eq_nil_iff.mpr
    intro s hs hmem
    have hs := (tierOrder_perm b policy q _).mem_iff.mp hs
    have hsq : s.1.priority = q := by simpa using (List.mem_filter.mp hs).2
    exact hq (hsq.symm.trans (mem_of_mem_evalPool (of_decide_eq_true hmem)).2)
  have hown : (tierOrder b policy p (healthy.filter fun s => s.1.priority = p)).filter
      (fun s => s ∈ evalPool b healthy p) = balanceTier b policy p (evalPool b healthy p) := by
    obtain ⟨full, hfull, heq⟩ := tierOrder_eq b policy p healthy
    have hnil : full.filter (fun s => s ∈ evalPool b healthy p) = [] := by
      apply List.filter_eq_nil_iff.mpr
      intro s hs hmem
      exact hfull s hs (of_decide_eq_true hmem)
    rw [heq, List.filter_append, hnil, List.append_nil]
    apply List.filter_eq_self.mpr
    intro s hs
    exact decide_eq_true ((balanceTier_perm b policy p _).mem_iff.mp hs)
  have hkeys : (priorities slots).Nodup :=
    (priorities_pairwise slots).imp fun hlt => Int.ne_of_lt hlt
  unfold healthyOrder
  rw [List.filter_flatMap]
  by_cases hp : p ∈ priorities slots
  · rw [flatMap_of_mem hkeys hp hother]
    exact hown
  · have hempty : evalPool b healthy p = [] := by
      apply List.eq_nil_iff_forall_not_mem.mpr
      intro s hs
      obtain ⟨hmem, rfl⟩ := mem_of_mem_evalPool hs
      apply hp
      rw [priorities, (sortBy_perm _ _).mem_iff, List.mem_dedup]
      exact List.mem_map_of_mem (h s hmem)
    rw [hempty]
    simp [balanceTier]

theorem orderSlots_filter (b : Balance) (policy : LbPolicy) (allowed : ℕ → Bool)
    (ts : List Target) (p : ℤ) :
    let pool := evalPool b (allowedSlots (snapshotOf allowed ts)) p
    (orderSlots b policy (snapshotOf allowed ts)).filter (fun s => s ∈ pool) =
      balanceTier b policy p pool := by
  intro pool
  unfold orderSlots
  split
  · apply healthyOrder_filter
    intro s hs
    rw [allowedSlots_snapshotOf] at hs
    rw [slotsOf_snapshotOf]
    exact (List.mem_filter.mp hs).1
  · rename_i hnone
    have hpool : pool = [] := by
      apply List.eq_nil_iff_forall_not_mem.mpr
      intro s hs
      have hmem := (mem_of_mem_evalPool hs).1
      rw [not_not.mp hnone] at hmem
      exact nomatch hmem
    simp [hpool, balanceTier]

/-- One priority keeps its order by weight exactly when its pool is aligned. -/
theorem byWeight_tier (b : Balance) (p : ℤ) {pool out : List Slot} (h : Ascending pool)
    (hout : out.filter (fun s => s ∈ pool) = balanceTier b .dynamicWeighted p pool) :
    ByWeight b p pool out ↔ Aligned b p pool := by
  rcases Nat.lt_or_ge 1 pool.length with hlen | hlen
  swap
  · have hone : balanceTier b .dynamicWeighted p pool = pool := by
      rw [balanceTier, if_pos hlen]
    have hnone : compared b p pool = [] := if_pos hlen
    refine ⟨fun _ => Or.inl (by omega), fun _ => ⟨?_, ?_⟩⟩
    · rw [hout, hone]
      match pool, hlen with
      | [], _ => exact List.Pairwise.nil
      | [_], _ => exact List.Pairwise.nil
    · rw [hnone]
      exact fun c hc => nomatch hc
  have hne : pool ≠ [] := List.ne_nil_of_length_pos (by omega)
  have hothers : (pool.eraseIdx (drawn b p pool)).length = pool.length - 1 := by
    rw [List.length_eraseIdx, if_pos (drawn_lt b p hne)]
  have hcompared : (∀ c ∈ compared b p pool, Attributed pool c.1 ∧ Attributed pool c.2) ↔
      Aligned b p pool := by
    rw [compared, if_neg (by omega), forall_compared, aligned_iff b p h, hothers]
    have hle : pool.length - 1 ≤ 1 ↔ pool.length ≤ 2 := by omega
    rw [hle]
  constructor
  · intro hby
    exact hcompared.mp hby.attributed
  · intro hal
    refine ⟨?_, hcompared.mpr hal⟩
    rw [hout, balanceTier_tail b p hlen]
    apply sortBy_heavier_pairwise
    refine ((aligned_iff b p h).mp hal).imp_left fun hle => ?_
    omega

/-- The candidates are ordered by the weights of their own exactly when the pool of every
priority is aligned. -/
theorem byWeight_iff (b : Balance) (allowed : ℕ → Bool) {r : Route} {ts : List Target} {cap : ℕ}
    (hts : sourceTargets r = some ts) (hcap : ts.length ≤ cap)
    (hpolicy : lbPolicyOf r.lbPolicy = .dynamicWeighted) :
    ∃ out, selectCandidates b allowed r cap = some out ∧
      ((∀ p, ByWeight b p (evalPool b (allowedSlots (snapshotOf allowed ts)) p) out) ↔
        ∀ p, Aligned b p (evalPool b (allowedSlots (snapshotOf allowed ts)) p)) := by
  have hpos : cap ≠ 0 := by
    have hlen := List.length_pos_iff.mpr (sourceTargets_ne_nil hts)
    omega
  have htake : (orderSlots b .dynamicWeighted (snapshotOf allowed ts)).take cap =
      orderSlots b .dynamicWeighted (snapshotOf allowed ts) :=
    List.take_of_length_le ((orderSlots_length_le b _ allowed ts).trans hcap)
  have hallowed : Ascending (allowedSlots (snapshotOf allowed ts)) := by
    rw [allowedSlots_snapshotOf]
    exact (ascending_zipIdx ts).sublist List.filter_sublist
  refine ⟨orderSlots b .dynamicWeighted (snapshotOf allowed ts), ?_, forall_congr' fun p => ?_⟩
  · rw [selectCandidates, if_neg hpos, hts, Option.map_some, hpolicy]
    exact congrArg some htake
  · exact byWeight_tier b p (hallowed.sublist (evalPool_sublist b _ p))
      (orderSlots_filter b .dynamicWeighted allowed ts p)

theorem unnamed_le : ([] : Bytes).length ≤ 127 := Nat.zero_le _

theorem noEndpoint_le : ([] : Bytes).length ≤ 511 := Nat.zero_le _

theorem four_le : [target 'a' 0, target 'b' 0, target 'c' 0, target 'd' 0].length ≤ maxTargets := by
  decide

/-- Four targets of one priority, balanced by dynamic weight. -/
def weighted : Route := ⟨[], [], [], [target 'a' 0, target 'b' 0, target 'c' 0, target 'd' 0],
  ascii "dynamic_weighted", 0, false, unnamed_le, noEndpoint_le, four_le⟩

/-- The weights of `a`, `c` and `d` are 50, 1 and 100. -/
def latencies (e : Bytes) : ℕ := if e = ['a'] then 10 else if e = ['c'] then 990 else 0

def balance : Balance := ⟨fun _ => 0, fun _ => 60, fun _ => 0, latencies, fun _ => 0, fun _ _ => 0⟩

def weightedTargets : List Target := [target 'a' 0, target 'b' 0, target 'c' 0, target 'd' 0]

theorem byWeight_allowed : ∃ out, selectCandidates balance (fun _ => true) weighted 8 = some out ∧
    ((∀ p, ByWeight balance p
        (evalPool balance (allowedSlots (snapshotOf (fun _ => true) weightedTargets)) p) out) ↔
      ∀ p, Aligned balance p
        (evalPool balance (allowedSlots (snapshotOf (fun _ => true) weightedTargets)) p)) :=
  byWeight_iff balance (fun _ => true) (r := weighted) (by decide +kernel) (by decide)
    (by decide +kernel)

/-- With `b` denied, `d` is drawn, and `c` is tried before `a`: the weight of `d` is read for
it. -/
theorem not_byWeight_denied :
    selectCandidates balance (fun i => i ≠ 1) weighted 8 =
      some [(target 'd' 0, 3), (target 'c' 0, 2), (target 'a' 0, 0)] ∧
    weightOf balance (target 'c' 0, 2) = 1 ∧ weightOf balance (target 'a' 0, 0) = 50 ∧
    ¬ ByWeight balance 0
      (evalPool balance (allowedSlots (snapshotOf (fun i => i ≠ 1) weightedTargets)) 0)
      [(target 'd' 0, 3), (target 'c' 0, 2), (target 'a' 0, 0)] := by
  have hpool : evalPool balance (allowedSlots (snapshotOf (fun i => i ≠ 1) weightedTargets)) 0 =
      [(target 'a' 0, 0), (target 'c' 0, 2), (target 'd' 0, 3)] := by decide +kernel
  refine ⟨by decide +kernel, by decide +kernel, by decide +kernel, fun h => ?_⟩
  have hordered := h.ordered
  rw [hpool] at hordered
  revert hordered
  decide +kernel

end Aigate.DynamicWeights
