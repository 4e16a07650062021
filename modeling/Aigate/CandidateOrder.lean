import Aigate.ModelRouter

/-!
# The order of the candidates

What `model_router_select_candidates` promises its callers. While the breaker allows a target,
the order is by priority, and within a priority the targets with a free slot come first. While
it allows none, every target is a candidate, and the one that recovers first comes first.
-/
namespace Aigate.CandidateOrder
open Text ModelRouter

/-- `model_router_select_candidates`: the answers of the breaker are given for the places of the
targets. -/
def selectCandidates (b : Balance) (allowed : ℕ → Bool) (r : Route) (cap : ℕ) :
    Option (List Slot) :=
  if cap = 0 then none
  else (sourceTargets r).map fun ts =>
    (orderSlots b (lbPolicyOf r.lbPolicy) (ts.zipIdx.map fun s => (s.1, allowed s.2))).take cap

def AnyAllowed (allowed : ℕ → Bool) (ts : List Target) : Prop := ∃ j < ts.length, allowed j = true

/-- No target twice, and exactly those that the breaker allows, or all if it allows none. -/
structure Selected (allowed : ℕ → Bool) (ts : List Target) (out : List Slot) : Prop where
  nodup : (out.map Prod.snd).Nodup
  mem : ∀ t i, (t, i) ∈ out ↔ ts[i]? = some t ∧ (AnyAllowed allowed ts → allowed i = true)

/-- The first has the better priority, or the same and not the other alone a free slot. -/
def Before (b : Balance) (s t : Slot) : Prop :=
  s.1.priority < t.1.priority ∨
    s.1.priority = t.1.priority ∧ (saturated b s.1 = true → saturated b t.1 = true)

/-- The cool-off of the first ends earlier, or at the same time and it has no worse priority. -/
def Sooner (b : Balance) (s t : Slot) : Prop :=
  b.openUntil s.1.endpoint < b.openUntil t.1.endpoint ∨
    b.openUntil s.1.endpoint = b.openUntil t.1.endpoint ∧ s.1.priority ≤ t.1.priority

section Sorts
variable {α : Type*} {lt : α → α → Bool} {le : α → α → Prop}

/-- The head that the inner loop leaves is least. -/
theorem exchangeHead_le (hlt : ∀ x y, lt x y = true ↔ ¬ le y x) (htotal : ∀ x y, le x y ∨ le y x)
    (htrans : ∀ x y z, le x y → le y z → le x z) (x : α) (xs : List α) :
    le (exchangeHead lt x xs).1 x ∧
      ∀ y ∈ (exchangeHead lt x xs).2, le (exchangeHead lt x xs).1 y := by
  induction xs generalizing x with
  | nil => exact ⟨(htotal x x).elim id id, fun _ hy => nomatch hy⟩
  | cons y ys ih =>
    by_cases hyx : lt y x = true
    · obtain ⟨hhead, hrest⟩ := ih y
      have hle : le y x := (htotal y x).resolve_right ((hlt y x).mp hyx)
      have hx : le (exchangeHead lt y ys).1 x := htrans _ _ _ hhead hle
      rw [exchangeHead, if_pos hyx]
      refine ⟨hx, fun z hz => ?_⟩
      rcases List.mem_cons.mp hz with rfl | hz
      · exact hx
      · exact hrest z hz
    · obtain ⟨hhead, hrest⟩ := ih x
      have hle : le x y := not_not.mp fun hnot => hyx ((hlt y x).mpr hnot)
      rw [exchangeHead, if_neg hyx]
      refine ⟨hhead, fun z hz => ?_⟩
      rcases List.mem_cons.mp hz with rfl | hz
      · exact htrans _ _ _ hhead hle
      · exact hrest z hz

theorem exchangeSort_pairwise (hlt : ∀ x y, lt x y = true ↔ ¬ le y x)
    (htotal : ∀ x y, le x y ∨ le y x) (htrans : ∀ x y z, le x y → le y z → le x z) {n : ℕ}
    {xs : List α} (hn : xs.length ≤ n) : (exchangeSort lt n xs).Pairwise le := by
  induction n generalizing xs with
  | zero =>
    obtain rfl := List.length_eq_zero_iff.mp (Nat.le_zero.mp hn)
    exact List.Pairwise.nil
  | succ n ih =>
    cases xs with
    | nil => exact List.Pairwise.nil
    | cons x xs =>
      have hlen : (exchangeHead lt x xs).2.length = xs.length := by
        simpa using (exchangeHead_perm lt x xs).length_eq
      have hperm := exchangeSort_perm lt n (exchangeHead lt x xs).2
      have hleast := (exchangeHead_le hlt htotal htrans x xs).2
      apply List.pairwise_cons.mpr
      constructor
      · intro y hy
        exact hleast y (hperm.mem_iff.mp hy)
      · apply ih
        rw [hlen]
        exact Nat.le_of_succ_le_succ hn

theorem sortBy_pairwise (hlt : ∀ x y, lt x y = true ↔ ¬ le y x) (htotal : ∀ x y, le x y ∨ le y x)
    (htrans : ∀ x y z, le x y → le y z → le x z) (xs : List α) : (sortBy lt xs).Pairwise le :=
  exchangeSort_pairwise hlt htotal htrans (Nat.le_refl _)

end Sorts

theorem priorities_pairwise (slots : List Slot) : (priorities slots).Pairwise (· < ·) := by
  have hle : (priorities slots).Pairwise (· ≤ ·) := by
    apply sortBy_pairwise
    · intro x y
      simp
    · exact Int.le_total
    · exact fun _ _ _ => Int.le_trans
  have hnodup : (priorities slots).Nodup :=
    (sortBy_perm _ _).nodup_iff.mpr (List.nodup_dedup _)
  refine (hle.and hnodup).imp fun {p q} h => ?_
  exact lt_of_le_of_ne h.1 h.2

theorem emergencyOrder_pairwise (b : Balance) (slots : List Slot) :
    (emergencyOrder b slots).Pairwise (Sooner b) := by
  apply sortBy_pairwise
  · intro s t
    unfold Sooner
    simp only [Bool.or_eq_true, Bool.and_eq_true, decide_eq_true_eq]
    omega
  · intro s t
    unfold Sooner
    omega
  · intro s t u hst htu
    unfold Sooner at *
    omega

/-- The targets of one priority: those with a free slot come first. -/
theorem tierOrder_pairwise (b : Balance) (policy : LbPolicy) {p : ℤ} {pool : List Slot}
    (hp : ∀ s ∈ pool, s.1.priority = p) : (tierOrder b policy p pool).Pairwise (Before b) := by
  have hbefore : ∀ s ∈ pool, ∀ t ∈ pool, (saturated b s.1 = true → saturated b t.1 = true) →
      Before b s t :=
    fun s hs t ht hsat => Or.inr ⟨(hp s hs).trans (hp t ht).symm, hsat⟩
  have hmem : ∀ {q : Slot → Bool} {s : Slot}, s ∈ balanceTier b policy p (pool.filter q) →
      s ∈ pool ∧ q s = true := by
    intro q s hs
    exact List.mem_filter.mp ((balanceTier_perm b policy p _).mem_iff.mp hs)
  unfold tierOrder
  dsimp only
  split
  · apply List.pairwise_append.mpr
    refine ⟨?_, ?_, ?_⟩
    · apply List.pairwise_of_forall_mem_list
      intro s hs t ht
      obtain ⟨hs, hfree⟩ := hmem hs
      exact hbefore s hs t (hmem ht).1 fun hfull => by simp [hfull] at hfree
    · apply List.pairwise_of_forall_mem_list
      intro s hs t ht
      obtain ⟨ht, hfull⟩ := List.mem_filter.mp ht
      exact hbefore s (List.mem_filter.mp hs).1 t ht fun _ => hfull
    · intro s hs t ht
      obtain ⟨ht, hfull⟩ := List.mem_filter.mp ht
      exact hbefore s (hmem hs).1 t ht fun _ => hfull
  · rename_i hone
    apply List.pairwise_of_forall_mem_list
    intro s hs t ht
    have hs := (balanceTier_perm b policy p pool).mem_iff.mp hs
    have ht := (balanceTier_perm b policy p pool).mem_iff.mp ht
    apply hbefore s hs t ht
    intro hfull
    by_contra hfree
    refine hone ⟨List.ne_nil_of_mem (List.mem_filter.mpr ⟨ht, ?_⟩),
      List.ne_nil_of_mem (List.mem_filter.mpr ⟨hs, hfull⟩)⟩
    simpa using hfree

theorem healthyOrder_pairwise (b : Balance) (policy : LbPolicy) (slots healthy : List Slot) :
    (healthyOrder b policy slots healthy).Pairwise (Before b) := by
  have hmem : ∀ p, ∀ s ∈ tierOrder b policy p (healthy.filter fun s => s.1.priority = p),
      s.1.priority = p := by
    intro p s hs
    have hfilter := (tierOrder_perm b policy p _).mem_iff.mp hs
    simpa using (List.mem_filter.mp hfilter).2
  apply List.pairwise_flatMap.mpr
  constructor
  · intro p _
    apply tierOrder_pairwise
    intro s hs
    simpa using (List.mem_filter.mp hs).2
  · refine (priorities_pairwise slots).imp fun {p q} hlt s hs t ht => ?_
    left
    rw [hmem p s hs, hmem q t ht]
    exact hlt

/-! The slots that are chosen. -/

theorem zipIdx_zipIdx (ts : List Target) (k : ℕ) :
    (ts.zipIdx k).zipIdx k = (ts.zipIdx k).map fun s => (s, s.2) := by
  induction ts generalizing k with
  | nil => rfl
  | cons t ts ih =>
    rw [List.zipIdx_cons, List.zipIdx_cons, List.map_cons, ih (k + 1)]

/-- The answers of the breaker, for the targets at their places. -/
def snapshotOf (allowed : ℕ → Bool) (ts : List Target) : List (Target × Bool) :=
  ts.zipIdx.map fun s => (s.1, allowed s.2)

theorem zipIdx_snapshotOf (allowed : ℕ → Bool) (ts : List Target) :
    (snapshotOf allowed ts).zipIdx = ts.zipIdx.map fun s => ((s.1, allowed s.2), s.2) := by
  rw [snapshotOf, List.zipIdx_map, zipIdx_zipIdx, List.map_map]
  rfl

theorem slotsOf_snapshotOf (allowed : ℕ → Bool) (ts : List Target) :
    slotsOf (snapshotOf allowed ts) = ts.zipIdx := by
  rw [slotsOf, zipIdx_snapshotOf, List.map_map]
  exact List.map_id _

theorem allowedSlots_snapshotOf (allowed : ℕ → Bool) (ts : List Target) :
    allowedSlots (snapshotOf allowed ts) = ts.zipIdx.filter fun s => allowed s.2 := by
  rw [allowedSlots, zipIdx_snapshotOf, List.filter_map, List.map_map]
  exact List.map_id _

theorem allowedSlots_ne_nil {allowed : ℕ → Bool} {ts : List Target} :
    allowedSlots (snapshotOf allowed ts) ≠ [] ↔ AnyAllowed allowed ts := by
  rw [allowedSlots_snapshotOf, ne_eq, List.filter_eq_nil_iff]
  constructor
  · intro h
    push Not at h
    obtain ⟨s, hs, hallowed⟩ := h
    obtain ⟨hlt, -⟩ := List.getElem?_eq_some_iff.mp (List.mem_zipIdx_iff_getElem?.mp hs)
    exact ⟨s.2, hlt, hallowed⟩
  · intro ⟨j, hj, hallowed⟩ hnone
    have hmem : (ts[j], j) ∈ ts.zipIdx :=
      List.mk_mem_zipIdx_iff_getElem?.mpr (List.getElem?_eq_getElem hj)
    exact hnone _ hmem hallowed

theorem orderSlots_selected (b : Balance) (policy : LbPolicy) (allowed : ℕ → Bool)
    (ts : List Target) : Selected allowed ts (orderSlots b policy (snapshotOf allowed ts)) := by
  have hperm := orderSlots_perm b policy (snapshotOf allowed ts)
  have hnodup : (ts.zipIdx.map Prod.snd).Nodup := List.nodup_zipIdx_map_snd ts
  by_cases hany : AnyAllowed allowed ts
  · rw [if_pos (allowedSlots_ne_nil.mpr hany), allowedSlots_snapshotOf] at hperm
    refine ⟨?_, fun t i => ?_⟩
    · apply (hperm.map Prod.snd).nodup_iff.mpr
      exact hnodup.sublist (List.filter_sublist.map Prod.snd)
    · rw [hperm.mem_iff, List.mem_filter, List.mk_mem_zipIdx_iff_getElem?]
      simp [hany]
  · rw [if_neg (fun h => hany (allowedSlots_ne_nil.mp h)), slotsOf_snapshotOf] at hperm
    refine ⟨(hperm.map Prod.snd).nodup_iff.mpr hnodup, fun t i => ?_⟩
    rw [hperm.mem_iff, List.mk_mem_zipIdx_iff_getElem?]
    simp [hany]

theorem orderSlots_length_le (b : Balance) (policy : LbPolicy) (allowed : ℕ → Bool)
    (ts : List Target) : (orderSlots b policy (snapshotOf allowed ts)).length ≤ ts.length := by
  rw [(orderSlots_perm b policy _).length_eq]
  split
  · rw [allowedSlots_snapshotOf]
    exact (List.length_filter_le _ _).trans_eq List.length_zipIdx
  · rw [slotsOf_snapshotOf, List.length_zipIdx]

theorem sourceTargets_ne_nil {r : Route} {ts : List Target} (h : sourceTargets r = some ts) :
    ts ≠ [] := by
  unfold sourceTargets at h
  split at h
  · split at h
    · cases h
    · obtain rfl := Option.some.inj h
      exact List.cons_ne_nil _ _
  · rename_i hne
    obtain rfl := Option.some.inj h
    exact fun hmap => hne (List.map_eq_nil_iff.mp hmap)

/-- With room for all targets the candidates are exactly those that the breaker allows, in the
order that it promises, and all in the order of their recovery if it allows none. -/
theorem candidates_ordered (b : Balance) (allowed : ℕ → Bool) {r : Route} {ts : List Target}
    {cap : ℕ} (hts : sourceTargets r = some ts) (hcap : ts.length ≤ cap) :
    ∃ out, selectCandidates b allowed r cap = some out ∧ Selected allowed ts out ∧
      (AnyAllowed allowed ts → out.Pairwise (Before b)) ∧
      (¬ AnyAllowed allowed ts → out.Pairwise (Sooner b)) := by
  have hpos : cap ≠ 0 := by
    have hlen := List.length_pos_iff.mpr (sourceTargets_ne_nil hts)
    omega
  have htake : (orderSlots b (lbPolicyOf r.lbPolicy) (snapshotOf allowed ts)).take cap =
      orderSlots b (lbPolicyOf r.lbPolicy) (snapshotOf allowed ts) :=
    List.take_of_length_le ((orderSlots_length_le b _ allowed ts).trans hcap)
  refine ⟨orderSlots b (lbPolicyOf r.lbPolicy) (snapshotOf allowed ts), ?_,
    orderSlots_selected b _ allowed ts, fun hany => ?_, fun hnone => ?_⟩
  · rw [selectCandidates, if_neg hpos, hts, Option.map_some]
    exact congrArg some htake
  · rw [orderSlots, if_pos (allowedSlots_ne_nil.mpr hany)]
    exact healthyOrder_pairwise b _ _ _
  · rw [orderSlots, if_neg (fun h => hnone (allowedSlots_ne_nil.mp h))]
    exact emergencyOrder_pairwise b _

def target (name : Char) (priority : ℤ) : Target := ⟨['p'], [name], 1, priority, 0, by simp⟩

/-- Two targets, the second for when the first one fails. -/
def fallback : Route := ⟨[], [], [], [target 'a' 0, target 'b' 1], [], 0, false, Nat.zero_le _,
  Nat.zero_le _, by decide⟩

/-- The second target recovers first. -/
def recovering : Balance :=
  ⟨fun _ => 0, fun _ => 0, fun _ => 0, fun _ => 0, fun e => if e = ['a'] then 20 else 10,
    fun _ _ => 0⟩

theorem candidates_ordered_fallback : ∃ out,
    selectCandidates recovering (fun _ => true) fallback 2 = some out ∧
      Selected (fun _ => true) [target 'a' 0, target 'b' 1] out ∧
      (AnyAllowed (fun _ => true) [target 'a' 0, target 'b' 1] → out.Pairwise (Before recovering)) ∧
      (¬ AnyAllowed (fun _ => true) [target 'a' 0, target 'b' 1] →
        out.Pairwise (Sooner recovering)) :=
  candidates_ordered recovering (fun _ => true) (by decide) (by decide)

/-- While no target is allowed the second one comes first. -/
theorem not_ordered_recovering :
    selectCandidates recovering (fun _ => false) fallback 2 =
      some [(target 'b' 1, 1), (target 'a' 0, 0)] ∧
    ¬ [(target 'b' 1, 1), (target 'a' 0, 0)].Pairwise (Before recovering) := by
  constructor
  · decide +kernel
  · intro h
    have hbefore := List.rel_of_pairwise_cons h List.mem_cons_self
    revert hbefore
    unfold Before
    decide

end Aigate.CandidateOrder
