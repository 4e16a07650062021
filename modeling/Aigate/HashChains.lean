import Mathlib.Logic.Function.Basic
import Mathlib.Data.List.Basic
import Mathlib.Data.List.Nodup
import Mathlib.Algebra.BigOperators.Group.Finset.Piecewise
import Mathlib.Algebra.Order.BigOperators.Group.Finset
import Mathlib.Tactic.Ring

/-!
# Hash tables with chains

A table of chains; a key is looked up in the chain of its hash, and the first node with the
key is taken. An update changes that node in place; where there is none, a new one goes to
the head of the chain.
-/
namespace Aigate.HashChains

variable {ι κ α : Type*} [DecidableEq ι] [DecidableEq κ]

/-- The node of a key. -/
def find (hash : κ → ι) (key : α → κ) (t : ι → List α) (k : κ) : Option α :=
  (t (hash k)).find? fun a => decide (key a = k)

/-- Change the first node of a key. -/
def adjust (key : α → κ) (k : κ) (f : α → α) : List α → List α
  | [] => []
  | a :: rest => if key a = k then f a :: rest else a :: adjust key k f rest

/-- Change the node of a key, or the new node, if there is one, before it is put in. -/
def upsert (hash : κ → ι) (key : α → κ) (t : ι → List α) (k : κ) (fresh : Option α) (f : α → α) :
    ι → List α :=
  match find hash key t k, fresh with
  | some _, _ => Function.update t (hash k) (adjust key k f (t (hash k)))
  | none, some a => Function.update t (hash k) (f a :: t (hash k))
  | none, none => t

/-- A new node goes to the head of its chain. -/
theorem upsert_of_missing {hash : κ → ι} {key : α → κ} {t : ι → List α} {k : κ}
    (h : find hash key t k = none) (a : α) (f : α → α) :
    upsert hash key t k (some a) f = Function.update t (hash k) (f a :: t (hash k)) := by
  simp [upsert, h]

theorem find?_adjust {key : α → κ} {f : α → α} (hf : ∀ a, key (f a) = key a) (k k' : κ)
    (chain : List α) : (adjust key k f chain).find? (fun a => decide (key a = k')) =
      (chain.find? fun a => decide (key a = k')).map fun a => if k' = k then f a else a := by
  induction chain with
  | nil => rfl
  | cons a rest ih =>
    by_cases hk : key a = k
    · rw [adjust, if_pos hk, List.find?_cons, List.find?_cons, hf]
      by_cases hk' : key a = k'
      · simp [hk', hk'.symm.trans hk]
      · have hne : k' ≠ k := fun h => hk' (hk.trans h.symm)
        simp [hk', hne]
    · rw [adjust, if_neg hk, List.find?_cons, List.find?_cons, ih]
      by_cases hk' : key a = k'
      · have hne : k' ≠ k := fun h => hk (hk'.trans h)
        simp [hk', hne]
      · simp [hk']

/-- An update shows at its key, and nowhere else. -/
theorem find_upsert {hash : κ → ι} {key : α → κ} {f : α → α} (hf : ∀ a, key (f a) = key a)
    {t : ι → List α} {k : κ} {fresh : Option α} (hfresh : ∀ a ∈ fresh, key a = k) (k' : κ) :
    find hash key (upsert hash key t k fresh f) k' =
      if k' = k then ((find hash key t k).or fresh).map f else find hash key t k' := by
  unfold upsert
  cases hfind : find hash key t k with
  | some a =>
    unfold find at hfind ⊢
    dsimp only
    by_cases hh : hash k' = hash k
    · rw [hh, Function.update_self, find?_adjust hf]
      by_cases hk : k' = k
      · rw [if_pos hk, hk, hfind]
        simp
      · rw [if_neg hk]
        simp [hk]
    · have hk : k' ≠ k := fun h => hh (congrArg hash h)
      rw [Function.update_of_ne hh, if_neg hk]
  | none =>
    cases fresh with
    | none =>
      dsimp only
      split
      · subst k'
        rw [hfind]
        rfl
      · rfl
    | some a =>
      have ha : key (f a) = k := (hf a).trans (hfresh a rfl)
      unfold find
      dsimp only
      by_cases hh : hash k' = hash k
      · rw [hh, Function.update_self, List.find?_cons, ha]
        by_cases hk : k' = k
        · simp [hk]
        · simp [hk, Ne.symm hk]
      · have hk : k' ≠ k := fun h => hh (congrArg hash h)
        rw [Function.update_of_ne hh, if_neg hk]

/-! ### Tables with one node for a key -/

/-- Take the first node of a key out of its chain. -/
def discard (hash : κ → ι) (key : α → κ) (t : ι → List α) (k : κ) : ι → List α :=
  Function.update t (hash k) ((t (hash k)).eraseP fun a => decide (key a = k))

/-- Every node stands in the chain of its key, and no chain has two nodes of one key. -/
structure Tidy (hash : κ → ι) (key : α → κ) (t : ι → List α) : Prop where
  home : ∀ i, ∀ a ∈ t i, hash (key a) = i
  nodup : ∀ i, ((t i).map key).Nodup

theorem map_adjust {key : α → κ} {f : α → α} (hf : ∀ a, key (f a) = key a) (k : κ)
    (chain : List α) : (adjust key k f chain).map key = chain.map key := by
  induction chain with
  | nil => rfl
  | cons a rest ih =>
    by_cases hk : key a = k
    · simp [adjust, hk, hf]
    · simp [adjust, hk, ih]

theorem length_adjust (key : α → κ) (k : κ) (f : α → α) (chain : List α) :
    (adjust key k f chain).length = chain.length := by
  induction chain with
  | nil => rfl
  | cons a rest ih =>
    by_cases hk : key a = k
    · simp [adjust, hk]
    · simp [adjust, hk, ih]

omit [DecidableEq ι] in
theorem find_eq_none_iff {hash : κ → ι} {key : α → κ} {t : ι → List α} {k : κ} :
    find hash key t k = none ↔ k ∉ (t (hash k)).map key := by
  simp [find]

omit [DecidableEq ι] in
theorem find_eq_some {hash : κ → ι} {key : α → κ} {t : ι → List α} {k : κ} {a : α}
    (h : find hash key t k = some a) : a ∈ t (hash k) ∧ key a = k :=
  ⟨List.mem_of_find?_eq_some h, by simpa using List.find?_some h⟩

omit [DecidableEq ι] [DecidableEq κ] in
theorem Tidy.empty (hash : κ → ι) (key : α → κ) : Tidy hash key fun _ => [] :=
  ⟨fun _ _ h => absurd h List.not_mem_nil, fun _ => List.nodup_nil⟩

omit [DecidableEq κ] in
/-- A chain may be replaced by one of the same home. -/
theorem Tidy.update {hash : κ → ι} {key : α → κ} {t : ι → List α} (h : Tidy hash key t) {i : ι}
    {chain : List α} (hhome : ∀ k ∈ chain.map key, hash k = i) (hnodup : (chain.map key).Nodup) :
    Tidy hash key (Function.update t i chain) := by
  constructor
  · intro j a ha
    by_cases hj : j = i
    · subst hj
      rw [Function.update_self] at ha
      exact hhome _ (List.mem_map_of_mem ha)
    · rw [Function.update_of_ne hj] at ha
      exact h.home j a ha
  · intro j
    by_cases hj : j = i
    · subst hj
      rwa [Function.update_self]
    · rw [Function.update_of_ne hj]
      exact h.nodup j

omit [DecidableEq ι] [DecidableEq κ] in
theorem Tidy.home_map {hash : κ → ι} {key : α → κ} {t : ι → List α} (h : Tidy hash key t) (i : ι) :
    ∀ k ∈ (t i).map key, hash k = i := by
  intro k hk
  obtain ⟨a, ha, rfl⟩ := List.mem_map.mp hk
  exact h.home i a ha

theorem Tidy.upsert {hash : κ → ι} {key : α → κ} {f : α → α} (hf : ∀ a, key (f a) = key a)
    {t : ι → List α} (h : Tidy hash key t) {k : κ} {fresh : Option α}
    (hfresh : ∀ a ∈ fresh, key a = k) : Tidy hash key (upsert hash key t k fresh f) := by
  unfold HashChains.upsert
  cases hfind : find hash key t k with
  | some a =>
    refine h.update ?_ ?_
    · rw [map_adjust hf]
      exact h.home_map _
    · rw [map_adjust hf]
      exact h.nodup _
  | none =>
    cases fresh with
    | none => exact h
    | some a =>
      have ha : key (f a) = k := (hf a).trans (hfresh a rfl)
      refine h.update ?_ ?_
      · rw [List.map_cons, List.forall_mem_cons, ha]
        exact ⟨rfl, h.home_map _⟩
      · rw [List.map_cons, List.nodup_cons, ha]
        exact ⟨find_eq_none_iff.mp hfind, h.nodup _⟩

theorem Tidy.discard {hash : κ → ι} {key : α → κ} {t : ι → List α} (h : Tidy hash key t) (k : κ) :
    Tidy hash key (discard hash key t k) := by
  have hsub : (((t (hash k)).eraseP fun a => decide (key a = k)).map key).Sublist
      ((t (hash k)).map key) := List.eraseP_sublist.map key
  exact h.update (fun k' hk' => h.home_map _ k' (hsub.subset hk')) (hsub.nodup (h.nodup _))

/-- In a chain without two nodes of one key nothing is left of a key that is taken out. -/
theorem not_mem_map_eraseP {key : α → κ} {chain : List α} (h : (chain.map key).Nodup) (k : κ) :
    k ∉ (chain.eraseP fun a => decide (key a = k)).map key := by
  induction chain with
  | nil => simp
  | cons a rest ih =>
    obtain ⟨hnot, hrest⟩ := List.nodup_cons.mp h
    by_cases hk : key a = k
    · rw [List.eraseP_cons_of_pos (by simpa using hk), ← hk]
      exact hnot
    · rw [List.eraseP_cons_of_neg (by simpa using hk), List.map_cons, List.mem_cons, not_or]
      exact ⟨fun heq => hk heq.symm, ih hrest⟩

theorem find?_eraseP {key : α → κ} {k k' : κ} (hne : k' ≠ k) (chain : List α) :
    (chain.eraseP fun a => decide (key a = k)).find? (fun a => decide (key a = k')) =
      chain.find? fun a => decide (key a = k') := by
  induction chain with
  | nil => rfl
  | cons a rest ih =>
    by_cases hk : key a = k
    · rw [List.eraseP_cons_of_pos (by simpa using hk), List.find?_cons, hk]
      simp [hne.symm]
    · rw [List.eraseP_cons_of_neg (by simpa using hk), List.find?_cons, List.find?_cons, ih]

/-- A node that is taken out is missing at its key, and nowhere else. -/
theorem Tidy.find_discard {hash : κ → ι} {key : α → κ} {t : ι → List α} (h : Tidy hash key t)
    (k k' : κ) : find hash key (HashChains.discard hash key t k) k' =
      if k' = k then none else find hash key t k' := by
  by_cases hk : k' = k
  · subst hk
    rw [if_pos rfl, find_eq_none_iff, HashChains.discard, Function.update_self]
    exact not_mem_map_eraseP (h.nodup _) k'
  · rw [if_neg hk]
    unfold find HashChains.discard
    by_cases hh : hash k' = hash k
    · rw [hh, Function.update_self, find?_eraseP hk]
    · rw [Function.update_of_ne hh]

variable [Fintype ι]

/-- The number of nodes. -/
def total (t : ι → List α) : ℕ := ∑ i, (t i).length

theorem total_update (t : ι → List α) (i : ι) (chain : List α) :
    total (Function.update t i chain) + (t i).length = total t + chain.length := by
  have hsplit : ∀ u : ι → List α, total u =
      (u i).length + ∑ j ∈ Finset.univ.erase i, (u j).length := fun u =>
    (Finset.add_sum_erase _ _ (Finset.mem_univ i)).symm
  have hrest : ∑ j ∈ Finset.univ.erase i, (Function.update t i chain j).length =
      ∑ j ∈ Finset.univ.erase i, (t j).length := by
    refine Finset.sum_congr rfl fun j hj => ?_
    rw [Function.update_of_ne (Finset.ne_of_mem_erase hj)]
  rw [hsplit, hsplit t, hrest, Function.update_self]
  ring

theorem total_upsert (hash : κ → ι) (key : α → κ) (t : ι → List α) (k : κ) (fresh : Option α)
    (f : α → α) : total (upsert hash key t k fresh f) =
      total t + if find hash key t k = none ∧ fresh ≠ none then 1 else 0 := by
  unfold upsert
  cases hfind : find hash key t k with
  | some a =>
    have hsum := total_update t (hash k) (adjust key k f (t (hash k)))
    rw [length_adjust] at hsum
    simpa using hsum
  | none =>
    cases fresh with
    | none => simp
    | some a =>
      have hsum := total_update t (hash k) (f a :: t (hash k))
      rw [List.length_cons] at hsum
      simp only [ne_eq, reduceCtorEq, not_false_eq_true, and_self, if_true]
      omega

theorem total_discard (hash : κ → ι) (key : α → κ) (t : ι → List α) (k : κ) :
    total (discard hash key t k) = total t - if find hash key t k = none then 0 else 1 := by
  have hsum := total_update t (hash k) ((t (hash k)).eraseP fun a => decide (key a = k))
  unfold discard
  cases hfind : find hash key t k with
  | none =>
    have hnot : ∀ a ∈ t (hash k), ¬decide (key a = k) = true := List.find?_eq_none.mp hfind
    rw [List.eraseP_of_forall_not hnot]
    simp
  | some a =>
    obtain ⟨ha, hkey⟩ := find_eq_some hfind
    have hlength := List.length_eraseP_of_mem ha (p := fun a => decide (key a = k)) (by simpa)
    have hpos := List.length_pos_of_mem ha
    rw [hlength] at hsum
    simp only [reduceCtorEq, if_false]
    omega

/-- A key has at most one node in the whole table. -/
theorem Tidy.sum_countP_le {hash : κ → ι} {key : α → κ} {t : ι → List α} (h : Tidy hash key t)
    (k : κ) : ∑ i, (t i).countP (fun a => decide (key a = k)) ≤ 1 := by
  have hone : ∀ i, (t i).countP (fun a => decide (key a = k)) ≤ if i = hash k then 1 else 0 := by
    intro i
    split
    · have hcount := (List.nodup_iff_count_le_one.mp (h.nodup i)) k
      rw [List.count, List.countP_map] at hcount
      exact hcount
    · rename_i hi
      rw [Nat.le_zero, List.countP_eq_zero]
      intro a ha hk
      rw [decide_eq_true_iff] at hk
      exact hi ((h.home i a ha).symm.trans (congrArg hash hk))
  have hsum : ∑ i, (if i = hash k then 1 else 0) = 1 := by simp
  exact hsum ▸ Finset.sum_le_sum fun i _ => hone i

end Aigate.HashChains
