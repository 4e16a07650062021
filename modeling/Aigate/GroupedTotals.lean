import Mathlib.Algebra.BigOperators.Group.List.Basic
import Mathlib.Data.List.Nodup
import Mathlib.Tactic.Abel

/-!
# Totals of grouped rows

Rows are added one after the other to a table with one group for each key. A group takes
the weights of its rows, so for every key the groups have the total of the rows; the table
needs no more room than there are rows.
-/
namespace Aigate.GroupedTotals

variable {α β κ M : Type*} [DecidableEq κ] [AddCommMonoid M]

/-- The weights of the rows with a key. -/
def totalOf (key : α → κ) (weight : α → M) (k : κ) (rows : List α) : M :=
  ((rows.filter fun a => key a = k).map weight).sum

/-- How rows are grouped: the group that a first row opens, and a group with one more row. -/
structure Grouping (α β κ M : Type*) [AddCommMonoid M] where
  rowKey : α → κ
  rowWeight : α → M
  key : β → κ
  weight : β → M
  opened : α → β
  absorb : β → α → β
  key_opened : ∀ a, key (opened a) = rowKey a
  weight_opened : ∀ a, weight (opened a) = rowWeight a
  key_absorb : ∀ b a, key (absorb b a) = key b
  weight_absorb : ∀ b a, weight (absorb b a) = weight b + rowWeight a

/-- The row goes to the first group with its key, or opens a group if there is room. -/
def Grouping.put (G : Grouping α β κ M) (cap : ℕ) (groups : List β) (a : α) : List β :=
  match groups.findIdx? fun b => G.key b = G.rowKey a with
  | some i => groups.modify i fun b => G.absorb b a
  | none => if groups.length < cap then groups ++ [G.opened a] else groups

/-- The groups of some rows. -/
def Grouping.groups (G : Grouping α β κ M) (cap : ℕ) (rows : List α) : List β :=
  rows.foldl (G.put cap) []

variable (G : Grouping α β κ M)

theorem totalOf_append (key : α → κ) (weight : α → M) (k : κ) (rows rows' : List α) :
    totalOf key weight k (rows ++ rows') =
      totalOf key weight k rows + totalOf key weight k rows' := by
  simp [totalOf]

theorem totalOf_singleton (key : α → κ) (weight : α → M) (k : κ) (a : α) :
    totalOf key weight k [a] = if key a = k then weight a else 0 := by
  unfold totalOf
  by_cases h : key a = k
  · simp [h]
  · simp [h]

theorem totalOf_cons (key : α → κ) (weight : α → M) (k : κ) (a : α) (rows : List α) :
    totalOf key weight k (a :: rows) =
      (if key a = k then weight a else 0) + totalOf key weight k rows := by
  rw [← List.singleton_append, totalOf_append, totalOf_singleton]

theorem totalOf_map {γ : Type*} (key : α → κ) (weight : α → M) (f : γ → α) (k : κ)
    (rows : List γ) : totalOf key weight k (rows.map f) =
      totalOf (fun c => key (f c)) (fun c => weight (f c)) k rows := by
  unfold totalOf
  rw [List.filter_map, List.map_map]
  rfl

/-- What adding a row does: one group takes it, or a new group comes at the end. -/
theorem Grouping.put_cases {cap : ℕ} {groups : List β} (hroom : groups.length < cap) (a : α) :
    (∃ front b back, groups = front ++ b :: back ∧ G.key b = G.rowKey a ∧
      G.put cap groups a = front ++ G.absorb b a :: back) ∨
    ((∀ b ∈ groups, G.key b ≠ G.rowKey a) ∧ G.put cap groups a = groups ++ [G.opened a]) := by
  unfold Grouping.put
  cases hfind : groups.findIdx? fun b => G.key b = G.rowKey a with
  | some i =>
    obtain ⟨hi, hkey, -⟩ := List.findIdx?_eq_some_iff_getElem.mp hfind
    refine .inl ⟨groups.take i, groups[i], groups.drop (i + 1), ?_, by simpa using hkey, ?_⟩
    · rw [← List.drop_eq_getElem_cons hi, List.take_append_drop]
    · exact List.modify_eq_take_cons_drop hi
  | none =>
    refine .inr ⟨fun b hb => by simpa using List.findIdx?_eq_none_iff.mp hfind b hb, ?_⟩
    exact if_pos hroom

theorem Grouping.totalOf_put {cap : ℕ} {groups : List β} (hroom : groups.length < cap) (a : α)
    (k : κ) : totalOf G.key G.weight k (G.put cap groups a) =
      totalOf G.key G.weight k groups + totalOf G.rowKey G.rowWeight k [a] := by
  rw [totalOf_singleton]
  rcases G.put_cases hroom a with ⟨front, b, back, rfl, hkey, hput⟩ | ⟨-, hput⟩
  · rw [hput, totalOf_append, totalOf_append, totalOf_cons, totalOf_cons, G.key_absorb,
      G.weight_absorb, hkey]
    split_ifs
    · abel
    · simp
  · rw [hput, totalOf_append, totalOf_singleton, G.key_opened, G.weight_opened]

theorem Grouping.length_put_le (cap : ℕ) (groups : List β) (a : α) :
    (G.put cap groups a).length ≤ groups.length + 1 := by
  unfold Grouping.put
  split
  · simp
  · split
    · simp
    · simp

theorem Grouping.nodup_put {cap : ℕ} {groups : List β} (hroom : groups.length < cap) (a : α)
    (hnd : (groups.map G.key).Nodup) : ((G.put cap groups a).map G.key).Nodup := by
  rcases G.put_cases hroom a with ⟨front, b, back, rfl, -, hput⟩ | ⟨hnone, hput⟩
  · simpa [hput, G.key_absorb] using hnd
  · rw [hput, List.map_append, List.map_singleton, G.key_opened]
    refine List.nodup_append.mpr ⟨hnd, List.nodup_singleton _, fun x hx y hy => ?_⟩
    obtain ⟨b, hb, rfl⟩ := List.mem_map.mp hx
    rw [List.mem_singleton.mp hy]
    exact hnone b hb

/-- After any number of rows that fit: one group a key, with the total of its rows. -/
theorem Grouping.foldl_put {cap : ℕ} (rows : List α) (groups : List β)
    (hroom : groups.length + rows.length ≤ cap) (hnd : (groups.map G.key).Nodup) :
    ((rows.foldl (G.put cap) groups).map G.key).Nodup ∧
      ∀ k, totalOf G.key G.weight k (rows.foldl (G.put cap) groups) =
        totalOf G.key G.weight k groups + totalOf G.rowKey G.rowWeight k rows := by
  induction rows generalizing groups with
  | nil => exact ⟨hnd, fun k => by simp [totalOf]⟩
  | cons a rest ih =>
    rw [List.length_cons] at hroom
    have hlt : groups.length < cap := by omega
    have hlen := G.length_put_le cap groups a
    obtain ⟨hnd', htotal⟩ := ih (G.put cap groups a) (by omega) (G.nodup_put hlt a hnd)
    refine ⟨hnd', fun k => ?_⟩
    rw [List.foldl_cons, htotal k, G.totalOf_put hlt, totalOf_singleton, totalOf_cons, add_assoc]

theorem Grouping.nodup_groups {cap : ℕ} {rows : List α} (hroom : rows.length ≤ cap) :
    ((G.groups cap rows).map G.key).Nodup :=
  (G.foldl_put rows [] (by simpa using hroom) (by simp)).1

theorem Grouping.totalOf_groups {cap : ℕ} {rows : List α} (hroom : rows.length ≤ cap) (k : κ) :
    totalOf G.key G.weight k (G.groups cap rows) = totalOf G.rowKey G.rowWeight k rows := by
  have h := (G.foldl_put rows [] (by simpa using hroom) (by simp)).2 k
  rw [Grouping.groups, h]
  simp [totalOf]

end Aigate.GroupedTotals
