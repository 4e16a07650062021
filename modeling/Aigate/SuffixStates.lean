import Mathlib

/-!
# Longest suffixes among a set of states

A matching automaton over a prefix-closed set of words is in the state that is the longest
suffix of what it has read. The state after one more letter depends on the state alone, and
a word of the set ends the text exactly when it ends the state.
-/
namespace Aigate.SuffixStates

variable {α : Type*}

theorem eq_of_suffix_of_suffix {u v : List α} (huv : u <:+ v) (hvu : v <:+ u) : u = v :=
  huv.eq_of_length (le_antisymm huv.length_le hvu.length_le)

/-- A word that ends a nonempty text is the whole text or ends its tail. -/
theorem suffix_iff_eq_or_tail {u w : List α} (hw : w ≠ []) :
    u <:+ w ↔ u = w ∨ u <:+ w.tail := by
  cases w with
  | nil => exact absurd rfl hw
  | cons a t => exact List.suffix_cons_iff

variable [DecidableEq α] {states : List (List α)}

/-- The longest suffix of a word that is a state. -/
def longest (states : List (List α)) : List α → List α
  | [] => []
  | c :: w => if c :: w ∈ states then c :: w else longest states w

/-- Every prefix of a state is a state. -/
structure PrefixClosed (states : List (List α)) : Prop where
  empty : [] ∈ states
  init : ∀ w c, w ++ [c] ∈ states → w ∈ states

theorem longest_suffix (states : List (List α)) (w : List α) : longest states w <:+ w := by
  induction w with
  | nil => exact List.suffix_refl []
  | cons c w ih =>
    by_cases h : c :: w ∈ states
    · simp [longest, h]
    · simp only [longest, h, if_false]
      exact ih.trans (List.suffix_cons c w)

theorem longest_length_le (states : List (List α)) (w : List α) :
    (longest states w).length ≤ w.length :=
  (longest_suffix states w).length_le

theorem longest_mem (h : PrefixClosed states) (w : List α) : longest states w ∈ states := by
  induction w with
  | nil => exact h.empty
  | cons c w ih =>
    by_cases hw : c :: w ∈ states
    · simp [longest, hw]
    · simpa [longest, hw] using ih

theorem suffix_longest {u w : List α} (hu : u ∈ states) (hs : u <:+ w) :
    u <:+ longest states w := by
  induction w with
  | nil => exact hs
  | cons c w ih =>
    by_cases hw : c :: w ∈ states
    · simpa [longest, hw] using hs
    · simp only [longest, hw, if_false]
      rcases List.suffix_cons_iff.mp hs with rfl | hs
      · exact absurd hu hw
      · exact ih hs

theorem longest_of_mem {w : List α} (h : w ∈ states) : longest states w = w := by
  cases w with
  | nil => rfl
  | cons c w => simp [longest, h]

/-- Reading one more letter needs only the state. -/
theorem longest_concat (h : PrefixClosed states) (w : List α) (c : α) :
    longest states (w ++ [c]) = longest states (longest states w ++ [c]) := by
  apply eq_of_suffix_of_suffix
  · apply suffix_longest (longest_mem h _)
    have hs := longest_suffix states (w ++ [c])
    rcases List.suffix_concat_iff.mp hs with he | ⟨u, hu, hsu⟩
    · rw [he]
      exact List.nil_suffix
    · have hmem : u ∈ states := h.init u c (hu ▸ longest_mem h _)
      rw [hu]
      exact List.suffix_concat_iff.mpr (Or.inr ⟨u, rfl, suffix_longest hmem hsu⟩)
  · apply suffix_longest (longest_mem h _)
    refine (longest_suffix states _).trans ?_
    exact List.suffix_concat_iff.mpr (Or.inr ⟨_, rfl, longest_suffix states w⟩)

/-- A state ends the text exactly when it ends the current state. -/
theorem suffix_longest_iff {u : List α} (hu : u ∈ states) (w : List α) :
    u <:+ longest states w ↔ u <:+ w :=
  ⟨fun h => h.trans (longest_suffix states w), suffix_longest hu⟩

/-- Where a state cannot be extended, its failure state is extended in its place. -/
theorem longest_concat_of_not_mem (h : PrefixClosed states) {w : List α} {c : α}
    (hw : w ≠ []) (hc : w ++ [c] ∉ states) :
    longest states (w ++ [c]) = longest states (longest states w.tail ++ [c]) := by
  cases w with
  | nil => exact absurd rfl hw
  | cons a t =>
    rw [List.tail_cons, ← longest_concat h t c]
    simp only [List.cons_append] at hc ⊢
    simp [longest, hc]

/-- The failure state of an extension extends the failure state. -/
theorem longest_tail_concat (h : PrefixClosed states) {w : List α} (hw : w ≠ []) (c : α) :
    longest states (w ++ [c]).tail = longest states (longest states w.tail ++ [c]) := by
  cases w with
  | nil => exact absurd rfl hw
  | cons a t => simpa using longest_concat h t c

end Aigate.SuffixStates
