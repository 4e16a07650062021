import Mathlib.Data.List.Basic

/-!
# Lines of a text that arrives in chunks

A reader keeps the part of a line that has arrived. However the text is cut into chunks, the
lines that are completed are those of the whole text.
-/
namespace Aigate.LineBuffer

variable {α : Type*} [DecidableEq α]

/-- The lines completed by a text after a pending part, and the part that is pending then. -/
def split (sep : α) : List α → List α → List (List α) × List α
  | pending, [] => ([], pending)
  | pending, c :: cs =>
    if c = sep then (pending :: (split sep [] cs).1, (split sep [] cs).2)
    else split sep (pending ++ [c]) cs

/-- The completed lines of a text. -/
def lines (sep : α) (text : List α) : List (List α) := (split sep [] text).1

theorem split_append (sep : α) (pending s t : List α) :
    split sep pending (s ++ t) =
      ((split sep pending s).1 ++ (split sep (split sep pending s).2 t).1,
        (split sep (split sep pending s).2 t).2) := by
  induction s generalizing pending with
  | nil => simp [split]
  | cons c cs ih =>
    by_cases hc : c = sep
    · simp [split, hc, ih]
    · simp [split, hc, ih]

/-- A text without a separator stays pending. -/
theorem split_of_not_mem {sep : α} {s : List α} (h : sep ∉ s) (pending : List α) :
    split sep pending s = ([], pending ++ s) := by
  induction s generalizing pending with
  | nil => simp [split]
  | cons c cs ih =>
    rw [List.mem_cons, not_or] at h
    simp [split, Ne.symm h.1, ih h.2]

theorem split_line {sep : α} {s : List α} (h : sep ∉ s) (rest : List α) :
    split sep [] (s ++ sep :: rest) = (s :: (split sep [] rest).1, (split sep [] rest).2) := by
  rw [split_append, split_of_not_mem h]
  simp [split]

theorem lines_line {sep : α} {s : List α} (h : sep ∉ s) (rest : List α) :
    lines sep (s ++ sep :: rest) = s :: lines sep rest := by
  rw [lines, split_line h, lines]

/-- Lines that are each ended are those of the text. -/
theorem lines_flatMap {sep : α} {ls : List (List α)} (h : ∀ l ∈ ls, sep ∉ l) :
    lines sep (ls.flatMap (· ++ [sep])) = ls := by
  induction ls with
  | nil => rfl
  | cons l rest ih =>
    rw [List.flatMap_cons, List.append_assoc, List.singleton_append,
      lines_line (h l List.mem_cons_self), ih fun l' hl' => h l' (List.mem_cons_of_mem _ hl')]

/-- The pending part begins the next line. -/
theorem split_prefix (sep : α) (pending s : List α) :
    ∃ l rest, (split sep pending s).1 ++ [(split sep pending s).2] = l :: rest ∧ pending <+: l := by
  induction s generalizing pending with
  | nil => exact ⟨pending, [], rfl, List.prefix_rfl⟩
  | cons c cs ih =>
    by_cases hc : c = sep
    · rw [split, if_pos hc]
      exact ⟨pending, _, rfl, List.prefix_rfl⟩
    · rw [split, if_neg hc]
      obtain ⟨l, rest, hl, hprefix⟩ := ih (pending ++ [c])
      exact ⟨l, rest, hl, (List.prefix_append pending [c]).trans hprefix⟩

/-- The text before the end of a completed line, and the text behind it. -/
theorem exists_before_line {sep : α} {s : List α} {a b : List (List α)} {l : List α}
    (h : lines sep s = a ++ l :: b) :
    ∃ t t', s = t ++ sep :: t' ∧ split sep [] t = (a, l) ∧ lines sep t' = b := by
  have hgeneral : ∀ pending, (split sep pending s).1 = a ++ l :: b →
      ∃ t t', s = t ++ sep :: t' ∧ split sep pending t = (a, l) ∧ lines sep t' = b := by
    clear h
    induction s generalizing a with
    | nil =>
      intro pending h
      simp [split] at h
    | cons c cs ih =>
      intro pending h
      by_cases hc : c = sep
      · rw [split, if_pos hc] at h
        cases a with
        | nil =>
          obtain ⟨hl, hb⟩ := List.cons.inj h
          exact ⟨[], cs, by rw [hc, List.nil_append], by rw [split, hl], hb⟩
        | cons first others =>
          obtain ⟨hfirst, hrest⟩ := List.cons.inj h
          obtain ⟨t, t', hs, ht, ht'⟩ := ih [] hrest
          exact ⟨c :: t, t', by rw [hs, List.cons_append], by simp [split, hc, ht, hfirst], ht'⟩
      · rw [split, if_neg hc] at h
        obtain ⟨t, t', hs, ht, ht'⟩ := ih (pending ++ [c]) h
        exact ⟨c :: t, t', by rw [hs, List.cons_append], by simp [split, hc, ht], ht'⟩
  exact hgeneral [] h

end Aigate.LineBuffer
