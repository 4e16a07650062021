import Aigate.MarkedText
import Aigate.RegexSearch

/-!
# Searching a text with marks

Where an expression matches no part of a mark, its leftmost longest match is among the letters,
so that it does not depend on the words by which the marks are written.
-/
namespace Aigate.MarkedText
open RegexSearch

variable {α μ : Type*}

/-- The match among the letters that starts first, and is the longest of those that do. -/
structure FirstMatch (r : Regex α) (m : List (Piece α μ)) (a : List (Piece α μ)) (w : List α)
    (b : List (Piece α μ)) : Prop where
  split : m = a ++ (letters w ++ b)
  matched : w ∈ r.lang
  leftmost : ∀ a' w' b', m = a' ++ (letters w' ++ b') → w' ∈ r.lang → a.length ≤ a'.length
  longest : ∀ w' b', m = a ++ (letters w' ++ b') → w' ∈ r.lang → w'.length ≤ w.length

/-- Expressions that match no part of a mark. -/
def ApartFrom (r : Regex α) (f : μ → List α) (m : List (Piece α μ)) : Prop :=
  ∀ w ∈ r.lang, ∀ e, .mark e ∈ m → Apart w (f e)

theorem letters_injective : Function.Injective (letters : List α → List (Piece α μ)) :=
  List.map_injective_iff.mpr fun _ _ h => Piece.letter.inj h

theorem length_letters (w : List α) : (letters w : List (Piece α μ)).length = w.length :=
  List.length_map _

theorem FirstMatch.unique {r : Regex α} {m a b a' b' : List (Piece α μ)} {w w' : List α}
    (h : FirstMatch r m a w b) (h' : FirstMatch r m a' w' b') : a = a' ∧ w = w' ∧ b = b' := by
  have hlength : a.length = a'.length :=
    le_antisymm (h.leftmost a' w' b' h'.split h'.matched) (h'.leftmost a w b h.split h.matched)
  obtain ⟨rfl, hrest⟩ := List.append_inj (h.split.symm.trans h'.split) hlength
  have hword : w.length = w'.length :=
    le_antisymm (h'.longest w b h.split h.matched) (h.longest w' b' h'.split h'.matched)
  obtain ⟨hw, rfl⟩ := List.append_inj hrest (by rw [length_letters, length_letters, hword])
  exact ⟨rfl, letters_injective hw, rfl⟩

/-- Less letters and marks are rendered shorter. -/
theorem length_render_lt {f : μ → List α} {m a b : List (Piece α μ)} (ha : a <+: m) (hb : b <+: m)
    (hwords : ∀ e, .mark e ∈ m → f e ≠ []) (h : a.length < b.length) :
    (render f a).length < (render f b).length := by
  obtain ⟨t, rfl⟩ := List.prefix_of_prefix_length_le ha hb h.le
  obtain ⟨p, t, rfl⟩ := List.exists_cons_of_ne_nil fun ht : t = [] => by
    rw [ht, List.append_nil] at h
    exact lt_irrefl _ h
  rw [render_append, List.length_append]
  refine Nat.lt_add_of_pos_right ?_
  cases p with
  | letter c => exact Nat.succ_pos _
  | mark e =>
    have hne := hwords e (hb.subset (List.mem_append_right _ List.mem_cons_self))
    rw [render, List.length_append]
    exact Nat.add_pos_left (List.length_pos_of_ne_nil hne) _

theorem Apart.nonempty {w word : List α} (h : Apart w word) : word ≠ [] := by
  obtain ⟨start, body, stop, rfl, -⟩ := h.delimited
  exact List.cons_ne_nil _ _

/-- What a search finds in a rendered text is the first match among the letters. -/
theorem firstMatch_of_search {r : Regex α} {f : μ → List α} {m : List (Piece α μ)}
    (hapart : ApartFrom r f m) {so eo : ℕ} (h : r.search (render f m) = some (so, eo)) :
    ∃ a w b, FirstMatch r m a w b ∧ so = (render f a).length ∧
      eo = (render f a).length + w.length := by
  have hfound := search_some h
  have hle := hfound.start_le
  have hstop := hfound.stop_le
  set w := ((render f m).drop so).take (eo - so) with hw
  have hsplit : render f m = (render f m).take so ++
      (w ++ ((render f m).drop so).drop (eo - so)) := by
    rw [hw, List.take_append_drop, List.take_append_drop]
  obtain ⟨a, b, hm, ha, -⟩ := letters_of_apart hsplit (hapart w hfound.matched)
  have hso : so = (render f a).length := by
    rw [ha, List.length_take]
    omega
  have hwlength : w.length = eo - so := by
    rw [hw, List.length_take, List.length_drop]
    omega
  refine ⟨a, w, b, ⟨hm, hfound.matched, ?_, ?_⟩, hso, by omega⟩
  · intro a' w' b' hm' hw'
    by_contra hlt
    have hshorter : (render f a').length < so := by
      rw [hso]
      refine length_render_lt (hm' ▸ List.prefix_append _ _) (hm ▸ List.prefix_append _ _)
        (fun e he => ?_) (not_le.mp hlt)
      exact (hapart w hfound.matched e he).nonempty
    refine hfound.leftmost _ hshorter w' ?_ hw'
    rw [hm', render_append, List.drop_left, render_append, render_letters]
    exact List.prefix_append _ _
  · intro w' b' hm' hw'
    rw [hwlength]
    refine hfound.longest w' ?_ hw'
    rw [hso, hm', render_append, List.drop_left, render_append, render_letters]
    exact List.prefix_append _ _

/-- Two ways to write the marks: a search finds the same letters or nothing in both. -/
theorem search_render {r : Regex α} {f g : μ → List α} {m : List (Piece α μ)}
    (hf : ApartFrom r f m) (hg : ApartFrom r g m) :
    (r.search (render f m) = none ∧ r.search (render g m) = none) ∨
      ∃ a w b, m = a ++ (letters w ++ b) ∧ w ∈ r.lang ∧
        r.search (render f m) = some ((render f a).length, (render f a).length + w.length) ∧
        r.search (render g m) = some ((render g a).length, (render g a).length + w.length) := by
  have hnone : ∀ {f : μ → List α} {a w b}, FirstMatch r m a w b →
      r.search (render f m) ≠ none := by
    intro f a w b hfirst hsearch
    refine search_none hsearch w ?_ hfirst.matched
    exact infix_render ⟨a, b, by rw [hfirst.split, List.append_assoc]⟩
  cases hsearch : r.search (render f m) with
  | none =>
    cases hsearch' : r.search (render g m) with
    | none => exact Or.inl ⟨rfl, rfl⟩
    | some found =>
      obtain ⟨a, w, b, hfirst, -⟩ := firstMatch_of_search hg hsearch'
      exact absurd hsearch (hnone hfirst)
  | some found =>
    obtain ⟨a, w, b, hfirst, hso, heo⟩ := firstMatch_of_search hf hsearch
    cases hsearch' : r.search (render g m) with
    | none => exact absurd hsearch' (hnone hfirst)
    | some found' =>
      obtain ⟨a', w', b', hfirst', hso', heo'⟩ := firstMatch_of_search hg hsearch'
      obtain ⟨rfl, rfl, rfl⟩ := hfirst.unique hfirst'
      exact Or.inr ⟨a, w, b, hfirst.split, hfirst.matched, congrArg some (Prod.ext hso heo),
        congrArg some (Prod.ext hso' heo')⟩

/-- Letters of a class at the start of a rendered text that no mark starts with. -/
theorem takeWhile_render {p : α → Bool} {m : List (Piece α μ)} :
    ∃ run b, m = letters run ++ b ∧ (∀ a ∈ run, p a = true) ∧
      ∀ f : μ → List α, (∀ e, .mark e ∈ m → ∃ c t, f e = c :: t ∧ p c = false) →
        (render f m).takeWhile p = run := by
  induction m with
  | nil => exact ⟨[], [], rfl, by simp, fun _ _ => rfl⟩
  | cons piece m ih =>
    cases piece with
    | letter a =>
      by_cases ha : p a = true
      · obtain ⟨run, b, rfl, hrun, htake⟩ := ih
        refine ⟨a :: run, b, rfl, List.forall_mem_cons.mpr ⟨ha, hrun⟩, fun f hf => ?_⟩
        rw [render, List.takeWhile_cons_of_pos ha,
          htake f fun e he => hf e (List.mem_cons_of_mem _ he)]
      · refine ⟨[], .letter a :: m, rfl, by simp, fun f _ => ?_⟩
        rw [render, List.takeWhile_cons_of_neg ha]
    | mark e =>
      refine ⟨[], .mark e :: m, rfl, by simp, fun f hf => ?_⟩
      obtain ⟨c, t, hword, hc⟩ := hf e List.mem_cons_self
      rw [render, hword, List.cons_append, List.takeWhile_cons_of_neg (by simp [hc])]

end Aigate.MarkedText
