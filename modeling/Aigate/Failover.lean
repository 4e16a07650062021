import Mathlib

/-!
# Walks over candidates

A list of candidates is tried in order. Each candidate leaves some effects and either ends
the walk or passes on to the next one; when all have passed on, closing effects follow. An
effect of a walk comes from a candidate that the walk reaches, or from its end.
-/
namespace Aigate.Failover

variable {α ε : Type*}

/-- The effects of a walk; the flag of a visit says that the next candidate is tried. -/
def walk (visit : α → List ε × Bool) (exhausted : List ε) : List α → List ε
  | [] => exhausted
  | a :: rest => (visit a).1 ++ if (visit a).2 = true then walk visit exhausted rest else []

/-- The walk comes to a candidate: all before it pass on. -/
inductive Reaches (visit : α → List ε × Bool) : List α → α → Prop
  | head {a : α} {rest : List α} : Reaches visit (a :: rest) a
  | tail {a b : α} {rest : List α} (hpass : (visit a).2 = true) (hrest : Reaches visit rest b) :
      Reaches visit (a :: rest) b

variable {visit : α → List ε × Bool} {exhausted : List ε}

theorem walk_pass {a : α} (h : (visit a).2 = true) (rest : List α) :
    walk visit exhausted (a :: rest) = (visit a).1 ++ walk visit exhausted rest := by
  rw [walk, if_pos h]

theorem walk_stop {a : α} (h : (visit a).2 = false) (rest : List α) :
    walk visit exhausted (a :: rest) = (visit a).1 := by
  rw [walk, if_neg (by simp [h]), List.append_nil]

theorem Reaches.mem {cs : List α} {a : α} (h : Reaches visit cs a) : a ∈ cs := by
  induction h with
  | head => exact List.mem_cons_self
  | tail _ _ ih => exact List.mem_cons_of_mem _ ih

/-- Only the flags of the visits decide what is reached. -/
theorem Reaches.congr {δ : Type*} {visit' : α → List δ × Bool} {cs : List α} {a : α}
    (hflag : ∀ b, (visit' b).2 = (visit b).2) (h : Reaches visit cs a) : Reaches visit' cs a := by
  induction h with
  | head => exact .head
  | tail hpass _ ih => exact .tail ((hflag _).trans hpass) ih

/-- What a reached candidate leaves is among the effects. -/
theorem Reaches.subset_walk {cs : List α} {a : α} (h : Reaches visit cs a) :
    (visit a).1 ⊆ walk visit exhausted cs := by
  induction h with
  | head =>
    intro e he
    exact List.mem_append_left _ he
  | tail hpass _ ih =>
    intro e he
    rw [walk_pass hpass]
    exact List.mem_append_right _ (ih he)

/-- An effect of a walk comes from a reached candidate or from the end. -/
theorem mem_walk {cs : List α} {e : ε} : e ∈ walk visit exhausted cs ↔
    (∃ a, Reaches visit cs a ∧ e ∈ (visit a).1) ∨
      ((∀ a ∈ cs, (visit a).2 = true) ∧ e ∈ exhausted) := by
  induction cs with
  | nil =>
    constructor
    · intro he
      exact Or.inr ⟨by simp, he⟩
    · rintro (⟨a, ha, -⟩ | ⟨-, he⟩)
      · cases ha
      · exact he
  | cons a rest ih =>
    cases hpass : (visit a).2 with
    | false =>
      rw [walk_stop hpass]
      constructor
      · intro he
        exact Or.inl ⟨a, .head, he⟩
      · rintro (⟨b, hb, he⟩ | ⟨hall, -⟩)
        · cases hb with
          | head => exact he
          | tail h _ => rw [hpass] at h; cases h
        · have := hall a List.mem_cons_self
          rw [hpass] at this
          cases this
    | true =>
      rw [walk_pass hpass, List.mem_append, ih]
      constructor
      · rintro (he | ⟨b, hb, he⟩ | ⟨hall, he⟩)
        · exact Or.inl ⟨a, .head, he⟩
        · exact Or.inl ⟨b, .tail hpass hb, he⟩
        · exact Or.inr ⟨List.forall_mem_cons.mpr ⟨hpass, hall⟩, he⟩
      · rintro (⟨b, hb, he⟩ | ⟨hall, he⟩)
        · cases hb with
          | head => exact Or.inl he
          | tail _ hrest => exact Or.inr (Or.inl ⟨b, hrest, he⟩)
        · exact Or.inr (Or.inr ⟨(List.forall_mem_cons.mp hall).2, he⟩)

theorem filter_eq_nil {P : ε → Bool} {es : List ε} (h : ∀ e ∈ es, P e = false) :
    es.filter P = [] := List.filter_eq_nil_iff.mpr fun e he => by simp [h e he]

/-- When only one candidate leaves effects of a kind, and the walk reaches it, that
candidate alone tells what the walk leaves of them. -/
theorem filter_walk {P : ε → Bool} {cs : List α} {a : α} (h : Reaches visit cs a)
    (hnodup : cs.Nodup) (hother : ∀ b ∈ cs, b ≠ a → ∀ e ∈ (visit b).1, P e = false)
    (hend : ∀ e ∈ exhausted, P e = false) :
    (walk visit exhausted cs).filter P = (visit a).1.filter P := by
  induction h with
  | @head a rest =>
    have hrest : ∀ e ∈ walk visit exhausted rest, P e = false := by
      intro e he
      rcases mem_walk.mp he with ⟨b, hb, heb⟩ | ⟨-, he⟩
      · have hne : b ≠ a := fun hba => (List.nodup_cons.mp hnodup).1 (hba ▸ hb.mem)
        exact hother b (List.mem_cons_of_mem _ hb.mem) hne e heb
      · exact hend e he
    cases hpass : (visit a).2 with
    | false => rw [walk_stop hpass]
    | true => rw [walk_pass hpass, List.filter_append, filter_eq_nil hrest, List.append_nil]
  | @tail b a rest hpass hrest ih =>
    have hne : b ≠ a := fun hba => (List.nodup_cons.mp hnodup).1 (hba ▸ hrest.mem)
    rw [walk_pass hpass, List.filter_append,
      filter_eq_nil (hother b List.mem_cons_self hne), List.nil_append]
    exact ih (List.nodup_cons.mp hnodup).2 fun c hc => hother c (List.mem_cons_of_mem _ hc)

end Aigate.Failover
