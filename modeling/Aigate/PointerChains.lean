import Mathlib.Data.List.Nodup
import Mathlib.Logic.Function.Basic

/-!
# Chains of cells

Cells are named by addresses, and a link leads from a cell to the next one or ends. A chain is
the list of the cells that are reached from a start. To put a cell in front, to take one out and
to change a link elsewhere act on the list as one expects. A list that is linked both ways is
two chains, the second one over the reversed list.
-/
namespace Aigate.PointerChains

variable {α : Type*} [DecidableEq α]

/-- The links lead from the start through the cells and end. -/
def Chain (link : α → Option α) : Option α → List α → Prop
  | p, [] => p = none
  | p, a :: l => p = some a ∧ Chain link (link a) l

variable {link : α → Option α} {p : Option α} {l : List α}

omit [DecidableEq α] in
@[simp] theorem chain_nil : Chain link p [] ↔ p = none := Iff.rfl

omit [DecidableEq α] in
@[simp] theorem chain_cons {a : α} : Chain link p (a :: l) ↔ p = some a ∧ Chain link (link a) l :=
  Iff.rfl

omit [DecidableEq α] in
/-- The start of a chain is its first cell. -/
theorem Chain.head? (h : Chain link p l) : p = l.head? := by
  cases l with
  | nil => exact h
  | cons a l => exact h.1

omit [DecidableEq α] in
/-- Only the links of the cells matter. -/
theorem Chain.congr {link' : α → Option α} (h : Chain link p l)
    (hsame : ∀ a ∈ l, link' a = link a) : Chain link' p l := by
  induction l generalizing p with
  | nil => exact h
  | cons a l ih =>
    refine ⟨h.1, ?_⟩
    rw [hsame a List.mem_cons_self]
    exact ih h.2 fun b hb => hsame b (List.mem_cons_of_mem a hb)

/-- The link of another cell may change. -/
theorem Chain.update (h : Chain link p l) {a : α} (ha : a ∉ l) (x : Option α) :
    Chain (Function.update link a x) p l :=
  h.congr fun _ hb => Function.update_of_ne (ne_of_mem_of_not_mem hb ha) _ _

/-- A cell in front. -/
theorem Chain.cons (h : Chain link p l) {a : α} (ha : a ∉ l) :
    Chain (Function.update link a p) (some a) (a :: l) := by
  refine ⟨rfl, ?_⟩
  rw [Function.update_self]
  exact h.update ha p

omit [DecidableEq α] in
/-- The rest of a chain begins where the link of a cell leads. -/
theorem Chain.behind {before behind : List α} {a : α} (h : Chain link p (before ++ a :: behind)) :
    Chain link (link a) behind := by
  induction before generalizing p with
  | nil => exact h.2
  | cons b before ih => exact ih h.2

omit [DecidableEq α] in
/-- Where the link of a cell leads. -/
theorem Chain.link_eq {before behind : List α} {a : α} (h : Chain link p (before ++ a :: behind)) :
    link a = behind.head? := h.behind.head?

/-- To take a cell out, the link that leads to it is led past it: the start if the cell is the
first one, else the link of the one before. -/
theorem Chain.unlink {before behind : List α} {a : α} (h : Chain link p (before ++ a :: behind))
    (hnodup : (before ++ a :: behind).Nodup) :
    match before.getLast? with
    | none => Chain link (link a) (before ++ behind)
    | some b => Chain (Function.update link b (link a)) p (before ++ behind) := by
  induction before generalizing p with
  | nil => exact h.2
  | cons c before ih =>
    obtain ⟨hc, hrest⟩ := List.nodup_cons.mp hnodup
    have hlater := ih h.2 hrest
    cases hlast : before.getLast? with
    | none =>
      obtain rfl := List.getLast?_eq_none_iff.mp hlast
      rw [List.getLast?_singleton]
      refine ⟨h.1, ?_⟩
      rw [Function.update_self]
      refine (Chain.behind h).update (fun hmem => hc ?_) _
      exact List.mem_cons_of_mem a hmem
    | some b =>
      rw [hlast] at hlater
      have hb : b ∈ before := List.mem_of_getLast? hlast
      rw [List.getLast?_cons, hlast]
      refine ⟨h.1, ?_⟩
      have hne : c ≠ b := fun he => hc (List.mem_append_left _ (he ▸ hb))
      simp only [Option.getD_some]
      rw [Function.update_of_ne hne]
      exact hlater

/-- A cell at the end: the last link leads to it, or the start. -/
theorem Chain.snoc (h : Chain link p l) (hnodup : l.Nodup) {a : α} (ha : a ∉ l) :
    match l.getLast? with
    | none => Chain (Function.update link a none) (some a) (l ++ [a])
    | some b => Chain (Function.update (Function.update link a none) b (some a)) p (l ++ [a]) := by
  induction l generalizing p with
  | nil => exact ⟨rfl, chain_nil.mpr (Function.update_self _ _ _)⟩
  | cons c l ih =>
    obtain ⟨hc, hrest⟩ := List.nodup_cons.mp hnodup
    have hca : c ≠ a := (List.ne_of_not_mem_cons ha).symm
    have hal : a ∉ l := List.not_mem_of_not_mem_cons ha
    have hlater := ih h.2 hrest hal
    cases hlast : l.getLast? with
    | none =>
      obtain rfl := List.getLast?_eq_none_iff.mp hlast
      rw [List.getLast?_singleton]
      refine ⟨h.1, ?_⟩
      rw [Function.update_self]
      refine ⟨rfl, ?_⟩
      rw [Function.update_of_ne hca.symm, Function.update_self]
      rfl
    | some b =>
      rw [hlast] at hlater
      have hcb : c ≠ b := fun he => hc (he ▸ List.mem_of_getLast? hlast)
      rw [List.getLast?_cons, hlast]
      refine ⟨h.1, ?_⟩
      simp only [Option.getD_some]
      rw [Function.update_of_ne hcb, Function.update_of_ne hca]
      exact hlater

/-! ### To walk along a chain -/

/-- The first cell that fits, or the end; nothing if the steps do not suffice. -/
def walk (link : α → Option α) (fits : α → Bool) : ℕ → Option α → Option (Option α)
  | _, none => some none
  | 0, some _ => none
  | n + 1, some a => if fits a then some (some a) else walk link fits n (link a)

/-- The cells up to the end; nothing if the steps do not suffice. -/
def cells (link : α → Option α) : ℕ → Option α → Option (List α)
  | _, none => some []
  | 0, some _ => none
  | n + 1, some a => (cells link n (link a)).map (a :: ·)

omit [DecidableEq α] in
theorem Chain.walk_eq (h : Chain link p l) (fits : α → Bool) {n : ℕ} (hn : l.length ≤ n) :
    walk link fits n p = some (l.find? fits) := by
  induction l generalizing p n with
  | nil =>
    obtain rfl := h
    cases n <;> rfl
  | cons a l ih =>
    obtain ⟨rfl, hrest⟩ := h
    cases n with
    | zero => cases hn
    | succ n =>
      rw [walk, List.find?_cons]
      cases fits a with
      | true => rfl
      | false => exact ih hrest (Nat.le_of_succ_le_succ hn)

omit [DecidableEq α] in
theorem Chain.cells_eq (h : Chain link p l) {n : ℕ} (hn : l.length ≤ n) :
    cells link n p = some l := by
  induction l generalizing p n with
  | nil =>
    obtain rfl := h
    cases n <;> rfl
  | cons a l ih =>
    obtain ⟨rfl, hrest⟩ := h
    cases n with
    | zero => cases hn
    | succ n =>
      rw [cells, ih hrest (Nat.le_of_succ_le_succ hn)]
      rfl

omit [DecidableEq α] in
/-- The cell before another one is the first one whose link leads there. -/
theorem Chain.find?_link {before behind : List α} {a b : α}
    (h : Chain link p (before ++ a :: behind)) (hnodup : (before ++ a :: behind).Nodup)
    (hlast : before.getLast? = some b) (fits : α → Bool)
    (hfits : ∀ c, fits c = true ↔ link c = some a) :
    (before ++ a :: behind).find? fits = some b := by
  obtain ⟨front, rfl⟩ := List.getLast?_eq_some_iff.mp hlast
  rw [List.append_assoc, List.singleton_append] at h hnodup ⊢
  have hb : fits b = true := (hfits b).mpr (Chain.link_eq h)
  have hfront : ∀ c ∈ front, ¬ fits c = true := by
    intro c hc hfit
    obtain ⟨first, second, rfl⟩ := List.append_of_mem hc
    rw [List.append_assoc, List.cons_append] at h hnodup
    have hlink := (hfits c).mp hfit
    rw [Chain.link_eq h] at hlink
    -- the link of a cell in front leads to the next one, and that is not the given one
    have hmem : a ∈ second ++ [b] := by
      cases second with
      | nil => exact List.mem_singleton.mpr (Option.some.inj hlink).symm
      | cons d second => exact List.mem_append_left _ ((Option.some.inj hlink) ▸ List.mem_cons_self)
    have hrest := (List.nodup_cons.mp (List.nodup_append.mp hnodup).2.1).2
    rw [← List.singleton_append, ← List.append_assoc] at hrest
    have hsplit : (second ++ [b]) ++ a :: behind = second ++ [b] ++ a :: behind := rfl
    exact (List.nodup_append.mp (hsplit ▸ hrest)).2.2 a hmem a List.mem_cons_self rfl
  rw [List.find?_append, List.find?_eq_none.mpr hfront, Option.none_or, List.find?_cons, hb]

end Aigate.PointerChains
