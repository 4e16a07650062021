import Mathlib.Data.List.Basic

/-!
# Scanning a list for tokens

A scan goes through a list from left to right and looks at every place whether a token begins
there. A token is noted and passed over as a whole, and anything else is kept.
-/
namespace Aigate.TokenScan

variable {α β : Type*} (token : List α → Option (β × ℕ))

/-- The letters that are kept and the tokens, in order; so many letters belong to a token that
was noted. -/
def scan : ℕ → List α → List (α ⊕ β)
  | _, [] => []
  | skip + 1, _ :: rest => scan skip rest
  | 0, c :: rest =>
    match token (c :: rest) with
    | some (b, n) => .inr b :: scan (n - 1) rest
    | none => .inl c :: scan 0 rest

def tokens (s : List α) : List β := (scan token 0 s).filterMap Sum.getRight?

/-- What is left without the tokens. -/
def remainder (s : List α) : List α := (scan token 0 s).filterMap Sum.getLeft?

/-- A list in which no token begins, whatever follows. -/
def Plain (s : List α) : Prop := ∀ u v t, s = u ++ v → v ≠ [] → token (v ++ t) = none

variable {token}

theorem scan_skip (skip : ℕ) (s : List α) : scan token skip s = scan token 0 (s.drop skip) := by
  induction skip generalizing s with
  | zero => rfl
  | succ skip ih =>
    cases s with
    | nil => rfl
    | cons c rest =>
      rw [scan, List.drop_succ_cons]
      exact ih rest

theorem Plain.tail {c : α} {s : List α} (h : Plain token (c :: s)) : Plain token s := by
  intro u v t hs hv
  exact h (c :: u) v t (by rw [hs, List.cons_append]) hv

theorem scan_plain {s : List α} (h : Plain token s) (t : List α) :
    scan token 0 (s ++ t) = s.map Sum.inl ++ scan token 0 t := by
  induction s with
  | nil => rfl
  | cons c s ih =>
    have hnone : token (c :: (s ++ t)) = none := h [] (c :: s) t rfl (List.cons_ne_nil _ _)
    rw [List.cons_append, scan, hnone]
    dsimp only
    rw [ih h.tail, List.map_cons, List.cons_append]

/-- A token at the front, of a length that is not zero. -/
theorem scan_token {w t : List α} {b : β} (hw : w ≠ [])
    (h : token (w ++ t) = some (b, w.length)) :
    scan token 0 (w ++ t) = .inr b :: scan token 0 t := by
  obtain ⟨c, w, rfl⟩ := List.exists_cons_of_ne_nil hw
  rw [List.cons_append] at h ⊢
  rw [scan, h]
  dsimp only
  rw [scan_skip, List.length_cons, Nat.add_sub_cancel, List.drop_left]

theorem tokens_plain {s : List α} (h : Plain token s) (t : List α) :
    tokens token (s ++ t) = tokens token t := by
  have hnone : (s.map (Sum.inl : α → α ⊕ β)).filterMap Sum.getRight? = [] := by
    simp [List.filterMap_eq_nil_iff]
  rw [tokens, scan_plain h, List.filterMap_append, hnone, List.nil_append, tokens]

theorem tokens_token {w t : List α} {b : β} (hw : w ≠ [])
    (h : token (w ++ t) = some (b, w.length)) : tokens token (w ++ t) = b :: tokens token t := by
  rw [tokens, scan_token hw h]
  rfl

theorem remainder_plain {s : List α} (h : Plain token s) (t : List α) :
    remainder token (s ++ t) = s ++ remainder token t := by
  have hall : (s.map (Sum.inl : α → α ⊕ β)).filterMap Sum.getLeft? = s := by
    rw [List.filterMap_map]
    exact List.filterMap_some
  rw [remainder, scan_plain h, List.filterMap_append, hall, remainder]

theorem remainder_token {w t : List α} {b : β} (hw : w ≠ [])
    (h : token (w ++ t) = some (b, w.length)) :
    remainder token (w ++ t) = remainder token t := by
  rw [remainder, scan_token hw h]
  rfl

/-- Tokens that follow each other. -/
theorem tokens_replicate {w : List α} {b : β} (hw : w ≠ [])
    (h : ∀ t, token (w ++ t) = some (b, w.length)) (n : ℕ) :
    tokens token (List.replicate n w).flatten = List.replicate n b := by
  induction n with
  | zero => rfl
  | succ n ih =>
    rw [List.replicate_succ, List.flatten_cons, tokens_token hw (h _), ih, List.replicate_succ]

end Aigate.TokenScan
