import Aigate.LineBuffer

/-!
# Lines through a buffer of fixed size

A reader has room for the part of a line that has arrived. A line that does not fit when it is
completed is not read, and a part that does not leave room for one more character when the chunk
ends is forgotten. Every cut of a text gives the same lines exactly when all lines are shorter
than that.
-/
namespace Aigate.BoundedLines
open LineBuffer

variable {α σ : Type*} [DecidableEq α] (cap : ℕ) (sep : α)

/-- The lines that a chunk completes, and the part that is carried to the next one. -/
def feed (carried chunk : List α) : List (List α) × List α :=
  let s := split sep carried chunk
  (s.1.filter (·.length < cap), if s.2.length < cap - 1 then s.2 else [])

/-- The lines that are read when a text arrives in chunks. -/
def completed : List α → List (List α) → List (List α)
  | _, [] => []
  | carried, chunk :: rest =>
    (feed cap sep carried chunk).1 ++ completed (feed cap sep carried chunk).2 rest

/-- A state behind a reader. -/
structure Reader (α σ : Type*) where
  carried : List α
  state : σ

/-- A state takes the lines of a chunk one by one. -/
def Reader.feed (take : σ → List α → σ) (r : Reader α σ) (chunk : List α) : Reader α σ :=
  let f := BoundedLines.feed cap sep r.carried chunk
  ⟨f.2, f.1.foldl take r.state⟩

/-- The state has taken the completed lines. -/
theorem Reader.state_foldl (take : σ → List α → σ) (chunks : List (List α)) (r : Reader α σ) :
    (chunks.foldl (Reader.feed cap sep take) r).state =
      (completed cap sep r.carried chunks).foldl take r.state := by
  induction chunks generalizing r with
  | nil => rfl
  | cons chunk rest ih =>
    rw [List.foldl_cons, ih, completed, List.foldl_append]
    rfl

variable {cap sep}

/-- A carried part is the pending one, or the pending one has become too long. -/
def Follows (cap : ℕ) (pending carried : List α) : Prop :=
  carried = pending ∨ cap - 1 ≤ pending.length

/-- A part that is too long is not completed by a text with short lines. -/
theorem split_fst_of_long {pending s : List α} (hlong : cap - 1 ≤ pending.length)
    (hlines : ∀ l ∈ (split sep pending s).1, l.length < cap - 1) :
    (split sep pending s).1 = [] := by
  obtain ⟨l, rest, hl, hprefix⟩ := split_prefix sep pending s
  cases hcompleted : (split sep pending s).1 with
  | nil => rfl
  | cons first others =>
    rw [hcompleted] at hl hlines
    have hfirst : first = l := (List.cons.inj hl).1
    have hshort := hlines first List.mem_cons_self
    have hlen := hprefix.length_le
    rw [← hfirst] at hlen
    omega

theorem split_fst_eq_nil_iff (pending s : List α) : (split sep pending s).1 = [] ↔ sep ∉ s := by
  induction s generalizing pending with
  | nil => simp [split]
  | cons c cs ih =>
    by_cases hc : c = sep
    · simp [split, hc]
    · simp [split, hc, ih, Ne.symm hc]

/-- With short lines, the lines that are read are those of the text. -/
theorem completed_eq {pending carried : List α} (chunks : List (List α))
    (hfollows : Follows cap pending carried)
    (hlines : ∀ l ∈ (split sep pending chunks.flatten).1, l.length < cap - 1) :
    completed cap sep carried chunks = (split sep pending chunks.flatten).1 := by
  induction chunks generalizing pending carried with
  | nil => simp [completed, split]
  | cons chunk rest ih =>
    rw [List.flatten_cons, split_append] at hlines ⊢
    dsimp only at hlines ⊢
    have hnow : ∀ l ∈ (split sep pending chunk).1, l.length < cap - 1 :=
      fun l hl => hlines l (List.mem_append_left _ hl)
    have hlater : ∀ l ∈ (split sep (split sep pending chunk).2 rest.flatten).1,
        l.length < cap - 1 := fun l hl => hlines l (List.mem_append_right _ hl)
    rw [completed]
    rcases hfollows with rfl | hlong
    · have hall : (feed cap sep carried chunk).1 = (split sep carried chunk).1 := by
        rw [feed, List.filter_eq_self]
        intro l hl
        have := hnow l hl
        exact decide_eq_true (by omega)
      have hcarried : Follows cap (split sep carried chunk).2 (feed cap sep carried chunk).2 := by
        unfold feed Follows
        dsimp only
        split
        · exact Or.inl rfl
        · exact Or.inr (by omega)
      rw [hall, ih hcarried hlater]
    · have hnone : sep ∉ chunk :=
        (split_fst_eq_nil_iff pending chunk).mp (split_fst_of_long hlong hnow)
      have hstill : Follows cap (split sep pending chunk).2 (feed cap sep carried chunk).2 := by
        refine Or.inr ?_
        rw [split_of_not_mem hnone]
        simp only [List.length_append]
        omega
      have hempty : (feed cap sep carried chunk).1 = [] := by
        rw [feed, split_of_not_mem hnone]
        rfl
      rw [hempty, ih hstill hlater, (split_fst_eq_nil_iff pending chunk).mpr hnone]

/-- In one chunk, the lines that fit are read. -/
theorem completed_whole (s : List α) :
    completed cap sep [] [s] = (lines sep s).filter (·.length < cap) := by
  simp [completed, feed, lines]

/-- Cut before its end, a long line leaves an empty one. -/
theorem completed_cut {u t' : List α} {a : List (List α)} {l : List α} (hcap : 0 < cap)
    (hu : split sep [] u = (a, l)) (hlong : cap - 1 ≤ l.length) :
    completed cap sep [] [u, sep :: t'] =
      a.filter (·.length < cap) ++ [] :: (lines sep t').filter (·.length < cap) := by
  have hcarried : (feed cap sep [] u).2 = [] := by
    rw [feed, hu]
    exact if_neg (by dsimp only; omega)
  have hfirst : (feed cap sep [] u).1 = a.filter (·.length < cap) := by rw [feed, hu]
  rw [completed, completed, completed, hcarried, hfirst, feed, split, if_pos rfl,
    List.filter_cons_of_pos (by simpa using hcap), List.append_nil, lines]

/-- Every cut gives the same lines exactly when all lines leave room in the buffer. -/
theorem completed_agree_iff (hcap : 1 < cap) (s : List α) :
    (∀ chunks chunks', chunks.flatten = s → chunks'.flatten = s →
      completed cap sep [] chunks = completed cap sep [] chunks') ↔
      ∀ l ∈ lines sep s, l.length < cap - 1 := by
  constructor
  · intro h l hl
    obtain ⟨a, b, hlines⟩ := List.mem_iff_append.mp hl
    obtain ⟨t, t', rfl, ht, ht'⟩ := exists_before_line hlines
    by_contra hlong
    have heq := h [t ++ sep :: t'] [t, sep :: t'] (by simp) (by simp)
    rw [completed_whole, completed_cut (by omega) ht (by omega), hlines, List.filter_append,
      List.append_cancel_left_eq, ← ht'] at heq
    by_cases hfits : l.length < cap
    · rw [List.filter_cons_of_pos (by simpa using hfits)] at heq
      have hnil : l = [] := (List.cons.inj heq).1
      rw [hnil, List.length_nil] at hlong
      omega
    · rw [List.filter_cons_of_neg (by simpa using hfits)] at heq
      exact absurd (congrArg List.length heq) (by simp)
  · intro h chunks chunks' hs hs'
    have hall := fun (cs : List (List α)) (hcs : cs.flatten = s) =>
      completed_eq cs (Or.inl rfl : Follows cap [] []) (hcs ▸ h)
    rw [hall chunks hs, hall chunks' hs', hs, hs']

end Aigate.BoundedLines
