import Mathlib.Algebra.Field.ZMod
import Mathlib.Tactic.LinearCombination
import Mathlib.Tactic.Ring

/-!
# Check digits

Each symbol of a word weighs something at its place, modulo a number, and the word is accepted
for its weight. A symbol that is replaced is found if the two weigh differently at that place, and
two symbols that change places are found if that changes what they weigh together.
-/
namespace Aigate.CheckDigits

variable {α : Type*} {m : ℕ}

/-- The weight of a word, `w i a` being that of the symbol `a` at the place `i`. -/
def weigh (w : ℕ → α → ZMod m) : List α → ZMod m
  | [] => 0
  | a :: rest => w 0 a + weigh (fun i => w (i + 1)) rest

theorem weigh_append (w : ℕ → α → ZMod m) (l r : List α) :
    weigh w (l ++ r) = weigh w l + weigh (fun i => w (i + l.length)) r := by
  induction l generalizing w with
  | nil => simp [weigh]
  | cons a rest ih =>
    rw [List.cons_append, weigh, weigh, ih, add_assoc]
    congr 2

/-- From the last place to the first. -/
theorem weigh_reverse (w : ℕ → α → ZMod m) (l : List α) :
    weigh w l.reverse = weigh (fun i => w (l.length - 1 - i)) l := by
  induction l generalizing w with
  | nil => rfl
  | cons a rest ih =>
    have hshift : (fun i => w (rest.length + 1 - 1 - (i + 1))) =
        fun i => w (rest.length - 1 - i) := by
      funext i
      congr 1
      omega
    have hcons : weigh (fun i => w (rest.length + 1 - 1 - i)) (a :: rest) =
        w rest.length a + weigh (fun i => w (rest.length - 1 - i)) rest := by
      rw [weigh, hshift]
      rfl
    rw [List.reverse_cons, weigh_append, ih, List.length_cons, hcons]
    simp [weigh, add_comm]

theorem weigh_set {w : ℕ → α → ZMod m} {l : List α} {i : ℕ} {a : α} (h : l[i]? = some a) (b : α) :
    weigh w (l.set i b) + w i a = weigh w l + w i b := by
  induction l generalizing w i with
  | nil => simp at h
  | cons c rest ih =>
    cases i with
    | zero =>
      obtain rfl : c = a := by simpa using h
      rw [List.set_cons_zero, weigh, weigh]
      ring
    | succ i =>
      have hrest := ih (w := fun i => w (i + 1)) (by simpa using h)
      rw [List.set_cons_succ, weigh, weigh, add_assoc, hrest, add_assoc]

/-- A replaced symbol keeps the weight exactly when it weighs the same. -/
theorem weigh_set_iff {w : ℕ → α → ZMod m} {l : List α} {i : ℕ} {a : α} (h : l[i]? = some a)
    (b : α) : weigh w (l.set i b) = weigh w l ↔ w i b = w i a := by
  have hset := weigh_set (w := w) h b
  constructor
  · intro hsame
    rw [hsame, add_right_inj] at hset
    exact hset.symm
  · intro hsame
    rwa [hsame, add_left_inj] at hset

/-- A word with the symbols at two places exchanged. -/
def exchange (l : List α) (i j : ℕ) (a b : α) : List α := (l.set i b).set j a

/-- Two symbols that change places keep the weight exactly when they weigh the same together. -/
theorem weigh_exchange_iff {w : ℕ → α → ZMod m} {l : List α} {i j : ℕ} (hij : i ≠ j) {a b : α}
    (hi : l[i]? = some a) (hj : l[j]? = some b) :
    weigh w (exchange l i j a b) = weigh w l ↔ w i b + w j a = w i a + w j b := by
  have hj' : (l.set i b)[j]? = some b := by rw [List.getElem?_set_ne hij, hj]
  have hfirst := weigh_set (w := w) hi b
  have hsecond := weigh_set (w := w) hj' a
  have hboth : weigh w (exchange l i j a b) + (w i a + w j b) =
      weigh w l + (w i b + w j a) := by
    calc weigh w (exchange l i j a b) + (w i a + w j b)
        = weigh w ((l.set i b).set j a) + w j b + w i a := by rw [exchange]; ring
      _ = weigh w (l.set i b) + w i a + w j a := by rw [hsecond]; ring
      _ = weigh w l + (w i b + w j a) := by rw [hfirst]; ring
  constructor
  · intro hsame
    rw [hsame, add_right_inj] at hboth
    exact hboth.symm
  · intro hsame
    rwa [hsame, add_left_inj] at hboth

/-! ### Factors of the places -/

section
variable [Fact m.Prime] {v : α → ZMod m} {c : ℕ → ZMod m}

/-- With a prime number and no factor that is zero, every replaced symbol is found that stands for
something else. -/
theorem weigh_mul_set_iff {l : List α} {i : ℕ} {a : α} (h : l[i]? = some a) (hc : c i ≠ 0) (b : α) :
    weigh (fun k a => v a * c k) (l.set i b) = weigh (fun k a => v a * c k) l ↔ v b = v a := by
  rw [weigh_set_iff h]
  exact mul_left_inj' hc

/-- With a prime number, two symbols that change places are found if they stand for something
else and the factors of the places differ. -/
theorem weigh_mul_exchange_iff {l : List α} {i j : ℕ} (hij : i ≠ j) {a b : α}
    (hi : l[i]? = some a) (hj : l[j]? = some b) :
    weigh (fun k a => v a * c k) (exchange l i j a b) = weigh (fun k a => v a * c k) l ↔
      v a = v b ∨ c i = c j := by
  rw [weigh_exchange_iff hij hi hj, ← sub_eq_zero (a := v a), ← sub_eq_zero (a := c i),
    ← mul_eq_zero]
  constructor
  · intro hsame
    linear_combination -hsame
  · intro hzero
    linear_combination -hzero

end

/-- What holds of every symbol at its place, after one was replaced. -/
theorem forall_set {p : ℕ → α → Prop} {l : List α} {i : ℕ} (hi : i < l.length)
    (h : ∀ k a, l[k]? = some a → p k a) (b : α) :
    (∀ k a, (l.set i b)[k]? = some a → p k a) ↔ p i b := by
  constructor
  · exact fun hall => hall i b (by rw [List.getElem?_set_self hi])
  · intro hb k a ha
    by_cases hik : i = k
    · subst hik
      rw [List.getElem?_set_self hi, Option.some.injEq] at ha
      exact ha ▸ hb
    · rw [List.getElem?_set_ne hik] at ha
      exact h k a ha

end Aigate.CheckDigits
