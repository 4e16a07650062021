import Mathlib

/-!
# Regular expressions with leftmost longest search

Expressions over classes of letters denote languages. The derivative by a letter decides
membership one letter at a time; running it along a text gives the longest match at a
position, and the first position with a match gives the leftmost longest match.
-/
namespace Aigate.RegexSearch

variable {α : Type*}

inductive Regex (α : Type*) where
  | empty
  | epsilon
  | oneOf (p : α → Bool)
  | seq (r s : Regex α)
  | alt (r s : Regex α)
  | star (r : Regex α)

/-- The words that an expression matches. -/
def Regex.lang : Regex α → Language α
  | .empty => 0
  | .epsilon => 1
  | .oneOf p => { w | ∃ a, p a = true ∧ w = [a] }
  | .seq r s => r.lang * s.lang
  | .alt r s => r.lang + s.lang
  | .star r => KStar.kstar r.lang

/-- `r{n}`. -/
def Regex.times (r : Regex α) : ℕ → Regex α
  | 0 => .epsilon
  | n + 1 => .seq r (r.times n)

/-- `r{n,}`. -/
def Regex.atLeast (r : Regex α) : ℕ → Regex α
  | 0 => .star r
  | n + 1 => .seq r (r.atLeast n)

/-- At most `n` times. -/
def Regex.atMost (r : Regex α) : ℕ → Regex α
  | 0 => .epsilon
  | n + 1 => .alt .epsilon (.seq r (r.atMost n))

/-- `r{m,n}`. -/
def Regex.between (r : Regex α) (m n : ℕ) : Regex α := .seq (r.times m) (r.atMost (n - m))

/-- Whether the empty word matches. -/
def Regex.nullable : Regex α → Bool
  | .empty => false
  | .epsilon => true
  | .oneOf _ => false
  | .seq r s => r.nullable && s.nullable
  | .alt r s => r.nullable || s.nullable
  | .star _ => true

/-- Concatenation that drops what cannot match and what is empty. -/
def Regex.andThen : Regex α → Regex α → Regex α
  | .empty, _ => .empty
  | .epsilon, s => s
  | r, s => .seq r s

def Regex.orElse : Regex α → Regex α → Regex α
  | .empty, s => s
  | r, .empty => r
  | r, s => .alt r s

/-- What is left to match after one letter. -/
def Regex.deriv (a : α) : Regex α → Regex α
  | .empty => .empty
  | .epsilon => .empty
  | .oneOf p => if p a then .epsilon else .empty
  | .seq r s =>
    if r.nullable then ((r.deriv a).andThen s).orElse (s.deriv a) else (r.deriv a).andThen s
  | .alt r s => (r.deriv a).orElse (s.deriv a)
  | .star r => (r.deriv a).andThen (.star r)

def Regex.isEmpty : Regex α → Bool
  | .empty => true
  | _ => false

/-- The length of the longest match at the start of a text. -/
def Regex.longest (r : Regex α) : List α → Option ℕ
  | [] => if r.nullable then some 0 else none
  | a :: text =>
    if r.isEmpty then none
    else
      match (r.deriv a).longest text with
      | some n => some (n + 1)
      | none => if r.nullable then some 0 else none

/-- Where the leftmost longest match starts and ends. -/
def Regex.search (r : Regex α) : List α → Option (ℕ × ℕ)
  | [] => (r.longest []).map fun n => (0, n)
  | a :: text =>
    match r.longest (a :: text) with
    | some n => some (0, n)
    | none => (r.search text).map fun m => (m.1 + 1, m.2 + 1)

theorem mem_oneOf {p : α → Bool} {w : List α} :
    w ∈ (Regex.oneOf p).lang ↔ ∃ a, p a = true ∧ w = [a] :=
  Iff.rfl

theorem nullable_iff (r : Regex α) : r.nullable = true ↔ [] ∈ r.lang := by
  induction r with
  | empty => simp [Regex.nullable, Regex.lang, Language.notMem_zero]
  | epsilon => simp [Regex.nullable, Regex.lang]
  | oneOf p => simp [Regex.nullable, mem_oneOf]
  | seq r s hr hs => simp [Regex.nullable, Regex.lang, Language.mem_mul, hr, hs]
  | alt r s hr hs => simp [Regex.nullable, Regex.lang, Language.mem_add, hr, hs]
  | star r _ => simp [Regex.nullable, Regex.lang, Language.nil_mem_kstar]

theorem lang_andThen (r s : Regex α) : (r.andThen s).lang = r.lang * s.lang := by
  cases r <;> simp [Regex.andThen, Regex.lang]

theorem lang_orElse (r s : Regex α) : (r.orElse s).lang = r.lang + s.lang := by
  cases r with
  | empty => rw [Regex.orElse, Regex.lang, zero_add]
  | _ =>
    cases s with
    | empty => exact (add_zero _).symm
    | _ => rfl

theorem cons_mem_mul {L M : Language α} {a : α} {w : List α} :
    a :: w ∈ L * M ↔
      (∃ u, a :: u ∈ L ∧ ∃ v ∈ M, w = u ++ v) ∨ [] ∈ L ∧ a :: w ∈ M := by
  rw [Language.mem_mul]
  constructor
  · rintro ⟨u, hu, v, hv, huv⟩
    cases u with
    | nil => exact Or.inr ⟨hu, by simpa using huv ▸ hv⟩
    | cons b u =>
      simp only [List.cons_append, List.cons.injEq] at huv
      obtain ⟨rfl, rfl⟩ := huv
      exact Or.inl ⟨u, hu, v, hv, rfl⟩
  · rintro (⟨u, hu, v, hv, rfl⟩ | ⟨hnil, hw⟩)
    · exact ⟨a :: u, hu, v, hv, rfl⟩
    · exact ⟨[], hnil, a :: w, hw, rfl⟩

theorem cons_mem_kstar {L : Language α} {a : α} {w : List α} :
    a :: w ∈ KStar.kstar L ↔ ∃ u, a :: u ∈ L ∧ ∃ v ∈ KStar.kstar L, w = u ++ v := by
  constructor
  · intro h
    obtain ⟨S, hS, hL⟩ := Language.mem_kstar_iff_exists_nonempty.mp h
    cases S with
    | nil => simp at hS
    | cons x S =>
      have hx := hL x List.mem_cons_self
      cases x with
      | nil => exact absurd rfl hx.2
      | cons b u =>
        simp only [List.flatten_cons, List.cons_append, List.cons.injEq] at hS
        obtain ⟨rfl, rfl⟩ := hS
        exact ⟨u, hx.1, S.flatten,
          Language.mem_kstar.mpr ⟨S, rfl, fun y hy => (hL y (List.mem_cons_of_mem _ hy)).1⟩, rfl⟩
  · rintro ⟨u, hu, v, hv, rfl⟩
    obtain ⟨S, rfl, hS⟩ := Language.mem_kstar.mp hv
    refine Language.mem_kstar.mpr ⟨(a :: u) :: S, rfl, fun y hy => ?_⟩
    rcases List.mem_cons.mp hy with rfl | hy
    · exact hu
    · exact hS y hy

/-- The derivative matches what is left of the words that start with the letter. -/
theorem mem_lang_deriv (r : Regex α) (a : α) (w : List α) :
    w ∈ (r.deriv a).lang ↔ a :: w ∈ r.lang := by
  induction r generalizing w with
  | empty => simp [Regex.deriv, Regex.lang, Language.notMem_zero]
  | epsilon => simp [Regex.deriv, Regex.lang, Language.notMem_zero, Language.mem_one]
  | oneOf p =>
    rw [mem_oneOf, Regex.deriv]
    by_cases hp : p a = true
    · rw [if_pos hp, Regex.lang, Language.mem_one]
      simp [hp]
    · rw [if_neg hp, Regex.lang]
      simp only [Language.notMem_zero, false_iff, List.cons.injEq, not_exists, not_and]
      rintro b hb rfl
      exact absurd hb hp
  | seq r s hr hs =>
    have hfirst : w ∈ (r.deriv a).lang * s.lang ↔
        ∃ u, a :: u ∈ r.lang ∧ ∃ v ∈ s.lang, w = u ++ v := by
      rw [Language.mem_mul]
      constructor
      · rintro ⟨u, hu, v, hv, rfl⟩
        exact ⟨u, (hr u).mp hu, v, hv, rfl⟩
      · rintro ⟨u, hu, v, hv, rfl⟩
        exact ⟨u, (hr u).mpr hu, v, hv, rfl⟩
    rw [Regex.lang, cons_mem_mul, ← hfirst, ← nullable_iff, Regex.deriv]
    split
    · rename_i hn
      rw [lang_orElse, Language.mem_add, lang_andThen, hs]
      simp [hn]
    · rename_i hn
      rw [lang_andThen]
      simp [hn]
  | alt r s hr hs =>
    rw [Regex.deriv, lang_orElse, Language.mem_add, hr, hs, Regex.lang, Language.mem_add]
  | star r hr =>
    rw [Regex.deriv, lang_andThen, Regex.lang, cons_mem_kstar, Language.mem_mul]
    constructor
    · rintro ⟨u, hu, v, hv, rfl⟩
      exact ⟨u, (hr u).mp hu, v, hv, rfl⟩
    · rintro ⟨u, hu, v, hv, rfl⟩
      exact ⟨u, (hr u).mpr hu, v, hv, rfl⟩

theorem not_mem_lang_of_isEmpty {r : Regex α} (h : r.isEmpty = true) (w : List α) :
    w ∉ r.lang := by
  cases r with
  | empty => exact Language.notMem_zero w
  | _ => simp [Regex.isEmpty] at h

/-- The longest match at the start of a text, if there is one. -/
def IsLongest (r : Regex α) (text : List α) : Option ℕ → Prop
  | some n => n ≤ text.length ∧ text.take n ∈ r.lang ∧
      ∀ u, u <+: text → u ∈ r.lang → u.length ≤ n
  | none => ∀ u, u <+: text → u ∉ r.lang

theorem longest_spec (r : Regex α) (text : List α) : IsLongest r text (r.longest text) := by
  induction text generalizing r with
  | nil =>
    by_cases hn : r.nullable = true
    · simp only [Regex.longest, hn, if_true]
      refine ⟨le_rfl, by simpa using (nullable_iff r).mp hn, fun u hu _ => ?_⟩
      rw [List.prefix_nil.mp hu]
      exact le_rfl
    · simp only [Regex.longest, hn, Bool.false_eq_true, if_false]
      intro u hu
      rw [List.prefix_nil.mp hu, ← nullable_iff]
      exact hn
  | cons a text ih =>
    by_cases he : r.isEmpty = true
    · simp only [Regex.longest, he, if_true]
      exact fun u _ => not_mem_lang_of_isEmpty he u
    · have hrest := ih (r.deriv a)
      simp only [Regex.longest, he, Bool.false_eq_true, if_false]
      cases hl : (r.deriv a).longest text with
      | some n =>
        rw [hl] at hrest
        obtain ⟨hle, hmem, hmax⟩ := hrest
        refine ⟨by simpa using hle, by simpa [mem_lang_deriv] using hmem, fun u hu hur => ?_⟩
        cases u with
        | nil => simp
        | cons b u =>
          obtain ⟨rfl, hut⟩ := List.cons_prefix_cons.mp hu
          simpa using hmax u hut ((mem_lang_deriv r b u).mpr hur)
      | none =>
        rw [hl] at hrest
        -- only the empty word can still match here
        have hcons : ∀ b u, b :: u <+: a :: text → b :: u ∉ r.lang := by
          intro b u hu hur
          obtain ⟨rfl, hut⟩ := List.cons_prefix_cons.mp hu
          exact hrest u hut ((mem_lang_deriv r b u).mpr hur)
        by_cases hn : r.nullable = true
        · simp only [hn, if_true]
          refine ⟨Nat.zero_le _, by simpa using (nullable_iff r).mp hn, fun u hu hur => ?_⟩
          cases u with
          | nil => exact le_rfl
          | cons b u => exact absurd hur (hcons b u hu)
        · simp only [hn, Bool.false_eq_true, if_false]
          intro u hu hur
          cases u with
          | nil => exact hn ((nullable_iff r).mpr hur)
          | cons b u => exact hcons b u hu hur

/-- A match of `r` in `text` that starts first, and is the longest of those that do. -/
structure IsMatch (r : Regex α) (text : List α) (start stop : ℕ) : Prop where
  start_le : start ≤ stop
  stop_le : stop ≤ text.length
  matched : (text.drop start).take (stop - start) ∈ r.lang
  leftmost : ∀ i < start, ∀ u, u <+: text.drop i → u ∉ r.lang
  longest : ∀ u, u <+: text.drop start → u ∈ r.lang → u.length ≤ stop - start

theorem search_some {r : Regex α} {text : List α} {start stop : ℕ}
    (h : r.search text = some (start, stop)) : IsMatch r text start stop := by
  induction text generalizing start stop with
  | nil =>
    have hl := longest_spec r ([] : List α)
    cases hn : r.longest ([] : List α) with
    | none => simp [Regex.search, hn] at h
    | some n =>
      simp only [Regex.search, hn, Option.map_some, Option.some.injEq, Prod.mk.injEq] at h
      obtain ⟨rfl, rfl⟩ := h
      rw [hn] at hl
      exact ⟨Nat.zero_le _, hl.1, by simpa using hl.2.1, by simp, by simp⟩
  | cons a text ih =>
    have hl := longest_spec r (a :: text)
    cases hn : r.longest (a :: text) with
    | some n =>
      simp only [Regex.search, hn, Option.some.injEq, Prod.mk.injEq] at h
      obtain ⟨rfl, rfl⟩ := h
      rw [hn] at hl
      exact ⟨Nat.zero_le _, hl.1, by simpa using hl.2.1, by simp, by simpa using hl.2.2⟩
    | none =>
      rw [hn] at hl
      simp only [Regex.search, hn, Option.map_eq_some_iff, Prod.mk.injEq] at h
      obtain ⟨⟨so, eo⟩, hs, rfl, rfl⟩ := h
      have hm := ih hs
      refine ⟨by have := hm.start_le; omega, by simpa using hm.stop_le, ?_, ?_, ?_⟩
      · simpa using hm.matched
      · intro i hi u hu
        cases i with
        | zero => exact hl u hu
        | succ i => exact hm.leftmost i (by omega) u hu
      · simpa using hm.longest

theorem search_none {r : Regex α} {text : List α} (h : r.search text = none) :
    ∀ u, u <:+: text → u ∉ r.lang := by
  induction text with
  | nil =>
    have hl := longest_spec r ([] : List α)
    simp only [Regex.search, Option.map_eq_none_iff] at h
    rw [h] at hl
    intro u hu
    exact hl u (List.infix_nil.mp hu ▸ List.prefix_refl _)
  | cons a text ih =>
    have hl := longest_spec r (a :: text)
    cases hn : r.longest (a :: text) with
    | some n => simp [Regex.search, hn] at h
    | none =>
      rw [hn] at hl
      simp only [Regex.search, hn, Option.map_eq_none_iff] at h
      intro u hu
      rcases List.infix_cons_iff.mp hu with hp | hi
      · exact hl u hp
      · exact ih h u hi

/-- All letters of the classes of an expression satisfy a predicate. -/
def Regex.Within (p : α → Prop) : Regex α → Prop
  | .empty => True
  | .epsilon => True
  | .oneOf q => ∀ a, q a = true → p a
  | .seq r s => r.Within p ∧ s.Within p
  | .alt r s => r.Within p ∧ s.Within p
  | .star r => r.Within p

/-- So do the letters of every word it matches. -/
theorem Regex.Within.forall_mem {p : α → Prop} {r : Regex α} (h : r.Within p) {w : List α}
    (hw : w ∈ r.lang) : ∀ a ∈ w, p a := by
  induction r generalizing w with
  | empty => exact absurd hw (Language.notMem_zero w)
  | epsilon =>
    rw [Regex.lang, Language.mem_one] at hw
    simp [hw]
  | oneOf q =>
    obtain ⟨a, ha, rfl⟩ := hw
    simpa using h a ha
  | seq r s hr hs =>
    obtain ⟨u, hu, v, hv, rfl⟩ := Language.mem_mul.mp hw
    intro a ha
    rcases List.mem_append.mp ha with ha | ha
    · exact hr h.1 hu a ha
    · exact hs h.2 hv a ha
  | alt r s hr hs =>
    rcases (Language.mem_add _ _ _).mp hw with hw | hw
    · exact hr h.1 hw
    · exact hs h.2 hw
  | star r hr =>
    obtain ⟨S, rfl, hS⟩ := Language.mem_kstar.mp hw
    intro a ha
    obtain ⟨u, hu, hau⟩ := List.mem_flatten.mp ha
    exact hr h (hS u hu) a hau

theorem within_times {p : α → Prop} {r : Regex α} (h : r.Within p) (n : ℕ) :
    (r.times n).Within p := by
  induction n with
  | zero => trivial
  | succ n ih => exact ⟨h, ih⟩

theorem within_atLeast {p : α → Prop} {r : Regex α} (h : r.Within p) (n : ℕ) :
    (r.atLeast n).Within p := by
  induction n with
  | zero => exact h
  | succ n ih => exact ⟨h, ih⟩

theorem within_atMost {p : α → Prop} {r : Regex α} (h : r.Within p) (n : ℕ) :
    (r.atMost n).Within p := by
  induction n with
  | zero => trivial
  | succ n ih => exact ⟨trivial, h, ih⟩

theorem within_between {p : α → Prop} {r : Regex α} (h : r.Within p) (m n : ℕ) :
    (r.between m n).Within p :=
  ⟨within_times h m, within_atMost h (n - m)⟩

end Aigate.RegexSearch
