import Aigate.Text

/-!
# Wildcard patterns

The model filter of a plugin is matched by a greedy loop with two pointers, which goes back to
the last star when it fails. A star of the string is compared with the pattern before the
pattern is looked at for a star, so that a star of the pattern that meets a star stands for it
alone.
-/
namespace Aigate.WildcardMatch
open Text

/-- Each star of the pattern is replaced by some string. -/
inductive Glob : Bytes → Bytes → Prop
  | nil : Glob [] []
  | char {c : Char} {p s : Bytes} : c ≠ '*' → Glob p s → Glob (c :: p) (c :: s)
  | star {p s : Bytes} (w : Bytes) : Glob p s → Glob ('*' :: p) (w ++ s)

/-- The same, where a star in front of a star of the string stands for exactly that star. -/
inductive StarGlob : Bytes → Bytes → Prop
  | nil : StarGlob [] []
  | char {p s : Bytes} (c : Char) : StarGlob p s → StarGlob (c :: p) (c :: s)
  | star {p s : Bytes} (w : Bytes) : (w ++ s).head? ≠ some '*' → StarGlob p s →
    StarGlob ('*' :: p) (w ++ s)

/-- The loop of `wildcard_match`, with what follows the last star and where it was met. -/
def wildcardLoop (p s : Bytes) (saved : Option (Bytes × Bytes)) : Bool :=
  match s with
  | [] => decide (p.dropWhile (· = '*') = [])
  | c :: rest =>
    if p.head? = some c then wildcardLoop p.tail rest saved
    else if p.head? = some '*' then wildcardLoop p.tail (c :: rest) (some (p.tail, c :: rest))
    else
      match saved with
      | some (q, _ :: next) => wildcardLoop q next (some (q, next))
      | _ => false
termination_by (match saved with
  | none => s.length + 1
  | some m => max m.2.length s.length, p.length + s.length)
decreasing_by
  · cases p with
    | nil => simp_all
    | cons d p =>
      cases saved with
      | none => simp [Prod.lex_def]
      | some m =>
        simp [Prod.lex_def]
        omega
  · cases p with
    | nil => simp_all
    | cons d p =>
      cases saved with
      | none => simp [Prod.lex_def]
      | some m =>
        simp [Prod.lex_def]
        omega
  · simp [Prod.lex_def]

/-- `wildcard_match`. A null pattern is as an empty one. -/
def wildcardMatch (pattern : Bytes) (str : Option Bytes) : Bool :=
  if pattern = [] ∨ pattern = ascii "*" then true
  else
    match str with
    | none => false
    | some s => wildcardLoop pattern s none

theorem StarGlob.glob {p s : Bytes} (h : StarGlob p s) : Glob p s := by
  induction h with
  | nil => exact .nil
  | char c _ ih =>
    by_cases hc : c = '*'
    · subst hc
      exact .star ['*'] ih
    · exact .char hc ih
  | star w _ _ ih => exact .star w ih

theorem starGlob_nil_left {s : Bytes} : StarGlob [] s ↔ s = [] := by
  constructor
  · intro h
    cases h
    rfl
  · rintro rfl
    exact .nil

theorem starGlob_cons_iff {c : Char} {p s : Bytes} :
    StarGlob (c :: p) (c :: s) ↔ StarGlob p s := by
  constructor
  · intro h
    generalize hx : c :: s = x at h
    cases h with
    | char c h =>
      obtain ⟨-, rfl⟩ := List.cons.inj hx
      exact h
    | star w hhead h =>
      rw [← hx] at hhead
      exact absurd rfl hhead
  · exact .char c

theorem starGlob_cons_ne {c d : Char} {p s : Bytes} (hne : d ≠ c) (hstar : d ≠ '*') :
    ¬StarGlob (d :: p) (c :: s) := by
  intro h
  generalize hx : c :: s = x at h
  cases h with
  | char d h => exact hne (List.cons.inj hx).1.symm
  | star w hhead h => exact hstar rfl

/-- A star that does not meet a star stands for any string. -/
theorem starGlob_star_iff {p s : Bytes} (hs : s.head? ≠ some '*') :
    StarGlob ('*' :: p) s ↔ ∃ y, y <:+ s ∧ StarGlob p y := by
  constructor
  · intro h
    cases h with
    | char c h => exact absurd rfl hs
    | star w hhead h => exact ⟨_, List.suffix_append w _, h⟩
  · rintro ⟨y, ⟨w, rfl⟩, h⟩
    exact .star w hs h

/-- What a star in front leaves over is matched behind it. -/
theorem StarGlob.behind_star {p s : Bytes} (h : StarGlob ('*' :: p) s) :
    ∃ y, y <:+ s ∧ StarGlob p y := by
  cases h with
  | char c h => exact ⟨_, List.suffix_cons _ _, h⟩
  | star w hhead h => exact ⟨_, List.suffix_append w _, h⟩

theorem starGlob_nil_right {p : Bytes} : StarGlob p [] ↔ p.dropWhile (· = '*') = [] := by
  induction p with
  | nil => simp [starGlob_nil_left]
  | cons c p ih =>
    by_cases hc : c = '*'
    · subst hc
      rw [starGlob_star_iff (by simp), List.dropWhile_cons_of_pos (by simp), ← ih]
      simp
    · rw [List.dropWhile_cons_of_neg (by simpa using hc)]
      refine iff_of_false (fun h => ?_) (List.cons_ne_nil _ _)
      generalize hx : ([] : Bytes) = x at h
      cases h with
      | char c h => cases hx
      | star w hhead h => exact hc rfl

/-! ### The letters of a pattern -/

/-- The number of bytes that are not stars. -/
def letters (s : Bytes) : ℕ := s.countP (· ≠ '*')

theorem letters_append (s t : Bytes) : letters (s ++ t) = letters s + letters t :=
  List.countP_append

/-- Each letter in front in the pattern takes one of the string. -/
theorem StarGlob.split {u p x : Bytes} (h : StarGlob (u ++ p) x) :
    ∃ front y, x = front ++ y ∧ letters u ≤ letters front ∧ StarGlob p y := by
  induction u generalizing x with
  | nil => exact ⟨[], x, rfl, Nat.le_refl _, h⟩
  | cons c u ih =>
    generalize hq : c :: u ++ p = q at h
    cases h with
    | nil => cases hq
    | char d h =>
      obtain ⟨rfl, rfl⟩ := List.cons.inj hq
      obtain ⟨front, y, rfl, hle, hy⟩ := ih h
      refine ⟨c :: front, y, rfl, ?_, hy⟩
      simp only [letters, List.countP_cons] at hle ⊢
      omega
    | star w hhead h =>
      obtain ⟨rfl, rfl⟩ := List.cons.inj hq
      obtain ⟨front, y, rfl, hle, hy⟩ := ih h
      refine ⟨w ++ front, y, (List.append_assoc _ _ _).symm, ?_, hy⟩
      rw [letters_append]
      have hstar : letters ('*' :: u) = letters u := by simp [letters]
      omega

/-- A match further on in the string, of a pattern whose front was found where it stands, gets
past that front. -/
theorem StarGlob.past {u p s w x : Bytes} (hu : u.head? ≠ some '*') (hw : w ≠ [])
    (hx : u ++ s = w ++ x) (h : StarGlob (u ++ p) x) : ∃ y, y <:+ s ∧ StarGlob p y := by
  obtain ⟨front, y, rfl, hle, hy⟩ := h.split
  refine ⟨y, ?_, hy⟩
  rw [← List.append_assoc] at hx
  rcases List.append_eq_append_iff.mp hx with ⟨b, hb, hs⟩ | ⟨b, hb, -⟩
  · exact ⟨b, hs.symm⟩
  · -- otherwise the front would have more letters than it has
    cases w with
    | nil => exact absurd rfl hw
    | cons a w =>
      subst hb
      have ha : a ≠ '*' := fun he => hu (by rw [he]; rfl)
      have hone : letters (a :: w) = letters w + 1 := by simp [letters, ha]
      simp only [letters_append, hone] at hle
      omega

/-! ### The loop -/

/-- The rest of the pattern is matched further on in the string. -/
def Later (q m : Bytes) : Prop := ∃ w x, w ≠ [] ∧ m = w ++ x ∧ StarGlob q x

theorem later_cons_iff {q m : Bytes} {c : Char} :
    Later q (c :: m) ↔ StarGlob q m ∨ Later q m := by
  constructor
  · rintro ⟨w, x, hw, hm, hx⟩
    cases w with
    | nil => exact absurd rfl hw
    | cons d w =>
      obtain ⟨-, rfl⟩ := List.cons.inj hm
      cases w with
      | nil => exact Or.inl hx
      | cons e w => exact Or.inr ⟨e :: w, x, List.cons_ne_nil _ _, rfl, hx⟩
  · rintro (h | ⟨w, x, hw, rfl, hx⟩)
    · exact ⟨[c], m, List.cons_ne_nil _ _, rfl, h⟩
    · exact ⟨c :: w, x, List.cons_ne_nil _ _, rfl, hx⟩

theorem here_or_later_iff {q m : Bytes} :
    StarGlob q m ∨ Later q m ↔ ∃ y, y <:+ m ∧ StarGlob q y := by
  constructor
  · rintro (h | ⟨w, x, -, rfl, hx⟩)
    · exact ⟨m, List.suffix_rfl, h⟩
    · exact ⟨x, List.suffix_append w x, hx⟩
  · rintro ⟨y, ⟨w, rfl⟩, hy⟩
    cases w with
    | nil => exact Or.inl hy
    | cons d w => exact Or.inr ⟨d :: w, y, List.cons_ne_nil _ _, rfl, hy⟩

/-- Since the last star the same bytes were passed over in the pattern and in the string. -/
structure Passed (p s : Bytes) (saved : Option (Bytes × Bytes)) : Prop where
  same : ∀ q m, saved = some (q, m) → ∃ u, q = u ++ p ∧ m = u ++ s ∧
    (q.head? = some '*' → u = [] ∧ s.head? ≠ some '*')

theorem passed_none (p s : Bytes) : Passed p s none := ⟨fun _ _ h => nomatch h⟩

theorem Passed.cons {c : Char} {p s : Bytes} {saved : Option (Bytes × Bytes)}
    (h : Passed (c :: p) (c :: s) saved) : Passed p s saved := by
  refine ⟨fun q m hsaved => ?_⟩
  obtain ⟨u, rfl, rfl, hstar⟩ := h.same q m hsaved
  refine ⟨u ++ [c], by simp, by simp, fun hq => ?_⟩
  obtain ⟨rfl, hhead⟩ := hstar hq
  exact absurd (by simpa using hq) hhead

theorem passed_here {q m : Bytes} (h : q.head? = some '*' → m.head? ≠ some '*') :
    Passed q m (some (q, m)) := by
  refine ⟨fun q' m' hsaved => ?_⟩
  obtain ⟨rfl, rfl⟩ := Prod.mk.inj (Option.some.inj hsaved)
  exact ⟨[], rfl, rfl, fun hq => ⟨rfl, h hq⟩⟩

/-- What the loop finds: a match from here, or from further on behind the last star. -/
def Found (p s : Bytes) (saved : Option (Bytes × Bytes)) : Prop :=
  StarGlob p s ∨ ∃ q m, saved = some (q, m) ∧ Later q m

theorem found_some {p s q m : Bytes} :
    Found p s (some (q, m)) ↔ StarGlob p s ∨ Later q m := by
  simp [Found]

/-- A star takes over: whatever the last one could still find, it finds as well. -/
theorem found_at_star {p s : Bytes} {saved : Option (Bytes × Bytes)} (hs : s.head? ≠ some '*')
    (h : Passed ('*' :: p) s saved) :
    Found ('*' :: p) s saved ↔ Found p s (some (p, s)) := by
  rw [found_some, here_or_later_iff, Found, starGlob_star_iff hs]
  constructor
  · rintro (hhere | ⟨q, m, hsaved, w, x, hw, hm, hx⟩)
    · exact hhere
    · obtain ⟨u, rfl, rfl, hstar⟩ := h.same q m hsaved
      have hpast : ∃ y, y <:+ s ∧ StarGlob ('*' :: p) y := by
        cases u with
        | nil =>
          obtain rfl : s = w ++ x := hm
          exact ⟨x, List.suffix_append w x, hx⟩
        | cons c u =>
          refine StarGlob.past (fun hc => ?_) hw hm hx
          exact absurd (hstar (by simpa using hc)).1 (List.cons_ne_nil _ _)
      obtain ⟨y, hy, hglob⟩ := hpast
      obtain ⟨z, hz, hrest⟩ := hglob.behind_star
      exact ⟨z, hz.trans hy, hrest⟩
  · exact fun hhere => Or.inl hhere

/-- Where the pattern fails, the last star takes one more byte. -/
theorem found_back {p rest q next : Bytes} {c d : Char} (hc : p.head? ≠ some c)
    (hstar : p.head? ≠ some '*') :
    Found p (c :: rest) (some (q, d :: next)) ↔ Found q next (some (q, next)) := by
  have hfail : ¬StarGlob p (c :: rest) := by
    cases p with
    | nil => exact fun h => List.cons_ne_nil _ _ (starGlob_nil_left.mp h)
    | cons e p => exact starGlob_cons_ne (by simpa using hc) (by simpa using hstar)
  rw [found_some, found_some, or_iff_right hfail, later_cons_iff]

/-- At the end of the string nothing can be found further on. -/
theorem found_end {p : Bytes} {saved : Option (Bytes × Bytes)} (h : Passed p [] saved) :
    Found p [] saved ↔ StarGlob p [] := by
  refine or_iff_left fun ⟨q, m, hsaved, w, x, hw, hm, hx⟩ => ?_
  obtain ⟨u, rfl, rfl, hstar⟩ := h.same q m hsaved
  cases u with
  | nil =>
    obtain ⟨rfl, -⟩ := List.append_eq_nil_iff.mp hm.symm
    exact hw rfl
  | cons c u =>
    have hc : (c :: u).head? ≠ some '*' := fun hc =>
      absurd (hstar (by simpa using hc)).1 (List.cons_ne_nil _ _)
    have hletter : 0 < letters w := by
      cases w with
      | nil => exact absurd rfl hw
      | cons d w =>
        obtain ⟨rfl, -⟩ := List.cons.inj hm
        have hne : c ≠ '*' := by simpa using hc
        simp [letters, hne]
    obtain ⟨front, y, rfl, hle, -⟩ := hx.split
    have hsum := congrArg letters hm
    simp only [letters_append] at hsum
    have hnil : letters [] = 0 := rfl
    omega

theorem wildcardLoop_iff {p s : Bytes} {saved : Option (Bytes × Bytes)} (h : Passed p s saved) :
    wildcardLoop p s saved = true ↔ Found p s saved := by
  fun_induction wildcardLoop p s saved with
  | case1 p saved =>
    rw [found_end h, starGlob_nil_right, decide_eq_true_iff]
  | case2 p saved c rest hc ih =>
    obtain ⟨p, rfl⟩ : ∃ p', p = c :: p' := by
      cases p with
      | nil => cases hc
      | cons d p => exact ⟨p, by rw [Option.some.inj hc]⟩
    rw [ih h.cons, Found, Found, List.tail_cons, starGlob_cons_iff]
  | case3 p saved c rest hc hstar ih =>
    obtain ⟨p, rfl⟩ : ∃ p', p = '*' :: p' := by
      cases p with
      | nil => cases hstar
      | cons d p => exact ⟨p, by rw [Option.some.inj hstar]⟩
    have hhead : (c :: rest).head? ≠ some '*' := fun he => hc (hstar.trans he.symm)
    rw [List.tail_cons] at ih ⊢
    rw [ih (passed_here fun _ => hhead), found_at_star hhead h]
  | case4 p c rest hc hstar q d next ih =>
    have hq : q.head? ≠ some '*' := by
      obtain ⟨u, rfl, hm, hu⟩ := h.same q (d :: next) rfl
      intro hq
      obtain ⟨rfl, -⟩ := hu hq
      exact hstar hq
    rw [ih (passed_here fun he => absurd he hq), found_back hc hstar]
  | case5 p saved c rest hc hstar hnone =>
    refine iff_of_false Bool.false_ne_true ?_
    rintro (hglob | ⟨q, m, rfl, hlater⟩)
    · cases p with
      | nil => exact List.cons_ne_nil _ _ (starGlob_nil_left.mp hglob)
      | cons e p => exact starGlob_cons_ne (by simpa using hc) (by simpa using hstar) hglob
    · obtain ⟨u, -, rfl, -⟩ := h.same q m rfl
      cases u with
      | nil => exact hnone q c rest rfl
      | cons d u => exact hnone q d (u ++ c :: rest) rfl

/-- Any pattern but the empty one and the star alone. -/
theorem wildcardMatch_of_ne {pattern : Bytes} (h : ¬(pattern = [] ∨ pattern = ascii "*"))
    (s : Bytes) : wildcardMatch pattern (some s) = true ↔ StarGlob pattern s := by
  rw [wildcardMatch, if_neg h, wildcardLoop_iff (passed_none pattern s), Found]
  simp

theorem glob_star (s : Bytes) : Glob (ascii "*") s := by
  have h := Glob.star s Glob.nil
  unfold ascii
  simpa using h

/-- The loop finds a match exactly if there is one, unless every match of a pattern other than
the star alone replaces a star in front of a star by something else than that star. -/
theorem wildcardMatch_iff (pattern s : Bytes) :
    (wildcardMatch pattern (some s) = true ↔ pattern = [] ∨ Glob pattern s) ↔
      (Glob pattern s → pattern = ascii "*" ∨ StarGlob pattern s) := by
  by_cases hshort : pattern = [] ∨ pattern = ascii "*"
  · rw [wildcardMatch, if_pos hshort]
    rcases hshort with rfl | rfl
    · refine iff_of_true (iff_of_true rfl (Or.inl rfl)) fun h => Or.inr ?_
      cases h
      exact .nil
    · exact iff_of_true (iff_of_true rfl (Or.inr (glob_star s))) fun _ => Or.inl rfl
  · rw [wildcardMatch_of_ne hshort]
    obtain ⟨hnil, hstar⟩ := not_or.mp hshort
    rw [or_iff_right hnil]
    constructor
    · exact fun h hglob => Or.inr (h.mpr hglob)
    · exact fun h => ⟨StarGlob.glob, fun hglob => (h hglob).resolve_left hstar⟩

/-- Without a star in the string the loop is right. -/
theorem starGlob_of_plain {p s : Bytes} (hs : '*' ∉ s) (h : Glob p s) : StarGlob p s := by
  induction h with
  | nil => exact .nil
  | char _ _ ih => exact .char _ (ih fun hmem => hs (List.mem_cons_of_mem _ hmem))
  | star w _ ih =>
    refine .star w (fun hhead => hs ?_) (ih fun hmem => hs (List.mem_append_right _ hmem))
    exact List.mem_of_mem_head? hhead

/-- The pattern `*a` and the string `*ba`. -/
theorem not_wildcardMatch_star :
    ¬(wildcardMatch (ascii "*a") (some (ascii "*ba")) = true ↔
      ascii "*a" = [] ∨ Glob (ascii "*a") (ascii "*ba")) := by
  intro h
  have hglob : Glob (ascii "*a") (ascii "*ba") := by
    unfold ascii
    exact .star ['*', 'b'] (.char (by decide) .nil)
  have hmatch := h.mpr (Or.inr hglob)
  have hne : ¬(ascii "*a" = [] ∨ ascii "*a" = ascii "*") := by
    unfold ascii
    decide
  rw [wildcardMatch, if_neg hne] at hmatch
  unfold ascii at hmatch
  simp [wildcardLoop] at hmatch

end Aigate.WildcardMatch
