import Aigate.Text

/-!
# UTF-8

The check that the JSON library makes of every text and of every string it is given: the
bytes are those of a sequence of code points, none of them longer than necessary and no
surrogate.
-/
namespace Aigate.Utf8
open Text

/-- The payload of a continuation byte, which is between `0x80` and `0xBF`. -/
def isTail (c : Char) : Bool := 0x80 ≤ c.toNat && c.toNat ≤ 0xBF

def isTwo (a b : Char) : Bool := 0xC2 ≤ a.toNat && a.toNat ≤ 0xDF && isTail b

/-- The code point of three bytes. -/
def valueThree (a b c : Char) : ℕ :=
  (a.toNat % 16) * 4096 + (b.toNat % 64) * 64 + c.toNat % 64

def isThree (a b c : Char) : Bool :=
  0xE0 ≤ a.toNat && a.toNat ≤ 0xEF && isTail b && isTail c && 0x800 ≤ valueThree a b c &&
    !(0xD800 ≤ valueThree a b c && valueThree a b c ≤ 0xDFFF)

/-- The code point of four bytes. -/
def valueFour (a b c d : Char) : ℕ :=
  (a.toNat % 8) * 262144 + (b.toNat % 64) * 4096 + (c.toNat % 64) * 64 + d.toNat % 64

def isFour (a b c d : Char) : Bool :=
  0xF0 ≤ a.toNat && a.toNat ≤ 0xF4 && isTail b && isTail c && isTail d &&
    0x10000 ≤ valueFour a b c d && valueFour a b c d ≤ 0x10FFFF

/-- `utf8_check_string`. -/
def utf8Check : Bytes → Bool
  | [] => true
  | a :: rest =>
    if a.toNat < 0x80 then utf8Check rest
    else
      match rest with
      | [] => false
      | b :: rest =>
        if isTwo a b then utf8Check rest
        else
          match rest with
          | [] => false
          | c :: rest =>
            if isThree a b c then utf8Check rest
            else
              match rest with
              | [] => false
              | d :: rest => isFour a b c d && utf8Check rest

attribute [elab_as_elim] utf8Check.induct_unfolding utf8Check.fun_cases_unfolding

theorem utf8Check_append {s : Bytes} (h : utf8Check s = true) (t : Bytes) :
    utf8Check (s ++ t) = utf8Check t := by
  fun_induction utf8Check s with
  | case1 => rfl
  | case2 a rest ha ih =>
    rw [List.cons_append, utf8Check.eq_def]
    simpa [ha] using ih h
  | case3 => cases h
  | case4 a ha b rest hb ih =>
    rw [List.cons_append, List.cons_append, utf8Check.eq_def]
    simpa [ha, hb] using ih h
  | case5 => cases h
  | case6 a ha b hb c rest hc ih =>
    rw [List.cons_append, List.cons_append, List.cons_append, utf8Check.eq_def]
    simpa [ha, hb, hc] using ih h
  | case7 => cases h
  | case8 a ha b hb c hc d rest ih =>
    rw [Bool.and_eq_true] at h
    rw [List.cons_append, List.cons_append, List.cons_append, List.cons_append, utf8Check.eq_def]
    simpa [ha, hb, hc, h.1] using ih h.2

theorem utf8Check_cons {c : Char} (hc : c.toNat < 128) (s : Bytes) :
    utf8Check (c :: s) = utf8Check s := by
  rw [utf8Check.eq_def]
  simp [hc]

/-- Plain ASCII is UTF-8. -/
theorem utf8Check_of_ascii {s : Bytes} (h : ∀ c ∈ s, c.toNat < 128) : utf8Check s = true := by
  induction s with
  | nil => rfl
  | cons c s ih =>
    rw [utf8Check_cons (h c List.mem_cons_self)]
    exact ih fun d hd => h d (List.mem_cons_of_mem _ hd)

/-- A text starts with one character: an ASCII byte, or some bytes above. -/
theorem utf8Check_head {s : Bytes} (h : utf8Check s = true) (hne : s ≠ []) :
    ∃ u v, s = u ++ v ∧ u ≠ [] ∧ utf8Check u = true ∧ utf8Check v = true ∧
      ((∃ c, u = [c] ∧ c.toNat < 128) ∨ ∀ c ∈ u, 128 ≤ c.toNat) := by
  fun_cases utf8Check s with
  | case1 => exact absurd rfl hne
  | case2 a rest ha =>
    rw [utf8Check_cons ha] at h
    refine ⟨[a], rest, rfl, List.cons_ne_nil _ _, ?_, h, Or.inl ⟨a, rfl, ha⟩⟩
    rw [utf8Check_cons ha]
    rfl
  | case3 a ha => simp [utf8Check, ha] at h
  | case4 a ha b rest hb =>
    rw [utf8Check.eq_def] at h
    have hrest : utf8Check rest = true := by simpa [ha, hb] using h
    refine ⟨[a, b], rest, rfl, List.cons_ne_nil _ _, by simp [utf8Check, ha, hb], hrest, Or.inr ?_⟩
    simp only [isTwo, isTail, Bool.and_eq_true, decide_eq_true_eq] at hb
    simp only [List.mem_cons, List.not_mem_nil, or_false, forall_eq_or_imp, forall_eq]
    omega
  | case5 a ha b hb => simp [utf8Check, ha, hb] at h
  | case6 a ha b hb c rest hc =>
    rw [utf8Check.eq_def] at h
    have hrest : utf8Check rest = true := by simpa [ha, hb, hc] using h
    refine ⟨[a, b, c], rest, rfl, List.cons_ne_nil _ _, by simp [utf8Check, ha, hb, hc], hrest,
      Or.inr ?_⟩
    simp only [isThree, isTail, Bool.and_eq_true, decide_eq_true_eq] at hc
    simp only [List.mem_cons, List.not_mem_nil, or_false, forall_eq_or_imp, forall_eq]
    omega
  | case7 a ha b hb c hc => simp [utf8Check, ha, hb, hc] at h
  | case8 a ha b hb c hc d rest =>
    have hboth : isFour a b c d = true ∧ utf8Check rest = true := by
      simpa [utf8Check, ha, hb, hc] using h
    refine ⟨[a, b, c, d], rest, rfl, List.cons_ne_nil _ _,
      by simp [utf8Check, ha, hb, hc, hboth.1], hboth.2, Or.inr ?_⟩
    have hd := hboth.1
    simp only [isFour, isTail, Bool.and_eq_true, decide_eq_true_eq] at hd
    simp only [List.mem_cons, List.not_mem_nil, or_false, forall_eq_or_imp, forall_eq]
    omega

/-- Induction over the characters of a text. -/
theorem utf8Check_induction {P : Bytes → Prop} (hnil : P [])
    (hbyte : ∀ c v, c.toNat < 128 → P v → P (c :: v))
    (hwide : ∀ u v, (∀ c ∈ u, 128 ≤ c.toNat) → utf8Check u = true → P v → P (u ++ v))
    {s : Bytes} (h : utf8Check s = true) : P s := by
  induction hlength : s.length using Nat.strong_induction_on generalizing s with
  | _ n ih =>
    rcases eq_or_ne s [] with rfl | hne
    · exact hnil
    · obtain ⟨u, v, rfl, hune, hu, hv, hkind⟩ := utf8Check_head h hne
      have hpos := List.length_pos_iff.mpr hune
      have hrest : P v := ih v.length (by rw [← hlength, List.length_append]; omega) hv rfl
      rcases hkind with ⟨c, rfl, hc⟩ | hhigh
      · exact hbyte c v hc hrest
      · exact hwide u v hhigh hu hrest

/-- A text may be cut in front of a byte that is no continuation. -/
theorem utf8Check_split {u v : Bytes} {x : Char} (hx : isTail x = false)
    (h : utf8Check (u ++ x :: v) = true) : utf8Check u = true ∧ utf8Check (x :: v) = true := by
  fun_induction utf8Check u with
  | case1 => exact ⟨rfl, h⟩
  | case2 a rest ha ih =>
    rw [List.cons_append, utf8Check_cons ha] at h
    exact ih h
  | case3 a ha =>
    rcases v with _ | ⟨y, _ | ⟨z, v⟩⟩ <;>
      simp [utf8Check, ha, isTwo, isThree, isFour, hx] at h
  | case4 a ha b rest hb ih =>
    rw [List.cons_append, List.cons_append, utf8Check.eq_def] at h
    exact ih (by simpa [ha, hb] using h)
  | case5 a ha b hb =>
    rcases v with _ | ⟨y, v⟩ <;> simp [utf8Check, ha, hb, isThree, isFour, hx] at h
  | case6 a ha b hb c rest hthree ih =>
    rw [List.cons_append, List.cons_append, List.cons_append, utf8Check.eq_def] at h
    exact ih (by simpa [ha, hb, hthree] using h)
  | case7 a ha b hb c hthree => simp [utf8Check, ha, hb, hthree, isFour, hx] at h
  | case8 a ha b hb c hthree d rest ih =>
    rw [List.cons_append, List.cons_append, List.cons_append, List.cons_append,
      utf8Check.eq_def] at h
    have hboth : isFour a b c d = true ∧ utf8Check (rest ++ x :: v) = true := by
      simpa [ha, hb, hthree] using h
    rw [hboth.1, Bool.true_and]
    exact ih hboth.2

/-- A text is cut at an ASCII character. -/
theorem utf8Check_cut {s t : Bytes} {c : Char} (hc : c.toNat < 128)
    (h : utf8Check (s ++ c :: t) = true) : utf8Check s = true ∧ utf8Check t = true := by
  have htail : isTail c = false := by
    unfold isTail
    rw [Bool.and_eq_false_iff]
    exact Or.inl (decide_eq_false (by omega))
  obtain ⟨hs, hct⟩ := utf8Check_split htail h
  rw [utf8Check_cons hc] at hct
  exact ⟨hs, hct⟩

end Aigate.Utf8
