import Mathlib

/-!
# Byte strings

A C string is a list of characters, one character for each byte. The decimal and
hexadecimal numerals, the case map and the substring test used by every module are here.
-/
namespace Aigate.Text

/-- The bytes of a C string, without its terminator. -/
abbrev Bytes := List Char

instance lawfulBEqBytes : LawfulBEq Bytes := inferInstance

/-- The bytes of an ASCII literal of the source. -/
@[irreducible] def ascii (s : String) : Bytes := s.toList

/-- The conversion `%zu` or `%d` of a natural number. -/
def decimal (n : ℕ) : Bytes := Nat.toDigits 10 n

/-- The inverse of `decimal` on a run of digits. -/
def ofDecimal (ds : Bytes) : ℕ := Nat.ofDigitChars 10 ds 0

/-- `tolower` in the C locale, over a whole string. -/
def lower (s : Bytes) : Bytes := s.map Char.toLower

/-- `strstr` finds `pat` in `s`. -/
def occursIn (pat s : Bytes) : Bool :=
  match s with
  | [] => pat.isEmpty
  | c :: cs => pat.isPrefixOf (c :: cs) || occursIn pat cs

/-- The hash `h * 33 + c` over a string, in 32 bits. -/
def djb2 (h : ℕ) (s : Bytes) : ℕ := s.foldl (fun h c => (h * 33 + c.toNat) % 2 ^ 32) h

@[simp] theorem ascii_length (s : String) : (ascii s).length = s.length := by
  unfold ascii
  exact String.length_toList

theorem not_mem_ascii {c : Char} (s : String) (h : s.toList.all (fun d => d ≠ c) = true) :
    c ∉ ascii s := by
  unfold ascii
  exact fun hc => of_decide_eq_true (List.all_eq_true.mp h c hc) rfl

theorem ascii_injective : Function.Injective ascii := by
  intro s t h
  unfold ascii at h
  exact String.toList_inj.mp h

theorem ascii_inj {s t : String} : ascii s = ascii t ↔ s = t := ascii_injective.eq_iff

theorem ascii_ne {s t : String} (h : s ≠ t) : ascii s ≠ ascii t :=
  fun he => h (ascii_injective he)

@[simp] theorem lower_length (s : Bytes) : (lower s).length = s.length := by
  simp [lower]

theorem decimal_ne_nil (n : ℕ) : decimal n ≠ [] := Nat.toDigits_ne_nil

theorem decimal_digits {n : ℕ} {c : Char} (h : c ∈ decimal n) : c.isDigit = true :=
  Nat.isDigit_of_mem_toDigits (by omega) (by omega) h

@[simp] theorem ofDecimal_decimal (n : ℕ) : ofDecimal (decimal n) = n :=
  Nat.ofDigitChars_ten_toDigits

theorem decimal_injective : Function.Injective decimal := by
  intro m n h
  have := congrArg ofDecimal h
  simpa using this

theorem decimal_length_le {n k : ℕ} (hk : 0 < k) (h : n < 10 ^ k) :
    (decimal n).length ≤ k :=
  Nat.toDigits_length 10 n k hk h

/-- A run of digits in front of something else. -/
theorem takeWhile_digits {ds rest : Bytes} (hd : ∀ c ∈ ds, c.isDigit = true)
    (hr : ∀ c ∈ rest.head?, c.isDigit = false) :
    (ds ++ rest).takeWhile Char.isDigit = ds ∧ (ds ++ rest).dropWhile Char.isDigit = rest := by
  have hrest : rest.takeWhile Char.isDigit = [] ∧ rest.dropWhile Char.isDigit = rest := by
    cases rest with
    | nil => simp
    | cons c cs => simp [hr c (by simp)]
  rw [List.takeWhile_append_of_pos hd, List.dropWhile_append_of_pos hd, hrest.1, hrest.2]
  simp

/-- The substring test decides the infix relation. -/
theorem occursIn_iff (pat s : Bytes) : occursIn pat s = true ↔ pat <:+: s := by
  induction s with
  | nil => simp [occursIn, List.isEmpty_iff]
  | cons c cs ih =>
    simp only [occursIn, Bool.or_eq_true, ih, List.isPrefixOf_iff_prefix]
    exact List.infix_cons_iff.symm

end Aigate.Text
