import Aigate.Text

/-!
# Query strings

The parameters of a request are looked up in its query string, and numbers are read with
`strtol`. A decimal numeral that is given for a parameter is read back.
-/
namespace Aigate.QueryParams
open Text

/-- The value of a segment `field=value`. -/
def segmentValue (field segment : Bytes) : Option Bytes :=
  if (field ++ ['=']).isPrefixOf segment then some (segment.drop (field.length + 1)) else none

/-- `query_param` into a buffer of the given size: the first value of the field, cut to the
buffer; the empty string if there is none. -/
def queryParam (query field : Bytes) (cap : ℕ) : Bytes :=
  (((query.splitOn '&').findSome? (segmentValue field)).map fun v => v.take (cap - 1)).getD []

/-- `isspace` in the C locale. -/
def isCSpace (c : Char) : Bool := c = ' ' || (9 ≤ c.toNat && c.toNat ≤ 13)

/-- `strtol` in base ten; a number out of range is clamped. -/
def strtol (s : Bytes) : ℤ :=
  let t := s.dropWhile isCSpace
  let negative : Bool := t.head? = some '-'
  let t := if t.head? = some '-' ∨ t.head? = some '+' then t.tail else t
  let n : ℤ := ofDecimal (t.takeWhile Char.isDigit)
  max (-2 ^ 63) (min (2 ^ 63 - 1) (if negative then -n else n))

/-- The conversion of a `long` to `int` keeps the low 32 bits. -/
def castInt (n : ℤ) : ℤ := (n + 2 ^ 31) % 2 ^ 32 - 2 ^ 31

/-- The result of an arithmetic operation on `int`s; undefined on overflow. -/
def intResult (n : ℤ) : Option ℤ := if -2 ^ 31 ≤ n ∧ n < 2 ^ 31 then some n else none

/-- A query string with one value for each field. -/
def queryString (params : List (Bytes × Bytes)) : Bytes :=
  ['&'].intercalate (params.map fun p => p.1 ++ '=' :: p.2)

theorem castInt_eq {n : ℤ} (hlo : -2 ^ 31 ≤ n) (hhi : n < 2 ^ 31) : castInt n = n := by
  unfold castInt
  omega

theorem castInt_lt (n : ℤ) : castInt n < 2 ^ 31 := by
  unfold castInt
  omega

theorem intResult_eq_some {n : ℤ} (hlo : -2 ^ 31 ≤ n) (hhi : n < 2 ^ 31) :
    intResult n = some n :=
  if_pos ⟨hlo, hhi⟩

theorem intResult_eq_none {n : ℤ} (h : 2 ^ 31 ≤ n) : intResult n = none := by
  apply if_neg
  omega

theorem segmentValue_self (field v : Bytes) :
    segmentValue field (field ++ '=' :: v) = some v := by
  unfold segmentValue
  rw [show field ++ '=' :: v = (field ++ ['=']) ++ v by simp]
  rw [if_pos (List.isPrefixOf_iff_prefix.mpr (List.prefix_append ..))]
  rw [show field.length + 1 = (field ++ ['=']).length by simp, List.drop_left]

/-- The field name of a segment is all there is before its first equals sign. -/
theorem segmentValue_of_ne {field other : Bytes} (hne : field ≠ other) (hf : '=' ∉ field)
    (ho : '=' ∉ other) (v : Bytes) : segmentValue field (other ++ '=' :: v) = none := by
  unfold segmentValue
  rw [if_neg]
  intro hprefix
  obtain ⟨t, ht⟩ := List.isPrefixOf_iff_prefix.mp hprefix
  have hname (name rest : Bytes) (hn : '=' ∉ name) :
      (name ++ '=' :: rest).takeWhile (fun c => c != '=') = name := by
    rw [List.takeWhile_append_of_pos]
    · simp
    · intro c hc
      simpa using fun h : c = '=' => hn (h ▸ hc)
  apply hne
  have hboth := congrArg (fun s => s.takeWhile fun c => c != '=') ht
  rwa [List.append_assoc, List.singleton_append, hname field t hf, hname other v ho] at hboth

/-- A parameter of a query string is found under its field. -/
theorem queryParam_queryString {params : List (Bytes × Bytes)} (hne : params ≠ [])
    (hfields : ∀ p ∈ params, '&' ∉ p.1 ∧ '=' ∉ p.1 ∧ '&' ∉ p.2) {field : Bytes}
    (hfield : '=' ∉ field) (cap : ℕ) :
    queryParam (queryString params) field cap =
      (((params.find? fun p => p.1 = field).map Prod.snd).map fun v => v.take (cap - 1)).getD
        [] := by
  have hsegments : (queryString params).splitOn '&' =
      params.map fun p => p.1 ++ '=' :: p.2 := by
    unfold queryString
    refine List.splitOn_intercalate '&' ?_ (by simpa using hne)
    intro segment hsegment
    obtain ⟨p, hp, rfl⟩ := List.mem_map.mp hsegment
    obtain ⟨hamp, -, hvalue⟩ := hfields p hp
    simp [hamp, hvalue]
  have hfound : (params.map fun p => p.1 ++ '=' :: p.2).findSome? (segmentValue field) =
      (params.find? fun p => p.1 = field).map Prod.snd := by
    clear hsegments hne
    induction params with
    | nil => rfl
    | cons p rest ih =>
      have ih' := ih fun q hq => hfields q (List.mem_cons_of_mem _ hq)
      rw [List.map_cons, List.findSome?_cons, List.find?_cons]
      by_cases hp : p.1 = field
      · subst hp
        simp [segmentValue_self]
      · have hother := (hfields p (List.mem_cons_self ..)).2.1
        rw [segmentValue_of_ne (Ne.symm hp) hfield hother]
        simpa [hp] using ih'
  unfold queryParam
  rw [hsegments, hfound]

theorem isDigit_not_space {c : Char} (h : c.isDigit = true) :
    isCSpace c = false ∧ c ≠ '-' ∧ c ≠ '+' ∧ c ≠ '&' := by
  have hle : 48 ≤ c.toNat := by
    simp only [Char.isDigit, Bool.and_eq_true, decide_eq_true_eq] at h
    exact h.1
  have hne {d : Char} (hd : d.toNat < 48) : c ≠ d := by
    rintro rfl
    omega
  refine ⟨?_, hne (by decide), hne (by decide), hne (by decide)⟩
  unfold isCSpace
  simp only [Bool.or_eq_false_iff, decide_eq_false_iff_not, Bool.and_eq_false_iff]
  exact ⟨hne (by decide), .inr (by simp; omega)⟩

theorem strtol_decimal (n : ℕ) : strtol (decimal n) = min (2 ^ 63 - 1) (n : ℤ) := by
  have hdigits : ∀ c ∈ decimal n, c.isDigit = true := fun c => decimal_digits
  obtain ⟨c, t, hct⟩ := List.exists_cons_of_ne_nil (decimal_ne_nil n)
  have hc := isDigit_not_space (hdigits c (hct ▸ List.mem_cons_self ..))
  have hspace : (decimal n).dropWhile isCSpace = decimal n := by
    rw [hct]
    simp [hc.1]
  have htake : (decimal n).takeWhile Char.isDigit = decimal n :=
    List.takeWhile_eq_self_iff.mpr hdigits
  have hminus : (decimal n).head? ≠ some '-' := by simpa [hct] using hc.2.1
  have hplus : (decimal n).head? ≠ some '+' := by simpa [hct] using hc.2.2.1
  unfold strtol
  simp only [hspace, hminus, hplus, or_self, if_false, htake, ofDecimal_decimal, decide_false,
    Bool.false_eq_true]
  omega

end Aigate.QueryParams
