import Aigate.JsonText

/-!
# The parser reads back what the serialiser wrote
-/
namespace Aigate.JsonRoundtrip
open Text JsonTree JsonText

mutual

/-- Strings and keys hold no zero byte, and the keys of an object are distinct. -/
def wellFormed : Json → Bool
  | .string s => decide (Char.ofNat 0 ∉ s)
  | .array items => wellFormedItems items
  | .object members => wellFormedMembers members && decide (members.map Prod.fst).Nodup
  | _ => true

def wellFormedItems : List Json → Bool
  | [] => true
  | x :: rest => wellFormed x && wellFormedItems rest

def wellFormedMembers : List (Bytes × Json) → Bool
  | [] => true
  | (k, v) :: rest => decide (Char.ofNat 0 ∉ k) && wellFormed v && wellFormedMembers rest

end

/-- The text after a value does not continue a numeral. -/
def Stops (rest : Bytes) : Prop :=
  ∀ c ∈ rest.head?, c.isDigit = false ∧ c ≠ '.' ∧ c ≠ 'e' ∧ c ≠ 'E'

theorem stops_cons {c : Char} {rest : Bytes}
    (h : c.isDigit = false ∧ c ≠ '.' ∧ c ≠ 'e' ∧ c ≠ 'E') : Stops (c :: rest) := by
  simpa [Stops] using h

theorem stops_nil : Stops [] := by simp [Stops]

theorem hexValue_hexDigit : ∀ n < 16, hexValue (hexDigit n) = some n := by decide

/-- One escaped byte is read back as that byte. -/
theorem parseString_escapeChar {c : Char} (hc : c ≠ Char.ofNat 0) (fuel : ℕ) (t : Bytes) :
    parseString (fuel + 1) (escapeChar c ++ t) =
      (parseString fuel t).map fun r => (c :: r.1, r.2) := by
  unfold escapeChar
  split_ifs with h1 h2 h3 h4 h5 h6 h7 h8
  · subst h1; rfl
  · subst h2; rfl
  · have : c = Char.ofNat 8 := by rw [← h3, Char.ofNat_toNat]
    subst this; rfl
  · have : c = Char.ofNat 12 := by rw [← h4, Char.ofNat_toNat]
    subst this; rfl
  · have : c = Char.ofNat 10 := by rw [← h5, Char.ofNat_toNat]
    subst this; rfl
  · have : c = Char.ofNat 13 := by rw [← h6, Char.ofNat_toNat]
    subst this; rfl
  · have : c = Char.ofNat 9 := by rw [← h7, Char.ofNat_toNat]
    subst this; rfl
  · have hz : c.toNat ≠ 0 := fun h => hc (by rw [← Char.ofNat_toNat c, h])
    have hx : hexFour '0' '0' (hexDigit (c.toNat / 16)) (hexDigit (c.toNat % 16)) =
        some c.toNat := by
      have h0 : hexValue '0' = some 0 := by decide
      simp only [hexFour, h0, hexValue_hexDigit _ (show c.toNat / 16 < 16 by omega),
        hexValue_hexDigit _ (show c.toNat % 16 < 16 by omega)]
      simp only [Option.bind_eq_bind, Option.bind_some, Option.pure_def, Option.some.injEq]
      omega
    have hu : unescape ('u' :: '0' :: '0' :: hexDigit (c.toNat / 16) ::
        hexDigit (c.toNat % 16) :: t) = some ([c], t) := by
      simp only [unescape, hx, Option.bind_eq_bind, Option.bind_some, hz, if_false]
      rw [if_neg (by omega), if_neg (by omega), utf8Encode, if_pos (by omega), Char.ofNat_toNat]
    simp only [List.cons_append, List.nil_append, parseString, hu, Option.bind_some]
    rfl
  · simp [parseString, h1, h2, h8]

theorem parseString_escaped {s : Bytes} (hs : Char.ofNat 0 ∉ s) (t : Bytes) :
    ∀ fuel, s.length < fuel →
      parseString fuel (s.flatMap escapeChar ++ '"' :: t) = some (s, t) := by
  induction s with
  | nil =>
    intro fuel hf
    obtain ⟨f, rfl⟩ : ∃ f, fuel = f + 1 := ⟨fuel - 1, by simp at hf; omega⟩
    simp [parseString]
  | cons c cs ih =>
    intro fuel hf
    obtain ⟨f, rfl⟩ : ∃ f, fuel = f + 1 := ⟨fuel - 1, by simp at hf; omega⟩
    simp only [List.mem_cons, not_or] at hs
    rw [List.flatMap_cons, List.append_assoc, parseString_escapeChar (Ne.symm hs.1),
      ih hs.2 f (by simp at hf; omega)]
    rfl

theorem escapeChar_length (c : Char) : 1 ≤ (escapeChar c).length := by
  unfold escapeChar
  split_ifs <;> simp

theorem flatMap_escapeChar_length (s : Bytes) : s.length ≤ (s.flatMap escapeChar).length := by
  induction s with
  | nil => simp
  | cons c cs ih =>
    have := escapeChar_length c
    simp only [List.flatMap_cons, List.length_append, List.length_cons]
    omega

theorem decimal_head {n : ℕ} (hn : n ≠ 0) : (decimal n).head? ≠ some '0' := by
  induction n using Nat.strong_induction_on with
  | _ n ih =>
    by_cases hlt : n < 10
    · rw [decimal, Nat.toDigits_of_lt_base hlt]
      interval_cases n <;> first | exact absurd rfl hn | decide
    · have h10 : 10 ≤ n := by omega
      have hq := ih (n / 10) (by omega) (by omega)
      rw [decimal, Nat.toDigits_of_base_le (by omega) h10]
      rw [decimal] at hq
      cases hd : Nat.toDigits 10 (n / 10) with
      | nil => exact absurd hd Nat.toDigits_ne_nil
      | cons c cs => simpa [hd] using hq

theorem decimal_no_leading_zero (n : ℕ) :
    ¬ (1 < (decimal n).length ∧ (decimal n).head? = some '0') := by
  rintro ⟨hl, hz⟩
  by_cases hn : n = 0
  · subst hn
    simp [decimal] at hl
  · exact decimal_head hn hz

theorem decimal_head_digit {n : ℕ} {c : Char} (h : (decimal n).head? = some c) :
    c.isDigit = true :=
  decimal_digits (List.mem_of_mem_head? h)

theorem parseFraction_stops {rest : Bytes} (h : Stops rest) :
    parseFraction rest = some ([], rest) := by
  cases rest with
  | nil => rfl
  | cons c cs =>
    have hc := (h c (by simp)).2.1
    unfold parseFraction
    split
    · simp_all
    · rfl

theorem parseExponent_stops {rest : Bytes} (h : Stops rest) :
    parseExponent rest = some (none, rest) := by
  cases rest with
  | nil => rfl
  | cons c cs =>
    have hc := (h c (by simp)).2.2
    simp [parseExponent, hc.1, hc.2]

/-- A sign and the digits of a number, read off a text. -/
theorem parseNumber_signed (negative : Bool) (n : ℕ) {tail : Bytes}
    (htail : ∀ c ∈ tail.head?, c.isDigit = false) :
    parseNumber ((if negative then ['-'] else []) ++ decimal n ++ tail) =
      (parseFraction tail).bind fun f => (parseExponent f.2).bind fun e =>
        (makeNumber negative (decimal n) f.1 e.1).map fun j => (j, e.2) := by
  have hspan := takeWhile_digits (fun c hc => decimal_digits (n := n) hc) htail
  have hne := decimal_ne_nil n
  have hlead := decimal_no_leading_zero n
  cases negative with
  | true =>
    simp only [if_true, List.cons_append, List.nil_append, parseNumber, List.head?_cons,
      decide_true, List.tail_cons, hspan.1, hspan.2]
    rw [if_neg (by simp only [hne, false_or]; exact hlead)]
  | false =>
    have hhead : (decimal n ++ tail).head? ≠ some '-' := by
      cases hd : decimal n with
      | nil => exact absurd hd hne
      | cons c cs =>
        have : c.isDigit = true := decimal_head_digit (by rw [hd]; rfl)
        intro hc
        simp only [List.cons_append, List.head?_cons, Option.some.injEq] at hc
        subst hc
        simp at this
    simp only [Bool.false_eq_true, if_false, List.nil_append, parseNumber, hhead, decide_false,
      hspan.1, hspan.2]
    rw [if_neg (by simp only [hne, false_or]; exact hlead)]

theorem makeInteger_toInt (n : Int64) :
    makeInteger (decide (n.toInt < 0)) (decimal n.toInt.natAbs) = some (.integer n) := by
  have hlo := n.le_toInt
  have hhi := n.toInt_lt
  have habs : (if decide (n.toInt < 0) = true then -(n.toInt.natAbs : ℤ) else n.toInt.natAbs) =
      n.toInt := by
    split_ifs with h
    · simp only [decide_eq_true_eq] at h
      omega
    · simp only [decide_eq_true_eq] at h
      omega
  simp only [makeInteger, ofDecimal_decimal, habs]
  rw [if_pos ⟨by simpa using hlo, by simpa using hhi⟩, Int64.ofInt_toInt]

theorem parseNumber_integerText (n : Int64) {rest : Bytes} (h : Stops rest) :
    parseNumber (integerText n ++ rest) = some (.integer n, rest) := by
  have htext : integerText n = (if decide (n.toInt < 0) = true then ['-'] else []) ++
      decimal n.toInt.natAbs := by
    by_cases hn : n.toInt < 0 <;> simp [integerText, hn]
  rw [htext, parseNumber_signed _ _ (fun c hc => (h c hc).1), parseFraction_stops h]
  simp only [Option.bind_some, parseExponent_stops h, makeNumber, makeInteger_toInt,
    Option.map_some]

theorem makeReal_digits (x : Decimal) :
    makeReal x.negative (decimal x.whole ++ x.fraction) (decimal x.whole).length =
      some (.real x) := by
  have hneg : (-((decimal x.whole).length : ℤ)).toNat = 0 := by omega
  have hpad : (((decimal x.whole).length : ℤ) -
      ((decimal x.whole ++ x.fraction).length : ℕ)).toNat = 0 := by
    simp only [List.length_append]
    omega
  simp only [makeReal, hneg, hpad, List.replicate_zero, List.nil_append, List.append_nil,
    Int.toNat_natCast, List.take_left, List.drop_left, ofDecimal_decimal, x.written, if_false]
  rw [dif_pos ⟨x.digits, x.written, x.finite⟩]

theorem parseNumber_realText (x : Decimal) {rest : Bytes} (h : Stops rest) :
    parseNumber (realText x ++ rest) = some (.real x, rest) := by
  have hdigits : ∀ c ∈ x.fraction, c.isDigit = true := List.all_eq_true.mp x.digits
  have hspan := takeWhile_digits hdigits (fun c hc => (h c hc).1)
  have hfrac : parseFraction ('.' :: x.fraction ++ rest) = some (x.fraction, rest) := by
    simp [parseFraction, hspan.1, hspan.2, x.written]
  rw [realText, List.append_assoc, parseNumber_signed _ _ (by simp), hfrac]
  simp only [Option.bind_some, parseExponent_stops h]
  cases hf : x.fraction with
  | nil => exact absurd hf x.written
  | cons c cs =>
    have := makeReal_digits x
    rw [hf] at this
    simp [makeNumber, this]

theorem skipSpace_cons {c : Char} (t : Bytes) (h : isSpace c = false) :
    skipSpace (c :: t) = c :: t := by
  simp [skipSpace, h]

theorem digit_not_special {c : Char} (h : c.isDigit = true ∨ c = '-') :
    isSpace c = false ∧ c ≠ ']' ∧ c ≠ '{' ∧ c ≠ '[' ∧ c ≠ '"' ∧ c ≠ 'n' ∧ c ≠ 't' ∧ c ≠ 'f' := by
  rcases h with h | rfl
  · refine ⟨?_, ?_, ?_, ?_, ?_, ?_, ?_, ?_⟩
    · simp only [isSpace, Bool.or_eq_false_iff, decide_eq_false_iff_not]
      refine ⟨⟨⟨?_, ?_⟩, ?_⟩, ?_⟩ <;> rintro rfl <;> exact absurd h (by decide)
    all_goals rintro rfl; exact absurd h (by decide)
  · decide

theorem integerText_head (n : Int64) :
    ∃ c t, integerText n = c :: t ∧ (c.isDigit = true ∨ c = '-') := by
  unfold integerText
  split_ifs
  · exact ⟨_, _, rfl, Or.inr rfl⟩
  · cases hd : decimal n.toInt.natAbs with
    | nil => exact absurd hd (decimal_ne_nil _)
    | cons c cs => exact ⟨c, cs, rfl, Or.inl (decimal_head_digit (by rw [hd]; rfl))⟩

theorem realText_head (x : Decimal) :
    ∃ c t, realText x = c :: t ∧ (c.isDigit = true ∨ c = '-') := by
  unfold realText
  cases x.negative with
  | true => exact ⟨_, _, rfl, Or.inr rfl⟩
  | false =>
    cases hd : decimal x.whole with
    | nil => exact absurd hd (decimal_ne_nil _)
    | cons c cs => exact ⟨c, _, rfl, Or.inl (decimal_head_digit (by rw [hd]; rfl))⟩

/-- A written value starts with a visible character other than a closing bracket. -/
theorem dumps_head (j : Json) :
    ∃ c t, dumps j = c :: t ∧ isSpace c = false ∧ c ≠ ']' := by
  cases j with
  | null => exact ⟨'n', _, rfl, by decide⟩
  | bool b => cases b <;> exact ⟨_, _, rfl, by decide⟩
  | integer n =>
    obtain ⟨c, t, h, hc⟩ := integerText_head n
    have := digit_not_special hc
    exact ⟨c, t, by rw [dumps, h], this.1, this.2.1⟩
  | real x =>
    obtain ⟨c, t, h, hc⟩ := realText_head x
    have := digit_not_special hc
    exact ⟨c, t, by rw [dumps, h], this.1, this.2.1⟩
  | string s => exact ⟨'"', _, by rw [dumps, quoted]; rfl, by decide⟩
  | array items => exact ⟨'[', _, by rw [dumps]; rfl, by decide⟩
  | object members => exact ⟨'{', _, by rw [dumps]; rfl, by decide⟩

theorem dumpsItems_head (x : Json) (xs : List Json) :
    ∃ c t, dumpsItems (x :: xs) = c :: t ∧ isSpace c = false ∧ c ≠ ']' := by
  obtain ⟨c, t, h, hc⟩ := dumps_head x
  cases xs with
  | nil => exact ⟨c, t, by rw [dumpsItems, h], hc⟩
  | cons y ys => exact ⟨c, t ++ ',' :: dumpsItems (y :: ys), by rw [dumpsItems, h]; rfl, hc⟩

theorem dumpsMembers_head (m : Bytes × Json) (ms : List (Bytes × Json)) :
    ∃ t, dumpsMembers (m :: ms) = '"' :: t := by
  cases ms with
  | nil => exact ⟨_, by rw [dumpsMembers, quoted]; rfl⟩
  | cons m' ms => exact ⟨_, by rw [dumpsMembers, quoted]; rfl⟩

theorem parseString_quoted {s : Bytes} (hs : Char.ofNat 0 ∉ s) (t : Bytes) :
    parseString ((s.flatMap escapeChar ++ '"' :: t).length + 1)
      (s.flatMap escapeChar ++ '"' :: t) = some (s, t) := by
  refine parseString_escaped hs t _ ?_
  have := flatMap_escapeChar_length s
  simp only [List.length_append]
  omega

theorem assign_append {seen : List (Bytes × Json)} {k : Bytes} (v : Json)
    (h : k ∉ seen.map Prod.fst) : assign seen k v = seen ++ [(k, v)] := by
  induction seen with
  | nil => rfl
  | cons m rest ih =>
    simp only [List.map_cons, List.mem_cons, not_or] at h
    simp [assign, Ne.symm h.1, ih h.2]

theorem parseValue_scalar {c : Char} {t : Bytes} (fuel : ℕ) (hc : c.isDigit = true ∨ c = '-') :
    parseValue (fuel + 1) (c :: t) = parseNumber (c :: t) := by
  obtain ⟨h0, -, h1, h2, h3, h4, h5, h6⟩ := digit_not_special hc
  simp only [parseValue, skipSpace_cons t h0, h1, h2, h3, h4, h5, h6, if_false]

mutual

theorem parseValue_dumps (j : Json) (hj : wellFormed j = true) (fuel : ℕ) (rest : Bytes)
    (hf : (dumps j).length ≤ fuel) (hr : Stops rest) :
    parseValue (fuel + 1) (dumps j ++ rest) = some (j, rest) := by
  match j with
  | .null =>
    simp [dumps, parseValue, skipSpace, isSpace, expect]
  | .bool b =>
    cases b <;> simp [dumps, parseValue, skipSpace, isSpace, expect]
  | .integer n =>
    obtain ⟨c, t, h, hc⟩ := integerText_head n
    rw [dumps, h, List.cons_append, parseValue_scalar fuel hc, ← List.cons_append, ← h,
      parseNumber_integerText n hr]
  | .real x =>
    obtain ⟨c, t, h, hc⟩ := realText_head x
    rw [dumps, h, List.cons_append, parseValue_scalar fuel hc, ← List.cons_append, ← h,
      parseNumber_realText x hr]
  | .string s =>
    have hs : Char.ofNat 0 ∉ s := by simpa [wellFormed] using hj
    have h := parseString_quoted hs rest
    have hq : dumps (.string s) ++ rest = '"' :: (s.flatMap escapeChar ++ '"' :: rest) := by
      simp [dumps, quoted]
    rw [hq]
    simp only [parseValue, skipSpace_cons _ (show isSpace '"' = false by decide), Char.reduceEq,
      if_false, if_true, h, Option.map_some]
  | .array items =>
    have hq : dumps (.array items) ++ rest = '[' :: (dumpsItems items ++ ']' :: rest) := by
      simp [dumps]
    rw [hq]
    simp only [parseValue, skipSpace_cons _ (show isSpace '[' = false by decide)]
    cases items with
    | nil => simp [dumpsItems, skipSpace, isSpace]
    | cons x xs =>
      obtain ⟨f, rfl⟩ : ∃ f, fuel = f + 1 := ⟨fuel - 1, by simp [dumps] at hf; omega⟩
      have ih := parseItems_dumps x xs (by simpa [wellFormed] using hj)
        f rest (by simp [dumps] at hf; omega)
      obtain ⟨c, t, h, hs, hb⟩ := dumpsItems_head x xs
      rw [h, List.cons_append] at ih
      rw [h, List.cons_append, skipSpace_cons _ hs]
      simp only [Char.reduceEq, if_false, if_true]
      split
      · rename_i heq
        simp only [List.cons.injEq] at heq
        exact absurd heq.1 hb
      · rw [ih]; rfl
  | .object members =>
    have hq : dumps (.object members) ++ rest =
        '{' :: (dumpsMembers members ++ '}' :: rest) := by
      simp [dumps]
    rw [hq]
    simp only [parseValue, skipSpace_cons _ (show isSpace '{' = false by decide)]
    simp only [wellFormed, Bool.and_eq_true, decide_eq_true_eq] at hj
    cases members with
    | nil => simp [dumpsMembers, skipSpace, isSpace]
    | cons m ms =>
      obtain ⟨f, rfl⟩ : ∃ f, fuel = f + 1 := ⟨fuel - 1, by simp [dumps] at hf; omega⟩
      have ih := parseMembers_dumps m ms hj.1 [] (by simpa using hj.2)
        f rest (by simp [dumps] at hf; omega)
      obtain ⟨t, h⟩ := dumpsMembers_head m ms
      rw [h, List.cons_append] at ih
      rw [h, List.cons_append, skipSpace_cons _ (by decide)]
      simp only [if_true]
      split
      · rename_i heq
        simp only [List.cons.injEq, Char.reduceEq, false_and] at heq
      · rw [ih]; rfl
termination_by fuel
decreasing_by all_goals omega

theorem parseItems_dumps (x : Json) (xs : List Json)
    (hj : wellFormedItems (x :: xs) = true) (fuel : ℕ) (rest : Bytes)
    (hf : (dumpsItems (x :: xs)).length < fuel) :
    parseItems (fuel + 1) (dumpsItems (x :: xs) ++ ']' :: rest) = some (x :: xs, rest) := by
  simp only [wellFormedItems, Bool.and_eq_true] at hj
  obtain ⟨f, rfl⟩ : ∃ f, fuel = f + 1 := ⟨fuel - 1, by omega⟩
  match xs with
  | [] =>
    have hx := parseValue_dumps x hj.1 f (']' :: rest)
      (by simp only [dumpsItems] at hf; omega) (stops_cons (by decide))
    rw [dumpsItems, parseItems]
    simp only [hx, Option.bind_eq_bind, Option.bind_some,
      skipSpace_cons _ (show isSpace ']' = false by decide)]
  | y :: ys =>
    simp only [dumpsItems, List.length_append, List.length_cons] at hf
    have hx := parseValue_dumps x hj.1 f
      (',' :: (dumpsItems (y :: ys) ++ ']' :: rest)) (by omega) (stops_cons (by decide))
    have hxs := parseItems_dumps y ys (by simpa [wellFormedItems] using hj.2)
      f rest (by
        obtain ⟨c, t, h, -⟩ := dumps_head x
        rw [h] at hf
        simp only [List.length_cons] at hf
        omega)
    rw [dumpsItems, List.append_assoc, List.cons_append, parseItems]
    simp only [hx, Option.bind_eq_bind, Option.bind_some,
      skipSpace_cons _ (show isSpace ',' = false by decide), hxs, Option.map_some]
termination_by fuel
decreasing_by all_goals omega

theorem parseMembers_dumps (m : Bytes × Json) (ms : List (Bytes × Json))
    (hj : wellFormedMembers (m :: ms) = true) (seen : List (Bytes × Json))
    (hk : (seen.map Prod.fst ++ (m :: ms).map Prod.fst).Nodup) (fuel : ℕ) (rest : Bytes)
    (hf : (dumpsMembers (m :: ms)).length ≤ fuel) :
    parseMembers (fuel + 1) seen (dumpsMembers (m :: ms) ++ '}' :: rest) =
      some (seen ++ m :: ms, rest) := by
  obtain ⟨k, v⟩ := m
  simp only [wellFormedMembers, Bool.and_eq_true, decide_eq_true_eq] at hj
  obtain ⟨⟨hkey, hv⟩, hms⟩ := hj
  obtain ⟨f, rfl⟩ : ∃ f, fuel = f + 1 := by
    obtain ⟨t, h⟩ := dumpsMembers_head (k, v) ms
    exact ⟨fuel - 1, by rw [h] at hf; simp at hf; omega⟩
  have hfresh : k ∉ seen.map Prod.fst := by
    intro hmem
    exact (List.disjoint_of_nodup_append hk) hmem (by simp)
  have hquote (t : Bytes) : quoted k ++ ':' :: t =
      '"' :: (k.flatMap escapeChar ++ '"' :: ':' :: t) := by simp [quoted]
  match ms with
  | [] =>
    simp only [dumpsMembers, List.length_append, List.length_cons] at hf
    have hx := parseValue_dumps v hv f ('}' :: rest) (by omega)
      (stops_cons (by decide))
    rw [dumpsMembers, List.append_assoc, List.cons_append, hquote, parseMembers]
    simp only [skipSpace_cons _ (show isSpace '"' = false by decide), parseString_quoted hkey, Option.bind_eq_bind, Option.bind_some,
      skipSpace_cons _ (show isSpace ':' = false by decide), hx,
      skipSpace_cons _ (show isSpace '}' = false by decide), assign_append v hfresh]
  | m' :: ms' =>
    simp only [dumpsMembers, List.length_append, List.length_cons] at hf
    have hx := parseValue_dumps v hv f
      (',' :: (dumpsMembers (m' :: ms') ++ '}' :: rest)) (by omega) (stops_cons (by decide))
    have hrest := parseMembers_dumps m' ms' hms (seen ++ [(k, v)])
      (by simpa using hk) f rest (by omega)
    have hdump : dumpsMembers ((k, v) :: m' :: ms') ++ '}' :: rest =
        quoted k ++ ':' :: (dumps v ++ ',' :: (dumpsMembers (m' :: ms') ++ '}' :: rest)) := by
      simp [dumpsMembers]
    rw [hdump, hquote, parseMembers]
    simp only [skipSpace_cons _ (show isSpace '"' = false by decide), parseString_quoted hkey, Option.bind_eq_bind, Option.bind_some,
      skipSpace_cons _ (show isSpace ':' = false by decide), hx,
      skipSpace_cons _ (show isSpace ',' = false by decide), assign_append v hfresh, hrest]
    simp
termination_by fuel
decreasing_by all_goals omega

end

/-- Reading back a document gives the document that was written. -/
theorem loads_dumps {j : Json} (hd : isDocument j = true) (hw : wellFormed j = true)
    (hdepth : depth j ≤ maxDepth) : loads (dumps j) = some j := by
  have h := parseValue_dumps j hw _ [] (le_refl _) stops_nil
  rw [List.append_nil] at h
  simp [loads, h, hd, hdepth, skipSpace]

theorem utf8Encode_nonzero {n : ℕ} (hn : n ≠ 0) (hlt : n < 0x110000) :
    Char.ofNat 0 ∉ utf8Encode n := by
  have hsmall : ∀ m, 0 < m → m < 0xD800 → Char.ofNat 0 ≠ Char.ofNat m := by
    intro m hm hb he
    have := congrArg Char.toNat he
    rw [Char.toNat_ofNat, Char.toNat_ofNat, if_pos (by decide), if_pos (Or.inl hb)] at this
    omega
  unfold utf8Encode
  split_ifs <;> simp only [List.mem_cons, List.not_mem_nil, or_false, not_or]
  · exact hsmall _ (by omega) (by omega)
  · exact ⟨hsmall _ (by omega) (by omega), hsmall _ (by omega) (by omega)⟩
  · exact ⟨hsmall _ (by omega) (by omega), hsmall _ (by omega) (by omega),
      hsmall _ (by omega) (by omega)⟩
  · exact ⟨hsmall _ (by omega) (by omega), hsmall _ (by omega) (by omega),
      hsmall _ (by omega) (by omega), hsmall _ (by omega) (by omega)⟩

/-- A hexadecimal digit is ASCII, and its value is below 16. -/
theorem hexValue_spec {c : Char} {n : ℕ} (h : hexValue c = some n) : n < 16 ∧ c.toNat < 128 := by
  unfold hexValue at h
  split_ifs at h with h1 h2 h3 <;> simp only [Option.some.injEq] at h <;> subst h
  · have : c.toNat ≤ '9'.toNat := h1.2
    have h9 : '9'.toNat = 57 := by decide
    omega
  · have : c.toNat ≤ 'F'.toNat := h2.2
    have h9 : 'F'.toNat = 70 := by decide
    omega
  · have : c.toNat ≤ 'f'.toNat := h3.2
    have h9 : 'f'.toNat = 102 := by decide
    omega

theorem hexValue_lt {c : Char} {n : ℕ} (h : hexValue c = some n) : n < 16 := (hexValue_spec h).1

theorem hexFour_lt {a b c d : Char} {n : ℕ} (h : hexFour a b c d = some n) : n < 0x10000 := by
  simp only [hexFour, Option.bind_eq_bind, Option.bind_eq_some_iff, Option.pure_def,
    Option.some.injEq] at h
  obtain ⟨w, hw, x, hx, y, hy, z, hz, rfl⟩ := h
  have := hexValue_lt hw
  have := hexValue_lt hx
  have := hexValue_lt hy
  have := hexValue_lt hz
  omega

theorem lowSurrogate_nonzero {high : ℕ} {t s rest : Bytes} (hh : 0xD800 ≤ high ∧ high ≤ 0xDBFF)
    (h : lowSurrogate high t = some (s, rest)) : Char.ofNat 0 ∉ s := by
  unfold lowSurrogate at h
  split at h
  · simp only [Option.bind_eq_bind, Option.bind_eq_some_iff] at h
    obtain ⟨low, -, h⟩ := h
    split_ifs at h with hl
    simp only [Option.some.injEq, Prod.mk.injEq] at h
    rw [← h.1]
    exact utf8Encode_nonzero (by omega) (by omega)
  · simp at h

theorem unescape_nonzero {t s rest : Bytes} (h : unescape t = some (s, rest)) :
    Char.ofNat 0 ∉ s := by
  unfold unescape at h
  split at h
  · simp only [Option.bind_eq_bind, Option.bind_eq_some_iff] at h
    obtain ⟨n, hn, h⟩ := h
    have := hexFour_lt hn
    split_ifs at h with h0 h1 h2
    · exact lowSurrogate_nonzero h1 h
    · simp only [Option.some.injEq, Prod.mk.injEq] at h
      rw [← h.1]
      exact utf8Encode_nonzero h0 (by omega)
  · simp only [Option.map_eq_some_iff, Prod.mk.injEq] at h
    obtain ⟨s', hs, rfl, -⟩ := h
    unfold simpleEscape at hs
    split_ifs at hs <;> simp only [Option.some.injEq] at hs <;> subst hs <;> decide
  · simp at h

theorem parseString_nonzero {fuel : ℕ} {t s rest : Bytes}
    (h : parseString fuel t = some (s, rest)) : Char.ofNat 0 ∉ s := by
  induction fuel generalizing t s rest with
  | zero => simp [parseString] at h
  | succ fuel ih =>
    cases t with
    | nil => simp [parseString] at h
    | cons c t =>
      simp only [parseString] at h
      split_ifs at h with h1 h2 h3
      · simp only [Option.some.injEq, Prod.mk.injEq] at h
        simp [← h.1]
      · simp only [Option.bind_eq_some_iff, Option.map_eq_some_iff, Prod.mk.injEq] at h
        obtain ⟨u, hu, r, hr, rfl, -⟩ := h
        simp only [List.mem_append, not_or]
        exact ⟨unescape_nonzero hu, ih hr⟩
      · simp only [Option.map_eq_some_iff, Prod.mk.injEq] at h
        obtain ⟨r, hr, rfl, -⟩ := h
        simp only [List.mem_cons, not_or]
        refine ⟨?_, ih hr⟩
        rintro rfl
        exact h3 (by decide)

theorem makeNumber_cases {negative : Bool} {ds fs : Bytes} {e : Option ℤ} {j : Json}
    (h : makeNumber negative ds fs e = some j) : (∃ n, j = .integer n) ∨ ∃ x, j = .real x := by
  unfold makeNumber at h
  split at h
  · simp only [makeInteger, Option.ite_none_right_eq_some, Option.some.injEq] at h
    exact Or.inl ⟨_, h.2.symm⟩
  · simp only [makeReal, Option.dite_none_right_eq_some, Option.some.injEq] at h
    obtain ⟨_, h⟩ := h
    exact Or.inr ⟨_, h.symm⟩

theorem makeNumber_wellFormed {negative : Bool} {ds fs : Bytes} {e : Option ℤ} {j : Json}
    (h : makeNumber negative ds fs e = some j) : wellFormed j = true := by
  rcases makeNumber_cases h with ⟨n, rfl⟩ | ⟨x, rfl⟩
  · rfl
  · rfl

theorem parseNumber_wellFormed {t : Bytes} {j : Json} {rest : Bytes}
    (h : parseNumber t = some (j, rest)) : wellFormed j = true := by
  simp only [parseNumber, Option.ite_none_left_eq_some, Option.bind_eq_some_iff,
    Option.map_eq_some_iff, Prod.mk.injEq] at h
  obtain ⟨-, f, -, e, -, j', hj, rfl, -⟩ := h
  exact makeNumber_wellFormed hj

theorem wellFormedMembers_assign {seen : List (Bytes × Json)} {k : Bytes} {v : Json}
    (hs : wellFormedMembers seen = true) (hk : Char.ofNat 0 ∉ k) (hv : wellFormed v = true) :
    wellFormedMembers (assign seen k v) = true := by
  induction seen with
  | nil => simp [assign, wellFormedMembers, hk, hv]
  | cons m rest ih =>
    simp only [wellFormedMembers, Bool.and_eq_true, decide_eq_true_eq] at hs
    by_cases h : m.1 = k
    · simp [assign, h, wellFormedMembers, hk, hv, hs.2]
    · simp [assign, h, wellFormedMembers, hs.1.1, hs.1.2, ih hs.2]

theorem mem_keys_assign {seen : List (Bytes × Json)} {k x : Bytes} {v : Json}
    (h : x ∈ (assign seen k v).map Prod.fst) : x = k ∨ x ∈ seen.map Prod.fst := by
  induction seen with
  | nil => simpa [assign] using h
  | cons m rest ih =>
    by_cases hm : m.1 = k
    · simp only [assign, hm, if_true, List.map_cons, List.mem_cons] at h ⊢
      tauto
    · simp only [assign, hm, if_false, List.map_cons, List.mem_cons] at h ⊢
      rcases h with h | h
      · exact Or.inr (Or.inl h)
      · exact (ih h).imp_right Or.inr

theorem nodup_keys_assign {seen : List (Bytes × Json)} {k : Bytes} {v : Json}
    (h : (seen.map Prod.fst).Nodup) : ((assign seen k v).map Prod.fst).Nodup := by
  induction seen with
  | nil => simp [assign]
  | cons m rest ih =>
    simp only [List.map_cons, List.nodup_cons] at h
    by_cases hm : m.1 = k
    · simp only [assign, hm, if_true, List.map_cons, List.nodup_cons]
      exact ⟨hm ▸ h.1, h.2⟩
    · simp only [assign, hm, if_false, List.map_cons, List.nodup_cons]
      refine ⟨fun hmem => ?_, ih h.2⟩
      rcases mem_keys_assign hmem with he | he
      · exact hm he
      · exact h.1 he

/-- What each part of the parser returns after a fixed amount of fuel is well formed. -/
theorem parse_wellFormed (fuel : ℕ) :
    (∀ t j rest, parseValue fuel t = some (j, rest) → wellFormed j = true) ∧
    (∀ t xs rest, parseItems fuel t = some (xs, rest) → wellFormedItems xs = true) ∧
    (∀ seen t ms rest, wellFormedMembers seen = true → (seen.map Prod.fst).Nodup →
      parseMembers fuel seen t = some (ms, rest) →
      wellFormedMembers ms = true ∧ (ms.map Prod.fst).Nodup) := by
  induction fuel with
  | zero => simp [parseValue, parseItems, parseMembers]
  | succ fuel ih =>
    obtain ⟨ihv, ihi, ihm⟩ := ih
    refine ⟨?_, ?_, ?_⟩
    · intro t j rest h
      simp only [parseValue] at h
      split at h
      · simp at h
      split_ifs at h
      · split at h
        · simp only [Option.some.injEq, Prod.mk.injEq] at h
          simp [← h.1, wellFormed, wellFormedMembers]
        · simp only [Option.map_eq_some_iff, Prod.mk.injEq] at h
          obtain ⟨r, hr, rfl, -⟩ := h
          have := ihm [] _ r.1 r.2 (by rfl) (by simp) hr
          simp [wellFormed, this.1, this.2]
      · split at h
        · simp only [Option.some.injEq, Prod.mk.injEq] at h
          simp [← h.1, wellFormed, wellFormedItems]
        · simp only [Option.map_eq_some_iff, Prod.mk.injEq] at h
          obtain ⟨r, hr, rfl, -⟩ := h
          simpa [wellFormed] using ihi _ r.1 r.2 hr
      · simp only [Option.map_eq_some_iff, Prod.mk.injEq] at h
        obtain ⟨r, hr, rfl, -⟩ := h
        simpa [wellFormed] using parseString_nonzero hr
      all_goals first
        | exact parseNumber_wellFormed h
        | (simp only [Option.map_eq_some_iff, Prod.mk.injEq] at h
           obtain ⟨r, -, rfl, -⟩ := h
           rfl)
    · intro t xs rest h
      simp only [parseItems, Option.bind_eq_bind, Option.bind_eq_some_iff] at h
      obtain ⟨⟨x, t'⟩, hx, h⟩ := h
      have hwx := ihv _ _ _ hx
      split at h
      · simp only [Option.map_eq_some_iff, Prod.mk.injEq] at h
        obtain ⟨r, hr, rfl, -⟩ := h
        simp [wellFormedItems, hwx, ihi _ r.1 r.2 hr]
      · simp only [Option.some.injEq, Prod.mk.injEq] at h
        simp [← h.1, wellFormedItems, hwx]
      · simp at h
    · intro seen t ms rest hseen hnd h
      simp only [parseMembers] at h
      split at h
      · simp only [Option.bind_eq_bind, Option.bind_eq_some_iff] at h
        obtain ⟨⟨k, t₁⟩, hk, h⟩ := h
        have hkey := parseString_nonzero hk
        split at h
        · simp only [Option.bind_eq_some_iff] at h
          obtain ⟨⟨v, t₂⟩, hv, h⟩ := h
          have hwv := ihv _ _ _ hv
          have hw := wellFormedMembers_assign hseen hkey hwv
          have hn := nodup_keys_assign (k := k) (v := v) hnd
          split at h
          · exact ihm _ _ _ _ hw hn h
          · simp only [Option.some.injEq, Prod.mk.injEq] at h
            rw [← h.1]
            exact ⟨hw, hn⟩
          · simp at h
        · simp at h
      · simp at h

/-- Every document that is read is well formed and of bounded depth. -/
theorem loads_wellFormed {t : Bytes} {j : Json} (h : loads t = some j) :
    isDocument j = true ∧ wellFormed j = true ∧ depth j ≤ maxDepth := by
  unfold loads at h
  split at h
  · rename_i j' rest hp
    split_ifs at h with hc
    simp only [Option.some.injEq] at h
    subst h
    simp only [Bool.and_eq_true, decide_eq_true_eq] at hc
    exact ⟨hc.1.1, (parse_wellFormed _).1 _ _ _ hp, hc.2⟩
  · simp at h

end Aigate.JsonRoundtrip
