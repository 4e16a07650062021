import Aigate.KeyStore

/-!
# Reading back a stored key

Each column keeps what its text says. The allow-list comes back exactly when no name is
empty or holds a bar, the budget when it has four decimals, and an expiry never does.
-/
namespace Aigate.KeyStoreRoundtrip
open Text KeyStore

theorem decimal_cons (n : ℕ) : ∃ c cs, decimal n = c :: cs ∧ c.isDigit = true := by
  cases h : decimal n with
  | nil => exact absurd h (decimal_ne_nil n)
  | cons c cs => exact ⟨c, cs, rfl, decimal_digits (n := n) (by rw [h]; simp)⟩

/-- The digits of a number in front of any text that does not continue them. -/
theorem atol_decimal (n : ℕ) {t : Bytes} (h : ∀ c ∈ t.head?, c.isDigit = false) :
    atol (decimal n ++ t) = n := by
  obtain ⟨c, cs, hd, hc⟩ := decimal_cons n
  have htake := (takeWhile_digits (fun c hc => decimal_digits (n := n) hc) h).1
  have hsign : c ≠ '-' ∧ c ≠ '+' := by
    constructor <;> rintro rfl <;> exact absurd hc (by decide)
  rw [hd, List.cons_append] at htake ⊢
  unfold atol
  split
  · rename_i heq
    exact absurd (List.cons.inj heq).1 hsign.1
  · rename_i heq
    exact absurd (List.cons.inj heq).1 hsign.2
  · rw [htake, ← hd, ofDecimal_decimal]

@[simp] theorem atol_intText (n : ℤ) : atol (intText n) = n := by
  unfold intText
  split_ifs with h
  · have htake := (takeWhile_digits (fun c hc => decimal_digits (n := n.natAbs) hc)
      (show ∀ c ∈ ([] : Bytes).head?, c.isDigit = false by simp)).1
    rw [List.append_nil] at htake
    simp only [atol, htake, ofDecimal_decimal]
    omega
  · have := atol_decimal n.natAbs (t := []) (by simp)
    rw [List.append_nil] at this
    rw [this]
    omega

theorem intText_ne_null (n : ℤ) : intText n ≠ ascii "null" := by
  have hnull : ascii "null" = ['n', 'u', 'l', 'l'] := by decide +kernel
  rw [hnull]
  unfold intText
  split_ifs
  · simp
  · obtain ⟨c, cs, hd, hc⟩ := decimal_cons n.natAbs
    rw [hd]
    rintro ⟨⟩
    simp at hc

/-! The allow-list. -/

theorem arrayToString_cons (m : Bytes) (names : List Bytes) :
    arrayToString (m :: names) = m ++ names.flatMap (fun m => '|' :: m) := by
  induction names generalizing m with
  | nil => simp [arrayToString]
  | cons m' rest ih =>
    have := ih m'
    simp only [arrayToString] at this ⊢
    rw [List.intercalate_cons_cons, this]
    simp

theorem joinModelList_append {cap : ℕ} {names : List Bytes} {buf joined : Bytes} {first : Bool}
    (h : joinModelList cap buf first names = some joined) :
    joined = buf ++ (if first then arrayToString names else names.flatMap (fun m => '|' :: m)) := by
  induction names generalizing buf first with
  | nil =>
    simp only [joinModelList, Option.some.injEq] at h
    cases first <;> simp [arrayToString, h]
  | cons m rest ih =>
    simp only [joinModelList, Option.ite_none_left_eq_some] at h
    rw [ih h.2]
    cases first with
    | false => simp
    | true => simp [arrayToString_cons]

theorem joinModelList_eq {cap : ℕ} {names : List Bytes} {joined : Bytes}
    (h : joinModelList cap [] true names = some joined) : joined = arrayToString names := by
  simpa using joinModelList_append h

/-- The array in the table prints as the text that was joined. -/
theorem arrayToString_stringToArray (s : Bytes) :
    arrayToString (if s = [] then [] else stringToArray s) = s := by
  by_cases h : s = []
  · simp [h, arrayToString]
  · simp only [h, if_false, stringToArray, arrayToString]
    exact List.intercalate_splitOn '|'

theorem not_mem_of_mem_splitOn {s w : Bytes} (h : w ∈ s.splitOn '|') : '|' ∉ w := by
  induction s generalizing w with
  | nil =>
    rw [List.splitOn_nil, List.mem_singleton] at h
    simp [h]
  | cons x xs ih =>
    rw [List.splitOn_cons_eq_if_modifyHead] at h
    split_ifs at h with hx
    · rcases List.mem_cons.mp h with rfl | h
      · simp
      · exact ih h
    · cases hs : xs.splitOn '|' with
      | nil => exact absurd hs (List.splitOn_ne_nil '|' xs)
      | cons y ys =>
        rw [hs, List.modifyHead_cons, List.mem_cons] at h
        rcases h with rfl | h
        · have := ih (w := y) (by rw [hs]; simp)
          simp only [List.mem_cons, not_or]
          exact ⟨fun he => hx (by simp [← he]), this⟩
        · exact ih (by rw [hs]; simp [h])

/-- A list of names survives the bars exactly when each is non-empty and has none. -/
theorem parseModelList_arrayToString (names : List Bytes) :
    parseModelList (arrayToString names) = names ↔ ∀ m ∈ names, m ≠ [] ∧ '|' ∉ m := by
  constructor
  · intro h m hm
    rw [← h, parseModelList, List.mem_filter, decide_eq_true_eq] at hm
    exact ⟨List.ne_nil_of_length_pos hm.2, not_mem_of_mem_splitOn hm.1⟩
  · intro h
    by_cases hn : names = []
    · subst hn
      decide
    · rw [parseModelList, arrayToString, List.splitOn_intercalate '|' (fun m hm => (h m hm).2) hn,
        List.filter_eq_self]
      intro m hm
      simpa [List.length_pos_iff] using (h m hm).1

/-! The budget. -/

theorem digit_isDigit (n : ℕ) : (digit n).isDigit = true := by
  have h : ∀ d < 10, (Nat.digitChar d).isDigit = true := by decide
  exact h _ (Nat.mod_lt _ (by omega))

theorem ofDecimal_fourDigits {n : ℕ} (h : n < 10000) : ofDecimal (fourDigits n) = n := by
  have hd (m : ℕ) : (digit m).toNat - '0'.toNat = m % 10 := by
    have hall : ∀ d < 10, (Nat.digitChar d).toNat - '0'.toNat = d := by decide
    exact hall _ (Nat.mod_lt _ (by omega))
  simp only [ofDecimal, fourDigits, Nat.ofDigitChars, List.foldl_cons, List.foldl_nil, hd]
  omega

/-- Four decimals are read back exactly. -/
theorem atof_fixedFour (c : ℤ) : atof (fixedFour c) = c / 10000 := by
  have hfour := ofDecimal_fourDigits (Nat.mod_lt c.natAbs (show 0 < 10000 by omega))
  have hfrac : ∀ d ∈ fourDigits (c.natAbs % 10000), d.isDigit = true := by
    simp [fourDigits, digit_isDigit]
  have hspan := takeWhile_digits (fun d hd => decimal_digits (n := c.natAbs / 10000) hd)
    (show ∀ d ∈ ('.' :: fourDigits (c.natAbs % 10000)).head?, d.isDigit = false by simp)
  have hsplit : (c.natAbs : ℚ) = (c.natAbs / 10000 : ℕ) * 10000 + (c.natAbs % 10000 : ℕ) := by
    exact_mod_cast (Nat.div_add_mod' c.natAbs 10000).symm
  have hval : ((c.natAbs / 10000 : ℕ) : ℚ) + ((c.natAbs % 10000 : ℕ) : ℚ) / 10 ^ 4 =
      (c.natAbs : ℚ) / 10000 := by
    rw [hsplit]
    ring
  have hlen : (fourDigits (c.natAbs % 10000)).length = 4 := rfl
  have htail : (('.' :: fourDigits (c.natAbs % 10000)).drop 1).takeWhile Char.isDigit =
      fourDigits (c.natAbs % 10000) := by
    simpa using (List.takeWhile_eq_self_iff.mpr hfrac)
  by_cases hc : c < 0
  · have habs : (c.natAbs : ℚ) = -c := by
      rw [Nat.cast_natAbs, abs_of_neg hc, Int.cast_neg]
    simp only [fixedFour, hc, if_true, atof, List.cons_append, List.nil_append, List.head?_cons,
      decide_true, List.tail_cons, hspan.1, hspan.2, htail, ofDecimal_decimal, hfour, hlen, hval,
      habs]
    ring
  · obtain ⟨d, ds, hd, hdig⟩ := decimal_cons (c.natAbs / 10000)
    have hhead : (decimal (c.natAbs / 10000) ++ '.' :: fourDigits (c.natAbs % 10000)).head? ≠
        some '-' := by
      rw [hd]
      intro he
      simp only [List.cons_append, List.head?_cons, Option.some.injEq] at he
      subst he
      exact absurd hdig (by decide)
    have habs : (c.natAbs : ℚ) = c := by
      rw [Nat.cast_natAbs, abs_of_nonneg (not_lt.mp hc)]
    simp only [fixedFour, hc, if_false, atof, List.nil_append, hhead, decide_false,
      Bool.false_eq_true, hspan.1, hspan.2, htail, ofDecimal_decimal, hfour, hlen, hval, habs]

theorem roundEven_intCast (c : ℤ) : roundEven c = c := by
  simp [roundEven]

/-- A budget in range is stored in ten-thousandths. -/
theorem numericIn_fixedFour {c n : ℤ} (h : numericIn (fixedFour c) = some n) : n = c := by
  have hc : roundEven (atof (fixedFour c) * 10000) = c := by
    rw [atof_fixedFour, div_mul_cancel₀ _ (by norm_num)]
    exact roundEven_intCast c
  simp only [numericIn, hc, Option.ite_none_right_eq_some, Option.some.injEq] at h
  exact h.2.symm

/-- Rounding to four decimals keeps a budget exactly when it has no more of them. -/
theorem roundEven_div_eq_iff (b : ℚ) :
    (roundEven (b * 10000) : ℚ) / 10000 = b ↔ ∃ c : ℤ, b = c / 10000 := by
  constructor
  · intro h
    exact ⟨_, h.symm⟩
  · rintro ⟨c, rfl⟩
    rw [div_mul_cancel₀ _ (by norm_num), roundEven_intCast]

/-! The stored row. -/

theorem boolIn_text (b : Bool) : boolIn (if b then ascii "true" else ascii "false") = b := by
  cases b <;> decide +kernel

/-- What a row holds of the record it was made from. -/
structure RowOf (keyId : ℤ) (k : KeyRec) (r : ApiKeyRow) : Prop where
  keyId_eq : r.keyId = keyId
  keyHash : r.keyHash = k.keyHash
  allowed : arrayToString r.allowedModels = arrayToString k.allowedModels
  rate : r.rateQps = k.rateQps
  quota : r.dailyTokenQuota = k.dailyTokenQuota
  expires : r.expiresAt = k.expiresAt
  revoked : r.revokedAt = none
  guardrails : r.guardrailsEnabled = k.guardrailsEnabled
  cost : r.monthlyCostBudget = roundEven (k.monthlyCostBudget * 10000)
  tokens : r.monthlyTokenBudget = k.monthlyTokenBudget
  watermark : r.watermarkEnabled = k.watermarkEnabled
  canary : r.isCanary = k.isCanary
  reasoning : r.dailyReasoningQuota = k.dailyReasoningQuota

theorem insertRow_rowOf {keyId : ℤ} {k : KeyRec} {r : ApiKeyRow}
    (h : (createKeyValues k).bind (insertRow keyId) = some r) : RowOf keyId k r := by
  simp only [createKeyValues, Option.bind_eq_some_iff, Option.map_eq_some_iff, insertRow] at h
  obtain ⟨v, ⟨joined, hj, rfl⟩, budget, hb, exp, he, rfl⟩ := h
  have hjoin := joinModelList_eq hj
  have hexp : exp = k.expiresAt := by
    cases hk : k.expiresAt with
    | none =>
      simp only [hk, if_true, Option.some.injEq] at he
      exact he.symm
    | some e =>
      simp only [hk, intText_ne_null, if_false, atol_intText, toTimestamp, Option.map_eq_some_iff,
        Option.ite_none_right_eq_some, Option.some.injEq] at he
      obtain ⟨_, ⟨-, rfl⟩, rfl⟩ := he
      rfl
  exact {
    keyId_eq := rfl
    keyHash := rfl
    allowed := by
      simp only [arrayToString_stringToArray, hjoin]
    rate := atol_intText _
    quota := atol_intText _
    expires := hexp
    revoked := rfl
    guardrails := boolIn_text _
    cost := numericIn_fixedFour hb
    tokens := atol_intText _
    watermark := boolIn_text _
    canary := boolIn_text _
    reasoning := atol_intText _ }

/-- The reader returns the access rights that were stored, and sees the key as expired
from its expiry time on. -/
structure SameAccess (k k' : KeyRec) : Prop where
  allowed : k'.allowedModels = k.allowedModels
  expiry : k'.expiresAt = k.expiresAt
  rate : k'.rateQps = k.rateQps
  quota : k'.dailyTokenQuota = k.dailyTokenQuota
  cost : k'.monthlyCostBudget = k.monthlyCostBudget
  tokens : k'.monthlyTokenBudget = k.monthlyTokenBudget
  reasoning : k'.dailyReasoningQuota = k.dailyReasoningQuota
  revoked : k'.revoked = k.revoked
  guardrails : k'.guardrailsEnabled = k.guardrailsEnabled
  watermark : k'.watermarkEnabled = k.watermarkEnabled
  canary : k'.isCanary = k.isCanary
  expired : ∀ now, keyExpired k' now = true ↔ ∃ e, k.expiresAt = some e ∧ e ≤ now

/-- The records that the columns can hold: no expiry, names without bars, four decimals. -/
structure Storable (k : KeyRec) : Prop where
  noExpiry : k.expiresAt = none
  names : ∀ m ∈ k.allowedModels, m ≠ [] ∧ '|' ∉ m
  decimals : ∃ c : ℤ, k.monthlyCostBudget = c / 10000
  active : k.revoked = false

/-- The expiry test is strict, so a reader cannot return the same time and the same verdicts. -/
theorem expiry_eq_none {k k' : KeyRec} (h : k'.expiresAt = k.expiresAt)
    (hexp : ∀ now, keyExpired k' now = true ↔ ∃ e, k.expiresAt = some e ∧ e ≤ now) :
    k.expiresAt = none := by
  cases he : k.expiresAt with
  | none => rfl
  | some e =>
    have := (hexp e).mpr ⟨e, he, le_refl e⟩
    simp [keyExpired, h, he] at this

theorem fillKeyRow_sameAccess {keyId : ℤ} {k : KeyRec} {r : ApiKeyRow} (h : RowOf keyId k r) :
    SameAccess k (fillKeyRow r) ↔ Storable k := by
  have hallowed : (fillKeyRow r).allowedModels = parseModelList (arrayToString k.allowedModels) := by
    simp only [fillKeyRow, h.allowed]
  have hcost : (fillKeyRow r).monthlyCostBudget =
      (roundEven (k.monthlyCostBudget * 10000) : ℚ) / 10000 := by
    simp only [fillKeyRow, atof_fixedFour, h.cost]
  have hrevoked : (fillKeyRow r).revoked = false := by simp [fillKeyRow, h.revoked]
  constructor
  · intro hs
    exact {
      noExpiry := expiry_eq_none hs.expiry hs.expired
      names := (parseModelList_arrayToString _).mp (hallowed.symm.trans hs.allowed)
      decimals := (roundEven_div_eq_iff _).mp (hcost.symm.trans hs.cost)
      active := hs.revoked.symm.trans hrevoked }
  · intro hk
    have hexpiry : (fillKeyRow r).expiresAt = none := by
      simp [fillKeyRow, h.expires, hk.noExpiry]
    exact {
      allowed := hallowed.trans ((parseModelList_arrayToString _).mpr hk.names)
      expiry := hexpiry.trans hk.noExpiry.symm
      rate := by simp [fillKeyRow, h.rate]
      quota := by simp [fillKeyRow, h.quota]
      cost := hcost.trans ((roundEven_div_eq_iff _).mpr hk.decimals)
      tokens := by simp [fillKeyRow, h.tokens]
      reasoning := by simp [fillKeyRow, h.reasoning]
      revoked := hrevoked.trans hk.active.symm
      guardrails := by
        simp only [fillKeyRow, h.guardrails]
        cases k.guardrailsEnabled <;> decide
      watermark := by
        simp only [fillKeyRow, h.watermark]
        cases k.watermarkEnabled <;> decide
      canary := by
        simp only [fillKeyRow, h.canary]
        cases k.isCanary <;> decide
      expired := by
        intro now
        simp [keyExpired, hexpiry, hk.noExpiry] }

/-- Both readers find the row that was just inserted. -/
theorem pqCreateKey_row {t t' : KeyTable} {k : KeyRec} {keyId : ℤ}
    (h : pqCreateKey t k = some (t', keyId)) :
    ∃ r, RowOf keyId k r ∧ pqGetKeyByHash t' k.keyHash = some (fillKeyRow r) ∧
      pqGetKeyById t' keyId = some (fillKeyRow r) := by
  unfold pqCreateKey at h
  split at h
  · simp at h
  · rename_i r hr
    simp only [Option.dite_none_right_eq_some, Option.some.injEq, Prod.mk.injEq] at h
    obtain ⟨_, rfl, rfl⟩ := h
    have hrow := insertRow_rowOf hr
    refine ⟨r, hrow, ?_, ?_⟩
    · simp [pqGetKeyByHash, hrow.keyHash]
    · simp [pqGetKeyById, hrow.keyId_eq]

/-- A table without keys and groups. -/
def emptyTable : KeyTable := ⟨[], [], 1, by simp, by simp⟩

/-- A key for one model with a daily quota. -/
def sampleKey (expiresAt : Option ℤ) (allowed : List Bytes) : KeyRec :=
  ⟨0, ascii "9f86d081", ascii "team", allowed, 10, 1000, expiresAt, false, 0, true, 25 / 2, 0, [],
    0, false, false, 0⟩

/-- What the readers return for it is the year. -/
example : ((pqCreateKey emptyTable (sampleKey (some 1893456000) [])).bind fun p =>
    pqGetKeyById p.1 p.2).map KeyRec.expiresAt = some (some 2030) := by
  decide +kernel

end Aigate.KeyStoreRoundtrip
