import Aigate.CheckDigits
import Aigate.JsonTree
import Aigate.RegexSearch

/-!
# Sensitive entities in a text

Six kinds of entity are searched one after the other with the leftmost longest match of
their expression. A match that passes its boundary and checksum tests is replaced by a
placeholder of the request's session map, a partial mask or a tag, or the request is
refused.
-/
namespace Aigate.PiiText
open Text RegexSearch CheckDigits

/-- Supported PII sensitive entity categories. -/
inductive PiiType where
  | phone
  | idCard
  | bankCard
  | email
  | apiKey
  | ipAddress
  deriving DecidableEq, Repr

/-- Processing actions for detected PII entities. -/
inductive PiiAction where
  | off
  | anonymizeRestore
  | maskPartial
  | redactTag
  | block
  deriving DecidableEq, Repr

/-- The numeric value of an action, by which actions are compared. -/
def PiiAction.severity : PiiAction → ℕ
  | .off => 0
  | .anonymizeRestore => 1
  | .maskPartial => 2
  | .redactTag => 3
  | .block => 4

def PiiAction.max (a b : PiiAction) : PiiAction := if a.severity < b.severity then b else a

structure PiiRule where
  enabled : Bool
  action : PiiAction
  deriving DecidableEq, Repr

/-- Global PII configuration table. -/
structure PiiConfig where
  rules : PiiType → PiiRule

def defaultPiiConfig : PiiConfig where
  rules
    | .phone => ⟨true, .anonymizeRestore⟩
    | .idCard => ⟨true, .anonymizeRestore⟩
    | .bankCard => ⟨true, .maskPartial⟩
    | .email => ⟨true, .anonymizeRestore⟩
    | .apiKey => ⟨true, .block⟩
    | .ipAddress => ⟨false, .redactTag⟩

/-- The action of a type, `PII_ACTION_OFF` when its rule is disabled. -/
def PiiConfig.action (cfg : PiiConfig) (type : PiiType) : PiiAction :=
  if (cfg.rules type).enabled then (cfg.rules type).action else .off

def PiiType.tag : PiiType → Bytes
  | .phone => ascii "PHONE"
  | .idCard => ascii "ID_CARD"
  | .bankCard => ascii "BANK_CARD"
  | .email => ascii "EMAIL"
  | .apiKey => ascii "API_KEY"
  | .ipAddress => ascii "IP"

def bracketed (tag : Bytes) : Bytes := '[' :: tag ++ [']']

def isIdDigit (c : Char) : Bool := c.isDigit || c = 'X' || c = 'x'

/-- One letter, as an expression. -/
def one (c : Char) : Regex Char := .oneOf (· = c)

/-- A range of letters. -/
def range (a b : Char) : Regex Char := .oneOf fun c => a ≤ c && c ≤ b

def digit : Regex Char := .oneOf Char.isDigit

def literal : List Char → Regex Char
  | [] => .epsilon
  | c :: cs => .seq (one c) (literal cs)

def alternatives : List (Regex Char) → Regex Char
  | [] => .empty
  | [r] => r
  | r :: rs => .alt r (alternatives rs)

def sequence : List (Regex Char) → Regex Char
  | [] => .epsilon
  | [r] => r
  | r :: rs => .seq r (sequence rs)

/-- `(sk-|aig_|ghp_)[a-zA-Z0-9]{20,}`, written out for each prefix. -/
def reApiKey : Regex Char :=
  alternatives [
    sequence [literal ['s', 'k', '-'], (Regex.oneOf Char.isAlphanum).atLeast 20],
    sequence [literal ['a', 'i', 'g', '_'], (Regex.oneOf Char.isAlphanum).atLeast 20],
    sequence [literal ['g', 'h', 'p', '_'], (Regex.oneOf Char.isAlphanum).atLeast 20]]

/-- `[a-zA-Z0-9._%+-]+@[a-zA-Z0-9.-]+\.[a-zA-Z]{2,}`. -/
def reEmail : Regex Char :=
  sequence [
    (Regex.oneOf fun c => c.isAlphanum || c = '.' || c = '_' || c = '%' || c = '+' || c = '-').atLeast 1,
    one '@',
    (Regex.oneOf fun c => c.isAlphanum || c = '.' || c = '-').atLeast 1,
    one '.',
    (Regex.oneOf Char.isAlpha).atLeast 2]

/-- `[1-9][0-9]{5}(18|19|20)[0-9]{2}(0[1-9]|1[0-2])(0[1-9]|[12][0-9]|3[01])[0-9]{3}[0-9Xx]`. -/
def reIdCard : Regex Char :=
  sequence [
    range '1' '9',
    digit.times 5,
    alternatives [literal ['1', '8'], literal ['1', '9'], literal ['2', '0']],
    digit.times 2,
    alternatives [.seq (one '0') (range '1' '9'), .seq (one '1') (range '0' '2')],
    alternatives [.seq (one '0') (range '1' '9'), .seq (range '1' '2') digit,
      .seq (one '3') (range '0' '1')],
    digit.times 3,
    .oneOf isIdDigit]

/-- `1[3-9][0-9]{9}`. -/
def rePhone : Regex Char := sequence [one '1', range '3' '9', digit.times 9]

/-- `[0-9]{13,19}`. -/
def reBankCard : Regex Char := digit.between 13 19

/-- `([0-9]{1,3})\.([0-9]{1,3})\.([0-9]{1,3})\.([0-9]{1,3})`. -/
def reIp : Regex Char :=
  sequence [digit.between 1 3, one '.', digit.between 1 3, one '.', digit.between 1 3, one '.',
    digit.between 1 3]

def PiiType.regex : PiiType → Regex Char
  | .phone => rePhone
  | .idCard => reIdCard
  | .bankCard => reBankCard
  | .email => reEmail
  | .apiKey => reApiKey
  | .ipAddress => reIp

/-- API keys and email addresses may touch digits, the numeric entities may not. -/
def PiiType.checkDigitBoundary : PiiType → Bool
  | .apiKey => false
  | .email => false
  | _ => true

def digitValue (c : Char) : ℕ := c.toNat - 48

/-- The sum of `guardrails_validate_luhn` over the digits from the last to the first. -/
def luhnSum : Bool → List Char → ℕ
  | _, [] => 0
  | alternate, c :: rest =>
    let n := digitValue c
    let n := if alternate then (if n * 2 > 9 then n * 2 % 10 + 1 else n * 2) else n
    n + luhnSum (!alternate) rest

def validateLuhn (digits : Bytes) : Bool :=
  13 ≤ digits.length && digits.length ≤ 19 && digits.all Char.isDigit &&
    luhnSum false digits.reverse % 10 = 0

def idCardWeights : List ℕ := [7, 9, 10, 5, 8, 4, 2, 1, 6, 3, 7, 9, 10, 5, 8, 4, 2]

def idCardCheckChars : List Char := ['1', '0', 'X', '9', '8', '7', '6', '5', '4', '3', '2']

def validateIdCardMod11 (idStr : Bytes) : Bool :=
  idStr.length = 18 && (idStr.take 17).all Char.isDigit &&
    (let sum := (List.zipWith (fun c w => digitValue c * w) (idStr.take 17) idCardWeights).sum
     let actual := idStr.getD 17 ' '
     (if actual = 'x' then 'X' else actual) = idCardCheckChars.getD (sum % 11) ' ')

/-- The four numbers of an address are at most 255. -/
def validateIp (address : Bytes) : Bool :=
  (address.splitOn '.').length = 4 && (address.splitOn '.').all fun n => ofDecimal n ≤ 255

def stars (n : ℕ) : Bytes := List.replicate n '*'

def lastFour (src : Bytes) : Bytes := src.drop (src.length - 4)

def maskPartialPhone (src : Bytes) : Bytes :=
  if src.length = 11 then src.take 3 ++ stars 4 ++ src.drop 7
  else if src.length > 7 then src.take 3 ++ stars 4 ++ lastFour src
  else bracketed (ascii "PHONE")

def maskPartialIdCard (src : Bytes) : Bytes :=
  if src.length = 18 then src.take 6 ++ stars 8 ++ src.drop 14 else bracketed (ascii "ID_CARD")

def maskPartialBankCard (src : Bytes) : Bytes :=
  if src.length ≥ 10 then src.take 6 ++ stars 6 ++ lastFour src
  else bracketed (ascii "BANK_CARD")

def maskPartialEmail (src : Bytes) : Bytes :=
  let user := src.takeWhile (· ≠ '@')
  let at' := src.dropWhile (· ≠ '@')
  if at' = [] ∨ user = [] then bracketed (ascii "EMAIL")
  else if user.length ≥ 2 then user.take 1 ++ stars 3 ++ user.drop (user.length - 1) ++ at'
  else user.take 1 ++ stars 3 ++ at'

def maskPartialApiKey (src : Bytes) : Bytes :=
  if (ascii "sk-proj-").isPrefixOf src ∧ src.length > 12 then
    ascii "sk-proj-" ++ stars 6 ++ lastFour src
  else if (ascii "sk-").isPrefixOf src ∧ src.length > 7 then ascii "sk-" ++ stars 6 ++ lastFour src
  else if (ascii "ghp_").isPrefixOf src ∧ src.length > 8 then ascii "ghp_" ++ stars 6 ++ lastFour src
  else if src.length > 8 then src.take 4 ++ stars 6 ++ lastFour src
  else bracketed (ascii "API_KEY")

def maskPartialIp (src : Bytes) : Bytes :=
  match src.splitOn '.' with
  | a :: b :: _ :: _ => a ++ '.' :: b ++ ['.', '*', '.', '*']
  | _ => bracketed (ascii "IP")

def PiiType.maskPartial : PiiType → Bytes → Bytes
  | .phone => maskPartialPhone
  | .idCard => maskPartialIdCard
  | .bankCard => maskPartialBankCard
  | .email => maskPartialEmail
  | .apiKey => maskPartialApiKey
  | .ipAddress => maskPartialIp

/-- One mapping entry between placeholder token and original sensitive text. -/
structure PiiEntry where
  placeholder : Bytes
  original : Bytes
  type : PiiType
  deriving DecidableEq

/-- Maximum number of distinct sensitive entities tracked per request session. -/
def maxSessionEntries : ℕ := 64

/-- Request-bound session mapping table. -/
structure SessionMap where
  entries : List PiiEntry
  bounded : entries.length ≤ maxSessionEntries

def SessionMap.empty : SessionMap := ⟨[], Nat.zero_le _⟩

/-- `[TAG_n]`, numbered within its type. -/
def SessionMap.newPlaceholder (map : SessionMap) (type : PiiType) : Bytes :=
  bracketed (type.tag ++ '_' :: decimal (map.entries.countP (·.type = type) + 1))

/-- `pii_session_map_get_or_create`: nothing once the map is full. -/
def SessionMap.getOrCreate (map : SessionMap) (type : PiiType) (original : Bytes) :
    SessionMap × Option Bytes :=
  if original = [] then (map, none)
  else
    match map.entries.find? (·.original = original) with
    | some entry => (map, some entry.placeholder)
    | none =>
      if h : map.entries.length < maxSessionEntries then
        (⟨map.entries ++ [⟨map.newPlaceholder type, original.take 127, type⟩],
          by simpa using Nat.succ_le_of_lt h⟩, some (map.newPlaceholder type))
      else (map, none)

/-- `pii_session_map_lookup_token`. -/
def SessionMap.lookupToken (map : SessionMap) (placeholder : Bytes) : Option Bytes :=
  if placeholder = [] then none
  else (map.entries.find? (·.placeholder = placeholder)).map PiiEntry.original

/-- What one round of the replacement loop finds at the cursor. -/
inductive Found where
  | nothing
  | skip (step : ℕ)
  | entity (so eo : ℕ)
  deriving DecidableEq, Repr

def runLength (p : Char → Bool) (s : Bytes) : ℕ := (s.takeWhile p).length

/-- The checksum of the types that have one. -/
def PiiType.checksum : PiiType → Bytes → Bool
  | .idCard => validateIdCardMod11
  | .bankCard => validateLuhn
  | .ipAddress => validateIp
  | _ => fun _ => true

/-- How far a match that fails its checksum is skipped beyond its end. -/
def PiiType.skipBeyond : PiiType → Bytes → ℕ
  | .idCard => runLength isIdDigit
  | .bankCard => runLength Char.isDigit
  | _ => fun _ => 0

def digitAt (s : Bytes) (i : ℕ) : Bool := (s[i]?).any Char.isDigit

/-- The boundary, length and checksum tests of `replace_entity_regex` at a cursor. -/
def findEntity (type : PiiType) (cursor : Bytes) : Found :=
  match type.regex.search cursor with
  | none => .nothing
  | some (so, eo) =>
    if type.checkDigitBoundary && ((so > 0 && digitAt cursor (so - 1)) || digitAt cursor eo) then
      .skip (eo + runLength Char.isDigit (cursor.drop eo))
    else if eo - so ≥ 128 then .skip (so + 1)
    else if type.checksum ((cursor.drop so).take (eo - so)) then .entity so eo
    else .skip (eo + type.skipBeyond (cursor.drop eo))

/-- The buffer, session map and flags of a pass over a text, and the entities it has
replaced, which no code reads. -/
structure Pass where
  out : Bytes
  map : Option SessionMap
  action : PiiAction
  changed : Bool
  originals : List Bytes

/-- The text that stands for an entity, in a buffer of 128 bytes. -/
def replacement (type : PiiType) (action : PiiAction) (map : Option SessionMap) (entity : Bytes) :
    Option SessionMap × Bytes :=
  match action with
  | .anonymizeRestore =>
    match map with
    | none => (none, bracketed type.tag)
    | some m =>
      let created := m.getOrCreate type entity
      (some created.1, created.2.getD (bracketed type.tag))
  | .maskPartial => (map, (type.maskPartial entity).take 127)
  | .redactTag => (map, bracketed type.tag)
  | .block => (map, entity)
  | .off => (map, entity)

/-- Whether an action takes the entity out of the text. -/
def PiiAction.transforms : PiiAction → Bool
  | .anonymizeRestore => true
  | .maskPartial => true
  | .redactTag => true
  | _ => false

/-- The loop of `replace_entity_regex`; every round moves the cursor. -/
def replaceLoop (type : PiiType) (action : PiiAction) : ℕ → Bytes → Pass → Pass
  | 0, _, pass => pass
  | _ + 1, [], pass => pass
  | rounds + 1, c :: rest, pass =>
    let cursor := c :: rest
    match findEntity type cursor with
    | .nothing => { pass with out := pass.out ++ cursor }
    | .skip step =>
      replaceLoop type action rounds (cursor.drop step)
        { pass with out := pass.out ++ cursor.take step }
    | .entity so eo =>
      let entity := (cursor.drop so).take (eo - so)
      let repl := replacement type action pass.map entity
      replaceLoop type action rounds (cursor.drop eo) {
        out := pass.out ++ cursor.take so ++ repl.2
        map := repl.1
        action := pass.action.max action
        changed := true
        originals := if action.transforms then pass.originals ++ [entity] else pass.originals }

/-- The text, session map and flags after the passes of some types. -/
structure Transformed where
  text : Bytes
  map : Option SessionMap
  action : PiiAction
  changed : Bool
  originals : List Bytes

/-- `replace_entity_regex`: the buffer replaces the text when anything matched. -/
def replaceEntityRegex (cfg : PiiConfig) (t : Transformed) (type : PiiType) : Transformed :=
  if cfg.action type = .off then t
  else
    let pass := replaceLoop type (cfg.action type) t.text.length t.text
      ⟨[], t.map, t.action, false, t.originals⟩
    { text := if pass.changed then pass.out else t.text
      map := pass.map
      action := pass.action
      changed := t.changed || pass.changed
      originals := pass.originals }

/-- The order in which `guardrails_transform_pii_text` looks for the entities. -/
def scanOrder : List PiiType := [.apiKey, .email, .idCard, .bankCard, .phone, .ipAddress]

/-- `guardrails_transform_pii_text`. An empty text is not scanned. -/
def transformPiiText (cfg : PiiConfig) (map : Option SessionMap) (text : Bytes) : Transformed :=
  if text = [] then ⟨text, map, .off, false, []⟩
  else scanOrder.foldl (replaceEntityRegex cfg) ⟨text, map, .off, false, []⟩

/-! ### What the check digits find -/

/-- What a digit counts in a card number, at the places that are doubled or not. -/
def luhnValue (doubled : Bool) (c : Char) : ℕ :=
  let n := digitValue c
  if doubled then (if n * 2 > 9 then n * 2 % 10 + 1 else n * 2) else n

/-- Every second place from the last one is doubled. -/
def luhnPlace (k : ℕ) (c : Char) : ZMod 10 := (luhnValue (k % 2 = 1) c : ℕ)

/-- What a symbol stands for in the sum of an identity number. -/
def mod11Value (c : Char) : ℕ := if c = 'X' ∨ c = 'x' then 10 else digitValue c

/-- The check character is multiplied with one. -/
def mod11Place (k : ℕ) (c : Char) : ZMod 11 :=
  (mod11Value c : ZMod 11) * (((idCardWeights ++ [1]).getD k 0 : ℕ) : ZMod 11)

theorem exists_digitChar {c : Char} (h : c.isDigit = true) : ∃ n < 10, c = Nat.digitChar n := by
  have hall : ∀ n < 10, Char.ofNat (48 + n) = Nat.digitChar n := by decide
  rw [Char.isDigit_iff_toNat] at h
  simp only [Char.reduceToNat] at h
  refine ⟨c.toNat - 48, by omega, ?_⟩
  rw [← hall _ (by omega), Nat.add_sub_cancel' h.1, Char.ofNat_toNat]

theorem luhnSum_eq (alternate : Bool) (l : List Char) : (luhnSum alternate l : ZMod 10) =
    weigh (fun k c => (luhnValue (k % 2 = if alternate then 0 else 1) c : ℕ)) l := by
  induction l generalizing alternate with
  | nil => simp [luhnSum, weigh]
  | cons c rest ih =>
    have hshift : ∀ k, decide (k % 2 = if (!alternate) = true then 0 else 1) =
        decide ((k + 1) % 2 = if alternate = true then 0 else 1) := by
      intro k
      rw [decide_eq_decide]
      cases alternate with
      | false => simp; omega
      | true => simp; omega
    have hfirst : decide (0 % 2 = if alternate = true then 0 else 1) = alternate := by
      cases alternate <;> rfl
    rw [luhnSum, Nat.cast_add, ih, weigh, hfirst]
    simp only [hshift]
    rfl

/-- A card number is accepted for its weight. -/
theorem validateLuhn_iff (digits : Bytes) :
    validateLuhn digits = true ↔ (13 ≤ digits.length ∧ digits.length ≤ 19) ∧
      (∀ (i : ℕ) (c : Char), digits[i]? = some c → c.isDigit = true) ∧
        weigh (fun i => luhnPlace (digits.length - 1 - i)) digits = 0 := by
  have hweigh : luhnSum false digits.reverse % 10 = 0 ↔
      weigh (fun i => luhnPlace (digits.length - 1 - i)) digits = 0 := by
    rw [← weigh_reverse (fun k => luhnPlace k), ← Nat.dvd_iff_mod_eq_zero,
      ← ZMod.natCast_eq_zero_iff, luhnSum_eq]
    rfl
  have hall : digits.all Char.isDigit = true ↔
      ∀ (i : ℕ) (c : Char), digits[i]? = some c → c.isDigit = true := by
    rw [List.all_eq_true, forall_comm]
    simp only [List.mem_iff_getElem?, forall_exists_index]
  rw [validateLuhn, Bool.and_eq_true, Bool.and_eq_true, Bool.and_eq_true, decide_eq_true_eq,
    decide_eq_true_eq, decide_eq_true_eq, hweigh, hall, and_assoc, and_assoc]

/-- What two digits count, in the same place and in places of different kinds. -/
theorem luhnValue_digitChar : ∀ k < 10, ∀ n < 10, ∀ doubled,
    (luhnValue doubled (Nat.digitChar n) % 10 = luhnValue doubled (Nat.digitChar k) % 10 → n = k) ∧
      ((luhnValue doubled (Nat.digitChar n) + luhnValue (!doubled) (Nat.digitChar k)) % 10 =
          (luhnValue doubled (Nat.digitChar k) + luhnValue (!doubled) (Nat.digitChar n)) % 10 ↔
        Nat.digitChar k = Nat.digitChar n ∨ Nat.digitChar k = '0' ∧ Nat.digitChar n = '9' ∨
          Nat.digitChar k = '9' ∧ Nat.digitChar n = '0') := by
  decide +kernel

theorem luhnValue_inj {doubled : Bool} {a b : Char} (ha : a.isDigit = true)
    (hb : b.isDigit = true) :
    (luhnValue doubled b : ZMod 10) = (luhnValue doubled a : ZMod 10) ↔ b = a := by
  obtain ⟨k, hk, rfl⟩ := exists_digitChar ha
  obtain ⟨n, hn, rfl⟩ := exists_digitChar hb
  rw [ZMod.natCast_eq_natCast_iff']
  exact ⟨fun hsame => congrArg _ ((luhnValue_digitChar k hk n hn doubled).1 hsame), fun hsame => by rw [hsame]⟩

/-- A doubled digit and one that is not weigh the same when they are exchanged only if they are
equal, or a nought and a nine. -/
theorem luhnValue_exchange {doubled : Bool} {a b : Char} (ha : a.isDigit = true)
    (hb : b.isDigit = true) :
    (luhnValue doubled b : ZMod 10) + (luhnValue (!doubled) a : ZMod 10) =
        (luhnValue doubled a : ZMod 10) + (luhnValue (!doubled) b : ZMod 10) ↔
      a = b ∨ a = '0' ∧ b = '9' ∨ a = '9' ∧ b = '0' := by
  obtain ⟨k, hk, rfl⟩ := exists_digitChar ha
  obtain ⟨n, hn, rfl⟩ := exists_digitChar hb
  rw [← Nat.cast_add, ← Nat.cast_add, ZMod.natCast_eq_natCast_iff']
  exact (luhnValue_digitChar k hk n hn doubled).2

/-- A card number with one digit replaced is never accepted, and one with two digits exchanged
only if they are at places of one kind, equal, or a nought and a nine. -/
theorem validateLuhn_errors {digits : Bytes} (h : validateLuhn digits = true) :
    (∀ i a b, digits[i]? = some a → (validateLuhn (digits.set i b) = true ↔ b = a)) ∧
      ∀ i j a b, i < j → digits[i]? = some a → digits[j]? = some b →
        (validateLuhn (exchange digits i j a b) = true ↔
          (j - i) % 2 = 0 ∨ a = b ∨ a = '0' ∧ b = '9' ∨ a = '9' ∧ b = '0') := by
  obtain ⟨hlength, hdigits, hsum⟩ := (validateLuhn_iff digits).mp h
  constructor
  · intro i a b hi
    have hlt : i < digits.length := (List.getElem?_eq_some_iff.mp hi).1
    have ha : a.isDigit = true := hdigits i a hi
    rw [validateLuhn_iff, List.length_set, ← hsum, weigh_set_iff hi, forall_set hlt hdigits]
    constructor
    · rintro ⟨-, hb, hsame⟩
      exact (luhnValue_inj ha hb).mp hsame
    · rintro rfl
      exact ⟨hlength, ha, rfl⟩
  · intro i j a b hij hi hj
    have hlt : j < digits.length := (List.getElem?_eq_some_iff.mp hj).1
    have ha : a.isDigit = true := hdigits i a hi
    have hb : b.isDigit = true := hdigits j b hj
    have hlen : (exchange digits i j a b).length = digits.length := by simp [exchange]
    have hset := (forall_set (hij.trans hlt) hdigits b).mpr hb
    have hall := (forall_set (p := fun _ c => c.isDigit = true) (by rwa [List.length_set])
      hset a).mpr ha
    rw [validateLuhn_iff, hlen, ← hsum, weigh_exchange_iff hij.ne hi hj, and_iff_right hlength,
      exchange, and_iff_right hall]
    by_cases hkind : (j - i) % 2 = 0
    · -- both places are doubled, or neither is
      have hsame : luhnPlace (digits.length - 1 - i) = luhnPlace (digits.length - 1 - j) := by
        have hparity : decide ((digits.length - 1 - i) % 2 = 1) =
            decide ((digits.length - 1 - j) % 2 = 1) := by
          rw [decide_eq_decide]
          omega
        funext c
        rw [luhnPlace, luhnPlace, hparity]
      rw [hsame]
      exact iff_of_true (add_comm _ _) (Or.inl hkind)
    · have hother : decide ((digits.length - 1 - j) % 2 = 1) =
          !decide ((digits.length - 1 - i) % 2 = 1) := by
        rw [← decide_not, decide_eq_decide]
        omega
      rw [luhnPlace, luhnPlace, luhnPlace, luhnPlace, hother]
      exact (luhnValue_exchange ha hb).trans (or_iff_right hkind).symm

def sampleCard : Bytes := ascii "4111111111111111"

theorem validateLuhn_sample :
    (∀ i a b, sampleCard[i]? = some a → (validateLuhn (sampleCard.set i b) = true ↔ b = a)) ∧
      ∀ i j a b, i < j → sampleCard[i]? = some a → sampleCard[j]? = some b →
        (validateLuhn (exchange sampleCard i j a b) = true ↔
          (j - i) % 2 = 0 ∨ a = b ∨ a = '0' ∧ b = '9' ∨ a = '9' ∧ b = '0') :=
  validateLuhn_errors (by decide +kernel)

/-- The symbols of an identity number. -/
def Mod11Symbol (i : ℕ) (c : Char) : Prop := c.isDigit = true ∨ i = 17 ∧ (c = 'X' ∨ c = 'x')

theorem digitChar_values : ∀ n < 10, (Nat.digitChar n).isDigit = true ∧ Nat.digitChar n ≠ 'X' ∧
    Nat.digitChar n ≠ 'x' ∧ mod11Value (Nat.digitChar n) = n := by decide

theorem mod11Value_digit {c : Char} (h : c.isDigit = true) :
    mod11Value c = digitValue c ∧ mod11Value c < 10 := by
  obtain ⟨n, hn, rfl⟩ := exists_digitChar h
  obtain ⟨-, hX, hx, hvalue⟩ := digitChar_values n hn
  refine ⟨?_, hvalue.trans_lt hn⟩
  rw [mod11Value, if_neg (not_or.mpr ⟨hX, hx⟩)]

/-- The check character makes the sum one. -/
theorem checkChar_iff (sum : ℕ) (c : Char) :
    (if c = 'x' then 'X' else c) = idCardCheckChars.getD (sum % 11) ' ' ↔
      Mod11Symbol 17 c ∧ (sum + mod11Value c) % 11 = 1 := by
  have htable : ∀ r < 11, idCardCheckChars.getD r ' ' =
      if r = 2 then 'X' else Nat.digitChar ((12 - r) % 11) := by decide
  have hr : sum % 11 < 11 := Nat.mod_lt _ (by omega)
  rw [htable _ hr, Mod11Symbol]
  by_cases hX : c = 'X' ∨ c = 'x'
  · have hupper : (if c = 'x' then 'X' else c) = 'X' := by rcases hX with rfl | rfl <;> rfl
    have hvalue : mod11Value c = 10 := if_pos hX
    rw [hupper, hvalue, and_iff_right (Or.inr ⟨rfl, hX⟩)]
    by_cases htwo : sum % 11 = 2
    · rw [if_pos htwo]
      exact iff_of_true rfl (by omega)
    · rw [if_neg htwo]
      exact iff_of_false (Ne.symm (digitChar_values _ (by omega)).2.1) (by omega)
  · have hlower : c ≠ 'x' := fun hx => hX (Or.inr hx)
    rw [if_neg hlower]
    by_cases hc : c.isDigit = true
    · obtain ⟨n, hn, rfl⟩ := exists_digitChar hc
      obtain ⟨-, hne, -, hvalue⟩ := digitChar_values n hn
      rw [hvalue, and_iff_right (Or.inl hc)]
      by_cases htwo : sum % 11 = 2
      · rw [if_pos htwo]
        exact iff_of_false hne (by omega)
      · rw [if_neg htwo]
        constructor
        · intro heq
          have hsame := congrArg mod11Value heq
          rw [hvalue, (digitChar_values _ (by omega)).2.2.2] at hsame
          omega
        · intro hsum
          congr 1
          omega
    · refine iff_of_false (fun heq => ?_) (fun h => h.1.elim hc fun hx => hX hx.2)
      split at heq
      · exact hX (Or.inl heq)
      · exact hc (heq ▸ (digitChar_values _ (by omega)).1)

theorem sum_idCard (l : List Char) (ws : List ℕ) (hdigits : ∀ c ∈ l, c.isDigit = true)
    (hlength : l.length ≤ ws.length) :
    (((List.zipWith (fun c w => digitValue c * w) l ws).sum : ℕ) : ZMod 11) =
      weigh (fun k c => (mod11Value c : ZMod 11) * (((ws ++ [1]).getD k 0 : ℕ) : ZMod 11)) l := by
  induction l generalizing ws with
  | nil => rfl
  | cons c rest ih =>
    cases ws with
    | nil => simp at hlength
    | cons w ws =>
      obtain ⟨hc, hrest⟩ := List.forall_mem_cons.mp hdigits
      rw [List.zipWith_cons_cons, List.sum_cons, Nat.cast_add, ih ws hrest (by simpa using hlength),
        weigh, Nat.cast_mul, (mod11Value_digit hc).1]
      rfl

theorem validateIdCardMod11_concat {front : Bytes} (hlength : front.length = 17) (c : Char) :
    validateIdCardMod11 (front ++ [c]) = true ↔ (∀ d ∈ front, d.isDigit = true) ∧
      Mod11Symbol 17 c ∧ weigh mod11Place (front ++ [c]) = 1 := by
  have hfront : (front ++ [c]).take 17 = front := List.take_left' hlength
  have hlast : (front ++ [c]).getD 17 ' ' = c := by
    rw [← hlength, List.getD_eq_getElem?_getD, List.getElem?_concat_length, Option.getD_some]
  have hlong : (front ++ [c]).length = 18 := by rw [List.length_append, hlength]; rfl
  simp only [validateIdCardMod11, hfront, hlast, hlong, Bool.and_eq_true, decide_eq_true_eq,
    List.all_eq_true, true_and, checkChar_iff]
  refine and_congr_right fun hdigits => and_congr_right fun _ => ?_
  have hweigh : weigh mod11Place (front ++ [c]) =
      (((List.zipWith (fun c w => digitValue c * w) front idCardWeights).sum + mod11Value c : ℕ) :
        ZMod 11) := by
    have hcheck : weigh (fun i => mod11Place (i + 17)) [c] = mod11Value c := by
      simp [weigh, mod11Place, idCardWeights]
    rw [weigh_append, hlength, hcheck, Nat.cast_add,
      sum_idCard front idCardWeights hdigits hlength.le]
    rfl
  rw [hweigh]
  exact (ZMod.natCast_eq_natCast_iff' _ 1 11).symm.trans (by rw [Nat.cast_one])

/-- An identity number is accepted for its weight. -/
theorem validateIdCardMod11_iff (idStr : Bytes) :
    validateIdCardMod11 idStr = true ↔ idStr.length = 18 ∧
      (∀ (i : ℕ) (c : Char), idStr[i]? = some c → Mod11Symbol i c) ∧
        weigh mod11Place idStr = 1 := by
  by_cases hlong : idStr.length = 18
  · rcases List.eq_nil_or_concat' idStr with rfl | ⟨front, c, rfl⟩
    · cases hlong
    have hlength : front.length = 17 := by simpa using hlong
    rw [validateIdCardMod11_concat hlength, and_iff_right hlong, ← and_assoc]
    refine and_congr_left fun _ => ?_
    constructor
    · rintro ⟨hdigits, hc⟩ i d hd
      by_cases hi : i < 17
      · rw [List.getElem?_append_left (hlength ▸ hi)] at hd
        exact Or.inl (hdigits d (List.mem_of_getElem? hd))
      · have hlt := (List.getElem?_eq_some_iff.mp hd).1
        obtain rfl : i = 17 := by omega
        rw [← hlength, List.getElem?_concat_length, Option.some.injEq] at hd
        exact hd ▸ hc
    · intro hall
      refine ⟨fun d hd => ?_, hall 17 c (by rw [← hlength, List.getElem?_concat_length])⟩
      obtain ⟨i, hi, rfl⟩ := List.mem_iff_getElem.mp hd
      have hget : (front ++ [c])[i]? = some front[i] := by
        rw [List.getElem?_append_left hi, List.getElem?_eq_getElem hi]
      rcases hall i front[i] hget with hdigit | hlast
      · exact hdigit
      · omega
  · refine iff_of_false (fun h => ?_) (fun h => hlong h.1)
    simp [validateIdCardMod11, hlong] at h

theorem mod11Value_inj {i : ℕ} {a b : Char} (ha : Mod11Symbol i a) (hb : Mod11Symbol i b) :
    (mod11Value b : ZMod 11) = (mod11Value a : ZMod 11) ↔
      b = a ∨ i = 17 ∧ (a = 'X' ∨ a = 'x') ∧ (b = 'X' ∨ b = 'x') := by
  have hten : ∀ {c : Char}, c = 'X' ∨ c = 'x' → mod11Value c = 10 := fun hc => if_pos hc
  have hlt : ∀ {c : Char}, Mod11Symbol i c → mod11Value c < 11 := by
    intro c hc
    rcases hc with hdigit | ⟨-, hX⟩
    · exact (mod11Value_digit hdigit).2.trans (by omega)
    · rw [hten hX]
      omega
  rw [ZMod.natCast_eq_natCast_iff', Nat.mod_eq_of_lt (hlt hb), Nat.mod_eq_of_lt (hlt ha)]
  constructor
  · intro hsame
    rcases ha with ha | ⟨hi, ha⟩ <;> rcases hb with hb | ⟨-, hb⟩
    · obtain ⟨k, hk, rfl⟩ := exists_digitChar ha
      obtain ⟨n, hn, rfl⟩ := exists_digitChar hb
      rw [(digitChar_values k hk).2.2.2, (digitChar_values n hn).2.2.2] at hsame
      exact Or.inl (congrArg _ hsame)
    · have := (mod11Value_digit ha).2
      rw [hten hb] at hsame
      omega
    · have := (mod11Value_digit hb).2
      rw [hten ha] at hsame
      omega
    · exact Or.inr ⟨hi, ha, hb⟩
  · rintro (rfl | ⟨-, ha, hb⟩)
    · rfl
    · rw [hten ha, hten hb]

/-- The factors of the places are not zero, and come again after ten places. -/
theorem idCardWeights_cast {i : ℕ} (hi : i < 18) :
    (((idCardWeights ++ [1]).getD i 0 : ℕ) : ZMod 11) ≠ 0 ∧
      ∀ j < 18, i < j → ((((idCardWeights ++ [1]).getD i 0 : ℕ) : ZMod 11) =
        (((idCardWeights ++ [1]).getD j 0 : ℕ) : ZMod 11) ↔ j = i + 10) := by
  have hall : ∀ i < 18, (idCardWeights ++ [1]).getD i 0 % 11 ≠ 0 % 11 ∧
      ∀ j < 18, i < j → ((idCardWeights ++ [1]).getD i 0 % 11 =
        (idCardWeights ++ [1]).getD j 0 % 11 ↔ j = i + 10) := by decide +kernel
  refine ⟨?_, fun j hj hij => ?_⟩
  · rw [Ne, ← Nat.cast_zero (R := ZMod 11), ZMod.natCast_eq_natCast_iff']
    exact (hall i hi).1
  · rw [ZMod.natCast_eq_natCast_iff']
    exact (hall i hi).2 j hj hij

/-- An identity number with one symbol replaced is never accepted, but for the case of a check
character, and one with two symbols exchanged only if they are equal or ten places apart. -/
theorem validateIdCardMod11_errors {idStr : Bytes} (h : validateIdCardMod11 idStr = true) :
    (∀ i a b, idStr[i]? = some a → (validateIdCardMod11 (idStr.set i b) = true ↔
        b = a ∨ i = 17 ∧ (a = 'X' ∨ a = 'x') ∧ (b = 'X' ∨ b = 'x'))) ∧
      ∀ i j a b, i < j → idStr[i]? = some a → idStr[j]? = some b →
        (validateIdCardMod11 (exchange idStr i j a b) = true ↔
          a = b ∨ j = i + 10 ∧ b.isDigit = true) := by
  have hprime : Fact (Nat.Prime 11) := ⟨by norm_num⟩
  obtain ⟨hlength, hsymbols, hsum⟩ := (validateIdCardMod11_iff idStr).mp h
  constructor
  · intro i a b hi
    have hlt : i < idStr.length := (List.getElem?_eq_some_iff.mp hi).1
    have ha : Mod11Symbol i a := hsymbols i a hi
    have hweigh : weigh mod11Place (idStr.set i b) = weigh mod11Place idStr ↔
        (mod11Value b : ZMod 11) = (mod11Value a : ZMod 11) :=
      weigh_mul_set_iff hi (idCardWeights_cast (hlength ▸ hlt)).1 b
    rw [validateIdCardMod11_iff, List.length_set, ← hsum, hweigh, forall_set hlt hsymbols]
    constructor
    · rintro ⟨-, hb, hsame⟩
      exact (mod11Value_inj ha hb).mp hsame
    · intro hcase
      have hb : Mod11Symbol i b := by
        rcases hcase with rfl | ⟨hlast, -, hb⟩
        · exact ha
        · exact Or.inr ⟨hlast, hb⟩
      exact ⟨hlength, hb, (mod11Value_inj ha hb).mpr hcase⟩
  · intro i j a b hij hi hj
    have hlt : j < idStr.length := (List.getElem?_eq_some_iff.mp hj).1
    have hlen : (exchange idStr i j a b).length = 18 := by simpa [exchange] using hlength
    have ha : a.isDigit = true := (hsymbols i a hi).resolve_right (by omega)
    have hfront : i ≠ 17 := by omega
    have hall : (∀ (k : ℕ) (c : Char), (exchange idStr i j a b)[k]? = some c → Mod11Symbol k c) ↔
        b.isDigit = true := by
      constructor
      · intro hboth
        have hb : (exchange idStr i j a b)[i]? = some b := by
          rw [exchange, List.getElem?_set_ne hij.ne', List.getElem?_set_self (hij.trans hlt)]
        exact (hboth i b hb).resolve_right fun hlast => hfront hlast.1
      · intro hb
        have hset := (forall_set (hij.trans hlt) hsymbols b).mpr (Or.inl hb)
        exact (forall_set (by rwa [List.length_set]) hset a).mpr (Or.inl ha)
    have hweigh : weigh mod11Place (exchange idStr i j a b) = weigh mod11Place idStr ↔
        (mod11Value a : ZMod 11) = (mod11Value b : ZMod 11) ∨ j = i + 10 := by
      rw [← (idCardWeights_cast (hij.trans (hlength ▸ hlt))).2 j (hlength ▸ hlt) hij]
      exact weigh_mul_exchange_iff hij.ne hi hj
    rw [validateIdCardMod11_iff, hlen, ← hsum, hweigh, hall, and_iff_right rfl]
    constructor
    · rintro ⟨hb, hsame | hten⟩
      · have hcase := (mod11Value_inj (i := i) (Or.inl hb) (Or.inl ha)).mp hsame
        exact Or.inl (hcase.resolve_right fun hlast => hfront hlast.1)
      · exact Or.inr ⟨hten, hb⟩
    · rintro (rfl | ⟨hten, hb⟩)
      · exact ⟨ha, Or.inl rfl⟩
      · exact ⟨hb, Or.inr hten⟩

def sampleIdCard : Bytes := ascii "11010519491231002x"

theorem validateIdCardMod11_sample :
    (∀ i a b, sampleIdCard[i]? = some a → (validateIdCardMod11 (sampleIdCard.set i b) = true ↔
        b = a ∨ i = 17 ∧ (a = 'X' ∨ a = 'x') ∧ (b = 'X' ∨ b = 'x'))) ∧
      ∀ i j a b, i < j → sampleIdCard[i]? = some a → sampleIdCard[j]? = some b →
        (validateIdCardMod11 (exchange sampleIdCard i j a b) = true ↔
          a = b ∨ j = i + 10 ∧ b.isDigit = true) :=
  validateIdCardMod11_errors (by decide +kernel)

end Aigate.PiiText
