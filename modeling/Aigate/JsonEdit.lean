import Aigate.JsonRoundtrip

/-!
# Edits of JSON documents

Setting a member keeps a tree well formed and within the depth that the parser accepts, so
an edited document is read back as it was written.
-/
namespace Aigate.JsonEdit
open Text JsonTree JsonText JsonRoundtrip

theorem isObject_set (root v : Json) (key : String) :
    (root.set key v).isObject = root.isObject := by
  cases root <;> rfl

theorem wellFormed_set {root v : Json} {key : String} (hkey : Char.ofNat 0 ∉ ascii key)
    (hr : wellFormed root = true) (hv : wellFormed v = true) :
    wellFormed (root.set key v) = true := by
  cases root with
  | object members =>
    simp only [wellFormed, Bool.and_eq_true, decide_eq_true_eq] at hr
    simp only [Json.set, wellFormed, Bool.and_eq_true, decide_eq_true_eq]
    exact ⟨wellFormedMembers_assign hr.1 hkey hv, nodup_keys_assign hr.2⟩
  | _ => exact hr

theorem depthMembers_assign (members : List (Bytes × Json)) (key : Bytes) (v : Json) :
    depthMembers (assign members key v) ≤ max (depthMembers members) (depth v) := by
  induction members with
  | nil => simp [assign, depthMembers]
  | cons m rest ih =>
    by_cases h : m.1 = key <;> simp only [assign, h, if_true, if_false, depthMembers] <;> omega

theorem depth_set {root v : Json} {key : String} {n : ℕ} (hr : depth root ≤ n)
    (hv : depth v + 1 ≤ n) : depth (root.set key v) ≤ n := by
  cases root with
  | object members =>
    have := depthMembers_assign members (ascii key) v
    simp only [depth, Json.set] at hr ⊢
    omega
  | _ => exact hr

theorem assign_lookup_self {members : List (Bytes × Json)} {key : Bytes} {v : Json}
    (h : lookup members key = some v) : assign members key v = members := by
  induction members with
  | nil => simp [lookup] at h
  | cons m rest ih =>
    obtain ⟨k, w⟩ := m
    by_cases hk : k = key
    · simp only [lookup, hk, if_true, Option.some.injEq] at h
      simp [assign, hk, h]
    · simp only [lookup, hk, if_false] at h
      simp [assign, hk, ih h]

/-- Setting a member to the value it has changes nothing. -/
theorem set_get_self {j v : Json} {key : String} (h : j.get key = some v) : j.set key v = j := by
  cases j with
  | object members =>
    simp only [Json.set, assign_lookup_self h]
  | _ => rfl

theorem isObject_of_get {j v : Json} {key : String} (h : j.get key = some v) :
    j.isObject = true := by
  cases j <;> simp_all [Json.get, Json.isObject]

theorem getString_eq_some {j : Json} {key : String} {s : Bytes} :
    j.getString key = some s ↔ j.get key = some (.string s) := by
  unfold Json.getString
  cases h : j.get key with
  | none => simp
  | some v => cases v <;> simp [Json.stringValue]

theorem wellFormedItems_iff {items : List Json} :
    wellFormedItems items = true ↔ ∀ x ∈ items, wellFormed x = true := by
  induction items with
  | nil => simp [wellFormedItems]
  | cons x rest ih => simp [wellFormedItems, ih]

theorem depthItems_le_iff {items : List Json} {n : ℕ} :
    depthItems items ≤ n ↔ ∀ x ∈ items, depth x ≤ n := by
  induction items with
  | nil => simp [depthItems]
  | cons x rest ih => simp [depthItems, ih]

/-- A tree that the parser reads back as it was written. -/
structure Readable (j : Json) : Prop where
  document : isDocument j = true
  wellFormed : wellFormed j = true
  depth_le : depth j ≤ maxDepth

theorem Readable.of_loads {t : Bytes} {j : Json} (h : loads t = some j) : Readable j := by
  obtain ⟨hdoc, hw, hd⟩ := loads_wellFormed h
  exact ⟨hdoc, hw, hd⟩

theorem Readable.loads_dumps {j : Json} (h : Readable j) : loads (dumps j) = some j :=
  JsonRoundtrip.loads_dumps h.document h.wellFormed h.depth_le

theorem wellFormedMembers_erase {members : List (Bytes × Json)} {key : Bytes}
    (h : wellFormedMembers members = true) : wellFormedMembers (erase members key) = true := by
  induction members with
  | nil => exact h
  | cons m rest ih =>
    simp only [wellFormedMembers, Bool.and_eq_true] at h
    by_cases hk : m.1 = key
    · simpa [erase, hk] using ih h.2
    · simpa [erase, hk, wellFormedMembers, h.1] using ih h.2

theorem erase_sublist (members : List (Bytes × Json)) (key : Bytes) :
    (erase members key).Sublist members := by
  induction members with
  | nil => exact List.Sublist.refl _
  | cons m rest ih =>
    by_cases hk : m.1 = key
    · simpa [erase, hk] using ih.cons m
    · simpa [erase, hk] using ih

theorem depthMembers_erase (members : List (Bytes × Json)) (key : Bytes) :
    depthMembers (erase members key) ≤ depthMembers members := by
  induction members with
  | nil => exact le_refl _
  | cons m rest ih =>
    by_cases hk : m.1 = key <;> simp only [erase, hk, if_true, if_false, depthMembers] <;> omega

theorem isDocument_set (root v : Json) (key : String) :
    isDocument (root.set key v) = isDocument root := by
  cases root <;> rfl

/-- A member may be set to any well-formed value that is not too deep. -/
theorem Readable.set {root v : Json} {key : String} (h : Readable root)
    (hkey : Char.ofNat 0 ∉ ascii key) (hv : JsonRoundtrip.wellFormed v = true)
    (hd : depth v + 1 ≤ maxDepth) : Readable (root.set key v) where
  document := by rw [isDocument_set, h.document]
  wellFormed := wellFormed_set hkey h.wellFormed hv
  depth_le := depth_set h.depth_le hd

theorem Readable.del {root : Json} (key : String) (h : Readable root) :
    Readable (root.del key) := by
  cases root with
  | object members =>
    have hw := h.wellFormed
    have hd := h.depth_le
    simp only [JsonRoundtrip.wellFormed, Bool.and_eq_true, decide_eq_true_eq] at hw
    simp only [depth] at hd
    have herase := depthMembers_erase members (ascii key)
    refine ⟨rfl, ?_, ?_⟩
    · simp only [Json.del, JsonRoundtrip.wellFormed, Bool.and_eq_true, decide_eq_true_eq]
      exact ⟨wellFormedMembers_erase hw.1,
        hw.2.sublist ((erase_sublist members (ascii key)).map Prod.fst)⟩
    · simp only [Json.del, depth]
      omega
  | _ => exact h

mutual

/-- The keys and the strings of a tree. -/
def strings : Json → List Bytes
  | .string s => [s]
  | .array items => stringsItems items
  | .object members => stringsMembers members
  | _ => []

def stringsItems : List Json → List Bytes
  | [] => []
  | x :: rest => strings x ++ stringsItems rest

def stringsMembers : List (Bytes × Json) → List Bytes
  | [] => []
  | (k, v) :: rest => k :: strings v ++ stringsMembers rest

end

/-- A character that is written as it is. -/
theorem escapeChar_self {c : Char} (hlow : 32 ≤ c.toNat) (hquote : c ≠ '"') (hslash : c ≠ '\\') :
    escapeChar c = [c] := by
  unfold escapeChar
  rw [if_neg hquote, if_neg hslash, if_neg (by omega), if_neg (by omega), if_neg (by omega),
    if_neg (by omega), if_neg (by omega), if_neg (by omega)]

theorem flatMap_escapeChar_self {s : Bytes} (h : ∀ c ∈ s, escapeChar c = [c]) :
    s.flatMap escapeChar = s := by
  induction s with
  | nil => rfl
  | cons c s ih =>
    rw [List.flatMap_cons, h c List.mem_cons_self, ih fun d hd => h d (List.mem_cons_of_mem _ hd),
      List.singleton_append]

/-- Printable ASCII characters. -/
def Plain (s : Bytes) : Prop := ∀ c ∈ s, 32 ≤ c.toNat ∧ c.toNat < 128

theorem plain_of_all {s : Bytes} (h : s.all (fun c => 32 ≤ c.toNat ∧ c.toNat < 128) = true) :
    Plain s :=
  fun c hc => of_decide_eq_true (List.all_eq_true.mp h c hc)

theorem plain_digits {s : Bytes} (h : ∀ c ∈ s, c.isDigit = true) : Plain s := by
  intro c hc
  have := h c hc
  simp only [Char.isDigit, Bool.and_eq_true, decide_eq_true_eq] at this
  have hlow : (48 : UInt32).toNat ≤ c.val.toNat := UInt32.le_iff_toNat_le.mp this.1
  have hhigh : c.val.toNat ≤ (57 : UInt32).toNat := UInt32.le_iff_toNat_le.mp this.2
  exact ⟨le_trans (by decide) hlow, lt_of_le_of_lt hhigh (by decide)⟩

section Closed

variable {P : Bytes → Prop} (happend : ∀ s t, P s → P t → P (s ++ t)) (hplain : ∀ s, Plain s → P s)
include happend hplain

theorem closed_cons {c : Char} {s : Bytes} (hc : 32 ≤ c.toNat ∧ c.toNat < 128) (hs : P s) :
    P (c :: s) := by
  refine happend [c] s (hplain _ ?_) hs
  intro d hd
  obtain rfl := List.mem_singleton.mp hd
  exact hc

theorem closed_integerText (n : Int64) : P (integerText n) := by
  have hdigits : P (decimal n.toInt.natAbs) := hplain _ (plain_digits fun _ => decimal_digits)
  unfold integerText
  split
  · exact closed_cons happend hplain (by decide) hdigits
  · exact hdigits

theorem closed_realText (x : Decimal) : P (realText x) := by
  refine happend _ _ (happend _ _ (hplain _ ?_) (hplain _ (plain_digits fun _ => decimal_digits)))
    (closed_cons happend hplain (by decide) (hplain _ (plain_digits (List.all_eq_true.mp x.digits))))
  split
  · exact plain_of_all rfl
  · exact plain_of_all rfl

mutual

/-- A property of texts that holds of ASCII and is kept by concatenation holds of what the
serialiser writes, if it holds of the quoted strings. -/
theorem dumps_closed : ∀ j : Json, (∀ s ∈ strings j, P (quoted s)) → P (dumps j)
  | .null, _ => hplain _ (plain_of_all (by rw [dumps]; rfl))
  | .bool true, _ => hplain _ (plain_of_all (by rw [dumps]; rfl))
  | .bool false, _ => hplain _ (plain_of_all (by rw [dumps]; rfl))
  | .integer n, _ => closed_integerText happend hplain n
  | .real x, _ => closed_realText happend hplain x
  | .string s, h => h s (List.mem_singleton_self s)
  | .array items, h => by
    rw [dumps]
    exact happend _ _ (closed_cons happend hplain (by decide) (dumpsItems_closed items h))
      (hplain _ (plain_of_all rfl))
  | .object members, h => by
    rw [dumps]
    exact happend _ _ (closed_cons happend hplain (by decide) (dumpsMembers_closed members h))
      (hplain _ (plain_of_all rfl))

theorem dumpsItems_closed : ∀ items : List Json, (∀ s ∈ stringsItems items, P (quoted s)) →
    P (dumpsItems items)
  | [], _ => hplain _ (plain_of_all rfl)
  | [x], h => dumps_closed x fun s hs => h s (List.mem_append_left _ hs)
  | x :: y :: rest, h => by
    rw [dumpsItems]
    exact happend _ _ (dumps_closed x fun s hs => h s (List.mem_append_left _ hs))
      (closed_cons happend hplain (by decide)
        (dumpsItems_closed (y :: rest) fun s hs => h s (List.mem_append_right _ hs)))

theorem dumpsMembers_closed : ∀ members : List (Bytes × Json),
    (∀ s ∈ stringsMembers members, P (quoted s)) → P (dumpsMembers members)
  | [], _ => hplain _ (plain_of_all rfl)
  | [(k, v)], h => by
    rw [dumpsMembers]
    refine happend _ _ (h k List.mem_cons_self) (closed_cons happend hplain (by decide) ?_)
    exact dumps_closed v fun s hs => h s (List.mem_cons_of_mem _ (List.mem_append_left _ hs))
  | (k, v) :: m :: rest, h => by
    rw [dumpsMembers]
    refine happend _ _ (happend _ _ (h k List.mem_cons_self)
      (closed_cons happend hplain (by decide) ?_)) (closed_cons happend hplain (by decide) ?_)
    · exact dumps_closed v fun s hs => h s (List.mem_cons_of_mem _ (List.mem_append_left _ hs))
    · exact dumpsMembers_closed (m :: rest) fun s hs =>
        h s (List.mem_cons_of_mem _ (List.mem_append_right _ hs))

end

end Closed

/-- No control characters. -/
def Printable (s : Bytes) : Prop := ∀ c ∈ s, 32 ≤ c.toNat

theorem Printable.append (s t : Bytes) (hs : Printable s) (ht : Printable t) :
    Printable (s ++ t) := by
  intro c hc
  rcases List.mem_append.mp hc with hc | hc
  · exact hs c hc
  · exact ht c hc

theorem Plain.printable (s : Bytes) (h : Plain s) : Printable s := fun c hc => (h c hc).1

/-- The escape of a character is printable, and ASCII unless it is the character. -/
theorem mem_escapeChar {c d : Char} (hd : d ∈ escapeChar c) :
    32 ≤ d.toNat ∧ (d = c ∨ d.toNat < 128) := by
  have hhex : ∀ n < 16, 32 ≤ (hexDigit n).toNat ∧ (hexDigit n).toNat < 128 := by decide
  unfold escapeChar at hd
  split_ifs at hd with h1 h2 h3 h4 h5 h6 h7 h8
  all_goals simp only [List.mem_cons, List.not_mem_nil, or_false] at hd
  iterate 7
    rcases hd with rfl | rfl <;> exact ⟨by decide, Or.inr (by decide)⟩
  · rcases hd with rfl | rfl | rfl | rfl | rfl | rfl
    iterate 4 exact ⟨by decide, Or.inr (by decide)⟩
    · exact (hhex _ (by omega)).imp_right Or.inr
    · exact (hhex _ (by omega)).imp_right Or.inr
  · subst hd
    exact ⟨by omega, Or.inl rfl⟩

theorem printable_escapeChar (c : Char) : Printable (escapeChar c) := fun _ hd =>
  (mem_escapeChar hd).1

theorem printable_quoted (s : Bytes) : Printable (quoted s) := by
  refine Printable.append _ _ (Printable.append ['"'] _ ?_ ?_) ?_
  · exact Plain.printable _ (plain_of_all rfl)
  · intro d hd
    obtain ⟨c, -, hc⟩ := List.mem_flatMap.mp hd
    exact printable_escapeChar c d hc
  · exact Plain.printable _ (plain_of_all rfl)

/-- The serialiser writes no control character. -/
theorem printable_dumps (j : Json) : Printable (dumps j) :=
  dumps_closed Printable.append Plain.printable j fun s _ => printable_quoted s

theorem newline_not_mem_dumps (j : Json) : '\n' ∉ dumps j := fun h =>
  absurd (printable_dumps j '\n' h) (by decide)

/-- An array whose items were edited is read back as it was written. -/
theorem loads_dumps_array {items : List Json} (hw : ∀ x ∈ items, wellFormed x = true)
    (hd : ∀ x ∈ items, depth x + 1 ≤ maxDepth) :
    loads (dumps (.array items)) = some (.array items) := by
  refine loads_dumps rfl ?_ ?_
  · rw [wellFormed, wellFormedItems_iff]
    exact hw
  · have hmax : maxDepth = 2047 + 1 := rfl
    rw [depth, hmax, Nat.add_le_add_iff_right, depthItems_le_iff]
    intro x hx
    have := hd x hx
    omega

end Aigate.JsonEdit
