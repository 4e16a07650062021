import Aigate.JsonSort
import Aigate.JsonUtf8
import Aigate.Guardrails

/-!
# Documents as Lua values

A script sees a document as Lua values. The one kind of table stands for arrays and for
objects; a table holds no nil, so that a member that is null is no member. On the way back a
table with a length above zero is an array, and strings end at a zero byte.

How long a table with holes is and in which order its keys are visited is left to Lua.
-/
namespace Aigate.LuaBridge
open Text JsonTree JsonText JsonRoundtrip JsonSort JsonUtf8 Utf8 Guardrails

inductive LuaKey where
  | string (s : Bytes)
  | integer (n : ℤ)
  deriving DecidableEq

/-- A table has the sizes that it was created with. -/
inductive LuaValue where
  | nil
  | boolean (b : Bool)
  | integer (n : Int64)
  | number (x : Decimal)
  | string (s : Bytes)
  | table (narr nrec : ℕ) (entries : List (LuaKey × LuaValue))
  | other

/-- Set a field to a value other than nil. -/
def put (key : LuaKey) (value : LuaValue) : List (LuaKey × LuaValue) → List (LuaKey × LuaValue)
  | [] => [(key, value)]
  | (k, v) :: rest => if k = key then (k, value) :: rest else (k, v) :: put key value rest

/-- `lua_rawseti` and, in a table without a metatable, `lua_setfield`. -/
def rawSet (entries : List (LuaKey × LuaValue)) (key : LuaKey) :
    LuaValue → List (LuaKey × LuaValue)
  | .nil => entries.filter fun e => e.1 ≠ key
  | value => put key value entries

mutual

/-- `json_to_lua`. -/
def jsonToLua : Json → LuaValue
  | .null => .nil
  | .bool b => .boolean b
  | .integer n => .integer n
  | .real x => .number x
  | .string s => .string s
  | .array items => .table items.length 0 (setItems [] 1 items)
  | .object members => .table 0 members.length (setFields [] members)

/-- The loop over an array. -/
def setItems (entries : List (LuaKey × LuaValue)) (i : ℕ) : List Json → List (LuaKey × LuaValue)
  | [] => entries
  | x :: rest => setItems (rawSet entries (.integer i) (jsonToLua x)) (i + 1) rest

/-- The loop over an object, whose keys end at a zero byte. -/
def setFields (entries : List (LuaKey × LuaValue)) :
    List (Bytes × Json) → List (LuaKey × LuaValue)
  | [] => entries
  | (k, v) :: rest => setFields (rawSet entries (.string (cString k)) (jsonToLua v)) rest

end

/-- The last of the keys from 1 on that are there. -/
def IsBorder (keys : List LuaKey) (n : ℕ) : Prop :=
  (n = 0 ∨ .integer n ∈ keys) ∧ .integer (n + 1) ∉ keys

/-- What Lua promises of its tables: the length is a border, and each key is visited once. -/
structure LuaTables where
  length : ℕ → ℕ → List LuaKey → ℕ
  order : ℕ → ℕ → List LuaKey → List LuaKey
  border : ∀ narr nrec keys, IsBorder keys (length narr nrec keys)
  perm : ∀ narr nrec keys, (order narr nrec keys).Perm keys

/-- `json_string`. -/
def jsonString (s : Bytes) : Option Json :=
  if utf8Check (cString s) then some (.string (cString s)) else none

/-- The key that is given to `json_object_set_new`, which takes UTF-8. -/
def keyText : LuaKey → Option Bytes
  | .string s => if utf8Check (cString s) then some (cString s) else none
  | .integer n => some ((if n < 0 then ['-'] else []) ++ decimal n.natAbs)

/-- The value of a field after its conversion; one without a value is null. -/
def fieldOf (fields : List (LuaKey × Option Json)) (key : LuaKey) : Option Json :=
  match fields.find? fun e => decide (e.1 = key) with
  | none => some .null
  | some e => e.2

/-- Keys and values that cannot be set are left out. -/
def setMember (fields : List (LuaKey × Option Json)) (members : List (Bytes × Json))
    (key : LuaKey) : List (Bytes × Json) :=
  match keyText key, fieldOf fields key with
  | some k, some v => assign members k v
  | _, _ => members

/-- The case of a table, with its fields converted. -/
def tableToJson (lua : LuaTables) (narr nrec : ℕ) (fields : List (LuaKey × Option Json)) : Json :=
  let keys := fields.map Prod.fst
  let len := lua.length narr nrec keys
  if 0 < len then
    .array ((List.range len).filterMap fun i => fieldOf fields (.integer (i + 1 : ℕ)))
  else .object ((lua.order narr nrec keys).foldl (setMember fields) [])

mutual

/-- `lua_to_json`; a string that is not UTF-8 gives no value. -/
def luaToJson (lua : LuaTables) : LuaValue → Option Json
  | .nil => some .null
  | .boolean b => some (.bool b)
  | .integer n => some (.integer n)
  | .number x => some (.real x)
  | .string s => jsonString s
  | .table narr nrec entries => some (tableToJson lua narr nrec (fieldsToJson lua entries))
  | .other => some .null

def fieldsToJson (lua : LuaTables) : List (LuaKey × LuaValue) → List (LuaKey × Option Json)
  | [] => []
  | (k, v) :: rest => (k, luaToJson lua v) :: fieldsToJson lua rest

end

/-- There and back again. -/
def back (lua : LuaTables) (d : Json) : Option Json := luaToJson lua (jsonToLua d)

/-- The document comes back, its objects as maps. -/
def RoundTrip (lua : LuaTables) (d : Json) : Prop :=
  (back lua d).map sortKeys = some (sortKeys d)

mutual

/-- Strings and keys are UTF-8, and the keys of an object are distinct. -/
def Document : Json → Prop
  | .string s => utf8Check s = true
  | .array items => DocumentItems items
  | .object members => (members.map Prod.fst).Nodup ∧ DocumentMembers members
  | _ => True

def DocumentItems : List Json → Prop
  | [] => True
  | x :: rest => Document x ∧ DocumentItems rest

def DocumentMembers : List (Bytes × Json) → Prop
  | [] => True
  | (k, v) :: rest => utf8Check k = true ∧ Document v ∧ DocumentMembers rest

end

/-- The keys of the table of an array. -/
def itemKeys (items : List Json) : List LuaKey := (setItems [] 1 items).map Prod.fst

mutual

/-- What survives: no string or key has a zero byte, no member is null, no array is empty, and
the length of the table of an array is the number of its items. -/
def Kept (lua : LuaTables) : Json → Prop
  | .string s => nul ∉ s
  | .array items =>
    items ≠ [] ∧ lua.length items.length 0 (itemKeys items) = items.length ∧ KeptItems lua items
  | .object members => KeptMembers lua members
  | _ => True

def KeptItems (lua : LuaTables) : List Json → Prop
  | [] => True
  | x :: rest => Kept lua x ∧ KeptItems lua rest

def KeptMembers (lua : LuaTables) : List (Bytes × Json) → Prop
  | [] => True
  | (k, v) :: rest => nul ∉ k ∧ v ≠ .null ∧ Kept lua v ∧ KeptMembers lua rest

end

/-! ### Texts -/

theorem cString_cString (s : Bytes) : cString (cString s) = cString s :=
  cString_eq_self_iff.mpr (nul_not_mem_cString s)

theorem cString_cons {c : Char} (h : 0 < c.toNat) (s : Bytes) :
    cString (c :: s) = c :: cString s :=
  List.takeWhile_cons_of_pos (by simpa using h.ne')

/-- What precedes a zero byte of a UTF-8 text is UTF-8. -/
theorem utf8Check_cString {s : Bytes} (h : utf8Check s = true) : utf8Check (cString s) = true := by
  refine utf8Check_induction (P := fun s => utf8Check (cString s) = true) rfl
    (fun c v hc ih => ?_) (fun u v hhigh hu ih => ?_) h
  · by_cases hzero : c.toNat = 0
    · rw [cString, List.takeWhile_cons_of_neg (by simpa using hzero)]
      rfl
    · rw [cString_cons (Nat.pos_of_ne_zero hzero), utf8Check_cons hc]
      exact ih
  · have hnul : nul ∉ u := fun hmem => absurd (hhigh nul hmem) (by decide)
    rw [cString_append_of_not_mem hnul, utf8Check_append hu]
    exact ih

/-! ### Tables -/

theorem jsonToLua_eq_nil_iff {d : Json} : jsonToLua d = .nil ↔ d = .null := by
  cases d <;> simp [jsonToLua]

theorem rawSet_of_ne_nil (entries : List (LuaKey × LuaValue)) (key : LuaKey) {v : LuaValue}
    (h : v ≠ .nil) : rawSet entries key v = put key v entries := by
  cases v <;> first | rfl | exact absurd rfl h

theorem put_of_fresh {key : LuaKey} {entries : List (LuaKey × LuaValue)}
    (h : key ∉ entries.map Prod.fst) (v : LuaValue) :
    put key v entries = entries ++ [(key, v)] := by
  induction entries with
  | nil => rfl
  | cons e rest ih =>
    rw [List.map_cons, List.mem_cons, not_or] at h
    rw [put, if_neg (Ne.symm h.1), ih h.2, List.cons_append]

theorem mem_put {key : LuaKey} {v : LuaValue} {entries : List (LuaKey × LuaValue)}
    {e : LuaKey × LuaValue} (h : e ∈ put key v entries) : e = (key, v) ∨ e ∈ entries := by
  induction entries with
  | nil => exact Or.inl (List.mem_singleton.mp h)
  | cons e' rest ih =>
    rw [put] at h
    split at h
    · rename_i heq
      rw [heq] at h
      exact (List.mem_cons.mp h).imp_right (List.mem_cons_of_mem e')
    · rcases List.mem_cons.mp h with rfl | hrest
      · exact Or.inr List.mem_cons_self
      · exact (ih hrest).imp_right (List.mem_cons_of_mem e')

theorem mem_rawSet {entries : List (LuaKey × LuaValue)} {key : LuaKey} {v : LuaValue}
    {e : LuaKey × LuaValue} (h : e ∈ rawSet entries key v) :
    e ∈ entries ∨ (v ≠ .nil ∧ e = (key, v)) := by
  by_cases hv : v = .nil
  · subst hv
    exact Or.inl (List.mem_filter.mp h).1
  · rw [rawSet_of_ne_nil entries key hv] at h
    exact (mem_put h).symm.imp_right fun he => ⟨hv, he⟩

/-- The fields of an object are members that are not null. -/
theorem mem_setFields {entries : List (LuaKey × LuaValue)} {members : List (Bytes × Json)}
    {e : LuaKey × LuaValue} (h : e ∈ setFields entries members) :
    e ∈ entries ∨ ∃ m ∈ members, m.2 ≠ .null ∧ e.1 = .string (cString m.1) := by
  induction members generalizing entries with
  | nil => exact Or.inl h
  | cons m rest ih =>
    rcases ih h with hset | ⟨m', hm', hfield⟩
    · rcases mem_rawSet hset with hold | ⟨hne, rfl⟩
      · exact Or.inl hold
      · exact Or.inr ⟨m, List.mem_cons_self, mt jsonToLua_eq_nil_iff.mpr hne, rfl⟩
    · exact Or.inr ⟨m', List.mem_cons_of_mem m hm', hfield⟩

/-- Members with distinct keys without zero bytes, none of them null, are set one by one. -/
theorem setFields_eq {members : List (Bytes × Json)} (hnul : ∀ m ∈ members, nul ∉ m.1)
    (hnull : ∀ m ∈ members, m.2 ≠ .null) (hkeys : (members.map Prod.fst).Nodup)
    (entries : List (LuaKey × LuaValue))
    (hfresh : ∀ m ∈ members, LuaKey.string m.1 ∉ entries.map Prod.fst) :
    setFields entries members =
      entries ++ members.map fun m => (LuaKey.string m.1, jsonToLua m.2) := by
  induction members generalizing entries with
  | nil => exact (List.append_nil entries).symm
  | cons m rest ih =>
    obtain ⟨hm, hrest⟩ := List.forall_mem_cons.mp hnul
    obtain ⟨hm', hrest'⟩ := List.forall_mem_cons.mp hnull
    obtain ⟨hnew, hnodup⟩ := List.nodup_cons.mp hkeys
    obtain ⟨hfm, hfrest⟩ := List.forall_mem_cons.mp hfresh
    have hset : rawSet entries (.string (cString m.1)) (jsonToLua m.2) =
        entries ++ [(.string m.1, jsonToLua m.2)] := by
      rw [rawSet_of_ne_nil _ _ (mt jsonToLua_eq_nil_iff.mp hm'), cString_eq_self_iff.mpr hm,
        put_of_fresh hfm]
    rw [setFields, hset, ih hrest hrest' hnodup]
    · rw [List.map_cons, List.append_assoc, List.singleton_append]
    · intro m' hmem
      rw [List.map_append, List.mem_append, not_or]
      refine ⟨hfrest m' hmem, ?_⟩
      simp only [List.map_cons, List.map_nil, List.mem_singleton, LuaKey.string.injEq]
      rintro heq
      exact hnew (heq ▸ List.mem_map_of_mem hmem)

/-- The fields of an array: the items that are not null, from the index on. -/
def itemFields (i : ℕ) : List Json → List (LuaKey × LuaValue)
  | [] => []
  | .null :: rest => itemFields (i + 1) rest
  | x :: rest => (.integer i, jsonToLua x) :: itemFields (i + 1) rest

theorem itemFields_of_ne_null {x : Json} (h : x ≠ .null) (i : ℕ) (rest : List Json) :
    itemFields i (x :: rest) = (.integer i, jsonToLua x) :: itemFields (i + 1) rest := by
  cases x <;> first | rfl | exact absurd rfl h

theorem setItems_eq (items : List Json) (i : ℕ) (entries : List (LuaKey × LuaValue))
    (hfresh : ∀ j ≥ i, LuaKey.integer j ∉ entries.map Prod.fst) :
    setItems entries i items = entries ++ itemFields i items := by
  induction items generalizing i entries with
  | nil => exact (List.append_nil entries).symm
  | cons x rest ih =>
    by_cases hx : x = .null
    · subst hx
      have hset : rawSet entries (.integer i) (jsonToLua .null) = entries := by
        refine List.filter_eq_self.mpr fun e he => ?_
        rw [decide_eq_true_iff]
        intro heq
        exact hfresh i (Nat.le_refl i) (heq ▸ List.mem_map_of_mem he)
      rw [setItems, hset, ih (i + 1) entries fun j hj => hfresh j (by omega)]
      rfl
    · have hset : rawSet entries (.integer i) (jsonToLua x) =
          entries ++ [(.integer i, jsonToLua x)] := by
        rw [rawSet_of_ne_nil _ _ (mt jsonToLua_eq_nil_iff.mp hx),
          put_of_fresh (hfresh i (Nat.le_refl i))]
      rw [setItems, hset, ih, itemFields_of_ne_null hx, List.append_assoc, List.singleton_append]
      intro j hj
      rw [List.map_append, List.mem_append, not_or]
      refine ⟨hfresh j (by omega), ?_⟩
      simp only [List.map_cons, List.map_nil, List.mem_singleton, LuaKey.integer.injEq]
      omega

theorem fieldsToJson_eq (lua : LuaTables) (entries : List (LuaKey × LuaValue)) :
    fieldsToJson lua entries = entries.map fun e => (e.1, luaToJson lua e.2) := by
  induction entries with
  | nil => rfl
  | cons e rest ih => rw [fieldsToJson, ih, List.map_cons]

theorem keys_fieldsToJson (lua : LuaTables) (entries : List (LuaKey × LuaValue)) :
    (fieldsToJson lua entries).map Prod.fst = entries.map Prod.fst := by
  rw [fieldsToJson_eq, List.map_map]
  rfl

/-! ### Arrays -/

theorem itemKeys_eq (items : List Json) : itemKeys items = (itemFields 1 items).map Prod.fst := by
  rw [itemKeys, setItems_eq items 1 [] (by simp), List.nil_append]

theorem mem_itemFields {i j : ℕ} {items : List Json}
    (h : LuaKey.integer j ∈ (itemFields i items).map Prod.fst) : i ≤ j ∧ j < i + items.length := by
  induction items generalizing i with
  | nil => cases h
  | cons x rest ih =>
    rw [List.length_cons]
    by_cases hx : x = .null
    · subst hx
      have hrest := ih (i := i + 1) h
      omega
    · rw [itemFields_of_ne_null hx, List.map_cons, List.mem_cons] at h
      rcases h with heq | hmem
      · have hj : j = i := by simpa using heq
        omega
      · have hrest := ih hmem
        omega

/-- An array has no more items than it had. -/
theorem length_itemKeys_le (lua : LuaTables) (narr nrec : ℕ) (items : List Json) :
    lua.length narr nrec (itemKeys items) ≤ items.length := by
  rcases (lua.border narr nrec (itemKeys items)).1 with hzero | hmem
  · omega
  · rw [itemKeys_eq] at hmem
    have hbound := mem_itemFields hmem
    rw [← itemKeys_eq] at hbound
    omega

theorem fieldOf_itemFields (lua : LuaTables) (i j : ℕ) {items : List Json} {x : Json}
    (h : items[j]? = some x) :
    fieldOf (fieldsToJson lua (itemFields i items)) (.integer (i + j : ℕ)) = back lua x := by
  induction items generalizing i j with
  | nil => cases h
  | cons y rest ih =>
    by_cases hy : y = .null
    · subst hy
      cases j with
      | zero =>
        obtain rfl : Json.null = x := by simpa using h
        have hnone : (fieldsToJson lua (itemFields i (.null :: rest))).find?
            (fun e => decide (e.1 = .integer (i + 0 : ℕ))) = none := by
          rw [List.find?_eq_none]
          intro e he heq
          rw [decide_eq_true_iff] at heq
          have hmem := List.mem_map_of_mem (f := Prod.fst) he
          rw [keys_fieldsToJson, heq] at hmem
          have hbound := mem_itemFields (i := i + 1) hmem
          omega
        rw [fieldOf, hnone]
        rfl
      | succ j =>
        have hrest := ih (i + 1) j h
        rwa [show i + 1 + j = i + (j + 1) by omega] at hrest
    · rw [itemFields_of_ne_null hy, fieldsToJson, fieldOf, List.find?_cons]
      cases j with
      | zero =>
        obtain rfl : y = x := by simpa using h
        simp [back]
      | succ j =>
        have hne : (LuaKey.integer i = .integer (i + (j + 1) : ℕ)) = False := by
          rw [LuaKey.integer.injEq, eq_iff_iff, iff_false]
          omega
        have hrest := ih (i + 1) j h
        rw [show i + 1 + j = i + (j + 1) by omega, fieldOf] at hrest
        simpa only [hne, decide_false] using hrest

/-- The items up to the length are converted. -/
theorem filterMap_fieldOf (lua : LuaTables) {items : List Json} {len : ℕ} (h : len ≤ items.length) :
    (List.range len).filterMap
        (fun i => fieldOf (fieldsToJson lua (itemFields 1 items)) (.integer (i + 1 : ℕ))) =
      (items.take len).filterMap (back lua) := by
  induction len with
  | zero => rfl
  | succ len ih =>
    have hget : items[len]? = some items[len] := List.getElem?_eq_getElem h
    have hfield := fieldOf_itemFields lua 1 len hget
    rw [Nat.add_comm] at hfield
    rw [List.range_succ, List.filterMap_append, ih (Nat.le_of_succ_le h), List.take_add_one,
      List.filterMap_append, hget, Option.toList_some]
    simp only [List.filterMap_cons, List.filterMap_nil, hfield]

theorem back_array (lua : LuaTables) (items : List Json) :
    back lua (.array items) = some (
      if 0 < lua.length items.length 0 (itemKeys items) then
        .array ((items.take (lua.length items.length 0 (itemKeys items))).filterMap (back lua))
      else .object ((lua.order items.length 0 (itemKeys items)).foldl
        (setMember (fieldsToJson lua (itemFields 1 items))) [])) := by
  have hset : setItems [] 1 items = itemFields 1 items := by
    rw [setItems_eq items 1 [] (by simp), List.nil_append]
  rw [back, jsonToLua, luaToJson, tableToJson, hset, keys_fieldsToJson, ← itemKeys_eq,
    filterMap_fieldOf lua (length_itemKeys_le lua _ _ items)]

theorem sortItems_eq (items : List Json) : sortItems items = items.map sortKeys := by
  induction items with
  | nil => rfl
  | cons x rest ih => rw [sortItems, ih, List.map_cons]

/-- Items that all have a value come back exactly if each of them does. -/
theorem sortItems_filterMap_iff (lua : LuaTables) {items : List Json}
    (h : ∀ x ∈ items, ∃ j, back lua x = some j) :
    sortItems (items.filterMap (back lua)) = sortItems items ↔ ∀ x ∈ items, RoundTrip lua x := by
  induction items with
  | nil => simp
  | cons x rest ih =>
    obtain ⟨⟨j, hj⟩, hrest⟩ := List.forall_mem_cons.mp h
    rw [List.filterMap_cons_some hj, sortItems, sortItems, List.cons.injEq, ih hrest,
      List.forall_mem_cons, RoundTrip, hj, Option.map_some, Option.some.injEq]

theorem length_filterMap_back (lua : LuaTables) {items : List Json}
    (h : ∀ x ∈ items, ∃ j, back lua x = some j) :
    (items.filterMap (back lua)).length = items.length := by
  induction items with
  | nil => rfl
  | cons x rest ih =>
    obtain ⟨⟨j, hj⟩, hrest⟩ := List.forall_mem_cons.mp h
    rw [List.filterMap_cons_some hj, List.length_cons, ih hrest, List.length_cons]

theorem roundTrip_array_iff (lua : LuaTables) {items : List Json}
    (h : ∀ x ∈ items, ∃ j, back lua x = some j) : RoundTrip lua (.array items) ↔
      items ≠ [] ∧ lua.length items.length 0 (itemKeys items) = items.length ∧
        ∀ x ∈ items, RoundTrip lua x := by
  have hle := length_itemKeys_le lua items.length 0 items
  rw [RoundTrip, back_array, Option.map_some, Option.some.injEq]
  generalize lua.length items.length 0 (itemKeys items) = len at hle ⊢
  by_cases hpos : 0 < len
  · rw [if_pos hpos, sortKeys, sortKeys, Json.array.injEq]
    have hne : items ≠ [] := by
      rintro rfl
      exact absurd hle (Nat.not_le.mpr hpos)
    constructor
    · intro hsort
      have hlength := congrArg List.length hsort
      rw [sortItems_eq, sortItems_eq, List.length_map, List.length_map,
        length_filterMap_back lua fun x hx => h x (List.mem_of_mem_take hx), List.length_take]
        at hlength
      have hlen : len = items.length := by omega
      rw [hlen, List.take_length, sortItems_filterMap_iff lua h] at hsort
      exact ⟨hne, hlen, hsort⟩
    · rintro ⟨-, hlen, hall⟩
      rw [hlen, List.take_length, sortItems_filterMap_iff lua h]
      exact hall
  · rw [if_neg hpos]
    refine iff_of_false (fun heq => by cases heq) ?_
    rintro ⟨hne, hlen, -⟩
    exact hpos (hlen ▸ List.length_pos_iff.mpr hne)

/-! ### Objects -/

theorem key_setFields {members : List (Bytes × Json)} {k : LuaKey}
    (h : k ∈ (setFields [] members).map Prod.fst) :
    ∃ m ∈ members, m.2 ≠ .null ∧ k = .string (cString m.1) := by
  obtain ⟨e, he, rfl⟩ := List.mem_map.mp h
  exact (mem_setFields he).resolve_left List.not_mem_nil

/-- A table without indices has no length. -/
theorem length_setFields (lua : LuaTables) (narr nrec : ℕ) (members : List (Bytes × Json)) :
    lua.length narr nrec ((setFields [] members).map Prod.fst) = 0 := by
  rcases (lua.border narr nrec ((setFields [] members).map Prod.fst)).1 with hzero | hmem
  · exact hzero
  · obtain ⟨m, -, -, heq⟩ := key_setFields hmem
    cases heq

/-- The members that the loop over a table makes. -/
def backMembers (lua : LuaTables) (members : List (Bytes × Json)) : List (Bytes × Json) :=
  (lua.order 0 members.length ((setFields [] members).map Prod.fst)).foldl
    (setMember (fieldsToJson lua (setFields [] members))) []

theorem back_object (lua : LuaTables) (members : List (Bytes × Json)) :
    back lua (.object members) = some (.object (backMembers lua members)) := by
  rw [back, jsonToLua, luaToJson, tableToJson, keys_fieldsToJson, length_setFields]
  rfl

theorem mem_keys_foldl {fields : List (LuaKey × Option Json)} {keys : List LuaKey}
    {acc : List (Bytes × Json)} {k : Bytes}
    (h : k ∈ (keys.foldl (setMember fields) acc).map Prod.fst) :
    (∃ key ∈ keys, keyText key = some k) ∨ k ∈ acc.map Prod.fst := by
  induction keys generalizing acc with
  | nil => exact Or.inr h
  | cons key rest ih =>
    rcases ih h with ⟨key', hkey', htext⟩ | hset
    · exact Or.inl ⟨key', List.mem_cons_of_mem key hkey', htext⟩
    · unfold setMember at hset
      split at hset
      · rename_i k' v htext _
        rcases mem_keys_assign hset with rfl | hacc
        · exact Or.inl ⟨key, List.mem_cons_self, htext⟩
        · exact Or.inr hacc
      · exact Or.inr hset

/-- A key that comes back is one of a member that is not null, up to its first zero. -/
theorem key_backMembers {lua : LuaTables} {members : List (Bytes × Json)} {k : Bytes}
    (h : k ∈ (backMembers lua members).map Prod.fst) :
    ∃ m ∈ members, m.2 ≠ .null ∧ k = cString m.1 := by
  rcases mem_keys_foldl h with ⟨key, hkey, htext⟩ | hnil
  · obtain ⟨m, hm, hne, rfl⟩ := key_setFields ((lua.perm _ _ _).subset hkey)
    refine ⟨m, hm, hne, ?_⟩
    simp only [keyText, cString_cString] at htext
    split at htext
    · exact (Option.some.inj htext).symm
    · cases htext
  · cases hnil

theorem sortMembers_eq_iff {a b : List (Bytes × Json)} (h : (b.map Prod.fst).Nodup) :
    sortMembers a = sortMembers b ↔ a.Perm b := by
  constructor
  · intro heq
    have hb := sortMembers_perm b
    rw [← heq] at hb
    exact (sortMembers_perm a).symm.trans hb
  · intro hperm
    have hsorted : (sortMembers a).Perm (sortMembers b) :=
      (sortMembers_perm a).trans (hperm.trans (sortMembers_perm b).symm)
    have hkeys : ((sortMembers a).map Prod.fst).Nodup :=
      (((sortMembers_perm a).trans hperm).map Prod.fst).nodup_iff.mpr h
    exact eq_of_sorted hsorted hkeys (sortMembers_sorted a) (sortMembers_sorted b)

/-- The member that a key of the table gives. -/
def memberOf (fields : List (LuaKey × Option Json)) (key : LuaKey) : Option (Bytes × Json) :=
  (keyText key).bind fun k => (fieldOf fields key).map fun v => (k, v)

theorem setMember_of_fresh {fields : List (LuaKey × Option Json)} {acc : List (Bytes × Json)}
    {key : LuaKey} (h : ∀ k ∈ keyText key, k ∉ acc.map Prod.fst) :
    setMember fields acc key = acc ++ (memberOf fields key).toList := by
  unfold setMember memberOf
  cases htext : keyText key with
  | none => simp
  | some k =>
    cases fieldOf fields key with
    | none => simp
    | some v => simpa using assign_append v (h k htext)

/-- Keys with distinct texts are set one by one. -/
theorem foldl_setMember {fields : List (LuaKey × Option Json)} {keys : List LuaKey}
    (hkeys : keys.Pairwise fun a b => ∀ k ∈ keyText a, k ∉ keyText b)
    {acc : List (Bytes × Json)} (hacc : ∀ key ∈ keys, ∀ k ∈ keyText key, k ∉ acc.map Prod.fst) :
    keys.foldl (setMember fields) acc = acc ++ keys.filterMap (memberOf fields) := by
  induction keys generalizing acc with
  | nil => exact (List.append_nil acc).symm
  | cons key rest ih =>
    obtain ⟨hkey, hrest⟩ := List.pairwise_cons.mp hkeys
    obtain ⟨hfresh, hfrest⟩ := List.forall_mem_cons.mp hacc
    rw [List.foldl_cons, setMember_of_fresh hfresh, ih hrest]
    · cases hmember : memberOf fields key with
      | none => simp [hmember]
      | some m => simp [hmember]
    · intro key' hmem k hk
      rw [List.map_append, List.mem_append, not_or]
      refine ⟨hfrest key' hmem k hk, fun hin => ?_⟩
      obtain ⟨m, hm, rfl⟩ := List.mem_map.mp hin
      obtain ⟨k', hk', hv⟩ := Option.bind_eq_some_iff.mp (Option.mem_toList.mp hm)
      obtain ⟨v, -, rfl⟩ := Option.map_eq_some_iff.mp hv
      exact hkey key' hmem k' hk' hk

theorem fieldOf_map {members : List (Bytes × Json)} (hkeys : (members.map Prod.fst).Nodup)
    (f : Json → Option Json) {m : Bytes × Json} (h : m ∈ members) :
    fieldOf (members.map fun m => (LuaKey.string m.1, f m.2)) (.string m.1) = f m.2 := by
  induction members with
  | nil => cases h
  | cons m' rest ih =>
    obtain ⟨hnew, hrest⟩ := List.nodup_cons.mp hkeys
    rw [List.map_cons, fieldOf, List.find?_cons]
    rcases List.mem_cons.mp h with rfl | hmem
    · simp
    · have hne : (LuaKey.string m'.1 = .string m.1) = False := by
        rw [LuaKey.string.injEq, eq_iff_iff, iff_false]
        rintro heq
        exact hnew (heq ▸ List.mem_map_of_mem hmem)
      have hfield := ih hrest hmem
      rw [fieldOf] at hfield
      simpa only [hne, decide_false] using hfield

theorem keyText_of_plain {k : Bytes} (hnul : nul ∉ k) (hutf8 : utf8Check k = true) :
    keyText (.string k) = some k := by
  simp [keyText, cString_eq_self_iff.mpr hnul, hutf8]

/-- What the members of an object come back as, if none of them is lost. -/
def converted (lua : LuaTables) (members : List (Bytes × Json)) : List (Bytes × Json) :=
  members.filterMap fun m => (back lua m.2).map fun v => (m.1, v)

theorem backMembers_perm (lua : LuaTables) {members : List (Bytes × Json)}
    (hkeys : (members.map Prod.fst).Nodup) (hutf8 : ∀ m ∈ members, utf8Check m.1 = true)
    (hnul : ∀ m ∈ members, nul ∉ m.1) (hnull : ∀ m ∈ members, m.2 ≠ .null) :
    (backMembers lua members).Perm (converted lua members) := by
  have hset := setFields_eq hnul hnull hkeys [] (by simp)
  rw [List.nil_append] at hset
  have hfields : fieldsToJson lua (setFields [] members) =
      members.map fun m => (LuaKey.string m.1, back lua m.2) := by
    rw [hset, fieldsToJson_eq, List.map_map]
    rfl
  have hperm : (lua.order 0 members.length ((setFields [] members).map Prod.fst)).Perm
      (members.map fun m => LuaKey.string m.1) := by
    have horder := lua.perm 0 members.length ((setFields [] members).map Prod.fst)
    rw [hset, List.map_map] at horder ⊢
    exact horder
  have htext : ∀ m ∈ members, keyText (.string m.1) = some m.1 := fun m hm =>
    keyText_of_plain (hnul m hm) (hutf8 m hm)
  have hmember : ∀ m ∈ members, memberOf (members.map fun m => (LuaKey.string m.1, back lua m.2))
      (.string m.1) = (back lua m.2).map fun v => (m.1, v) := by
    intro m hm
    rw [memberOf, htext m hm, Option.bind_some, fieldOf_map hkeys (back lua) hm]
  rw [backMembers, hfields]
  generalize lua.order 0 members.length ((setFields [] members).map Prod.fst) = keys at hperm ⊢
  have hdistinct : (members.map fun m => LuaKey.string m.1).Pairwise fun a b =>
      ∀ k ∈ keyText a, k ∉ keyText b := by
    rw [List.pairwise_map]
    refine (List.pairwise_map.mp hkeys).imp_of_mem fun ha hb hne k hk hk' => hne ?_
    rw [Option.mem_def, htext _ ha] at hk
    rw [Option.mem_def, htext _ hb] at hk'
    exact (Option.some.inj hk).trans (Option.some.inj hk').symm
  have hpairs := (hperm.pairwise_iff (R := fun a b => ∀ k ∈ keyText a, k ∉ keyText b)
    fun h k hk hk' => h k hk' hk).mpr hdistinct
  rw [foldl_setMember hpairs (by simp), List.nil_append]
  refine (hperm.filterMap _).trans (List.Perm.of_eq ?_)
  rw [List.filterMap_map, converted]
  exact List.filterMap_congr hmember

/-- The members that come back are those of the document exactly if each value comes back. -/
theorem sortValues_converted_perm_iff (lua : LuaTables) {members : List (Bytes × Json)}
    (hkeys : (members.map Prod.fst).Nodup)
    (hsome : ∀ m ∈ members, ∃ j, back lua m.2 = some j) :
    (sortValues (converted lua members)).Perm (sortValues members) ↔
      ∀ m ∈ members, RoundTrip lua m.2 := by
  have hvalues : sortValues (converted lua members) =
      members.filterMap fun m => ((back lua m.2).map sortKeys).map fun v => (m.1, v) := by
    rw [sortValues_eq, converted, List.map_filterMap]
    congr 1
    funext m
    rw [Option.map_map, Option.map_map]
    rfl
  rw [hvalues]
  constructor
  · intro hperm m hm
    obtain ⟨j, hj⟩ := hsome m hm
    have hmem : (m.1, sortKeys j) ∈ sortValues members := by
      refine hperm.subset (List.mem_filterMap.mpr ⟨m, hm, ?_⟩)
      rw [hj]
      rfl
    rw [sortValues_eq] at hmem
    obtain ⟨m', hm', heq⟩ := List.mem_map.mp hmem
    obtain ⟨hkey, hvalue⟩ := Prod.mk.inj heq
    obtain rfl := List.inj_on_of_nodup_map hkeys hm' hm hkey
    rw [RoundTrip, hj, Option.map_some, hvalue]
  · intro hall
    rw [sortValues_eq, ← List.filterMap_eq_map]
    refine List.Perm.of_eq (List.filterMap_congr fun m hm => ?_)
    rw [hall m hm]
    rfl

theorem roundTrip_object_iff (lua : LuaTables) {members : List (Bytes × Json)}
    (hkeys : (members.map Prod.fst).Nodup) (hutf8 : ∀ m ∈ members, utf8Check m.1 = true)
    (hsome : ∀ m ∈ members, ∃ j, back lua m.2 = some j) :
    RoundTrip lua (.object members) ↔
      ∀ m ∈ members, nul ∉ m.1 ∧ m.2 ≠ .null ∧ RoundTrip lua m.2 := by
  have hsorted : ((sortValues members).map Prod.fst).Nodup := by
    rwa [map_fst_sortValues]
  rw [RoundTrip, back_object, Option.map_some, Option.some.injEq, sortKeys, sortKeys,
    Json.object.injEq, sortMembers_eq_iff hsorted]
  constructor
  · intro hperm
    have hkey : ∀ m ∈ members, ∃ m' ∈ members, m'.2 ≠ .null ∧ m.1 = cString m'.1 := by
      intro m hm
      have hmem := (hperm.map Prod.fst).mem_iff.mpr
        (by rw [map_fst_sortValues]; exact List.mem_map_of_mem hm)
      rw [map_fst_sortValues] at hmem
      exact key_backMembers hmem
    have hnul : ∀ m ∈ members, nul ∉ m.1 := by
      intro m hm
      obtain ⟨m', -, -, heq⟩ := hkey m hm
      rw [heq]
      exact nul_not_mem_cString m'.1
    have hnull : ∀ m ∈ members, m.2 ≠ .null := by
      intro m hm
      obtain ⟨m', hm', hne, heq⟩ := hkey m hm
      rw [cString_eq_self_iff.mpr (hnul m' hm')] at heq
      rwa [List.inj_on_of_nodup_map hkeys hm hm' heq]
    have hback := backMembers_perm lua hkeys hutf8 hnul hnull
    have hconverted : (sortValues (converted lua members)).Perm (sortValues members) := by
      refine List.Perm.trans ?_ hperm
      rw [sortValues_eq, sortValues_eq]
      exact (hback.map _).symm
    have hall := (sortValues_converted_perm_iff lua hkeys hsome).mp hconverted
    exact fun m hm => ⟨hnul m hm, hnull m hm, hall m hm⟩
  · intro hall
    have hback := backMembers_perm lua hkeys hutf8 (fun m hm => (hall m hm).1)
      fun m hm => (hall m hm).2.1
    have hconverted := (sortValues_converted_perm_iff lua hkeys hsome).mpr
      fun m hm => (hall m hm).2.2
    refine List.Perm.trans ?_ hconverted
    rw [sortValues_eq, sortValues_eq]
    exact hback.map _

/-! ### Documents -/

theorem documentItems_iff {items : List Json} :
    DocumentItems items ↔ ∀ x ∈ items, Document x := by
  induction items with
  | nil => simp [DocumentItems]
  | cons x rest ih => simp [DocumentItems, ih]

theorem documentMembers_iff {members : List (Bytes × Json)} :
    DocumentMembers members ↔ ∀ m ∈ members, utf8Check m.1 = true ∧ Document m.2 := by
  induction members with
  | nil => simp [DocumentMembers]
  | cons m rest ih => simp [DocumentMembers, ih, and_assoc]

theorem keptItems_iff {lua : LuaTables} {items : List Json} :
    KeptItems lua items ↔ ∀ x ∈ items, Kept lua x := by
  induction items with
  | nil => simp [KeptItems]
  | cons x rest ih => simp [KeptItems, ih]

theorem keptMembers_iff {lua : LuaTables} {members : List (Bytes × Json)} :
    KeptMembers lua members ↔ ∀ m ∈ members, nul ∉ m.1 ∧ m.2 ≠ .null ∧ Kept lua m.2 := by
  induction members with
  | nil => simp [KeptMembers]
  | cons m rest ih => simp [KeptMembers, ih, and_assoc]

/-- Every document comes back as some document. -/
theorem back_some (lua : LuaTables) {d : Json} (h : Document d) : ∃ j, back lua d = some j := by
  cases d with
  | null => exact ⟨_, rfl⟩
  | bool b => exact ⟨_, rfl⟩
  | integer n => exact ⟨_, rfl⟩
  | real x => exact ⟨_, rfl⟩
  | string s => exact ⟨.string (cString s), if_pos (utf8Check_cString h)⟩
  | array items => exact ⟨_, back_array lua items⟩
  | object members => exact ⟨_, back_object lua members⟩

theorem roundTrip_string_iff (lua : LuaTables) {s : Bytes} (h : utf8Check s = true) :
    RoundTrip lua (.string s) ↔ nul ∉ s := by
  have hback : back lua (.string s) = some (.string (cString s)) := if_pos (utf8Check_cString h)
  rw [RoundTrip, hback, Option.map_some, sortKeys, sortKeys, Option.some.injEq, Json.string.injEq]
  exact cString_eq_self_iff

mutual

theorem roundTrip_iff_kept (lua : LuaTables) : ∀ d : Json, Document d → (RoundTrip lua d ↔ Kept lua d)
  | .null, _ => iff_of_true rfl trivial
  | .bool _, _ => iff_of_true rfl trivial
  | .integer _, _ => iff_of_true rfl trivial
  | .real _, _ => iff_of_true rfl trivial
  | .string _, h => roundTrip_string_iff lua h
  | .array items, h => by
    have hitems := documentItems_iff.mp h
    rw [roundTrip_array_iff lua fun x hx => back_some lua (hitems x hx), Kept, keptItems_iff]
    refine and_congr_right fun _ => and_congr_right fun _ => ?_
    exact forall₂_congr (roundTrip_items lua items hitems)
  | .object members, h => by
    obtain ⟨hkeys, hdocs⟩ := h
    have hmembers := documentMembers_iff.mp hdocs
    rw [roundTrip_object_iff lua hkeys (fun m hm => (hmembers m hm).1)
      fun m hm => back_some lua (hmembers m hm).2, Kept, keptMembers_iff]
    refine forall₂_congr fun m hm => and_congr_right fun _ => and_congr_right fun _ => ?_
    exact roundTrip_members lua members (fun m hm => (hmembers m hm).2) m hm

theorem roundTrip_items (lua : LuaTables) : ∀ items : List Json, (∀ x ∈ items, Document x) →
    ∀ x ∈ items, (RoundTrip lua x ↔ Kept lua x)
  | [], _ => fun _ h => absurd h List.not_mem_nil
  | x :: rest, h => by
    obtain ⟨hx, hrest⟩ := List.forall_mem_cons.mp h
    exact List.forall_mem_cons.mpr ⟨roundTrip_iff_kept lua x hx, roundTrip_items lua rest hrest⟩

theorem roundTrip_members (lua : LuaTables) : ∀ members : List (Bytes × Json),
    (∀ m ∈ members, Document m.2) → ∀ m ∈ members, (RoundTrip lua m.2 ↔ Kept lua m.2)
  | [], _ => fun _ h => absurd h List.not_mem_nil
  | (k, v) :: rest, h => by
    obtain ⟨hv, hrest⟩ := List.forall_mem_cons.mp h
    exact List.forall_mem_cons.mpr ⟨roundTrip_iff_kept lua v hv, roundTrip_members lua rest hrest⟩

end

/-! ### The length of an array -/

theorem mem_itemFields_iff {i j : ℕ} {items : List Json} :
    LuaKey.integer (i + j : ℕ) ∈ (itemFields i items).map Prod.fst ↔
      ∃ x, items[j]? = some x ∧ x ≠ .null := by
  induction items generalizing i j with
  | nil => simp [itemFields]
  | cons y rest ih =>
    cases j with
    | zero =>
      have hlater : LuaKey.integer (i + 0 : ℕ) ∉ (itemFields (i + 1) rest).map Prod.fst := by
        intro hmem
        have hbound := mem_itemFields hmem
        omega
      by_cases hy : y = .null
      · subst hy
        simpa [itemFields] using hlater
      · rw [itemFields_of_ne_null hy]
        simp [hy]
    | succ j =>
      have hrest := ih (i := i + 1) (j := j)
      rw [show i + 1 + j = i + (j + 1) by omega] at hrest
      rw [List.getElem?_cons_succ, ← hrest]
      by_cases hy : y = .null
      · subst hy
        rfl
      · rw [itemFields_of_ne_null hy, List.map_cons, List.mem_cons, LuaKey.integer.injEq]
        refine or_iff_right ?_
        omega

/-- Without null items the length is the number of items. -/
theorem length_of_no_null (lua : LuaTables) {items : List Json} (h : ∀ x ∈ items, x ≠ .null) :
    lua.length items.length 0 (itemKeys items) = items.length := by
  have hle := length_itemKeys_le lua items.length 0 items
  have hgap := (lua.border items.length 0 (itemKeys items)).2
  by_contra hne
  have hlt : lua.length items.length 0 (itemKeys items) < items.length := by omega
  refine hgap ?_
  have hmem := (mem_itemFields_iff (i := 1)).mpr
    ⟨_, List.getElem?_eq_getElem hlt, h _ (List.getElem_mem hlt)⟩
  rw [itemKeys_eq] at hmem ⊢
  rwa [Nat.add_comm] at hmem

/-- With a null at its end an array comes back shorter. -/
theorem length_ne_of_last_null (lua : LuaTables) (items : List Json) :
    lua.length (items ++ [Json.null]).length 0 (itemKeys (items ++ [.null])) ≠
      (items ++ [Json.null]).length := by
  intro heq
  have hborder := (lua.border (items ++ [Json.null]).length 0 (itemKeys (items ++ [.null]))).1
  rw [heq, List.length_append, List.length_singleton] at hborder
  rcases hborder with hzero | hmem
  · omega
  · rw [itemKeys_eq, Nat.add_comm, mem_itemFields_iff] at hmem
    obtain ⟨x, hx, hne⟩ := hmem
    rw [List.getElem?_concat_length] at hx
    exact hne (Option.some.inj hx).symm

theorem exists_bound (keys : List LuaKey) : ∃ b : ℕ, ∀ n : ℕ, LuaKey.integer n ∈ keys → n < b := by
  induction keys with
  | nil => exact ⟨0, fun _ h => absurd h List.not_mem_nil⟩
  | cons key rest ih =>
    obtain ⟨b, hb⟩ := ih
    cases key with
    | string s =>
      refine ⟨b, fun n hn => hb n ?_⟩
      simpa using hn
    | integer m =>
      refine ⟨max b (m.toNat + 1), fun n hn => ?_⟩
      rcases List.mem_cons.mp hn with heq | hmem
      · obtain rfl := LuaKey.integer.inj heq
        rw [Int.toNat_natCast]
        omega
      · have hlt := hb n hmem
        omega

theorem exists_gap (keys : List LuaKey) : ∃ n : ℕ, LuaKey.integer (n + 1) ∉ keys := by
  obtain ⟨b, hb⟩ := exists_bound keys
  refine ⟨b, fun hmem => ?_⟩
  have hlt := hb (b + 1) (by exact_mod_cast hmem)
  omega

/-- The length is the number of keys from one on, and keys are visited as they were set. -/
def plainTables : LuaTables where
  length _ _ keys := Nat.find (exists_gap keys)
  order _ _ keys := keys
  border _ _ keys := by
    refine ⟨?_, Nat.find_spec (exists_gap keys)⟩
    cases hfind : Nat.find (exists_gap keys) with
    | zero => exact Or.inl rfl
    | succ n =>
      have hbefore := Nat.find_min (exists_gap keys) (m := n) (by omega)
      exact Or.inr (by exact_mod_cast not_not.mp hbefore)
  perm _ _ keys := List.Perm.refl keys

end Aigate.LuaBridge
