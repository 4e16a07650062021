import Aigate.Text

/-!
# JSON trees

A parsed document as a tree, with the accessors and the in-place updates of a JSON
library. Objects keep the order in which their members were set.
-/
namespace Aigate.JsonTree
open Text

/-- A real number, as the decimal numeral it is written with; its size is that of a double. -/
structure Decimal where
  negative : Bool
  whole : ℕ
  fraction : Bytes
  digits : fraction.all Char.isDigit = true
  written : fraction ≠ []
  finite : whole.log2 < 1024
  deriving DecidableEq

inductive Json where
  | null
  | bool (b : Bool)
  | integer (n : Int64)
  | real (x : Decimal)
  | string (s : Bytes)
  | array (items : List Json)
  | object (members : List (Bytes × Json))

/-- The value of the first member with the given key. -/
def lookup (members : List (Bytes × Json)) (key : Bytes) : Option Json :=
  match members with
  | [] => none
  | (k, v) :: rest => if k = key then some v else lookup rest key

/-- `json_object_set`: replace a member in place, or append it. -/
def assign (members : List (Bytes × Json)) (key : Bytes) (value : Json) : List (Bytes × Json) :=
  match members with
  | [] => [(key, value)]
  | (k, v) :: rest => if k = key then (k, value) :: rest else (k, v) :: assign rest key value

/-- `json_object_del`. -/
def erase (members : List (Bytes × Json)) (key : Bytes) : List (Bytes × Json) :=
  match members with
  | [] => []
  | (k, v) :: rest => if k = key then erase rest key else (k, v) :: erase rest key

/-- `json_object_get`: nothing on a value that is not an object. -/
def Json.get (j : Json) (key : String) : Option Json :=
  match j with
  | .object members => lookup members (ascii key)
  | _ => none

def Json.set (j : Json) (key : String) (value : Json) : Json :=
  match j with
  | .object members => .object (assign members (ascii key) value)
  | j => j

def Json.del (j : Json) (key : String) : Json :=
  match j with
  | .object members => .object (erase members (ascii key))
  | j => j

def Json.isObject : Json → Bool
  | .object _ => true
  | _ => false

/-- `json_string_value`: nothing on a value that is not a string. -/
def Json.stringValue : Json → Option Bytes
  | .string s => some s
  | _ => none

def Json.arrayItems : Json → Option (List Json)
  | .array items => some items
  | _ => none

/-- The string member of a key, `json_string_value(json_object_get(j, key))`. -/
def Json.getString (j : Json) (key : String) : Option Bytes :=
  (j.get key).bind Json.stringValue

/-- The array member of a key. -/
def Json.getArray (j : Json) (key : String) : Option (List Json) :=
  (j.get key).bind Json.arrayItems

@[simp] theorem lookup_assign_self (members : List (Bytes × Json)) (key : Bytes) (v : Json) :
    lookup (assign members key v) key = some v := by
  induction members with
  | nil => simp [assign, lookup]
  | cons m rest ih =>
    by_cases h : m.1 = key <;> simp [assign, lookup, h, ih]

theorem lookup_assign_of_ne {members : List (Bytes × Json)} {key key' : Bytes} (v : Json)
    (h : key' ≠ key) : lookup (assign members key v) key' = lookup members key' := by
  induction members with
  | nil => simp [assign, lookup, h.symm]
  | cons m rest ih =>
    by_cases hm : m.1 = key
    · simp [assign, lookup, hm, h.symm]
    · by_cases hk : m.1 = key'
      · simp [assign, lookup, hk, h]
      · simp [assign, lookup, hm, hk, ih]

theorem lookup_erase_of_ne {members : List (Bytes × Json)} {key key' : Bytes}
    (h : key' ≠ key) : lookup (erase members key) key' = lookup members key' := by
  induction members with
  | nil => rfl
  | cons m rest ih =>
    by_cases hm : m.1 = key
    · simp [erase, lookup, hm, h.symm, ih]
    · by_cases hk : m.1 = key'
      · simp [erase, lookup, hk, h]
      · simp [erase, lookup, hm, hk, ih]

theorem Json.get_set_of_ne (j v : Json) {key key' : String} (h : key' ≠ key) :
    (j.set key v).get key' = j.get key' := by
  cases j <;> simp [Json.set, Json.get, lookup_assign_of_ne v (ascii_ne h)]

theorem Json.get_del_of_ne (j : Json) {key key' : String} (h : key' ≠ key) :
    (j.del key).get key' = j.get key' := by
  cases j <;> simp [Json.del, Json.get, lookup_erase_of_ne (ascii_ne h)]

theorem Json.get_set_self {j v : Json} {key : String} (h : j.isObject = true) :
    (j.set key v).get key = some v := by
  cases j <;> simp_all [Json.isObject, Json.set, Json.get]

end Aigate.JsonTree
