import Aigate.JsonEdit

/-!
# Rewriting the strings of a tree

A function is applied to every string value; the keys stay. The tree that results has the
shape of the given one, so its members are read back as the rewritten values.
-/
namespace Aigate.JsonMap
open Text JsonTree JsonText JsonRoundtrip JsonEdit

mutual

def mapStrings (f : Bytes → Bytes) : Json → Json
  | .string s => .string (f s)
  | .array items => .array (mapItems f items)
  | .object members => .object (mapMembers f members)
  | .null => .null
  | .bool b => .bool b
  | .integer n => .integer n
  | .real x => .real x

def mapItems (f : Bytes → Bytes) : List Json → List Json
  | [] => []
  | x :: rest => mapStrings f x :: mapItems f rest

def mapMembers (f : Bytes → Bytes) : List (Bytes × Json) → List (Bytes × Json)
  | [] => []
  | (k, v) :: rest => (k, mapStrings f v) :: mapMembers f rest

end

mutual

/-- The keys of all objects in a tree. -/
def keys : Json → List Bytes
  | .array items => keysItems items
  | .object members => keysMembers members
  | _ => []

def keysItems : List Json → List Bytes
  | [] => []
  | x :: rest => keys x ++ keysItems rest

def keysMembers : List (Bytes × Json) → List Bytes
  | [] => []
  | (k, v) :: rest => k :: keys v ++ keysMembers rest

end

variable (f : Bytes → Bytes)

theorem mapItems_eq (items : List Json) : mapItems f items = items.map (mapStrings f) := by
  induction items with
  | nil => rfl
  | cons x rest ih => rw [mapItems, ih, List.map_cons]

theorem lookup_mapMembers (members : List (Bytes × Json)) (key : Bytes) :
    lookup (mapMembers f members) key = (lookup members key).map (mapStrings f) := by
  induction members with
  | nil => rfl
  | cons m rest ih =>
    obtain ⟨k, v⟩ := m
    rw [mapMembers, lookup, lookup]
    split
    · rfl
    · exact ih

@[simp] theorem get_mapStrings (j : Json) (key : String) :
    (mapStrings f j).get key = (j.get key).map (mapStrings f) := by
  cases j with
  | object members =>
    rw [mapStrings]
    exact lookup_mapMembers f members (ascii key)
  | _ =>
    rw [mapStrings]
    rfl

@[simp] theorem stringValue_mapStrings (j : Json) :
    (mapStrings f j).stringValue = j.stringValue.map f := by
  cases j <;> rw [mapStrings] <;> rfl

@[simp] theorem arrayItems_mapStrings (j : Json) :
    (mapStrings f j).arrayItems = j.arrayItems.map (List.map (mapStrings f)) := by
  cases j with
  | array items =>
    rw [mapStrings, mapItems_eq]
    rfl
  | _ =>
    rw [mapStrings]
    rfl

@[simp] theorem isObject_mapStrings (j : Json) : (mapStrings f j).isObject = j.isObject := by
  cases j <;> rw [mapStrings] <;> rfl

theorem isDocument_mapStrings (j : Json) : isDocument (mapStrings f j) = isDocument j := by
  cases j <;> rw [mapStrings] <;> rfl

theorem getString_mapStrings (j : Json) (key : String) :
    (mapStrings f j).getString key = (j.getString key).map f := by
  unfold Json.getString
  rw [get_mapStrings]
  cases j.get key with
  | none => rfl
  | some v => exact stringValue_mapStrings f v

theorem getArray_mapStrings (j : Json) (key : String) :
    (mapStrings f j).getArray key = (j.getArray key).map (List.map (mapStrings f)) := by
  unfold Json.getArray
  rw [get_mapStrings]
  cases j.get key with
  | none => rfl
  | some v => exact arrayItems_mapStrings f v

mutual

theorem depth_mapStrings : ∀ j : Json, depth (mapStrings f j) = depth j
  | .array items => by
    rw [mapStrings, depth, depth, depthItems_mapItems items]
  | .object members => by
    rw [mapStrings, depth, depth, depthMembers_mapMembers members]
  | .null => by rw [mapStrings]
  | .bool _ => by rw [mapStrings]
  | .integer _ => by rw [mapStrings]
  | .real _ => by rw [mapStrings]
  | .string _ => by rw [mapStrings, depth, depth] <;> simp

theorem depthItems_mapItems : ∀ items : List Json, depthItems (mapItems f items) = depthItems items
  | [] => by rw [mapItems]
  | x :: rest => by
    rw [mapItems, depthItems, depthItems, depth_mapStrings x, depthItems_mapItems rest]

theorem depthMembers_mapMembers :
    ∀ members : List (Bytes × Json), depthMembers (mapMembers f members) = depthMembers members
  | [] => by rw [mapMembers]
  | (k, v) :: rest => by
    rw [mapMembers, depthMembers, depthMembers, depth_mapStrings v, depthMembers_mapMembers rest]

end

theorem map_fst_mapMembers (members : List (Bytes × Json)) :
    (mapMembers f members).map Prod.fst = members.map Prod.fst := by
  induction members with
  | nil => rfl
  | cons m rest ih =>
    obtain ⟨k, v⟩ := m
    rw [mapMembers, List.map_cons, List.map_cons, ih]

section Closed

variable {f} {P : Bytes → Prop}

mutual

/-- A property of all keys and strings that the function keeps holds of the rewritten tree. -/
theorem strings_mapStrings (hf : ∀ s, P s → P (f s)) :
    ∀ j : Json, (∀ s ∈ strings j, P s) → ∀ s ∈ strings (mapStrings f j), P s
  | .string s, h => by
    rw [mapStrings, strings]
    intro t ht
    obtain rfl := List.mem_singleton.mp ht
    exact hf s (h s (by rw [strings]; exact List.mem_singleton_self s))
  | .array items, h => by
    rw [mapStrings, strings]
    rw [strings] at h
    exact stringsItems_mapItems hf items h
  | .object members, h => by
    rw [mapStrings, strings]
    rw [strings] at h
    exact stringsMembers_mapMembers hf members h
  | .null, h => by rwa [mapStrings]
  | .bool _, h => by rwa [mapStrings]
  | .integer _, h => by rwa [mapStrings]
  | .real _, h => by rwa [mapStrings]

theorem stringsItems_mapItems (hf : ∀ s, P s → P (f s)) :
    ∀ items : List Json, (∀ s ∈ stringsItems items, P s) →
      ∀ s ∈ stringsItems (mapItems f items), P s
  | [], h => by rwa [mapItems]
  | x :: rest, h => by
    rw [stringsItems] at h
    rw [mapItems, stringsItems]
    intro s hs
    rcases List.mem_append.mp hs with hs | hs
    · exact strings_mapStrings hf x (fun t ht => h t (List.mem_append_left _ ht)) s hs
    · exact stringsItems_mapItems hf rest (fun t ht => h t (List.mem_append_right _ ht)) s hs

theorem stringsMembers_mapMembers (hf : ∀ s, P s → P (f s)) :
    ∀ members : List (Bytes × Json), (∀ s ∈ stringsMembers members, P s) →
      ∀ s ∈ stringsMembers (mapMembers f members), P s
  | [], h => by rwa [mapMembers]
  | (k, v) :: rest, h => by
    rw [stringsMembers] at h
    rw [mapMembers, stringsMembers]
    intro s hs
    rcases List.mem_append.mp hs with hs | hs
    · rcases List.mem_cons.mp hs with rfl | hs
      · exact h s (List.mem_append_left _ List.mem_cons_self)
      · exact strings_mapStrings hf v
          (fun t ht => h t (List.mem_append_left _ (List.mem_cons_of_mem _ ht))) s hs
    · exact stringsMembers_mapMembers hf rest (fun t ht => h t (List.mem_append_right _ ht)) s hs

end

end Closed

variable {f}

mutual

theorem wellFormed_mapStrings (hf : ∀ s, Char.ofNat 0 ∉ s → Char.ofNat 0 ∉ f s) :
    ∀ j : Json, wellFormed j = true → wellFormed (mapStrings f j) = true
  | .string s, h => by
    rw [mapStrings, wellFormed, decide_eq_true_eq]
    rw [wellFormed, decide_eq_true_eq] at h
    exact hf s h
  | .array items, h => by
    rw [wellFormed] at h
    rw [mapStrings, wellFormed]
    exact wellFormedItems_mapItems hf items h
  | .object members, h => by
    rw [wellFormed, Bool.and_eq_true] at h
    rw [mapStrings, wellFormed, Bool.and_eq_true, map_fst_mapMembers]
    exact ⟨wellFormedMembers_mapMembers hf members h.1, h.2⟩
  | .null, h => by rwa [mapStrings]
  | .bool _, h => by rwa [mapStrings]
  | .integer _, h => by rwa [mapStrings]
  | .real _, h => by rwa [mapStrings]

theorem wellFormedItems_mapItems (hf : ∀ s, Char.ofNat 0 ∉ s → Char.ofNat 0 ∉ f s) :
    ∀ items : List Json, wellFormedItems items = true → wellFormedItems (mapItems f items) = true
  | [], h => by rwa [mapItems]
  | x :: rest, h => by
    rw [wellFormedItems, Bool.and_eq_true] at h
    rw [mapItems, wellFormedItems, Bool.and_eq_true]
    exact ⟨wellFormed_mapStrings hf x h.1, wellFormedItems_mapItems hf rest h.2⟩

theorem wellFormedMembers_mapMembers (hf : ∀ s, Char.ofNat 0 ∉ s → Char.ofNat 0 ∉ f s) :
    ∀ members : List (Bytes × Json), wellFormedMembers members = true →
      wellFormedMembers (mapMembers f members) = true
  | [], h => by rwa [mapMembers]
  | (k, v) :: rest, h => by
    rw [wellFormedMembers, Bool.and_eq_true, Bool.and_eq_true] at h
    rw [mapMembers, wellFormedMembers, Bool.and_eq_true, Bool.and_eq_true]
    exact ⟨⟨h.1.1, wellFormed_mapStrings hf v h.1.2⟩, wellFormedMembers_mapMembers hf rest h.2⟩

end

/-- A readable tree stays readable. -/
theorem readable_mapStrings (hf : ∀ s, Char.ofNat 0 ∉ s → Char.ofNat 0 ∉ f s) {j : Json}
    (h : Readable j) : Readable (mapStrings f j) where
  document := (isDocument_mapStrings f j).trans h.document
  wellFormed := wellFormed_mapStrings hf j h.wellFormed
  depth_le := (depth_mapStrings f j).trans_le h.depth_le

end Aigate.JsonMap
