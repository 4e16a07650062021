import Aigate.JsonEdit

/-!
# JSON text with sorted keys

The serialiser can write the members of every object by ascending key. What it writes then
does not depend on the order in which the members of a document were set.
-/
namespace Aigate.JsonSort
open Text JsonTree JsonText JsonRoundtrip JsonEdit

/-- Members by ascending key. -/
def sortMembers (members : List (Bytes × Json)) : List (Bytes × Json) :=
  members.insertionSort fun m n => m.1 ≤ n.1

mutual

/-- The tree with the members of its objects sorted. -/
def sortKeys : Json → Json
  | .null => .null
  | .bool b => .bool b
  | .integer n => .integer n
  | .real x => .real x
  | .string s => .string s
  | .array items => .array (sortItems items)
  | .object members => .object (sortMembers (sortValues members))

def sortItems : List Json → List Json
  | [] => []
  | x :: rest => sortKeys x :: sortItems rest

def sortValues : List (Bytes × Json) → List (Bytes × Json)
  | [] => []
  | (k, v) :: rest => (k, sortKeys v) :: sortValues rest

end

/-- `json_dumps` with the compact flag and sorted keys. -/
def dumpsSorted (j : Json) : Bytes := dumps (sortKeys j)

theorem sortMembers_perm (members : List (Bytes × Json)) : (sortMembers members).Perm members :=
  List.perm_insertionSort _ members

theorem sortMembers_sorted (members : List (Bytes × Json)) :
    (sortMembers members).Pairwise fun m n => m.1 ≤ n.1 := by
  have : Std.Total fun m n : Bytes × Json => m.1 ≤ n.1 := ⟨fun m n => le_total m.1 n.1⟩
  have : IsTrans (Bytes × Json) fun m n => m.1 ≤ n.1 := ⟨fun _ _ _ h h' => le_trans h h'⟩
  exact List.pairwise_insertionSort _ members

/-- Members with distinct keys are sorted in one way. -/
theorem eq_of_sorted {ms ns : List (Bytes × Json)} (h : ms.Perm ns)
    (hkeys : (ms.map Prod.fst).Nodup) (hms : ms.Pairwise fun m n => m.1 ≤ n.1)
    (hns : ns.Pairwise fun m n => m.1 ≤ n.1) : ms = ns := by
  refine h.eq_of_pairwise (fun m n hm hn hle hge => ?_) hms hns
  exact List.inj_on_of_nodup_map hkeys hm (h.mem_iff.mpr hn) (le_antisymm hle hge)

theorem sortValues_eq (members : List (Bytes × Json)) :
    sortValues members = members.map fun m => (m.1, sortKeys m.2) := by
  induction members with
  | nil => rfl
  | cons m rest ih => rw [sortValues, ih, List.map_cons]

theorem map_fst_sortValues (members : List (Bytes × Json)) :
    (sortValues members).map Prod.fst = members.map Prod.fst := by
  rw [sortValues_eq, List.map_map]
  rfl

theorem keys_sortMembers (members : List (Bytes × Json)) :
    ((sortMembers (sortValues members)).map Prod.fst).Perm (members.map Prod.fst) := by
  have h := (sortMembers_perm (sortValues members)).map Prod.fst
  rwa [map_fst_sortValues] at h

theorem wellFormedMembers_iff {members : List (Bytes × Json)} :
    wellFormedMembers members = true ↔
      ∀ m ∈ members, Char.ofNat 0 ∉ m.1 ∧ wellFormed m.2 = true := by
  induction members with
  | nil => simp [wellFormedMembers]
  | cons m rest ih => simp [wellFormedMembers, ih, and_assoc]

theorem depthMembers_le_iff {members : List (Bytes × Json)} {n : ℕ} :
    depthMembers members ≤ n ↔ ∀ m ∈ members, depth m.2 ≤ n := by
  induction members with
  | nil => simp [depthMembers]
  | cons m rest ih => simp [depthMembers, ih]

theorem mem_stringsMembers_iff {members : List (Bytes × Json)} {s : Bytes} :
    s ∈ stringsMembers members ↔ ∃ m ∈ members, s = m.1 ∨ s ∈ strings m.2 := by
  induction members with
  | nil => simp [stringsMembers]
  | cons m rest ih =>
    obtain ⟨k, v⟩ := m
    simp [stringsMembers, ih, or_assoc]

theorem mem_sortMembers {members : List (Bytes × Json)} {m : Bytes × Json}
    (h : m ∈ sortMembers (sortValues members)) : m ∈ sortValues members :=
  (sortMembers_perm _).mem_iff.mp h

mutual

theorem wellFormed_sortKeys : ∀ j : Json, wellFormed j = true → wellFormed (sortKeys j) = true
  | .null, h => h
  | .bool _, h => h
  | .integer _, h => h
  | .real _, h => h
  | .string _, h => h
  | .array items, h => wellFormedItems_sortItems items h
  | .object members, h => by
    rw [wellFormed, Bool.and_eq_true, decide_eq_true_eq] at h
    rw [sortKeys, wellFormed, Bool.and_eq_true, decide_eq_true_eq, wellFormedMembers_iff]
    refine ⟨fun m hm => ?_, (keys_sortMembers members).nodup_iff.mpr h.2⟩
    exact wellFormedMembers_iff.mp (wellFormedMembers_sortValues members h.1) m (mem_sortMembers hm)

theorem wellFormedItems_sortItems : ∀ items : List Json, wellFormedItems items = true →
    wellFormedItems (sortItems items) = true
  | [], h => h
  | x :: rest, h => by
    rw [wellFormedItems, Bool.and_eq_true] at h
    rw [sortItems, wellFormedItems, wellFormed_sortKeys x h.1, wellFormedItems_sortItems rest h.2]
    rfl

theorem wellFormedMembers_sortValues : ∀ members : List (Bytes × Json),
    wellFormedMembers members = true → wellFormedMembers (sortValues members) = true
  | [], h => h
  | (k, v) :: rest, h => by
    rw [wellFormedMembers, Bool.and_eq_true, Bool.and_eq_true] at h
    rw [sortValues, wellFormedMembers, h.1.1, wellFormed_sortKeys v h.1.2,
      wellFormedMembers_sortValues rest h.2]
    rfl

end

mutual

theorem depth_sortKeys : ∀ j : Json, depth (sortKeys j) ≤ depth j
  | .null => le_rfl
  | .bool _ => le_rfl
  | .integer _ => le_rfl
  | .real _ => le_rfl
  | .string _ => le_rfl
  | .array items => by
    rw [sortKeys, depth, depth]
    exact Nat.succ_le_succ (depthItems_sortItems items)
  | .object members => by
    rw [sortKeys, depth, depth, Nat.add_le_add_iff_right, depthMembers_le_iff]
    intro m hm
    exact depthMembers_le_iff.mp (depthMembers_sortValues members) m (mem_sortMembers hm)

theorem depthItems_sortItems : ∀ items : List Json, depthItems (sortItems items) ≤ depthItems items
  | [] => le_rfl
  | x :: rest => by
    rw [sortItems, depthItems, depthItems]
    exact max_le_max (depth_sortKeys x) (depthItems_sortItems rest)

theorem depthMembers_sortValues : ∀ members : List (Bytes × Json),
    depthMembers (sortValues members) ≤ depthMembers members
  | [] => le_rfl
  | (_, v) :: rest => by
    rw [sortValues, depthMembers, depthMembers]
    exact max_le_max (depth_sortKeys v) (depthMembers_sortValues rest)

end

/-- Sorting the keys keeps a document readable. -/
theorem readable_sortKeys {j : Json} (h : Readable j) : Readable (sortKeys j) where
  document := by
    have hdoc := h.document
    cases j <;> exact hdoc
  wellFormed := wellFormed_sortKeys j h.wellFormed
  depth_le := (depth_sortKeys j).trans h.depth_le

mutual

theorem mem_strings_sortKeys : ∀ (j : Json) {s : Bytes}, s ∈ strings (sortKeys j) → s ∈ strings j
  | .null, _, h => h
  | .bool _, _, h => h
  | .integer _, _, h => h
  | .real _, _, h => h
  | .string _, _, h => h
  | .array items, _, h => mem_strings_sortItems items h
  | .object members, s, h => by
    rw [sortKeys, strings, mem_stringsMembers_iff] at h
    obtain ⟨m, hm, hs⟩ := h
    refine mem_strings_sortValues members (mem_stringsMembers_iff.mpr ⟨m, ?_, hs⟩)
    exact mem_sortMembers hm

theorem mem_strings_sortItems : ∀ (items : List Json) {s : Bytes},
    s ∈ stringsItems (sortItems items) → s ∈ stringsItems items
  | [], _, h => h
  | x :: rest, _, h => by
    rw [sortItems, stringsItems] at h
    rcases List.mem_append.mp h with h | h
    · exact List.mem_append_left _ (mem_strings_sortKeys x h)
    · exact List.mem_append_right _ (mem_strings_sortItems rest h)

theorem mem_strings_sortValues : ∀ (members : List (Bytes × Json)) {s : Bytes},
    s ∈ stringsMembers (sortValues members) → s ∈ stringsMembers members
  | [], _, h => h
  | (k, v) :: rest, _, h => by
    rw [sortValues, stringsMembers, List.cons_append] at h
    rw [stringsMembers, List.cons_append]
    rcases List.mem_cons.mp h with rfl | h
    · exact List.mem_cons_self
    · refine List.mem_cons_of_mem _ ?_
      rcases List.mem_append.mp h with h | h
      · exact List.mem_append_left _ (mem_strings_sortKeys v h)
      · exact List.mem_append_right _ (mem_strings_sortValues rest h)

end

theorem sortValues_sortMembers (members : List (Bytes × Json)) :
    sortValues (sortMembers members) = sortMembers (sortValues members) := by
  rw [sortValues_eq, sortValues_eq]
  exact List.map_insertionSort _ _ _ _ fun _ _ _ _ => Iff.rfl

theorem sortMembers_idem (members : List (Bytes × Json)) :
    sortMembers (sortMembers members) = sortMembers members :=
  (sortMembers_sorted members).insertionSort_eq

mutual

theorem sortKeys_idem : ∀ j : Json, sortKeys (sortKeys j) = sortKeys j
  | .null => rfl
  | .bool _ => rfl
  | .integer _ => rfl
  | .real _ => rfl
  | .string _ => rfl
  | .array items => congrArg Json.array (sortItems_idem items)
  | .object members => by
    rw [sortKeys, sortKeys, sortValues_sortMembers, sortValues_idem, sortMembers_idem]

theorem sortItems_idem : ∀ items : List Json, sortItems (sortItems items) = sortItems items
  | [] => rfl
  | x :: rest => by rw [sortItems, sortItems, sortKeys_idem, sortItems_idem]

theorem sortValues_idem : ∀ members : List (Bytes × Json),
    sortValues (sortValues members) = sortValues members
  | [] => rfl
  | (k, v) :: rest => by rw [sortValues, sortValues, sortKeys_idem, sortValues_idem]

end

theorem erase_eq_filter (members : List (Bytes × Json)) (key : Bytes) :
    erase members key = members.filter (·.1 ≠ key) := by
  induction members with
  | nil => rfl
  | cons m rest ih =>
    by_cases h : m.1 = key
    · rw [List.filter_cons_of_neg (by simpa using h), ← ih]
      simp [erase, h]
    · rw [List.filter_cons_of_pos (by simpa using h), ← ih]
      simp [erase, h]

/-- Removing a member before and after the keys are sorted. -/
theorem sortKeys_del {j : Json} (h : wellFormed j = true) (key : String) :
    sortKeys (j.del key) = (sortKeys j).del key := by
  cases j with
  | object members =>
    rw [wellFormed, Bool.and_eq_true, decide_eq_true_eq] at h
    have hvalues : sortValues (erase members (ascii key)) = erase (sortValues members) (ascii key) := by
      rw [erase_eq_filter, erase_eq_filter, sortValues_eq, sortValues_eq, List.filter_map]
      rfl
    have hkeys : ((sortValues members).map Prod.fst).Nodup := by
      rw [map_fst_sortValues]
      exact h.2
    rw [Json.del, sortKeys, sortKeys, Json.del, hvalues, erase_eq_filter, erase_eq_filter]
    have hperm := (sortMembers_perm (sortValues members)).filter (·.1 ≠ ascii key)
    refine congrArg Json.object (eq_of_sorted ?_ ?_ (sortMembers_sorted _) ?_)
    · exact (sortMembers_perm _).trans hperm.symm
    · have hsub := (List.filter_sublist (p := (·.1 ≠ ascii key)) (l := sortValues members)).map Prod.fst
      exact ((sortMembers_perm _).map Prod.fst).nodup_iff.mpr (hkeys.sublist hsub)
    · exact (sortMembers_sorted (sortValues members)).filter _
  | _ => rfl

theorem lookup_perm {ms ns : List (Bytes × Json)} (h : ms.Perm ns)
    (hkeys : (ms.map Prod.fst).Nodup) (key : Bytes) : lookup ms key = lookup ns key := by
  induction h with
  | nil => rfl
  | cons m _ ih => rw [lookup, lookup, ih (List.nodup_cons.mp hkeys).2]
  | swap m n rest =>
    have hne : n.1 ≠ m.1 := fun hsame => (List.nodup_cons.mp hkeys).1 (hsame ▸ List.mem_cons_self)
    simp only [lookup]
    by_cases hm : m.1 = key
    · rw [if_neg (hm ▸ hne), if_pos hm, if_pos hm]
    · rw [if_neg hm, if_neg hm]
  | trans h _ ih ih' =>
    rw [ih hkeys, ih' ((h.map Prod.fst).nodup_iff.mp hkeys)]

theorem not_mem_keys_of_lookup {members : List (Bytes × Json)} {key : Bytes}
    (h : lookup members key = none) : key ∉ members.map Prod.fst := by
  induction members with
  | nil => simp
  | cons m rest ih =>
    rw [lookup] at h
    split at h
    · cases h
    · rename_i hne
      rw [List.map_cons, List.mem_cons, not_or]
      exact ⟨Ne.symm hne, ih h⟩

theorem lookup_sortValues (members : List (Bytes × Json)) (key : Bytes) :
    lookup (sortValues members) key = (lookup members key).map sortKeys := by
  induction members with
  | nil => rfl
  | cons m rest ih =>
    obtain ⟨k, v⟩ := m
    rw [sortValues, lookup, lookup]
    split
    · rfl
    · exact ih

/-- The members are the same. -/
theorem get_sortKeys {j : Json} (h : wellFormed j = true) (key : String) :
    (sortKeys j).get key = (j.get key).map sortKeys := by
  cases j with
  | object members =>
    rw [wellFormed, Bool.and_eq_true, decide_eq_true_eq] at h
    rw [sortKeys, Json.get, Json.get, ← lookup_sortValues]
    exact lookup_perm (sortMembers_perm _) ((keys_sortMembers members).nodup_iff.mpr h.2) _
  | _ => rfl

/-- The length of a member with its colon and a comma. -/
def memberLength (m : Bytes × Json) : ℕ := (quoted m.1).length + (dumps m.2).length + 2

theorem length_dumpsMembers : ∀ members : List (Bytes × Json),
    (dumpsMembers members).length = (members.map memberLength).sum - 1
  | [] => rfl
  | [(k, v)] => by
    simp only [dumpsMembers, List.length_append, List.length_cons, List.map_cons, List.map_nil,
      List.sum_cons, List.sum_nil, memberLength]
    omega
  | (k, v) :: m :: rest => by
    have hrest := length_dumpsMembers (m :: rest)
    have hpos : 2 ≤ memberLength m := Nat.le_add_left _ _
    simp only [dumpsMembers, List.length_append, List.length_cons, List.map_cons, List.sum_cons,
      memberLength] at hrest hpos ⊢
    omega

mutual

/-- Sorting the keys does not change the length. -/
theorem length_dumps_sortKeys : ∀ j : Json, (dumps (sortKeys j)).length = (dumps j).length
  | .null => rfl
  | .bool _ => rfl
  | .integer _ => rfl
  | .real _ => rfl
  | .string _ => rfl
  | .array items => by
    simp only [sortKeys, dumps, List.length_append, List.length_cons, length_dumpsItems_sortItems]
  | .object members => by
    have hperm := ((sortMembers_perm (sortValues members)).map memberLength).sum_eq
    simp only [sortKeys, dumps, List.length_append, List.length_cons, length_dumpsMembers, hperm,
      sum_memberLength_sortValues]

theorem length_dumpsItems_sortItems : ∀ items : List Json,
    (dumpsItems (sortItems items)).length = (dumpsItems items).length
  | [] => rfl
  | [x] => length_dumps_sortKeys x
  | x :: y :: rest => by
    have hrest := length_dumpsItems_sortItems (y :: rest)
    rw [sortItems] at hrest
    rw [sortItems, sortItems, dumpsItems, dumpsItems, List.length_append, List.length_append,
      List.length_cons, List.length_cons, length_dumps_sortKeys, hrest]

theorem sum_memberLength_sortValues : ∀ members : List (Bytes × Json),
    ((sortValues members).map memberLength).sum = (members.map memberLength).sum
  | [] => rfl
  | (k, v) :: rest => by
    rw [sortValues, List.map_cons, List.map_cons, List.sum_cons, List.sum_cons,
      sum_memberLength_sortValues, memberLength, memberLength, length_dumps_sortKeys]

end

/-- The comma that the first member of an object is written without. -/
def noComma : Json → ℕ
  | .object [] => 1
  | _ => 0

/-- A new member takes its text, and a comma if it is not the first. -/
theorem length_dumps_set {root : Json} {key : String} (hobject : root.isObject = true)
    (hkey : root.get key = none) (v : Json) : (dumps (root.set key v)).length + noComma root =
      (dumps root).length + memberLength (ascii key, v) := by
  cases root with
  | object members =>
    have hnew : ascii key ∉ members.map Prod.fst := not_mem_keys_of_lookup hkey
    rw [Json.set, assign_append v hnew]
    simp only [dumps, List.length_append, List.length_cons, length_dumpsMembers, List.map_append,
      List.sum_append, List.map_cons, List.sum_cons, List.map_nil, List.sum_nil]
    cases members with
    | nil =>
      simp only [noComma, memberLength, List.map_nil, List.sum_nil]
      omega
    | cons m rest =>
      simp only [noComma, memberLength, List.map_cons, List.sum_cons]
      omega
  | _ => cases hobject

end Aigate.JsonSort
