import Mathlib

/-!
# Tables with linear probing

A table of `n` slots is searched from the place that a hash gives, slot after slot and
around the end, for the first slot that is free or holds the key. Every entry of a table
that only grows, or is cleared as a whole, is the one that the search for its key finds.
-/
namespace Aigate.ProbeTable

variable {α κ : Type*} {n : ℕ}

abbrev Table (α : Type*) (n : ℕ) := Fin n → Option α

/-- The entries in the order of the slots. -/
@[irreducible] def entries (t : Table α n) : List α := (List.finRange n).filterMap t

theorem entries_update_some (t : Table α n) (i : Fin n) (b : α) :
    (entries (Function.update t i (some b))).Perm (b :: entries (Function.update t i none)) := by
  obtain ⟨before, after, hsplit⟩ := List.append_of_mem (List.mem_finRange i)
  have hnd := List.nodup_finRange n
  rw [hsplit] at hnd
  have hbefore : i ∉ before := fun hi =>
    (List.nodup_append.mp hnd).2.2 i hi i (List.mem_cons_self ..) rfl
  have hafter : i ∉ after := (List.nodup_cons.mp (List.nodup_append.mp hnd).2.1).1
  have hsame : ∀ (v : Option α) (l : List (Fin n)), i ∉ l →
      l.filterMap (Function.update t i v) = l.filterMap t := by
    intro v l hl
    apply List.filterMap_congr
    intro j hj
    exact Function.update_of_ne (fun he => hl (by rwa [he] at hj)) _ _
  unfold entries
  rw [hsplit, List.filterMap_append, List.filterMap_append, hsame _ _ hbefore, hsame _ _ hbefore,
    List.filterMap_cons_some (Function.update_self i (some b) t),
    List.filterMap_cons_none (Function.update_self i none t), hsame _ _ hafter, hsame _ _ hafter]
  exact List.perm_middle

theorem entries_take_out {t : Table α n} {i : Fin n} {a : α} (h : t i = some a) :
    (entries t).Perm (a :: entries (Function.update t i none)) := by
  have hself : Function.update t i (some a) = t := by rw [← h, Function.update_eq_self]
  calc entries t = entries (Function.update t i (some a)) := by rw [hself]
    List.Perm _ _ := entries_update_some t i a

/-- A new entry in a free slot. -/
theorem entries_insert {t : Table α n} {i : Fin n} (h : t i = none) (b : α) :
    (entries (Function.update t i (some b))).Perm (b :: entries t) := by
  have hself : Function.update t i none = t := by rw [← h, Function.update_eq_self]
  simpa [hself] using entries_update_some t i b

theorem mem_entries {t : Table α n} {a : α} : a ∈ entries t ↔ ∃ i, t i = some a := by
  unfold entries
  simp

theorem entries_eq_nil {t : Table α n} : entries t = [] ↔ ∀ i, t i = none := by
  unfold entries
  simp [List.filterMap_eq_nil_iff]

theorem length_entries_full {t : Table α n} (h : ∀ i, (t i).isSome = true) :
    (entries t).length = n := by
  rw [entries, List.length_filterMap_eq_countP, List.countP_eq_length.mpr fun i _ => h i,
    List.length_finRange]

/-- A table with fewer entries than slots has a free slot. -/
theorem exists_free {t : Table α n} (h : (entries t).length < n) : ∃ i, t i = none := by
  by_contra hfull
  have hsome : ∀ i, (t i).isSome = true := fun i =>
    Option.isSome_iff_ne_none.mpr fun hi => hfull ⟨i, hi⟩
  rw [length_entries_full hsome] at h
  exact lt_irrefl n h

variable [NeZero n] [DecidableEq κ]

/-- The slots in the order in which they are searched. -/
def probe (n : ℕ) [NeZero n] (start : ℕ) : List (Fin n) :=
  (List.range n).map fun i => Fin.ofNat n (start + i)

/-- A slot that is free or holds the key. -/
def fits (key : α → κ) (k : κ) : Option α → Bool
  | none => true
  | some a => key a = k

def find (key : α → κ) (start : ℕ) (t : Table α n) (k : κ) : Option (Fin n) :=
  (probe n start).find? fun i => fits key k (t i)

/-- Every entry is found where it is. -/
def Placed (key : α → κ) (hash : κ → ℕ) (t : Table α n) : Prop :=
  ∀ i a, t i = some a → find key (hash (key a)) t (key a) = some i

theorem mem_probe (start : ℕ) (i : Fin n) : i ∈ probe n start := by
  have hn : 0 < n := Nat.pos_of_ne_zero (NeZero.ne n)
  rw [probe, List.mem_map]
  refine ⟨(i + (n - start % n)) % n, List.mem_range.mpr (Nat.mod_lt _ hn), ?_⟩
  apply Fin.ext
  rw [Fin.val_ofNat, Nat.add_mod_mod, ← Nat.mod_add_mod]
  have hlt := Nat.mod_lt start hn
  rw [show start % n + (i + (n - start % n)) = i + n by omega, Nat.add_mod_right,
    Nat.mod_eq_of_lt i.isLt]

theorem find_some {key : α → κ} {start : ℕ} {t : Table α n} {k : κ} {i : Fin n}
    (h : find key start t k = some i) : fits key k (t i) = true :=
  List.find?_some (p := fun i => fits key k (t i)) h

/-- The search depends on the slots only through what it tests of them. -/
theorem find_congr {key : α → κ} {start : ℕ} {t t' : Table α n} {k : κ}
    (h : ∀ i, fits key k (t i) = fits key k (t' i)) :
    find key start t k = find key start t' k := by
  unfold find
  congr 1
  funext i
  exact h i

/-- A search ends at its first hit. -/
theorem find_eq_iff {key : α → κ} {start : ℕ} {t : Table α n} {k : κ} {i : Fin n} :
    find key start t k = some i ↔ fits key k (t i) = true ∧
      ∃ before after, probe n start = before ++ i :: after ∧
        ∀ j ∈ before, fits key k (t j) = false := by
  unfold find
  rw [List.find?_eq_some_iff_append]
  simp

/-- The slots that a search goes past, and the one at which it ends. -/
theorem find_steps {key : α → κ} {start : ℕ} {t : Table α n} {k : κ} {i : Fin n}
    (h : find key start t k = some i) :
    ∃ s < n, (i : ℕ) = (start + s) % n ∧
      ∀ s' < s, fits key k (t (Fin.ofNat n (start + s'))) = false := by
  rw [find, probe, List.find?_map, Option.map_eq_some_iff] at h
  obtain ⟨s, hs, rfl⟩ := h
  rw [List.find?_range_eq_some] at hs
  obtain ⟨-, hmem, hmiss⟩ := hs
  refine ⟨s, List.mem_range.mp hmem, rfl, fun s' hs' => ?_⟩
  simpa using hmiss s' hs'

/-- A search that finds nothing has seen a full table without the key. -/
theorem find_none {key : α → κ} {start : ℕ} {t : Table α n} {k : κ}
    (h : find key start t k = none) (i : Fin n) : ∃ a, t i = some a ∧ key a ≠ k := by
  have hi := List.find?_eq_none.mp h i (mem_probe start i)
  cases hslot : t i with
  | none => simp [hslot, fits] at hi
  | some a => exact ⟨a, rfl, by simpa [hslot, fits] using hi⟩

theorem Placed.empty (key : α → κ) (hash : κ → ℕ) : Placed key hash (fun _ : Fin n => none) := by
  intro i a h
  cases h

/-- Two entries of a table whose entries are found where they are have different keys. -/
theorem Placed.keys_nodup {key : α → κ} {hash : κ → ℕ} {t : Table α n}
    (h : Placed key hash t) : ((entries t).map key).Nodup := by
  unfold entries
  rw [List.map_filterMap]
  refine List.Nodup.filterMap ?_ (List.nodup_finRange n)
  intro i j k hi hj
  simp only [Option.mem_def, Option.map_eq_some_iff] at hi hj
  obtain ⟨a, ha, rfl⟩ := hi
  obtain ⟨b, hb, hkey⟩ := hj
  have hfind := h j b hb
  rw [hkey, h i a ha] at hfind
  exact Option.some.inj hfind

/-- A table with room for one more key has a slot for it. -/
theorem Placed.find_isSome {key : α → κ} {hash : κ → ℕ} {t : Table α n}
    (h : Placed key hash t) {k : κ} (start : ℕ)
    (hroom : (k :: (entries t).map key).toFinset.card ≤ n) : ∃ i, find key start t k = some i := by
  cases hfind : find key start t k with
  | some i => exact ⟨i, rfl⟩
  | none =>
    have hfull := fun i => find_none hfind i
    have hlen : (entries t).length = n := by
      refine length_entries_full fun i => ?_
      obtain ⟨a, ha, -⟩ := hfull i
      simp [ha]
    have hfresh : k ∉ (entries t).map key := by
      rw [List.mem_map]
      rintro ⟨a, ha, rfl⟩
      obtain ⟨i, hi⟩ := mem_entries.mp ha
      obtain ⟨b, hb, hne⟩ := hfull i
      rw [hi] at hb
      exact hne (congrArg key (Option.some.inj hb).symm)
    rw [List.toFinset_card_of_nodup (List.nodup_cons.mpr ⟨hfresh, h.keys_nodup⟩),
      List.length_cons, List.length_map, hlen] at hroom
    omega

/-- Merging into the slot of the key moves nothing. -/
theorem Placed.replace {key : α → κ} {hash : κ → ℕ} {t : Table α n} (h : Placed key hash t)
    {i : Fin n} {a b : α} (hi : t i = some a) (hkey : key b = key a) :
    Placed key hash (Function.update t i (some b)) := by
  have hsame : ∀ k j, fits key k (Function.update t i (some b) j) = fits key k (t j) := by
    intro k j
    by_cases hj : j = i
    · subst hj
      rw [Function.update_self, hi]
      simp [fits, hkey]
    · rw [Function.update_of_ne hj]
  intro j c hj
  rw [find_congr (hsame _)]
  by_cases hij : j = i
  · subst hij
    rw [Function.update_self] at hj
    obtain rfl := Option.some.inj hj
    rw [hkey]
    exact h j a hi
  · rw [Function.update_of_ne hij] at hj
    exact h j c hj

/-- An entry in the free slot that the search for its key finds is in nobody's way. -/
theorem Placed.insert {key : α → κ} {hash : κ → ℕ} {t : Table α n} (h : Placed key hash t)
    {i : Fin n} {b : α} (hfind : find key (hash (key b)) t (key b) = some i) (hi : t i = none) :
    Placed key hash (Function.update t i (some b)) := by
  have hother : ∀ k j, j ≠ i → fits key k (Function.update t i (some b) j) = fits key k (t j) :=
    fun k j hj => by rw [Function.update_of_ne hj]
  intro j c hj
  by_cases hij : j = i
  · subst hij
    rw [Function.update_self] at hj
    obtain rfl := Option.some.inj hj
    obtain ⟨-, before, after, hsplit, hmiss⟩ := find_eq_iff.mp hfind
    refine find_eq_iff.mpr ⟨by simp [fits], before, after, hsplit, fun m hm => ?_⟩
    have hne : m ≠ j := by
      rintro rfl
      have := hmiss m hm
      rw [hi] at this
      cases this
    rw [hother _ _ hne]
    exact hmiss m hm
  · rw [Function.update_of_ne hij] at hj
    obtain ⟨hfits, before, after, hsplit, hmiss⟩ := find_eq_iff.mp (h j c hj)
    refine find_eq_iff.mpr ⟨by rwa [hother _ _ hij], before, after, hsplit, fun m hm => ?_⟩
    have hne : m ≠ i := by
      rintro rfl
      have := hmiss m hm
      rw [hi] at this
      cases this
    rw [hother _ _ hne]
    exact hmiss m hm

end Aigate.ProbeTable
