import Aigate.GuardedRuns
import Aigate.ProbeTable

/-!
# The table of the rate limiter

The limiter keeps a bucket for each key in a table with open addressing. A call that finds no
bucket makes one, and doubles the table before that when three quarters of the slots are taken.
The loops are those of the source, which has no bound on them: here they have fuel, and it is
proved that they end.
-/
namespace Aigate.RatelimitTable
open ProbeTable GuardedRuns

/-- What a bucket keeps for its key. The numbers with fractions are exact rationals here. -/
structure Held where
  tokens : ℚ
  capacity : ℚ
  lastRefillNs : UInt64
  dailyUsed : Int64
  dailyReasoningUsed : Int64
  day : Int64
  deriving DecidableEq

structure Bucket where
  keyId : Int64
  held : Held
  deriving DecidableEq

/-- What `memset` leaves. -/
def cleared : Held := ⟨0, 0, 0, 0, 0, 0⟩

/-- The slots, of which one without a bucket is not in use, and the capacity and the count. -/
structure Ratelimit where
  b : ℕ → Option Bucket
  cap : ℕ
  count : ℕ

/-- `ratelimit_new`; `next_pow2` of 16 is 16. -/
def ratelimitNew : Ratelimit := ⟨fun _ => none, 16, 0⟩

def hashId (keyId : Int64) : UInt64 :=
  let x := keyId.toUInt64
  let x := x ^^^ (x >>> 16)
  let x := x * 0x45d9f3b
  x ^^^ (x >>> 16)

/-- The first slot of a key in a table of `cap` slots. -/
def home (keyId : Int64) (cap : ℕ) : ℕ := (hashId keyId).toNat &&& (cap - 1)

def next (idx cap : ℕ) : ℕ := (idx + 1) &&& (cap - 1)

/-- The loop of the rehash that looks for a slot that is not in use. -/
def freeFrom (nb : ℕ → Option Bucket) (ncap : ℕ) : ℕ → ℕ → Option ℕ
  | 0, _ => none
  | fuel + 1, j => if (nb j).isSome then freeFrom nb ncap fuel (next j ncap) else some j

/-- One slot of the old table. -/
def rehashSlot (ncap fuel : ℕ) (nb : ℕ → Option Bucket) : Option Bucket → Option (ℕ → Option Bucket)
  | none => some nb
  | some bt =>
    (freeFrom nb ncap fuel (home bt.keyId ncap)).map fun j => Function.update nb j (some bt)

/-- The buckets of the old table, in the order of its slots, are put in a table of twice the
size. -/
def rehash (rl : Ratelimit) (fuel : ℕ) : Option (ℕ → Option Bucket) :=
  (List.range rl.cap).foldlM (fun nb i => rehashSlot (rl.cap * 2) fuel nb (rl.b i)) fun _ => none

/-- `find_or_make` from a slot on: the table and the slot of the bucket, or no slot when there is
no memory for a larger table. -/
def findOrMakeFrom (keyId : Int64) (granted : Bool) :
    ℕ → Ratelimit → ℕ → Option (Ratelimit × Option ℕ)
  | 0, _, _ => none
  | fuel + 1, rl, idx =>
    match rl.b idx with
    | none =>
      if rl.cap * 3 / 4 ≤ rl.count then
        if granted then
          (rehash rl fuel).bind fun nb =>
            findOrMakeFrom keyId granted fuel { rl with b := nb, cap := rl.cap * 2 }
              (home keyId (rl.cap * 2))
        else some (rl, none)
      else
        some ({ rl with
          b := Function.update rl.b idx (some ⟨keyId, cleared⟩)
          count := rl.count + 1 }, some idx)
    | some bt =>
      if bt.keyId = keyId then some (rl, some idx)
      else findOrMakeFrom keyId granted fuel rl (next idx rl.cap)

/-- Fuel for all loops of a call. -/
def fuelFor (rl : Ratelimit) : ℕ := 4 * rl.cap

def findOrMake (rl : Ratelimit) (keyId : Int64) (granted : Bool) : Option (Ratelimit × Option ℕ) :=
  findOrMakeFrom keyId granted (fuelFor rl) rl (home keyId rl.cap)

/-- A slot of the table. -/
def Ratelimit.At (rl : Ratelimit) (i : ℕ) (bt : Bucket) : Prop := i < rl.cap ∧ rl.b i = some bt

/-- A call of `find_or_make`, and what the caller makes of the bucket. -/
structure Call where
  keyId : Int64
  granted : Bool
  use : Held → Held

/-- The caller writes through the pointer that it got. -/
def Ratelimit.write (rl : Ratelimit) (idx : ℕ) (use : Held → Held) : Ratelimit :=
  { rl with b := Function.update rl.b idx ((rl.b idx).map fun bt => { bt with held := use bt.held }) }

/-- What is kept for each key, whatever the table. -/
abbrev Limits := Int64 → Option Held

/-- What a caller that gets a bucket leaves in it. -/
def Limits.use (m : Limits) (c : Call) : Limits :=
  Function.update m c.keyId (some (c.use ((m c.keyId).getD cleared)))

/-- The limiter, and what the callers that got a bucket left for each key. -/
structure System where
  rl : Ratelimit
  limits : Limits

def System.start : System := ⟨ratelimitNew, fun _ => none⟩

/-- A loop that does not end would leave the table as it was. -/
def System.step (s : System) (c : Call) : System :=
  match findOrMake s.rl c.keyId c.granted with
  | some (rl', some idx) => ⟨rl'.write idx c.use, s.limits.use c⟩
  | some (rl', none) => ⟨rl', s.limits⟩
  | none => s

/-- The table has one bucket for each key that is kept and no other, and a free slot. -/
structure Keeps (rl : Ratelimit) (m : Limits) : Prop where
  held : ∀ keyId h, m keyId = some h ↔ ∃ i, rl.At i ⟨keyId, h⟩
  once : ∀ i j bt bt', rl.At i bt → rl.At j bt' → bt.keyId = bt'.keyId → i = j
  free : ∃ i < rl.cap, rl.b i = none

/-- A call ends whatever fuel it has beyond what it needs, with a bucket of the key if there is
memory, and all buckets are still in the table. -/
structure Ends (rl : Ratelimit) (keyId : Int64) (granted : Bool) (rl' : Ratelimit)
    (slot : Option ℕ) : Prop where
  ends : ∀ fuel ≥ fuelFor rl,
    findOrMakeFrom keyId granted fuel rl (home keyId rl.cap) = some (rl', slot)
  bucket : granted = true → ∃ i h, slot = some i ∧ rl'.At i ⟨keyId, h⟩
  preserved : ∀ bt, (∃ i, rl.At i bt) → ∃ i, rl'.At i bt

structure Good (s : System) : Prop where
  keeps : Keeps s.rl s.limits
  ends : ∀ keyId granted, ∃ rl' slot, Ends s.rl keyId granted rl' slot

section walk
variable {k : ℕ}

theorem home_eq (keyId : Int64) : home keyId (2 ^ k) = (hashId keyId).toNat % 2 ^ k :=
  Nat.and_two_pow_sub_one_eq_mod _ k

theorem next_eq (start : ℕ) : next (start % 2 ^ k) (2 ^ k) = (start + 1) % 2 ^ k := by
  rw [next, Nat.and_two_pow_sub_one_eq_mod, Nat.mod_add_mod]

/-- The search goes from slot to slot past the buckets of other keys. -/
theorem findOrMakeFrom_walk {rl : Ratelimit} (hcap : rl.cap = 2 ^ k) {keyId : Int64} (granted : Bool)
    (fuel : ℕ) {s start : ℕ}
    (hmiss : ∀ s' < s, fits Bucket.keyId keyId (rl.b ((start + s') % rl.cap)) = false) :
    findOrMakeFrom keyId granted (fuel + s) rl (start % rl.cap) =
      findOrMakeFrom keyId granted fuel rl ((start + s) % rl.cap) := by
  induction s generalizing start with
  | zero => rfl
  | succ s ih =>
    have hfirst := hmiss 0 (Nat.succ_pos s)
    rw [Nat.add_zero] at hfirst
    have hrest := ih fun s' hs' => by
      rw [show start + 1 + s' = start + (s' + 1) by omega]
      exact hmiss (s' + 1) (by omega)
    rw [← Nat.add_assoc, findOrMakeFrom]
    cases hslot : rl.b (start % rl.cap) with
    | none =>
      rw [hslot] at hfirst
      cases hfirst
    | some bt =>
      rw [hslot] at hfirst
      have hne : bt.keyId ≠ keyId := by simpa [fits] using hfirst
      dsimp only
      rw [if_neg hne, hcap, next_eq, ← hcap, hrest, show start + 1 + s = start + (s + 1) by omega]

theorem freeFrom_walk {nb : ℕ → Option Bucket} (fuel : ℕ) {s start : ℕ}
    (hused : ∀ s' < s, (nb ((start + s') % 2 ^ k)).isSome = true) :
    freeFrom nb (2 ^ k) (fuel + s) (start % 2 ^ k) =
      freeFrom nb (2 ^ k) fuel ((start + s) % 2 ^ k) := by
  induction s generalizing start with
  | zero => rfl
  | succ s ih =>
    have hfirst := hused 0 (Nat.succ_pos s)
    rw [Nat.add_zero] at hfirst
    have hrest := ih fun s' hs' => by
      rw [show start + 1 + s' = start + (s' + 1) by omega]
      exact hused (s' + 1) (by omega)
    rw [← Nat.add_assoc, freeFrom, if_pos hfirst, next_eq, hrest,
      show start + 1 + s = start + (s + 1) by omega]

theorem freeFrom_mono {nb : ℕ → Option Bucket} {ncap : ℕ} {fuel fuel' : ℕ} (hle : fuel ≤ fuel')
    {j r : ℕ} (h : freeFrom nb ncap fuel j = some r) : freeFrom nb ncap fuel' j = some r := by
  induction fuel generalizing j fuel' with
  | zero => cases h
  | succ fuel ih =>
    obtain ⟨rest, rfl⟩ := Nat.exists_eq_add_of_lt hle
    rw [freeFrom] at h ⊢
    split_ifs at h ⊢
    · exact ih (Nat.le_add_right fuel rest) h
    · exact h

theorem foldlM_mono {σ α : Type*} {f g : σ → α → Option σ}
    (hfg : ∀ s a r, f s a = some r → g s a = some r) {l : List α} {s r : σ}
    (h : l.foldlM f s = some r) : l.foldlM g s = some r := by
  induction l generalizing s with
  | nil => exact h
  | cons a l ih =>
    rw [List.foldlM_cons] at h ⊢
    obtain ⟨s', hs', hrest⟩ := Option.bind_eq_some_iff.mp h
    exact Option.bind_eq_some_iff.mpr ⟨s', hfg _ _ _ hs', ih hrest⟩

theorem rehash_mono {rl : Ratelimit} {fuel fuel' : ℕ} (hle : fuel ≤ fuel') {nb : ℕ → Option Bucket}
    (h : rehash rl fuel = some nb) : rehash rl fuel' = some nb := by
  refine foldlM_mono (fun nb i r hstep => ?_) h
  cases hslot : rl.b i with
  | none => rwa [hslot] at hstep
  | some bt =>
    rw [hslot, rehashSlot, Option.map_eq_some_iff] at hstep
    obtain ⟨j, hj, rfl⟩ := hstep
    rw [rehashSlot, freeFrom_mono hle hj, Option.map_some]

/-- A call that ends does so with any more fuel. -/
theorem findOrMakeFrom_mono {keyId : Int64} {granted : Bool} {fuel fuel' : ℕ} (hle : fuel ≤ fuel')
    {rl : Ratelimit} {idx : ℕ} {r : Ratelimit × Option ℕ}
    (h : findOrMakeFrom keyId granted fuel rl idx = some r) :
    findOrMakeFrom keyId granted fuel' rl idx = some r := by
  induction fuel generalizing rl idx fuel' with
  | zero => cases h
  | succ fuel ih =>
    obtain ⟨rest, rfl⟩ := Nat.exists_eq_add_of_lt hle
    rw [findOrMakeFrom] at h ⊢
    cases hslot : rl.b idx with
    | none =>
      rw [hslot] at h
      dsimp only at h ⊢
      split_ifs at h ⊢ with hfull hgranted
      · obtain ⟨nb, hnb, hrest⟩ := Option.bind_eq_some_iff.mp h
        exact Option.bind_eq_some_iff.mpr ⟨nb, rehash_mono (by omega) hnb, ih (by omega) hrest⟩
      · exact h
      · exact h
    | some bt =>
      rw [hslot] at h
      dsimp only at h ⊢
      split_ifs at h ⊢ with hkey
      · exact h
      · exact ih (by omega) h

end walk

section table
variable {k : ℕ}

def hashNat (keyId : Int64) : ℕ := (hashId keyId).toNat

def slots (k : ℕ) (b : ℕ → Option Bucket) : Table Bucket (2 ^ k) := fun i => b i

/-- The buckets of a table, in the order of the slots. -/
def buckets (k : ℕ) (b : ℕ → Option Bucket) : List Bucket := entries (slots k b)

def keys (k : ℕ) (b : ℕ → Option Bucket) : List Int64 := (buckets k b).map Bucket.keyId

/-- Every bucket is where the search for its key ends. -/
def InPlace (k : ℕ) (b : ℕ → Option Bucket) : Prop := Placed Bucket.keyId hashNat (slots k b)

/-- The slot at which the search for a key ends. -/
def slotOf (k : ℕ) (b : ℕ → Option Bucket) (keyId : Int64) : Option (Fin (2 ^ k)) :=
  find Bucket.keyId (hashNat keyId) (slots k b) keyId

theorem slots_update (b : ℕ → Option Bucket) (i : Fin (2 ^ k)) (v : Option Bucket) :
    slots k (Function.update b i v) = Function.update (slots k b) i v := by
  funext j
  simp [slots, Function.update_apply, Fin.ext_iff]

theorem mem_buckets {b : ℕ → Option Bucket} {bt : Bucket} :
    bt ∈ buckets k b ↔ ∃ i < 2 ^ k, b i = some bt := by
  simp [buckets, mem_entries, slots, Fin.exists_iff]

theorem buckets_eq (b : ℕ → Option Bucket) :
    buckets k b = (List.range (2 ^ k)).filterMap b := by
  rw [buckets, entries, ← List.map_coe_finRange_eq_range, List.filterMap_map]
  rfl

theorem InPlace.slotOf_eq {b : ℕ → Option Bucket} (h : InPlace k b) {i : Fin (2 ^ k)} {bt : Bucket}
    (hi : b i = some bt) : slotOf k b bt.keyId = some i := h i bt hi

theorem InPlace.keys_nodup {b : ℕ → Option Bucket} (h : InPlace k b) : (keys k b).Nodup :=
  Placed.keys_nodup h

theorem InPlace.exists_slotOf {b : ℕ → Option Bucket} (h : InPlace k b) (keyId : Int64)
    (hroom : (buckets k b).length < 2 ^ k) : ∃ i, slotOf k b keyId = some i := by
  refine Placed.find_isSome h _ ((List.toFinset_card_le _).trans ?_)
  rw [List.length_cons, List.length_map]
  exact hroom

/-- A slot at which a search ends has no bucket, or the bucket of the key. -/
theorem slotOf_cases {b : ℕ → Option Bucket} {keyId : Int64} {i : Fin (2 ^ k)}
    (hi : slotOf k b keyId = some i) : b i = none ∨ ∃ held, b i = some ⟨keyId, held⟩ := by
  have hfits : fits Bucket.keyId keyId (b i) = true := find_some hi
  cases hslot : b i with
  | none => exact Or.inl rfl
  | some bt =>
    rw [hslot] at hfits
    have hkey : bt.keyId = keyId := by simpa [fits] using hfits
    subst hkey
    exact Or.inr ⟨bt.held, rfl⟩

/-- A search that ends at a free slot has found no bucket of the key anywhere. -/
theorem InPlace.fresh {b : ℕ → Option Bucket} (h : InPlace k b) {keyId : Int64} {i : Fin (2 ^ k)}
    (hi : slotOf k b keyId = some i) (hfree : b i = none) : keyId ∉ keys k b := by
  intro hmem
  obtain ⟨bt, hbt, rfl⟩ := List.mem_map.mp hmem
  obtain ⟨j, hj, hslot⟩ := mem_buckets.mp hbt
  have hfound := h.slotOf_eq (i := ⟨j, hj⟩) hslot
  obtain rfl := Option.some.inj (hfound.symm.trans hi)
  rw [hslot] at hfree
  cases hfree

theorem InPlace.insert {b : ℕ → Option Bucket} (h : InPlace k b) {bt : Bucket} {i : Fin (2 ^ k)}
    (hi : slotOf k b bt.keyId = some i) (hfree : b i = none) :
    InPlace k (Function.update b i (some bt)) := by
  rw [InPlace, slots_update]
  exact Placed.insert h hi hfree

/-- A bucket is written over, and the others stay. -/
theorem buckets_replace {b : ℕ → Option Bucket} {i : Fin (2 ^ k)} {old : Bucket}
    (hi : b i = some old) (new : Bucket) : ∃ others, (buckets k b).Perm (old :: others) ∧
      (buckets k (Function.update b i (some new))).Perm (new :: others) := by
  refine ⟨entries (Function.update (slots k b) i none), entries_take_out hi, ?_⟩
  rw [buckets, slots_update]
  exact entries_update_some _ _ _

theorem InPlace.replace {b : ℕ → Option Bucket} (h : InPlace k b) {i : Fin (2 ^ k)}
    {old new : Bucket} (hi : b i = some old) (hkey : new.keyId = old.keyId) :
    InPlace k (Function.update b i (some new)) := by
  rw [InPlace, slots_update]
  exact Placed.replace h hi hkey

theorem buckets_insert {b : ℕ → Option Bucket} {i : Fin (2 ^ k)} (hfree : b i = none)
    (bt : Bucket) : (buckets k (Function.update b i (some bt))).Perm (bt :: buckets k b) := by
  rw [buckets, slots_update]
  exact entries_insert hfree bt

end table

section rehash
variable {k : ℕ}

theorem rehashSlot_some {nb : ℕ → Option Bucket} (h : InPlace k nb) {bt : Bucket}
    (hfresh : bt.keyId ∉ keys k nb) (hroom : (buckets k nb).length < 2 ^ k) {fuel : ℕ}
    (hfuel : 2 ^ k ≤ fuel) : ∃ nb', rehashSlot (2 ^ k) fuel nb (some bt) = some nb' ∧
      InPlace k nb' ∧ (buckets k nb').Perm (bt :: buckets k nb) := by
  obtain ⟨i, hi⟩ := h.exists_slotOf bt.keyId hroom
  have hfree : nb i = none := by
    refine (slotOf_cases hi).resolve_right fun ⟨held, hslot⟩ => hfresh ?_
    exact List.mem_map.mpr ⟨_, mem_buckets.mpr ⟨i, i.isLt, hslot⟩, rfl⟩
  obtain ⟨s, hs, heq, hmiss⟩ := find_steps hi
  have hused : ∀ s' < s, (nb ((hashNat bt.keyId + s') % 2 ^ k)).isSome = true := by
    intro s' hs'
    refine Option.isSome_iff_ne_none.mpr fun hnone => ?_
    have hfits := hmiss s' hs'
    rw [slots, Fin.val_ofNat, hnone] at hfits
    cases hfits
  have hend : freeFrom nb (2 ^ k) fuel (home bt.keyId (2 ^ k)) = some (i : ℕ) := by
    obtain ⟨rest, rfl⟩ : ∃ rest, fuel = (rest + 1) + s := ⟨fuel - s - 1, by omega⟩
    rw [home_eq]
    refine (freeFrom_walk (rest + 1) hused).trans ?_
    rw [← heq, freeFrom, hfree]
    rfl
  refine ⟨_, by rw [rehashSlot, hend, Option.map_some], h.insert hi hfree, buckets_insert hfree bt⟩

/-- The buckets go into the new table one after the other. -/
theorem rehashSlot_foldlM {fuel : ℕ} (hfuel : 2 ^ k ≤ fuel) (bts : List Bucket)
    {nb : ℕ → Option Bucket} (h : InPlace k nb)
    (hnodup : ((bts ++ buckets k nb).map Bucket.keyId).Nodup)
    (hroom : bts.length + (buckets k nb).length ≤ 2 ^ k) :
    ∃ nb', bts.foldlM (fun nb bt => rehashSlot (2 ^ k) fuel nb (some bt)) nb = some nb' ∧
      InPlace k nb' ∧ (buckets k nb').Perm (bts ++ buckets k nb) := by
  induction bts generalizing nb with
  | nil => exact ⟨nb, rfl, h, List.Perm.refl _⟩
  | cons bt bts ih =>
    rw [List.length_cons] at hroom
    have hfresh : bt.keyId ∉ keys k nb := fun hmem => by
      rw [List.cons_append, List.map_cons, List.nodup_cons, List.map_append] at hnodup
      exact hnodup.1 (List.mem_append_right _ hmem)
    obtain ⟨nb₁, hstep, hplaced, hperm⟩ := rehashSlot_some h hfresh (by omega) hfuel
    have hmiddle : (bts ++ buckets k nb₁).Perm (bt :: bts ++ buckets k nb) :=
      (hperm.append_left bts).trans List.perm_middle
    have hlength := hperm.length_eq
    rw [List.length_cons] at hlength
    obtain ⟨nb', hrest, hplaced', hperm'⟩ := ih hplaced
      ((hmiddle.map Bucket.keyId).nodup_iff.mpr hnodup) (by omega)
    refine ⟨nb', ?_, hplaced', hperm'.trans hmiddle⟩
    rw [List.foldlM_cons, hstep]
    exact hrest

/-- The slots without a bucket are passed over. -/
theorem foldlM_rehashSlot (ncap fuel : ℕ) (b : ℕ → Option Bucket) (is : List ℕ)
    (nb : ℕ → Option Bucket) :
    is.foldlM (fun nb i => rehashSlot ncap fuel nb (b i)) nb =
      (is.filterMap b).foldlM (fun nb bt => rehashSlot ncap fuel nb (some bt)) nb := by
  rw [List.foldlM_filterMap]
  congr 1
  funext nb i
  cases b i with
  | none => rfl
  | some bt => rfl

theorem inPlace_empty : InPlace k fun _ => none := Placed.empty _ _

theorem buckets_empty : buckets k (fun _ => none) = [] :=
  entries_eq_nil.mpr fun _ => rfl

/-- The larger table has the same buckets. -/
theorem rehash_some {rl : Ratelimit} (hcap : rl.cap = 2 ^ k) (h : InPlace k rl.b)
    (hroom : (buckets k rl.b).length ≤ 2 ^ k) {fuel : ℕ} (hfuel : 2 ^ (k + 1) ≤ fuel) :
    ∃ nb, rehash rl fuel = some nb ∧ InPlace (k + 1) nb ∧
      (buckets (k + 1) nb).Perm (buckets k rl.b) := by
  have hempty : buckets (k + 1) (fun _ => none) = [] := buckets_empty
  have htwice : rl.cap * 2 = 2 ^ (k + 1) := by rw [hcap, pow_succ]
  have hlt : 2 ^ k ≤ 2 ^ (k + 1) := Nat.pow_le_pow_right (by decide) (Nat.le_succ k)
  obtain ⟨nb, hfold, hplaced, hperm⟩ := rehashSlot_foldlM hfuel (buckets k rl.b)
    inPlace_empty (by rw [hempty, List.append_nil]; exact h.keys_nodup)
    (by rw [hempty, List.length_nil]; omega)
  rw [hempty, List.append_nil] at hperm
  refine ⟨nb, ?_, hplaced, hperm⟩
  rw [rehash, htwice, foldlM_rehashSlot, hcap, ← buckets_eq]
  exact hfold

end rehash

/-- The table between two calls: at most three quarters of the slots are taken. -/
structure Inv (k : ℕ) (rl : Ratelimit) : Prop where
  cap : rl.cap = 2 ^ k
  inPlace : InPlace k rl.b
  count : rl.count = (buckets k rl.b).length
  room : rl.count ≤ 2 ^ k * 3 / 4

/-- A call found the bucket of its key in a slot, or made it there, and changed no other. -/
structure Gives (k k' : ℕ) (rl rl' : Ratelimit) (keyId : Int64) (idx : ℕ) (h : Held) : Prop where
  inv : Inv k' rl'
  slot : rl'.At idx ⟨keyId, h⟩
  others : ∀ bt, bt.keyId ≠ keyId → (bt ∈ buckets k' rl'.b ↔ bt ∈ buckets k rl.b)
  kept : ⟨keyId, h⟩ ∈ buckets k rl.b ∨ h = cleared ∧ keyId ∉ keys k rl.b

section call
variable {k : ℕ} {rl : Ratelimit}

theorem inv_new : Inv 4 ratelimitNew :=
  ⟨rfl, inPlace_empty, by rw [ratelimitNew, buckets_empty]; rfl, Nat.zero_le _⟩

theorem Inv.buckets_lt (h : Inv k rl) : (buckets k rl.b).length < 2 ^ k := by
  have hroom := h.room
  have hpos := Nat.two_pow_pos k
  rw [h.count] at hroom
  omega

/-- The search of the source goes to the slot of the key. -/
theorem Inv.findOrMakeFrom_slotOf (h : Inv k rl) {keyId : Int64} {i : Fin (2 ^ k)}
    (hi : slotOf k rl.b keyId = some i) (granted : Bool) : ∃ s < 2 ^ k, ∀ fuel,
      findOrMakeFrom keyId granted (fuel + s) rl (home keyId rl.cap) =
        findOrMakeFrom keyId granted fuel rl i := by
  obtain ⟨s, hs, heq, hmiss⟩ := find_steps hi
  refine ⟨s, hs, fun fuel => ?_⟩
  have hhome : home keyId rl.cap = hashNat keyId % rl.cap := by rw [h.cap, home_eq, hashNat]
  rw [hhome, findOrMakeFrom_walk h.cap granted fuel, h.cap, ← heq]
  intro s' hs'
  rw [h.cap]
  exact hmiss s' hs'

theorem Inv.gives_found (h : Inv k rl) {keyId : Int64} {i : Fin (2 ^ k)} {held : Held}
    (hslot : rl.b i = some ⟨keyId, held⟩) : Gives k k rl rl keyId i held where
  inv := h
  slot := ⟨i.isLt.trans_eq h.cap.symm, hslot⟩
  others := fun _ _ => Iff.rfl
  kept := Or.inl (mem_buckets.mpr ⟨i, i.isLt, hslot⟩)

/-- A bucket is made in the free slot at which the search ends. -/
theorem Inv.gives_made (h : Inv k rl) {keyId : Int64} {i : Fin (2 ^ k)}
    (hi : slotOf k rl.b keyId = some i) (hfree : rl.b i = none) (hroom : rl.count < 2 ^ k * 3 / 4) :
    Gives k k rl ⟨Function.update rl.b i (some ⟨keyId, cleared⟩), rl.cap, rl.count + 1⟩ keyId i
      cleared := by
  have hperm := buckets_insert hfree ⟨keyId, cleared⟩
  refine ⟨⟨h.cap, h.inPlace.insert hi hfree, ?_, hroom⟩, ⟨i.isLt.trans_eq h.cap.symm, ?_⟩, fun bt hbt => ?_,
    Or.inr ⟨rfl, h.inPlace.fresh hi hfree⟩⟩
  · rw [hperm.length_eq, List.length_cons, h.count]
  · exact Function.update_self _ _ _
  · rw [hperm.mem_iff, List.mem_cons, or_iff_right]
    intro heq
    rw [heq] at hbt
    exact hbt rfl

/-- The table after the rehash of a call. -/
theorem Inv.rehashed (h : Inv k rl) {fuel : ℕ} (hfuel : 2 ^ (k + 1) ≤ fuel) :
    ∃ nb, rehash rl fuel = some nb ∧ Inv (k + 1) ⟨nb, rl.cap * 2, rl.count⟩ ∧
      (buckets (k + 1) nb).Perm (buckets k rl.b) := by
  obtain ⟨nb, hrehash, hplaced, hperm⟩ := rehash_some h.cap h.inPlace h.buckets_lt.le hfuel
  have hroom := h.room
  refine ⟨nb, hrehash, ⟨?_, hplaced, ?_, ?_⟩, hperm⟩
  · rw [h.cap, pow_succ]
  · rw [hperm.length_eq]
    exact h.count
  · rw [pow_succ]
    dsimp only
    omega

theorem Gives.of_perm {k₁ k' : ℕ} {rl₁ rl' : Ratelimit} {keyId : Int64} {idx : ℕ} {held : Held}
    (hperm : (buckets k₁ rl₁.b).Perm (buckets k rl.b)) (h : Gives k₁ k' rl₁ rl' keyId idx held) :
    Gives k k' rl rl' keyId idx held where
  inv := h.inv
  slot := h.slot
  others := fun bt hbt => (h.others bt hbt).trans hperm.mem_iff
  kept := h.kept.imp hperm.mem_iff.mp
    (And.imp_right fun hfresh hmem => hfresh ((hperm.map Bucket.keyId).mem_iff.mpr hmem))

/-- At a free slot, with room for another bucket. -/
theorem findOrMakeFrom_made {keyId : Int64} (granted : Bool) (fuel : ℕ) {idx : ℕ}
    (hfree : rl.b idx = none) (hroom : rl.count < rl.cap * 3 / 4) :
    findOrMakeFrom keyId granted (fuel + 1) rl idx =
      some (⟨Function.update rl.b idx (some ⟨keyId, cleared⟩), rl.cap, rl.count + 1⟩, some idx) := by
  rw [findOrMakeFrom, hfree]
  dsimp only
  rw [if_neg (Nat.not_le.mpr hroom)]

/-- A key without a bucket gets one in the table after the rehash. -/
theorem Inv.findOrMakeFrom_rehashed (h : Inv k rl) {keyId : Int64} (hfresh : keyId ∉ keys k rl.b)
    {fuel : ℕ} (hfuel : 2 ^ (k + 1) + 1 ≤ fuel) :
    ∃ k' rl' idx held, Gives k k' rl rl' keyId idx held ∧
      ((rehash rl fuel).bind fun nb =>
        findOrMakeFrom keyId true fuel { rl with b := nb, cap := rl.cap * 2 }
          (home keyId (rl.cap * 2))) = some (rl', some idx) := by
  have hgrown : 2 ^ (k + 1) ≤ fuel := by omega
  obtain ⟨nb, hrehash, hinv, hperm⟩ := h.rehashed hgrown
  have hroom : rl.count < 2 ^ (k + 1) * 3 / 4 := by
    have hle := h.room
    have hpos := Nat.two_pow_pos k
    rw [pow_succ]
    omega
  obtain ⟨i, hi⟩ := hinv.inPlace.exists_slotOf keyId hinv.buckets_lt
  have hfree : nb i = none := by
    refine (slotOf_cases hi).resolve_right fun ⟨held, hslot⟩ => hfresh ?_
    have hmem : (⟨keyId, held⟩ : Bucket) ∈ buckets (k + 1) nb := mem_buckets.mpr ⟨i, i.isLt, hslot⟩
    exact List.mem_map.mpr ⟨_, hperm.mem_iff.mp hmem, rfl⟩
  obtain ⟨s, hs, hwalk⟩ := hinv.findOrMakeFrom_slotOf hi true
  obtain ⟨rest, rfl⟩ : ∃ rest, fuel = (rest + 1) + s := ⟨fuel - s - 1, by omega⟩
  refine ⟨k + 1, _, i, cleared, (hinv.gives_made hi hfree hroom).of_perm hperm, ?_⟩
  rw [hrehash, Option.bind_some]
  refine (hwalk (rest + 1)).trans (findOrMakeFrom_made true rest hfree ?_)
  rw [hinv.cap]
  exact hroom

/-- Every call ends, with the bucket of its key, or without memory. -/
theorem Inv.findOrMake_ends (h : Inv k rl) (keyId : Int64) (granted : Bool) :
    (∃ k' rl' idx held, Gives k k' rl rl' keyId idx held ∧
      findOrMake rl keyId granted = some (rl', some idx)) ∨
    granted = false ∧ findOrMake rl keyId granted = some (rl, none) := by
  obtain ⟨i, hi⟩ := h.inPlace.exists_slotOf keyId h.buckets_lt
  obtain ⟨s, hs, hwalk⟩ := h.findOrMakeFrom_slotOf hi granted
  have hcap := h.cap
  have hfuel : fuelFor rl = 4 * 2 ^ k := by rw [fuelFor, hcap]
  obtain ⟨rest, hrest⟩ : ∃ rest, fuelFor rl = (rest + 1) + s := ⟨fuelFor rl - s - 1, by omega⟩
  rw [findOrMake, hrest, hwalk]
  rcases slotOf_cases hi with hfree | ⟨held, hslot⟩
  · by_cases hroom : rl.count < rl.cap * 3 / 4
    · refine Or.inl ⟨k, _, i, cleared, h.gives_made hi hfree (hcap ▸ hroom), ?_⟩
      exact findOrMakeFrom_made granted rest hfree hroom
    · rw [findOrMakeFrom, hfree]
      dsimp only
      rw [if_pos (Nat.le_of_not_lt hroom)]
      cases granted with
      | false => exact Or.inr ⟨rfl, rfl⟩
      | true =>
        refine Or.inl (h.findOrMakeFrom_rehashed (h.inPlace.fresh hi hfree) ?_)
        rw [pow_succ]
        omega
  · refine Or.inl ⟨k, rl, i, held, h.gives_found hslot, ?_⟩
    rw [findOrMakeFrom, hslot]
    exact if_pos rfl

end call

/-- The table has the buckets of the keys that something is kept for. -/
def Sound (s : System) : Prop :=
  ∃ k, Inv k s.rl ∧ ∀ keyId h, s.limits keyId = some h ↔ ⟨keyId, h⟩ ∈ buckets k s.rl.b

section system
variable {k k' : ℕ} {rl rl' : Ratelimit} {keyId : Int64} {idx : ℕ} {h : Held}

theorem Inv.once (hinv : Inv k rl) {i j : ℕ} {bt bt' : Bucket} (hi : rl.At i bt)
    (hj : rl.At j bt') (hkey : bt.keyId = bt'.keyId) : i = j := by
  have hfindI := hinv.inPlace.slotOf_eq (i := ⟨i, hi.1.trans_eq hinv.cap⟩) hi.2
  have hfindJ := hinv.inPlace.slotOf_eq (i := ⟨j, hj.1.trans_eq hinv.cap⟩) hj.2
  rw [hkey] at hfindI
  exact congrArg Fin.val (Option.some.inj (hfindI.symm.trans hfindJ))

theorem Inv.mem_buckets_iff (hinv : Inv k rl) {bt : Bucket} :
    bt ∈ buckets k rl.b ↔ ∃ i, rl.At i bt := by
  rw [mem_buckets, ← hinv.cap]
  rfl

/-- The caller of the call has written to its bucket. -/
theorem Gives.write (hgives : Gives k k' rl rl' keyId idx h) (use : Held → Held) :
    Inv k' (rl'.write idx use) ∧ ∀ bt, bt ∈ buckets k' (rl'.write idx use).b ↔
      bt = ⟨keyId, use h⟩ ∨ bt.keyId ≠ keyId ∧ bt ∈ buckets k rl.b := by
  have hinv := hgives.inv
  obtain ⟨hlt, hslot⟩ := hgives.slot
  obtain ⟨i, rfl⟩ : ∃ i : Fin (2 ^ k'), (i : ℕ) = idx := ⟨⟨idx, hlt.trans_eq hinv.cap⟩, rfl⟩
  have hwrite : rl'.write i use =
      { rl' with b := Function.update rl'.b i (some ⟨keyId, use h⟩) } := by
    rw [Ratelimit.write, hslot]
    rfl
  obtain ⟨others, hold, hnew⟩ := buckets_replace hslot ⟨keyId, use h⟩
  have hnodup : (keyId :: others.map Bucket.keyId).Nodup :=
    (hold.map Bucket.keyId).nodup_iff.mp hinv.inPlace.keys_nodup
  have hothers : ∀ bt, bt ∈ others ↔ bt.keyId ≠ keyId ∧ bt ∈ buckets k rl.b := by
    intro bt
    constructor
    · intro hmem
      have hne : bt.keyId ≠ keyId := fun heq =>
        (List.nodup_cons.mp hnodup).1 (heq ▸ List.mem_map_of_mem hmem)
      exact ⟨hne, (hgives.others bt hne).mp (hold.mem_iff.mpr (List.mem_cons_of_mem _ hmem))⟩
    · intro ⟨hne, hmem⟩
      have hcons := hold.mem_iff.mp ((hgives.others bt hne).mpr hmem)
      exact (List.mem_cons.mp hcons).resolve_left fun heq => hne (by rw [heq])
  rw [hwrite]
  refine ⟨⟨hinv.cap, hinv.inPlace.replace hslot rfl, ?_, hinv.room⟩, fun bt => ?_⟩
  · rw [hnew.length_eq, hinv.count, hold.length_eq]
    rfl
  · rw [hnew.mem_iff, List.mem_cons, hothers]

theorem sound_start : Sound System.start := by
  refine ⟨4, inv_new, fun keyId h => ?_⟩
  have hnil : buckets 4 System.start.rl.b = [] := buckets_empty
  rw [hnil]
  simp [System.start]

/-- What the caller finds in its bucket is what was left there, or a cleared bucket. -/
theorem Gives.held_eq (hgives : Gives k k' rl rl' keyId idx h) {limits : Limits}
    (hlimits : ∀ keyId h, limits keyId = some h ↔ ⟨keyId, h⟩ ∈ buckets k rl.b) :
    h = (limits keyId).getD cleared := by
  rcases hgives.kept with hmem | ⟨rfl, hfresh⟩
  · rw [(hlimits keyId h).mpr hmem, Option.getD_some]
  · cases hlimit : limits keyId with
    | none => rfl
    | some old => exact absurd (List.mem_map.mpr ⟨_, (hlimits _ _).mp hlimit, rfl⟩) hfresh

theorem Sound.step {s : System} (hs : Sound s) (c : Call) : Sound (s.step c) := by
  obtain ⟨k, hinv, hlimits⟩ := hs
  rcases hinv.findOrMake_ends c.keyId c.granted with
    ⟨k', rl', idx, h, hgives, hcall⟩ | ⟨-, hcall⟩
  · obtain ⟨hinv', hmem⟩ := hgives.write c.use
    rw [System.step, hcall]
    refine ⟨k', hinv', fun keyId held => ?_⟩
    dsimp only
    rw [hmem, Limits.use, ← hgives.held_eq hlimits, ← hlimits, Bucket.mk.injEq]
    by_cases hkey : keyId = c.keyId
    · subst hkey
      simp [Function.update_self, eq_comm]
    · simp [hkey]
  · rw [System.step, hcall]
    exact ⟨k, hinv, hlimits⟩

theorem Inv.keeps {limits : Limits} (hinv : Inv k rl)
    (hlimits : ∀ keyId h, limits keyId = some h ↔ ⟨keyId, h⟩ ∈ buckets k rl.b) :
    Keeps rl limits where
  held := fun keyId h => (hlimits keyId h).trans hinv.mem_buckets_iff
  once := fun _ _ _ _ hi hj hkey => hinv.once hi hj hkey
  free := by
    obtain ⟨i, hi⟩ := exists_free hinv.buckets_lt
    exact ⟨i, i.isLt.trans_eq hinv.cap.symm, hi⟩

theorem Gives.preserved (hinv : Inv k rl) (hgives : Gives k k' rl rl' keyId idx h) {bt : Bucket}
    (hbt : ∃ i, rl.At i bt) : ∃ i, rl'.At i bt := by
  by_cases hkey : bt.keyId = keyId
  · rcases hgives.kept with hmem | ⟨-, hfresh⟩
    · obtain ⟨i, hi⟩ := hbt
      obtain ⟨j, hj⟩ := hinv.mem_buckets_iff.mp hmem
      obtain rfl := hinv.once hi hj hkey
      obtain rfl := Option.some.inj (hi.2.symm.trans hj.2)
      exact ⟨idx, hgives.slot⟩
    · have hmem := List.mem_map_of_mem (f := Bucket.keyId) (hinv.mem_buckets_iff.mpr hbt)
      rw [hkey] at hmem
      exact absurd hmem hfresh
  · have hmem := (hgives.others bt hkey).mpr (hinv.mem_buckets_iff.mpr hbt)
    exact hgives.inv.mem_buckets_iff.mp hmem

theorem Inv.ends (hinv : Inv k rl) (keyId : Int64) (granted : Bool) :
    ∃ rl' slot, Ends rl keyId granted rl' slot := by
  rcases hinv.findOrMake_ends keyId granted with
    ⟨k', rl', idx, h, hgives, hcall⟩ | ⟨hdenied, hcall⟩
  · exact ⟨rl', some idx, fun _ hfuel => findOrMakeFrom_mono hfuel hcall,
      fun _ => ⟨idx, h, rfl, hgives.slot⟩, fun _ hbt => hgives.preserved hinv hbt⟩
  · refine ⟨rl, none, fun _ hfuel => findOrMakeFrom_mono hfuel hcall, fun hgranted => ?_,
      fun _ hbt => hbt⟩
    rw [hdenied] at hgranted
    cases hgranted

theorem Sound.good {s : System} (hs : Sound s) : Good s := by
  obtain ⟨k, hinv, hlimits⟩ := hs
  exact ⟨hinv.keeps hlimits, hinv.ends⟩

theorem isSome_use (m : Limits) (c : Call) {keyId : Int64}
    (h : keyId = c.keyId ∨ (m keyId).isSome = true) : (m.use c keyId).isSome = true := by
  by_cases hkey : keyId = c.keyId
  · simp [Limits.use, hkey]
  · simpa [Limits.use, hkey] using h

theorem isSome_step {s : System} (c : Call) {keyId : Int64} (h : (s.limits keyId).isSome = true) :
    ((s.step c).limits keyId).isSome = true := by
  rw [System.step]
  split
  · exact isSome_use s.limits c (Or.inr h)
  · exact h
  · exact h

/-- A call that gets its memory leaves a bucket. -/
theorem Good.isSome_call {s : System} (hs : Good s) {c : Call} (hgranted : c.granted = true) :
    ((s.step c).limits c.keyId).isSome = true := by
  obtain ⟨rl', slot, hends⟩ := hs.ends c.keyId c.granted
  obtain ⟨i, h, rfl, -⟩ := hends.bucket hgranted
  have hcall : findOrMake s.rl c.keyId c.granted = some (rl', some i) := hends.ends _ le_rfl
  rw [System.step, hcall]
  exact isSome_use s.limits c (Or.inl rfl)

theorem Keeps.existsUnique {m : Limits} (hkeeps : Keeps rl m)
    (hkey : (m keyId).isSome = true) : ∃! i, ∃ h, rl.At i ⟨keyId, h⟩ := by
  obtain ⟨h, hm⟩ := Option.isSome_iff_exists.mp hkey
  obtain ⟨i, hi⟩ := (hkeeps.held keyId h).mp hm
  exact ⟨i, ⟨h, hi⟩, fun j ⟨h', hj⟩ => hkeeps.once j i _ _ hj hi rfl⟩

theorem good_run (calls : List Call) : Always System.step Good System.start calls := by
  have hsound : Always System.step Sound System.start calls :=
    always_of_step (fun _ c hs => hs.step c) sound_start calls
  exact fun n => (hsound n).good

/-- The key of every call that got its memory has something kept for it. -/
theorem isSome_run (calls : List Call) {c : Call} (hc : c ∈ calls) (hgranted : c.granted = true) :
    ((run System.step System.start calls).limits c.keyId).isSome = true := by
  induction calls using List.reverseRecOn with
  | nil => cases hc
  | append_singleton calls last ih =>
    rw [run, List.foldl_append]
    rcases List.mem_append.mp hc with hbefore | hlast
    · exact isSome_step last (ih hbefore)
    · obtain rfl := List.mem_singleton.mp hlast
      exact (good_run calls).last.isSome_call hgranted

end system

/-- After any calls every key has its one bucket, with what its callers left in it, and the next
call ends and loses none. -/
theorem oneBucket_run (calls : List Call) : Always System.step Good System.start calls ∧
    ∀ c ∈ calls, c.granted = true →
      ∃! i, ∃ h, (run System.step System.start calls).rl.At i ⟨c.keyId, h⟩ :=
  ⟨good_run calls, fun _ hc hgranted =>
    (good_run calls).last.keeps.existsUnique (isSome_run calls hc hgranted)⟩

end Aigate.RatelimitTable
