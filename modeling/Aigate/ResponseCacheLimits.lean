import Aigate.ResponseCacheReaders

/-!
# The limits of the response cache

Beyond what its readers need, a shard keeps one entry for each key and counts the bytes of
its bodies. Making room before an insertion keeps it within its limits; a body that is
replaced in place makes no room, so the bytes stay within the limit exactly if such a body
fits.
-/
namespace Aigate.ResponseCacheLimits
open ResponseCache ResponseCacheReaders

def keyOf (heap : ℕ → Option Entry) (id : ℕ) : Option CacheKey := (heap id).map (·.cacheKey)

def bodyLength (heap : ℕ → Option Entry) (id : ℕ) : ℕ :=
  ((heap id).map (·.responseBody.length)).getD 0

/-- The keys of a shard are distinct, and its bytes are those of its bodies. -/
structure Tracked (heap : ℕ → Option Entry) (shard : Shard) : Prop where
  keys : (shard.lru.map (keyOf heap)).Nodup
  bytes : shard.bytesUsed = (shard.lru.map (bodyLength heap)).sum

/-- A shard is within its limits. -/
def Within (shard : Shard) : Prop :=
  shard.count ≤ shard.maxCount ∧ (shard.bytesUsed ≤ shard.maxBytes ∨ shard.count = 1)

structure Sound (c : Cache) : Prop where
  inv : Inv c
  tracked : ∀ s, Tracked c.heap (c.shards s)
  positive : ∀ s, 0 < (c.shards s).maxCount

/-- Entries that look the same to a shard. -/
def Agree (heap heap' : ℕ → Option Entry) (id : ℕ) : Prop :=
  keyOf heap' id = keyOf heap id ∧ bodyLength heap' id = bodyLength heap id

theorem Tracked.congr {heap heap' : ℕ → Option Entry} {shard shard' : Shard}
    (h : Tracked heap shard) (hlru : shard'.lru.Perm shard.lru)
    (hbytes : shard'.bytesUsed = shard.bytesUsed) (hagree : ∀ id ∈ shard.lru, Agree heap heap' id) :
    Tracked heap' shard' where
  keys := by
    rw [(hlru.map _).nodup_iff, List.map_congr_left fun id hid => (hagree id hid).1]
    exact h.keys
  bytes := by
    rw [hbytes, h.bytes, (hlru.map _).sum_eq, List.map_congr_left fun id hid => (hagree id hid).2]

theorem agree_update_ne {heap : ℕ → Option Entry} {id j : ℕ} (hne : j ≠ id) (v : Option Entry) :
    Agree heap (Function.update heap id v) j := by
  unfold Agree keyOf bodyLength
  rw [Function.update_of_ne hne]
  exact ⟨rfl, rfl⟩

/-- Readers come and go without a trace in the shards. -/
theorem agree_update {heap : ℕ → Option Entry} {id : ℕ} {e e' : Entry} (he : heap id = some e)
    (hkey : e'.cacheKey = e.cacheKey) (hbody : e'.responseBody = e.responseBody) (j : ℕ) :
    Agree heap (Function.update heap id (some e')) j := by
  by_cases hj : j = id
  · subst hj
    unfold Agree keyOf bodyLength
    rw [Function.update_self, he]
    simp [hkey, hbody]
  · exact agree_update_ne hj _

/-- An entry is in one shard. -/
theorem shard_unique {c : Cache} (h : Inv c) {s t : Fin 16} {id : ℕ}
    (hs : id ∈ (c.shards s).lru) (ht : id ∈ (c.shards t).lru) : s = t := by
  obtain ⟨b, hb⟩ := ((h.shards s).lru id).mp hs
  obtain ⟨b', hb'⟩ := ((h.shards t).lru id).mp ht
  obtain ⟨e, he, -, hes, -⟩ := (h.shards s).linked b id hb
  obtain ⟨f, hf, -, hft, -⟩ := (h.shards t).linked b' id hb'
  rw [he] at hf
  obtain rfl := Option.some.inj hf
  exact hes.symm.trans hft

theorem dropEntry_shards (c : Cache) (s : Fin 16) (id : ℕ) (e : Entry) (n : ℕ) :
    (dropEntry c s id e n).shards = Function.update c.shards s ((c.shards s).unlink id e n) := by
  unfold dropEntry destroyEntry
  split
  · rfl
  · rfl

theorem dropEntry_agree (c : Cache) (s : Fin 16) (id : ℕ) (e : Entry) (n : ℕ) {j : ℕ}
    (hne : j ≠ id) : Agree c.heap (dropEntry c s id e n).heap j := by
  unfold dropEntry destroyEntry
  split
  · exact agree_update_ne hne _
  · exact agree_update_ne hne _

/-- No operation changes what was configured. -/
structure SameLimits (c c' : Cache) : Prop where
  count : ∀ t, (c'.shards t).maxCount = (c.shards t).maxCount
  bytes : ∀ t, (c'.shards t).maxBytes = (c.shards t).maxBytes

theorem SameLimits.refl (c : Cache) : SameLimits c c := ⟨fun _ => rfl, fun _ => rfl⟩

theorem SameLimits.trans {c c' c'' : Cache} (h : SameLimits c c') (h' : SameLimits c' c'') :
    SameLimits c c'' where
  count := fun t => (h'.count t).trans (h.count t)
  bytes := fun t => (h'.bytes t).trans (h.bytes t)

theorem sameLimits_update {c c' : Cache} {s : Fin 16} {shard : Shard}
    (h : c'.shards = Function.update c.shards s shard)
    (hcount : shard.maxCount = (c.shards s).maxCount)
    (hbytes : shard.maxBytes = (c.shards s).maxBytes) : SameLimits c c' := by
  constructor
  all_goals
    intro t
    rw [h]
  · by_cases ht : t = s
    · subst ht
      rw [Function.update_self, hcount]
    · rw [Function.update_of_ne ht]
  · by_cases ht : t = s
    · subst ht
      rw [Function.update_self, hbytes]
    · rw [Function.update_of_ne ht]

theorem dropEntry_limits (c : Cache) (s : Fin 16) (id : ℕ) (e : Entry) (n : ℕ) :
    SameLimits c (dropEntry c s id e n) := sameLimits_update (dropEntry_shards c s id e n) rfl rfl

theorem evictOneLru_limits (c : Cache) (s : Fin 16) : SameLimits c (evictOneLru c s) := by
  unfold evictOneLru
  split
  · exact SameLimits.refl c
  · split
    · exact SameLimits.refl c
    · exact dropEntry_limits ..

theorem makeRoom_limits (s : Fin 16) (len passes : ℕ) (c : Cache) :
    SameLimits c (makeRoom s len passes c) := by
  induction passes generalizing c with
  | zero => exact SameLimits.refl c
  | succ passes ih =>
    simp only [makeRoom]
    split
    · exact (evictOneLru_limits c s).trans (ih _)
    · exact SameLimits.refl c

theorem insertEntry_limits (c : Cache) (r : StoreRequest) : SameLimits c (insertEntry c r) := by
  apply sameLimits_update
  · unfold insertEntry Cache.setShard
    rfl
  · rfl
  · rfl

theorem replaceEntry_limits (c : Cache) (r : StoreRequest) (id : ℕ) (e : Entry) :
    SameLimits c (replaceEntry c r id e) := by
  apply sameLimits_update
  · unfold replaceEntry Cache.setShard
    rfl
  · rfl
  · rfl

theorem purgeEntries_limits (c : Cache) (s : Fin 16) (model : Option Text.Bytes) (ids : List ℕ) :
    SameLimits c (ids.foldl (purgeEntry s model) c) := by
  induction ids generalizing c with
  | nil => exact SameLimits.refl c
  | cons id rest ih =>
    have hone : SameLimits c (purgeEntry s model c id) := by
      unfold purgeEntry
      split
      · exact SameLimits.refl c
      · split
        · exact dropEntry_limits ..
        · exact SameLimits.refl c
    exact hone.trans (ih _)

theorem step_limits (c : Cache) (event : Event) : SameLimits c (step c event) := by
  cases event with
  | get key now =>
    unfold step responseCacheGet
    dsimp only
    split
    · exact SameLimits.refl c
    · split
      · exact sameLimits_update rfl rfl rfl
      · split
        · refine SameLimits.trans ?_ (dropEntry_limits ..)
          exact sameLimits_update rfl rfl rfl
        · exact sameLimits_update rfl rfl rfl
  | release h =>
    unfold step responseCacheReleaseEntry
    dsimp only
    split
    · split
      · exact SameLimits.refl c
      · split
        · exact ⟨fun _ => rfl, fun _ => rfl⟩
        · exact ⟨fun _ => rfl, fun _ => rfl⟩
    · exact SameLimits.refl c
  | set r =>
    unfold step responseCacheSet
    dsimp only
    split
    · exact SameLimits.refl c
    · split
      · split
        · exact SameLimits.refl c
        · exact replaceEntry_limits ..
      · split
        · exact makeRoom_limits ..
        · exact (makeRoom_limits ..).trans (insertEntry_limits ..)
  | purge s model =>
    unfold step purgeShard
    exact purgeEntries_limits ..

theorem bodyLength_le {heap : ℕ → Option Entry} {shard : Shard} (h : Tracked heap shard) {id : ℕ}
    (hid : id ∈ shard.lru) : bodyLength heap id ≤ shard.bytesUsed := by
  rw [h.bytes, ← List.sum_map_erase (bodyLength heap) hid]
  exact Nat.le_add_right _ _

/-- What is left of a shard when an entry is dropped. -/
theorem Tracked.unlink {heap heap' : ℕ → Option Entry} {shard : Shard} (h : Tracked heap shard)
    (hnodup : shard.lru.Nodup) {id : ℕ} {e : Entry} (he : heap id = some e) (hid : id ∈ shard.lru)
    {n : ℕ} (hn : n = shard.bytesUsed - e.responseBody.length)
    (hagree : ∀ j, j ≠ id → Agree heap heap' j) : Tracked heap' (shard.unlink id e n) := by
  have hlength : bodyLength heap id = e.responseBody.length := by
    rw [bodyLength, he]
    rfl
  have hsum := List.sum_map_erase (bodyLength heap) hid
  have hrest : Tracked heap (shard.unlink id e n) := by
    refine ⟨h.keys.sublist (List.erase_sublist.map _), ?_⟩
    change n = ((shard.lru.erase id).map (bodyLength heap)).sum
    rw [hn, h.bytes]
    omega
  refine hrest.congr (List.Perm.refl _) rfl fun j hj => hagree j ?_
  exact (hnodup.mem_erase_iff.mp hj).1

/-- Dropping an entry brings a shard closer to its limits. -/
theorem Within.unlink {heap : ℕ → Option Entry} {s : Fin 16} {shard : Shard} (h : Within shard)
    (hok : ShardOk heap s shard) (htracked : Tracked heap shard) {id : ℕ} {e : Entry}
    (he : heap id = some e) (hid : id ∈ shard.lru) {n : ℕ}
    (hn : n = shard.bytesUsed - e.responseBody.length) : Within (shard.unlink id e n) := by
  obtain ⟨hcount, hbytes⟩ := h
  have hrest : Tracked heap (shard.unlink id e n) :=
    htracked.unlink hok.lruNodup he hid hn fun j hj => ⟨rfl, rfl⟩
  have hlength := (hok.unlink he hid n).counted
  refine ⟨(Nat.sub_le _ _).trans hcount, ?_⟩
  rcases hbytes with hbytes | hone
  · left
    change n ≤ shard.maxBytes
    omega
  · left
    have hzero : (shard.unlink id e n).lru = [] := by
      rw [← List.length_eq_zero_iff, ← hlength]
      change shard.count - 1 = 0
      omega
    rw [hrest.bytes, hzero]
    exact Nat.zero_le _

theorem Sound.drop {c : Cache} (h : Sound c) {s : Fin 16} {id : ℕ} {e : Entry}
    (he : c.heap id = some e) (hid : id ∈ (c.shards s).lru) {n : ℕ}
    (hn : n = (c.shards s).bytesUsed - e.responseBody.length) :
    Sound (dropEntry c s id e n) ∧
      ((∀ t, Within (c.shards t)) → ∀ t, Within ((dropEntry c s id e n).shards t)) := by
  have hagree := fun j hj => dropEntry_agree c s id e n (j := j) hj
  rw [dropEntry_shards]
  refine ⟨⟨h.inv.drop he hid n, fun t => ?_, fun t => ?_⟩, fun hwithin t => ?_⟩
  · rw [dropEntry_shards]
    by_cases ht : t = s
    · subst ht
      rw [Function.update_self]
      exact (h.tracked t).unlink (h.inv.shards t).lruNodup he hid hn hagree
    · rw [Function.update_of_ne ht]
      refine (h.tracked t).congr (List.Perm.refl _) rfl fun j hj => hagree j ?_
      rintro rfl
      exact ht (shard_unique h.inv hj hid)
  · rw [(dropEntry_limits c s id e n).count t]
    exact h.positive t
  · by_cases ht : t = s
    · subst ht
      rw [Function.update_self]
      exact (hwithin t).unlink (h.inv.shards t) (h.tracked t) he hid hn
    · rw [Function.update_of_ne ht]
      exact hwithin t

/-- What making room leaves of a shard was there before. -/
def Shrinks (s : Fin 16) (c c' : Cache) : Prop :=
  ∀ id ∈ (c'.shards s).lru, id ∈ (c.shards s).lru ∧ Agree c.heap c'.heap id

theorem Shrinks.refl (s : Fin 16) (c : Cache) : Shrinks s c c := fun _ hid => ⟨hid, rfl, rfl⟩

theorem Shrinks.trans {s : Fin 16} {c c' c'' : Cache} (h : Shrinks s c c')
    (h' : Shrinks s c' c'') : Shrinks s c c'' := by
  intro id hid
  obtain ⟨hid', hkey', hlen'⟩ := h' id hid
  obtain ⟨hid'', hkey, hlen⟩ := h id hid'
  exact ⟨hid'', hkey'.trans hkey, hlen'.trans hlen⟩

theorem Sound.drop_shrinks {c : Cache} (h : Sound c) {s : Fin 16} {id : ℕ} (e : Entry) (n : ℕ) :
    Shrinks s c (dropEntry c s id e n) := by
  intro j hj
  rw [dropEntry_lru, (h.inv.shards s).lruNodup.mem_erase_iff] at hj
  exact ⟨hj.2, dropEntry_agree c s id e n hj.1⟩

theorem Sound.evict {c : Cache} (h : Sound c) (s : Fin 16) :
    Sound (evictOneLru c s) ∧ Shrinks s c (evictOneLru c s) ∧
      ((∀ t, Within (c.shards t)) → ∀ t, Within ((evictOneLru c s).shards t)) := by
  unfold evictOneLru
  split
  · exact ⟨h, Shrinks.refl s c, fun hwithin => hwithin⟩
  · rename_i id hlast
    split
    · exact ⟨h, Shrinks.refl s c, fun hwithin => hwithin⟩
    · rename_i e he
      obtain ⟨hsound, hwithin⟩ := h.drop he (List.mem_of_getLast? hlast) rfl
      exact ⟨hsound, h.drop_shrinks e _, hwithin⟩

theorem Sound.room {c : Cache} (h : Sound c) (s : Fin 16) (len passes : ℕ) :
    Sound (makeRoom s len passes c) ∧ Shrinks s c (makeRoom s len passes c) ∧
      ((∀ t, Within (c.shards t)) → ∀ t, Within ((makeRoom s len passes c).shards t)) := by
  induction passes generalizing c with
  | zero => exact ⟨h, Shrinks.refl s c, fun hwithin => hwithin⟩
  | succ passes ih =>
    simp only [makeRoom]
    split
    · obtain ⟨hevict, hshrinks, hwithin⟩ := h.evict s
      obtain ⟨hrest, hshrinks', hwithin'⟩ := ih hevict
      exact ⟨hrest, hshrinks.trans hshrinks', fun hbefore => hwithin' (hwithin hbefore)⟩
    · exact ⟨h, Shrinks.refl s c, fun hwithin => hwithin⟩

theorem Sound.purgeEntries {c : Cache} (h : Sound c) (s : Fin 16) (model : Option Text.Bytes)
    {ids : List ℕ} (hnodup : ids.Nodup) (hids : ∀ id ∈ ids, id ∈ (c.shards s).lru) :
    Sound (ids.foldl (purgeEntry s model) c) ∧
      ((∀ t, Within (c.shards t)) →
        ∀ t, Within ((ids.foldl (purgeEntry s model) c).shards t)) := by
  induction ids generalizing c with
  | nil => exact ⟨h, fun hwithin => hwithin⟩
  | cons id rest ih =>
    obtain ⟨hid, hrest⟩ := List.nodup_cons.mp hnodup
    have hsame := fun j hj => hids j (List.mem_cons_of_mem id hj)
    have hone : Sound (purgeEntry s model c id) ∧
        (∀ j ∈ rest, j ∈ ((purgeEntry s model c id).shards s).lru) ∧
        ((∀ t, Within (c.shards t)) →
          ∀ t, Within ((purgeEntry s model c id).shards t)) := by
      unfold purgeEntry
      split
      · exact ⟨h, hsame, fun hwithin => hwithin⟩
      · rename_i e he
        split
        · have hlru := hids id List.mem_cons_self
          have hle : e.responseBody.length ≤ (c.shards s).bytesUsed := by
            have := bodyLength_le (h.tracked s) hlru
            rwa [bodyLength, he] at this
          dsimp only
          rw [if_pos hle]
          obtain ⟨hsound, hwithin⟩ := h.drop he hlru rfl
          refine ⟨hsound, fun j hj => ?_, hwithin⟩
          rw [dropEntry_lru, (h.inv.shards s).lruNodup.mem_erase_iff]
          refine ⟨?_, hsame j hj⟩
          rintro rfl
          exact hid hj
        · exact ⟨h, hsame, fun hwithin => hwithin⟩
    obtain ⟨hsound, hwithin⟩ := ih hone.1 hrest hone.2.1
    exact ⟨hsound, fun hbefore => hwithin (hone.2.2 hbefore)⟩

theorem Sound.purge {c : Cache} (h : Sound c) (s : Fin 16) (model : Option Text.Bytes) :
    Sound (purgeShard c s model) ∧
      ((∀ t, Within (c.shards t)) → ∀ t, Within ((purgeShard c s model).shards t)) := by
  unfold purgeShard
  refine h.purgeEntries s model (h.inv.shards s).chains_nodup fun id hid => ?_
  obtain ⟨b, -, hb⟩ := List.mem_flatMap.mp hid
  exact ((h.inv.shards s).lru id).mpr ⟨b, hb⟩

/-- A shard with the same entries in another order. -/
structure Reordered (shard shard' : Shard) : Prop where
  lru : shard'.lru.Perm shard.lru
  count : shard'.count = shard.count
  bytesUsed : shard'.bytesUsed = shard.bytesUsed
  maxCount : shard'.maxCount = shard.maxCount
  maxBytes : shard'.maxBytes = shard.maxBytes

/-- The entries look the same, and every shard holds the same ones. -/
theorem Sound.reorder {c c' : Cache} (h : Sound c) (hinv : Inv c')
    (hshards : ∀ t, Reordered (c.shards t) (c'.shards t))
    (hagree : ∀ t, ∀ id ∈ (c.shards t).lru, Agree c.heap c'.heap id) :
    Sound c' ∧ ((∀ t, Within (c.shards t)) → ∀ t, Within (c'.shards t)) := by
  refine ⟨⟨hinv, fun t => ?_, fun t => ?_⟩, fun hwithin t => ?_⟩
  · exact (h.tracked t).congr (hshards t).lru (hshards t).bytesUsed (hagree t)
  · rw [(hshards t).maxCount]
    exact h.positive t
  · unfold Within
    rw [(hshards t).count, (hshards t).bytesUsed, (hshards t).maxCount, (hshards t).maxBytes]
    exact hwithin t

theorem reordered_update {c : Cache} {s : Fin 16} {shard : Shard}
    (h : Reordered (c.shards s) shard) (t : Fin 16) :
    Reordered (c.shards t) (Function.update c.shards s shard t) := by
  by_cases ht : t = s
  · subst ht
    rwa [Function.update_self]
  · rw [Function.update_of_ne ht]
    exact ⟨List.Perm.refl _, rfl, rfl, rfl, rfl⟩

theorem Sound.get {c : Cache} (h : Sound c) (key : CacheKey) (now : ℤ) :
    Sound (responseCacheGet c key now).1 ∧
      ((∀ t, Within (c.shards t)) → ∀ t, Within ((responseCacheGet c key now).1.shards t)) := by
  have hinv := (h.inv.get key now).1
  unfold responseCacheGet at hinv ⊢
  split
  · exact ⟨h, fun hwithin => hwithin⟩
  rename_i hasked
  rw [if_neg hasked] at hinv
  split
  · rename_i hfind
    rw [hfind] at hinv
    exact h.reorder hinv (reordered_update ⟨List.Perm.refl _, rfl, rfl, rfl, rfl⟩)
      fun t id hid => ⟨rfl, rfl⟩
  · rename_i id e hfind
    rw [hfind] at hinv
    obtain ⟨he, -, hmem⟩ := findEntry_some hfind
    have hlru := ((h.inv.shards (shardIndex key)).lru id).mpr ⟨_, hmem⟩
    dsimp only at hinv ⊢
    split
    · have hmiss := @Inv.setShard c h.inv (shardIndex key)
        { c.shards (shardIndex key) with misses := (c.shards (shardIndex key)).misses + 1 }
        ((h.inv.shards _).count rfl rfl rfl) fun b j hj => hj
      obtain ⟨hsound, hwithin⟩ := h.reorder hmiss.1
        (reordered_update ⟨List.Perm.refl _, rfl, rfl, rfl, rfl⟩) fun t j hj => ⟨rfl, rfl⟩
      obtain ⟨hdrop, hwithin'⟩ := hsound.drop (s := shardIndex key) he
        (by simpa [Cache.setShard] using hlru) (n := (c.shards (shardIndex key)).bytesUsed -
          e.responseBody.length) (by simp [Cache.setShard])
      exact ⟨hdrop, fun hbefore => hwithin' (hwithin hbefore)⟩
    · rename_i hvalid
      rw [if_neg hvalid] at hinv
      exact h.reorder hinv (reordered_update
        ⟨(List.perm_cons_erase hlru).symm, rfl, rfl, rfl, rfl⟩)
        fun t j hj => @agree_update _ _ _ { e with refCount := e.refCount + 1 } he rfl rfl j

theorem Sound.release {c : Cache} (h : Sound c) {r : Handle} (hr : r ∈ c.readers) :
    Sound (responseCacheReleaseEntry c r) ∧ ((∀ t, Within (c.shards t)) →
      ∀ t, Within ((responseCacheReleaseEntry c r).shards t)) := by
  have hinv := (h.inv.release hr).1
  obtain ⟨e, he⟩ := h.inv.counted.held r hr
  have hsame : ∀ t, Reordered (c.shards t) (c.shards t) :=
    fun t => ⟨List.Perm.refl _, rfl, rfl, rfl, rfl⟩
  unfold responseCacheReleaseEntry at hinv ⊢
  rw [he] at hinv ⊢
  dsimp only at hinv ⊢
  split
  · rename_i hlast
    rw [if_pos hlast] at hinv
    refine h.reorder hinv hsame fun t id hid => agree_update_ne ?_ _
    -- a tombstone is in no shard
    rintro rfl
    obtain ⟨b, hb⟩ := ((h.inv.shards t).lru _).mp hid
    obtain ⟨f, hf, hlive, -, -⟩ := (h.inv.shards t).linked b _ hb
    rw [he] at hf
    obtain rfl := Option.some.inj hf
    exact hlive hlast.2
  · rename_i hmore
    rw [if_neg hmore] at hinv
    exact h.reorder hinv hsame fun t id hid =>
      @agree_update _ _ _ { e with refCount := e.refCount - 1 } he rfl rfl id

/-- No entry of the shard has a key that the walk does not find. -/
theorem findEntry_none {c : Cache} (h : Inv c) {key : CacheKey} (hfind : findEntry c key = none)
    {id : ℕ} (hid : id ∈ (c.shards (shardIndex key)).lru) : keyOf c.heap id ≠ some key := by
  intro hkey
  obtain ⟨b, hb⟩ := ((h.shards _).lru id).mp hid
  obtain ⟨e, he, -, -, hbucket⟩ := (h.shards _).linked b id hb
  have hkey' : e.cacheKey = key := by simpa [keyOf, he] using hkey
  rw [hkey'] at hbucket
  subst hbucket
  have := List.findSome?_eq_none_iff.mp hfind id hb
  simp [he, hkey'] at this

/-- The new entry comes with a new key, and its bytes are counted. -/
theorem Sound.insert {c : Cache} (h : Sound c) (r : StoreRequest)
    (hnew : ∀ id ∈ (c.shards (shardIndex r.key)).lru, keyOf c.heap id ≠ some r.key) :
    Sound (insertEntry c r) := by
  have hheap : (insertEntry c r).heap c.nextEntry = some
      { cacheKey := r.key
        model := (r.model.getD []).take 63
        bodyId := c.nextBody
        responseBody := r.body
        statusCode := 200
        promptTokens := r.promptTokens
        completionTokens := r.completionTokens
        createdAt := r.now
        expiresAt := expiry c r
        refCount := 0 } := Function.update_self ..
  have hfresh : ∀ t, ∀ id ∈ (c.shards t).lru, id ≠ c.nextEntry := by
    rintro t id hid rfl
    obtain ⟨b, hb⟩ := ((h.inv.shards t).lru _).mp hid
    obtain ⟨e, he, -⟩ := (h.inv.shards t).linked b _ hb
    exact absurd (h.inv.alive _ e he).1 (Nat.lt_irrefl _)
  have hold : ∀ t, Tracked (insertEntry c r).heap (c.shards t) := fun t =>
    (h.tracked t).congr (List.Perm.refl _) rfl fun id hid => agree_update_ne (hfresh t id hid) _
  refine ⟨h.inv.insert r, fun t => ?_, fun t => ?_⟩
  · by_cases ht : t = shardIndex r.key
    · subst ht
      have hkeys : keyOf (insertEntry c r).heap c.nextEntry = some r.key := by
        rw [keyOf, hheap]
        rfl
      have hbytes : bodyLength (insertEntry c r).heap c.nextEntry = r.body.length := by
        rw [bodyLength, hheap]
        rfl
      have hlru : ((insertEntry c r).shards (shardIndex r.key)).lru =
          c.nextEntry :: (c.shards (shardIndex r.key)).lru := by
        simp [insertEntry, Cache.setShard]
      have hused : ((insertEntry c r).shards (shardIndex r.key)).bytesUsed =
          (c.shards (shardIndex r.key)).bytesUsed + r.body.length := by
        simp [insertEntry, Cache.setShard]
      refine ⟨?_, ?_⟩
      · rw [hlru, List.map_cons, hkeys]
        refine List.nodup_cons.mpr ⟨fun hin => ?_, (hold _).keys⟩
        obtain ⟨id, hid, hkey⟩ := List.mem_map.mp hin
        have hagree : Agree c.heap (insertEntry c r).heap id :=
          agree_update_ne (hfresh _ id hid) _
        exact hnew id hid (hagree.1.symm.trans hkey)
      · rw [hlru, List.map_cons, List.sum_cons, hbytes, hused, (hold _).bytes, Nat.add_comm]
    · have hsame : (insertEntry c r).shards t = c.shards t := Function.update_of_ne ht _ _
      rw [hsame]
      exact hold t
  · rw [(insertEntry_limits c r).count t]
    exact h.positive t

/-- What the bytes of a shard come to when an entry gets another body. -/
def replacedBytes (shard : Shard) (e : Entry) (r : StoreRequest) : ℕ :=
  shard.bytesUsed - e.responseBody.length + r.body.length

theorem replaceEntry_shard {c : Cache} (h : Sound c) {id : ℕ} {e : Entry}
    (he : c.heap id = some e) (hid : id ∈ (c.shards (shardIndex e.cacheKey)).lru)
    (r : StoreRequest) :
    (replaceEntry c r id e).shards = Function.update c.shards (shardIndex e.cacheKey)
      { (c.shards (shardIndex e.cacheKey)).touch id with
        bytesUsed := replacedBytes (c.shards (shardIndex e.cacheKey)) e r } := by
  have hle : e.responseBody.length ≤ (c.shards (shardIndex e.cacheKey)).bytesUsed := by
    have := bodyLength_le (h.tracked _) hid
    rwa [bodyLength, he] at this
  unfold replaceEntry replacedBytes
  simp only [if_pos hle]
  rfl

theorem Sound.replace {c : Cache} (h : Sound c) {id : ℕ} {e : Entry} (he : c.heap id = some e)
    (hid : id ∈ (c.shards (shardIndex e.cacheKey)).buckets (bucketIndex e.cacheKey))
    (r : StoreRequest) : Sound (replaceEntry c r id e) := by
  have hlru := ((h.inv.shards (shardIndex e.cacheKey)).lru id).mpr ⟨_, hid⟩
  have hshards := replaceEntry_shard h he hlru r
  have haway : ∀ j, j ≠ id → Agree c.heap (replaceEntry c r id e).heap j :=
    fun j hj => agree_update_ne hj _
  have hkey : keyOf (replaceEntry c r id e).heap id = keyOf c.heap id := by
    simp [keyOf, replaceEntry, he]
  have hold : bodyLength c.heap id = e.responseBody.length := by
    rw [bodyLength, he]
    rfl
  have hnew : bodyLength (replaceEntry c r id e).heap id = r.body.length := by
    simp [bodyLength, replaceEntry]
  refine ⟨h.inv.replace he hid r, fun t => ?_, fun t => ?_⟩
  · rw [hshards]
    by_cases ht : t = shardIndex e.cacheKey
    · subst ht
      rw [Function.update_self]
      have htracked := h.tracked (shardIndex e.cacheKey)
      have hperm := List.perm_cons_erase hlru
      have hsum := List.sum_map_erase (bodyLength c.heap) hlru
      refine ⟨?_, ?_⟩
      · have hmap : ∀ j ∈ (c.shards (shardIndex e.cacheKey)).lru,
            keyOf (replaceEntry c r id e).heap j = keyOf c.heap j := by
          intro j _
          by_cases hj : j = id
          · rw [hj, hkey]
          · exact (haway j hj).1
        change ((id :: (c.shards (shardIndex e.cacheKey)).lru.erase id).map _).Nodup
        rw [(hperm.symm.map _).nodup_iff, List.map_congr_left hmap]
        exact htracked.keys
      · have hrest : ((c.shards (shardIndex e.cacheKey)).lru.erase id).map
            (bodyLength (replaceEntry c r id e).heap) =
            ((c.shards (shardIndex e.cacheKey)).lru.erase id).map (bodyLength c.heap) := by
          refine List.map_congr_left fun j hj => (haway j ?_).2
          exact ((h.inv.shards _).lruNodup.mem_erase_iff.mp hj).1
        change replacedBytes _ e r = ((id :: _).map _).sum
        rw [List.map_cons, List.sum_cons, hnew, hrest, replacedBytes, htracked.bytes]
        omega
    · rw [Function.update_of_ne ht]
      refine (h.tracked t).congr (List.Perm.refl _) rfl fun j hj => haway j ?_
      rintro rfl
      exact ht (shard_unique h.inv hj hlru)
  · rw [(replaceEntry_limits c r id e).count t]
    exact h.positive t

/-- Another body in place makes no room. -/
theorem replace_within_iff {c : Cache} (h : Sound c) (hwithin : ∀ t, Within (c.shards t)) {id : ℕ}
    {e : Entry} (he : c.heap id = some e) (hid : id ∈ (c.shards (shardIndex e.cacheKey)).lru)
    (r : StoreRequest) : (∀ t, Within ((replaceEntry c r id e).shards t)) ↔
      replacedBytes (c.shards (shardIndex e.cacheKey)) e r ≤
          (c.shards (shardIndex e.cacheKey)).maxBytes ∨
        (c.shards (shardIndex e.cacheKey)).count = 1 := by
  rw [replaceEntry_shard h he hid r]
  constructor
  · intro hafter
    have := (hafter (shardIndex e.cacheKey)).2
    rwa [Function.update_self] at this
  · intro hfits t
    by_cases ht : t = shardIndex e.cacheKey
    · subst ht
      rw [Function.update_self]
      exact ⟨(hwithin _).1, hfits⟩
    · rw [Function.update_of_ne ht]
      exact hwithin t

/-- After making room the new entry fits. -/
theorem insert_within {c : Cache} (r : StoreRequest) (hwithin : ∀ t, Within (c.shards t))
    (hroom : ¬((c.shards (shardIndex r.key)).maxCount ≤ (c.shards (shardIndex r.key)).count ∨
      (c.shards (shardIndex r.key)).maxBytes <
          (c.shards (shardIndex r.key)).bytesUsed + r.body.length ∧
        0 < (c.shards (shardIndex r.key)).count)) (t : Fin 16) :
    Within ((insertEntry c r).shards t) := by
  by_cases ht : t = shardIndex r.key
  · subst ht
    unfold insertEntry Cache.setShard Within
    dsimp only
    rw [Function.update_self]
    dsimp only
    omega
  · have hsame : (insertEntry c r).shards t = c.shards t := Function.update_of_ne ht _ _
    rw [hsame]
    exact hwithin t

/-- A body that is set in place leaves its shard within the limit, or alone in it. -/
def StepFits (c : Cache) : Event → Prop
  | .set r => Accepted c r → ∀ id e, findEntry c r.key = some (id, e) →
      replacedBytes (c.shards (shardIndex r.key)) e r ≤ (c.shards (shardIndex r.key)).maxBytes ∨
        (c.shards (shardIndex r.key)).count = 1
  | _ => True

theorem Sound.set {c : Cache} (h : Sound c) (r : StoreRequest) :
    Sound (responseCacheSet c r).1 ∧ ((∀ t, Within (c.shards t)) →
      ((∀ t, Within ((responseCacheSet c r).1.shards t)) ↔ StepFits c (.set r))) := by
  unfold responseCacheSet StepFits Accepted
  split
  · rename_i hrefused
    refine ⟨h, fun hwithin => iff_of_true hwithin fun hacc => ?_⟩
    rcases hrefused with hoff | hempty | hlong
    · exact absurd (hoff.symm.trans hacc.1) Bool.false_ne_true
    · exact absurd hempty hacc.2.1
    · exact absurd hacc.2.2.1 (not_le.mpr hlong)
  · rename_i hargs
    simp only [not_or, not_lt, Bool.not_eq_false] at hargs
    cases hfind : findEntry c r.key with
    | some found =>
      obtain ⟨id, e⟩ := found
      obtain ⟨he, hkey, hid⟩ := findEntry_some hfind
      dsimp only
      split
      · rename_i halloc
        refine ⟨h, fun hwithin => iff_of_true hwithin fun hacc => ?_⟩
        exact absurd (halloc.symm.trans hacc.2.2.2) Bool.false_ne_true
      · rename_i halloc
        rw [← hkey] at hid ⊢
        have hlru := ((h.inv.shards (shardIndex e.cacheKey)).lru id).mpr ⟨_, hid⟩
        refine ⟨h.replace he hid r, fun hwithin => ?_⟩
        rw [replace_within_iff h hwithin he hlru]
        constructor
        · intro hfits _ id' e' hfind'
          rw [hkey, hfind, Option.some.injEq, Prod.mk.injEq] at hfind'
          exact hfind'.2 ▸ hfits
        · intro hok
          exact hok ⟨hargs.1, hargs.2.1, hargs.2.2, by simpa using halloc⟩ id e
            (hkey.symm ▸ hfind)
    | none =>
      obtain ⟨hroom, hshrinks, hwithin⟩ := h.room (shardIndex r.key) r.body.length
        (c.shards (shardIndex r.key)).lru.length
      have hmade := h.inv.room_made (h.positive (shardIndex r.key)) r.body.length (le_refl _)
      dsimp only
      split
      · exact ⟨hroom, fun hbefore =>
          iff_of_true (hwithin hbefore) fun _ id e hsome => absurd (hfind.symm.trans hsome) (by simp)⟩
      · refine ⟨hroom.insert r fun id hid => ?_, fun hbefore =>
          iff_of_true (insert_within r (hwithin hbefore) hmade)
            fun _ id e hsome => absurd (hfind.symm.trans hsome) (by simp)⟩
        obtain ⟨hid', hkey, -⟩ := hshrinks id hid
        rw [hkey]
        exact findEntry_none h.inv hfind hid'

/-- A step keeps the shards within their limits exactly if no body is too long for its place. -/
theorem Sound.step {c : Cache} (h : Sound c) (event : Event) :
    Sound (step c event) ∧ ((∀ t, Within (c.shards t)) →
      ((∀ t, Within ((step c event).shards t)) ↔ StepFits c event)) := by
  cases event with
  | get key now =>
    obtain ⟨hsound, hwithin⟩ := h.get key now
    exact ⟨hsound, fun hbefore => iff_of_true (hwithin hbefore) trivial⟩
  | release r =>
    unfold ResponseCache.step
    dsimp only
    split
    · obtain ⟨hsound, hwithin⟩ := h.release ‹_›
      exact ⟨hsound, fun hbefore => iff_of_true (hwithin hbefore) trivial⟩
    · exact ⟨h, fun hbefore => iff_of_true hbefore trivial⟩
  | set r => exact h.set r
  | purge s model =>
    obtain ⟨hsound, hwithin⟩ := h.purge s model
    unfold ResponseCache.step StepFits
    dsimp only
    exact ⟨hsound, fun hbefore => iff_of_true (hwithin hbefore) trivial⟩

/-- The chains and the LRU list hold the same entries, once each and with distinct keys; they
and the bytes of their bodies are counted, and within the limits that are given. -/
structure Represents (heap : ℕ → Option Entry) (shard : Shard) (maxCount maxBytes : ℕ) : Prop where
  chains : ((List.finRange 1024).flatMap shard.buckets).Perm shard.lru
  once : shard.lru.Nodup
  alive : ∀ id ∈ shard.lru, (heap id).isSome = true
  keys : (shard.lru.map (keyOf heap)).Nodup
  count : shard.count = shard.lru.length
  bytes : shard.bytesUsed = (shard.lru.map (bodyLength heap)).sum
  countLimit : shard.count ≤ maxCount
  bytesLimit : shard.bytesUsed ≤ maxBytes ∨ shard.count = 1

theorem chains_perm {heap : ℕ → Option Entry} {s : Fin 16} {shard : Shard}
    (h : ShardOk heap s shard) :
    ((List.finRange 1024).flatMap shard.buckets).Perm shard.lru := by
  rw [List.perm_ext_iff_of_nodup h.chains_nodup h.lruNodup]
  intro id
  rw [h.lru, List.mem_flatMap]
  simp

/-- The state of the cache is as it should be, with the limits that it was made with. -/
def Consistent (new c : Cache) : Prop := ∀ s,
  Represents c.heap (c.shards s) (new.shards s).maxCount (new.shards s).maxBytes

theorem consistent_iff {new c : Cache} (h : Sound c) (hlimits : SameLimits new c) :
    Consistent new c ↔ ∀ s, Within (c.shards s) := by
  constructor
  · intro hc s
    have := hc s
    rw [← hlimits.count s, ← hlimits.bytes s] at this
    exact ⟨this.countLimit, this.bytesLimit⟩
  · intro hwithin s
    rw [← hlimits.count s, ← hlimits.bytes s]
    have hok := h.inv.shards s
    refine ⟨chains_perm hok, hok.lruNodup, fun id hid => ?_, (h.tracked s).keys, hok.counted,
      (h.tracked s).bytes, (hwithin s).1, (hwithin s).2⟩
    obtain ⟨b, hb⟩ := (hok.lru id).mp hid
    obtain ⟨e, he, -⟩ := hok.linked b id hb
    rw [he]
    rfl

/-- Every state of a run is consistent. -/
def RunConsistent (new c : Cache) : List Event → Prop
  | [] => Consistent new c
  | event :: events => Consistent new c ∧ RunConsistent new (step c event) events

def RunFits (c : Cache) : List Event → Prop
  | [] => True
  | event :: events => StepFits c event ∧ RunFits (step c event) events

theorem RunConsistent.start {new c : Cache} {events : List Event}
    (h : RunConsistent new c events) : Consistent new c := by
  cases events with
  | nil => exact h
  | cons event events => exact h.1

theorem runConsistent_iff {new c : Cache} (h : Sound c) (hlimits : SameLimits new c)
    (hwithin : ∀ s, Within (c.shards s)) (events : List Event) :
    RunConsistent new c events ↔ RunFits c events := by
  induction events generalizing c with
  | nil => exact iff_of_true ((consistent_iff h hlimits).mpr hwithin) trivial
  | cons event events ih =>
    obtain ⟨hsound, hstep⟩ := h.step event
    have hlimits' := hlimits.trans (step_limits c event)
    constructor
    · intro hrun
      have hnext := (consistent_iff hsound hlimits').mp hrun.2.start
      exact ⟨(hstep hwithin).mp hnext, (ih hsound hlimits' hnext).mp hrun.2⟩
    · intro hfits
      have hnext := (hstep hwithin).mpr hfits.1
      exact ⟨(consistent_iff h hlimits).mpr hwithin, (ih hsound hlimits' hnext).mpr hfits.2⟩

theorem sound_new (maxBytes maxEntries : ℕ) (ttl : ℤ) :
    Sound (responseCacheNew maxBytes maxEntries ttl) where
  inv := inv_new maxBytes maxEntries ttl
  tracked := fun _ => ⟨List.nodup_nil, rfl⟩
  positive := by
    intro s
    unfold responseCacheNew
    dsimp only
    generalize (if 0 < maxEntries then maxEntries else 20000) / 16 = entries
    split
    · omega
    · omega

/-- In every run of a new cache, every state is consistent exactly if every body that is set
for a key with an entry fits in its shard, or is alone there. -/
theorem consistent_run_iff (maxBytes maxEntries : ℕ) (ttl : ℤ) (events : List Event) :
    RunConsistent (responseCacheNew maxBytes maxEntries ttl)
        (responseCacheNew maxBytes maxEntries ttl) events ↔
      RunFits (responseCacheNew maxBytes maxEntries ttl) events :=
  runConsistent_iff (sound_new maxBytes maxEntries ttl) (SameLimits.refl _)
    (fun _ => ⟨Nat.zero_le _, Or.inl (Nat.zero_le _)⟩) events

/-- A key with the zeros of the first shard. -/
def keyed (last : Char) (body : Text.Bytes) : StoreRequest :=
  { storeOf body with key := ⟨['0', '0', last], by simp⟩ }

/-- Two entries of one byte in a shard of ten bytes, and then a longer body for the first. -/
theorem grown_not_consistent : ¬RunConsistent (responseCacheNew 160 0 0) (responseCacheNew 160 0 0)
    [.set (keyed 'a' ['x']), .set (keyed 'b' ['x']), .set (keyed 'a' (List.replicate 20 'x'))] := by
  intro h
  have hlimit := (h.2.2.2 0).bytesLimit
  revert hlimit
  decide +kernel

end Aigate.ResponseCacheLimits
