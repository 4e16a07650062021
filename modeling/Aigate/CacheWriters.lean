import Aigate.ResponseCacheReaders

/-!
# Who wrote the bodies of the response cache

A cache that remembers of every body which store it came from, and who stored it. Whatever
happens to the entries in between, a reader of a key gets a body that was stored under it.
-/
namespace Aigate.CacheWriters
open Text ResponseCache ResponseCacheReaders

/-- The entries of the second cache are in the first one, with the same keys and bodies. -/
structure Descends (c c' : Cache) : Prop where
  nextBody : c'.nextBody = c.nextBody
  entry : ∀ id e', c'.heap id = some e' → ∃ e, c.heap id = some e ∧ e'.cacheKey = e.cacheKey ∧
    e'.bodyId = e.bodyId ∧ e'.responseBody = e.responseBody

theorem Descends.refl (c : Cache) : Descends c c := ⟨rfl, fun _ e h => ⟨e, h, rfl, rfl, rfl⟩⟩

theorem Descends.trans {c c' c'' : Cache} (h : Descends c c') (h' : Descends c' c'') :
    Descends c c'' := by
  refine ⟨h'.nextBody.trans h.nextBody, fun id e'' he'' => ?_⟩
  obtain ⟨e', he', hkey', hid', hbody'⟩ := h'.entry id e'' he''
  obtain ⟨e, he, hkey, hid, hbody⟩ := h.entry id e' he'
  exact ⟨e, he, hkey'.trans hkey, hid'.trans hid, hbody'.trans hbody⟩

/-- An entry goes, or is kept with its key and its body. -/
theorem descends_update {c c' : Cache} {id : ℕ} {e : Entry} (he : c.heap id = some e)
    {v : Option Entry} (hnext : c'.nextBody = c.nextBody)
    (hheap : c'.heap = Function.update c.heap id v)
    (hv : ∀ e' ∈ v, e'.cacheKey = e.cacheKey ∧ e'.bodyId = e.bodyId ∧
      e'.responseBody = e.responseBody) : Descends c c' := by
  refine ⟨hnext, fun j e' hj => ?_⟩
  rw [hheap, Function.update_apply] at hj
  split at hj
  · rename_i heq
    subst heq
    exact ⟨e, he, hv e' hj⟩
  · exact ⟨e', hj, rfl, rfl, rfl⟩

theorem descends_drop {c : Cache} {id : ℕ} {e : Entry} (he : c.heap id = some e) (s : Fin 16)
    (n : ℕ) : Descends c (dropEntry c s id e n) := by
  unfold dropEntry destroyEntry
  split
  · exact descends_update he rfl rfl (by simp)
  · exact descends_update he rfl rfl (by simp)

theorem descends_evict (c : Cache) (s : Fin 16) : Descends c (evictOneLru c s) := by
  unfold evictOneLru
  cases (c.shards s).lru.getLast? with
  | none => exact Descends.refl c
  | some id =>
    dsimp only
    cases he : c.heap id with
    | none => exact Descends.refl c
    | some e => exact descends_drop he s _

theorem descends_room (s : Fin 16) (len passes : ℕ) (c : Cache) :
    Descends c (makeRoom s len passes c) := by
  induction passes generalizing c with
  | zero => exact Descends.refl c
  | succ passes ih =>
    rw [makeRoom]
    split
    · exact (descends_evict c s).trans (ih _)
    · exact Descends.refl c

theorem descends_purge (c : Cache) (s : Fin 16) (model : Option Bytes) :
    Descends c (purgeShard c s model) := by
  have hvisit : ∀ (ids : List ℕ) (c : Cache), Descends c (ids.foldl (purgeEntry s model) c) := by
    intro ids
    induction ids with
    | nil => exact Descends.refl
    | cons id ids ih =>
      intro c
      refine Descends.trans ?_ (ih _)
      unfold purgeEntry
      cases he : c.heap id with
      | none => exact Descends.refl c
      | some e =>
        dsimp only
        split
        · exact descends_drop he s _
        · exact Descends.refl c
  exact hvisit _ c

theorem descends_release (c : Cache) (h : Handle) : Descends c (responseCacheReleaseEntry c h) := by
  unfold responseCacheReleaseEntry
  cases he : c.heap h.entry with
  | none => exact Descends.refl c
  | some e =>
    dsimp only
    split
    · exact descends_update he rfl rfl (by simp)
    · exact descends_update he rfl rfl (by simp)

/-- A reader gets the body of an entry of its key. -/
theorem descends_get (c : Cache) (key : CacheKey) (now : ℤ) :
    Descends c (responseCacheGet c key now).1 ∧
      ∀ h ∈ (responseCacheGet c key now).2, ∃ e, c.heap h.entry = some e ∧ e.cacheKey = key ∧
        e.bodyId = h.bodyId ∧ e.responseBody = h.body := by
  unfold responseCacheGet
  split
  · exact ⟨Descends.refl c, by simp⟩
  · dsimp only
    cases hfind : findEntry c key with
    | none => exact ⟨⟨rfl, (Descends.refl c).entry⟩, by simp⟩
    | some found =>
      obtain ⟨id, e⟩ := found
      obtain ⟨he, hkey, -⟩ := findEntry_some hfind
      dsimp only
      split
      · have hcounted : ∀ shard, Descends c (c.setShard (shardIndex key) shard) :=
          fun _ => ⟨rfl, (Descends.refl c).entry⟩
        exact ⟨(hcounted _).trans (descends_drop (c := c.setShard _ _) he _ _), by simp⟩
      · refine ⟨descends_update he rfl rfl (by simp), fun h hh => ?_⟩
        obtain rfl := Option.some.inj hh
        exact ⟨e, he, hkey, rfl, rfl⟩

/-- A cache, and of every body that was stored the request and who made it. -/
structure TaggedCache (W : Type*) where
  cache : Cache
  writer : ℕ → Option (StoreRequest × W)

namespace TaggedCache

variable {W : Type*}

def new (W : Type*) (maxBytes maxEntries : ℕ) (ttl : ℤ) : TaggedCache W :=
  ⟨responseCacheNew maxBytes maxEntries ttl, fun _ => none⟩

def get (t : TaggedCache W) (key : CacheKey) (now : ℤ) : TaggedCache W × Option Handle :=
  ({ t with cache := (responseCacheGet t.cache key now).1 }, (responseCacheGet t.cache key now).2)

def release (t : TaggedCache W) (h : Handle) : TaggedCache W :=
  { t with cache := responseCacheReleaseEntry t.cache h }

def purge (t : TaggedCache W) (s : Fin 16) (model : Option Bytes) : TaggedCache W :=
  { t with cache := purgeShard t.cache s model }

/-- A store that succeeds brings the next body. -/
def set (t : TaggedCache W) (r : StoreRequest) (w : W) : TaggedCache W :=
  { cache := (responseCacheSet t.cache r).1
    writer := if (responseCacheSet t.cache r).2 = 0 then
      Function.update t.writer t.cache.nextBody (some (r, w)) else t.writer }

/-- Every body in the cache has its writer. -/
structure Valid (t : TaggedCache W) : Prop where
  fresh : ∀ id e, t.cache.heap id = some e → e.bodyId < t.cache.nextBody
  written : ∀ id e, t.cache.heap id = some e → ∃ r w, t.writer e.bodyId = some (r, w) ∧
    r.key = e.cacheKey ∧ r.body = e.responseBody

theorem valid_new (maxBytes maxEntries : ℕ) (ttl : ℤ) : (new W maxBytes maxEntries ttl).Valid :=
  ⟨fun _ _ h => (Option.some_ne_none _ h.symm).elim,
    fun _ _ h => (Option.some_ne_none _ h.symm).elim⟩

theorem Valid.descends {t : TaggedCache W} (h : t.Valid) {c : Cache} (hc : Descends t.cache c) :
    Valid { t with cache := c } := by
  refine ⟨fun id e he => ?_, fun id e he => ?_⟩
  · obtain ⟨f, hf, -, hid, -⟩ := hc.entry id e he
    rw [hc.nextBody, hid]
    exact h.fresh id f hf
  · obtain ⟨f, hf, hkey, hid, hbody⟩ := hc.entry id e he
    rw [hkey, hid, hbody]
    exact h.written id f hf

theorem Valid.get {t : TaggedCache W} (h : t.Valid) (key : CacheKey) (now : ℤ) :
    (t.get key now).1.Valid := h.descends (descends_get t.cache key now).1

theorem Valid.release {t : TaggedCache W} (h : t.Valid) (r : Handle) : (t.release r).Valid :=
  h.descends (descends_release t.cache r)

theorem Valid.purge {t : TaggedCache W} (h : t.Valid) (s : Fin 16) (model : Option Bytes) :
    (t.purge s model).Valid := h.descends (descends_purge t.cache s model)

/-- What a reader of a key gets was stored under it. -/
theorem Valid.hit {t : TaggedCache W} (h : t.Valid) {key : CacheKey} {now : ℤ} {r : Handle}
    (hget : (t.get key now).2 = some r) :
    ∃ s w, t.writer r.bodyId = some (s, w) ∧ s.key = key ∧ s.body = r.body := by
  obtain ⟨e, he, hkey, hid, hbody⟩ := (descends_get t.cache key now).2 r hget
  obtain ⟨s, w, hw, hskey, hsbody⟩ := h.written r.entry e he
  exact ⟨s, w, hid ▸ hw, hskey.trans hkey, hsbody.trans hbody⟩

/-- The entry with the next body, among those that were there before. -/
theorem Valid.store {t : TaggedCache W} (h : t.Valid) {c : Cache} {r : StoreRequest} {w : W}
    (hnext : c.nextBody = t.cache.nextBody + 1)
    (hentry : ∀ id e, c.heap id = some e →
      (∃ f, t.cache.heap id = some f ∧ e.cacheKey = f.cacheKey ∧ e.bodyId = f.bodyId ∧
          e.responseBody = f.responseBody) ∨
        (e.cacheKey = r.key ∧ e.bodyId = t.cache.nextBody ∧ e.responseBody = r.body)) :
    Valid ⟨c, Function.update t.writer t.cache.nextBody (some (r, w))⟩ := by
  refine ⟨fun id e he => ?_, fun id e he => ?_⟩
  · rcases hentry id e he with ⟨f, hf, -, hid, -⟩ | ⟨-, hid, -⟩
    · have := h.fresh id f hf
      rw [hnext, hid]
      omega
    · rw [hnext, hid]
      exact Nat.lt_succ_self _
  · rcases hentry id e he with ⟨f, hf, hkey, hid, hbody⟩ | ⟨hkey, hid, hbody⟩
    · obtain ⟨s, v, hv, hskey, hsbody⟩ := h.written id f hf
      refine ⟨s, v, ?_, hskey.trans hkey.symm, hsbody.trans hbody.symm⟩
      rw [hid]
      exact (Function.update_of_ne (h.fresh id f hf).ne _ _).trans hv
    · refine ⟨r, w, ?_, hkey.symm, hbody.symm⟩
      rw [hid]
      exact Function.update_self _ _ _

theorem Valid.set {t : TaggedCache W} (h : t.Valid) (r : StoreRequest) (w : W) :
    (t.set r w).Valid := by
  unfold TaggedCache.set responseCacheSet
  split
  · exact h
  · cases hfind : findEntry t.cache r.key with
    | some found =>
      obtain ⟨id, e⟩ := found
      obtain ⟨he, hkey, -⟩ := findEntry_some hfind
      dsimp only
      split
      · exact h
      · refine h.store rfl fun j f hf => ?_
        have hj := (Function.update_apply t.cache.heap id _ j).symm.trans hf
        split at hj
        · obtain rfl := Option.some.inj hj
          exact Or.inr ⟨hkey, rfl, rfl⟩
        · exact Or.inl ⟨f, hj, rfl, rfl, rfl⟩
    | none =>
      dsimp only
      have hroom := descends_room (shardIndex r.key) r.body.length
        (t.cache.shards (shardIndex r.key)).lru.length t.cache
      split
      · exact h.descends hroom
      · refine h.store (congrArg (· + 1) hroom.nextBody) fun j f hf => ?_
        have hj := (Function.update_apply _ _ _ j).symm.trans hf
        split at hj
        · obtain rfl := Option.some.inj hj
          exact Or.inr ⟨rfl, hroom.nextBody, rfl⟩
        · exact Or.inl (hroom.entry j f hj)

/-- Of the writers there are after a store, all but its own were there before. -/
theorem writer_set {t : TaggedCache W} {r : StoreRequest} {w : W} {b : ℕ} {s : StoreRequest × W}
    (h : (t.set r w).writer b = some s) : t.writer b = some s ∨ s = (r, w) := by
  unfold TaggedCache.set at h
  dsimp only at h
  split at h
  · rw [Function.update_apply] at h
    split at h
    · exact Or.inr (Option.some.inj h).symm
    · exact Or.inl h
  · exact Or.inl h

end TaggedCache

end Aigate.CacheWriters
