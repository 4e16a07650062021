import Aigate.CacheWriters
import Aigate.Pipelines
import Aigate.ResponseCacheKey
import Aigate.StreamCache

/-!
# Requests that share the response cache

Requests to `/v1/chat/completions` and to `/v1/responses` look for an answer under their
fingerprint, and store the one that they get from upstream under it. The lookups and the
stores of different requests come in any order, with readers that release their entries and
purges in between.
-/
namespace Aigate.SharedCache
open Text JsonTree JsonText ResponseCache ResponseCacheKey StreamCache CacheWriters

/-- A request as it comes to the cache: the model and the body that it has then, and the
header that speaks of the cache. -/
structure CacheRequest where
  endpoint : Pipelines.Endpoint
  model : Bytes
  body : Bytes
  cacheControl : Option Bytes

def noStore (q : CacheRequest) : Bool :=
  match q.cacheControl with
  | none => false
  | some cc => occursIn (ascii "no-store") cc

def bypassCache (q : CacheRequest) : Bool :=
  match q.cacheControl with
  | none => false
  | some cc =>
    occursIn (ascii "no-cache") cc || occursIn (ascii "max-age=0") cc ||
      decide (cc = ascii "true") || decide (cc = ascii "1") || noStore q

/-- The `cache_key` of a request, in its buffer of 65 bytes. -/
def cacheKey (sha256 : Bytes → Bytes) (q : CacheRequest) : Option CacheKey :=
  if bypassCache q then none
  else (responseCacheFingerprint sha256 q.model q.body).map fun text =>
    ⟨text.take 64, List.length_take_le _ _⟩

/-- What comes back from upstream: an answer as a whole, or a stream. -/
inductive Answer where
  | whole (status : ℤ) (body : Option Bytes) (ptok ctok : ℤ)
  | stream (s : StreamRun)

/-- The arguments of the store of an answer, if there is one. -/
def storeRequest (sha256 : Bytes → Bytes) (q : CacheRequest) (a : Answer) (now : ℤ)
    (allocated : Bool) : Option StoreRequest :=
  if noStore q then none
  else
    (cacheKey sha256 q).bind fun key =>
      match a with
      | .whole status body ptok ctok =>
        if status = 200 then
          (body.filter fun b => b.length ≤ 1048576).map fun b =>
            ⟨key, some q.model, b, ptok, ctok, 0, now, allocated⟩
        else none
      | .stream s =>
        (cacheStoreStream s).map fun b =>
          ⟨key, some q.model, b, s.ptok.toInt, s.ctok.toInt, 0, now, allocated⟩

/-- The cache, the requests that wait for their answer, and those that were answered from the
cache, with who stored the entry. -/
structure Gateway where
  cached : TaggedCache ℕ
  waiting : List ℕ
  answered : List (ℕ × Option ℕ)

inductive Event where
  | lookup (i : ℕ) (now : ℤ)
  | store (i : ℕ) (a : Answer) (now : ℤ) (allocated : Bool)
  | release (h : Handle)
  | purge (s : Fin 16) (model : Option Bytes)

variable (sha256 : Bytes → Bytes) (requests : ℕ → CacheRequest)

/-- A request looks for an answer, and waits for one from upstream if there is none. -/
def lookup (g : Gateway) (i : ℕ) (now : ℤ) : Gateway :=
  match cacheKey sha256 (requests i) with
  | none => { g with waiting := i :: g.waiting }
  | some key =>
    match (g.cached.get key now).2 with
    | none => { g with cached := (g.cached.get key now).1, waiting := i :: g.waiting }
    | some h =>
      { g with
        cached := (g.cached.get key now).1
        answered := (i, (g.cached.writer h.bodyId).map Prod.snd) :: g.answered }

/-- The answer of a request that waits for it. -/
def store (g : Gateway) (i : ℕ) (a : Answer) (now : ℤ) (allocated : Bool) : Gateway :=
  if i ∈ g.waiting then
    match storeRequest sha256 (requests i) a now allocated with
    | none => { g with waiting := g.waiting.erase i }
    | some r => { g with cached := g.cached.set r i, waiting := g.waiting.erase i }
  else g

def step (g : Gateway) : Event → Gateway
  | .lookup i now => lookup sha256 requests g i now
  | .store i a now allocated => store sha256 requests g i a now allocated
  | .release h => if h ∈ g.cached.cache.readers then { g with cached := g.cached.release h } else g
  | .purge s model => { g with cached := g.cached.purge s model }

def run (g : Gateway) (events : List Event) : Gateway := events.foldl (step sha256 requests) g

/-- A gateway with a new cache. -/
def start (maxBytes maxEntries : ℕ) (ttl : ℤ) : Gateway := ⟨.new ℕ maxBytes maxEntries ttl, [], []⟩

/-- The request has stored an answer. -/
def HasStored (g : Gateway) (j : ℕ) : Prop := ∃ b r, g.cached.writer b = some (r, j)

/-- The cache knows who stored its bodies, and they were stored under their keys. -/
structure Inv (g : Gateway) : Prop where
  valid : g.cached.Valid
  keys : ∀ b r j, g.cached.writer b = some (r, j) → cacheKey sha256 (requests j) = some r.key

variable {sha256 requests}

theorem storeRequest_key {q : CacheRequest} {a : Answer} {now : ℤ} {allocated : Bool}
    {r : StoreRequest} (h : storeRequest sha256 q a now allocated = some r) :
    cacheKey sha256 q = some r.key := by
  unfold storeRequest at h
  split at h
  · cases h
  · obtain ⟨key, hkey, h⟩ := Option.bind_eq_some_iff.mp h
    cases a with
    | whole status body ptok ctok =>
      dsimp only at h
      split at h
      · obtain ⟨b, -, rfl⟩ := Option.map_eq_some_iff.mp h
        exact hkey
      · cases h
    | stream s =>
      obtain ⟨b, -, rfl⟩ := Option.map_eq_some_iff.mp h
      exact hkey

theorem inv_start (maxBytes maxEntries : ℕ) (ttl : ℤ) :
    Inv sha256 requests (start maxBytes maxEntries ttl) :=
  ⟨TaggedCache.valid_new _ _ _, fun _ _ _ h => by cases h⟩

/-- A hit is on an entry that a request with the same key has stored. -/
theorem Inv.hit {g : Gateway} (h : Inv sha256 requests g) {i : ℕ} {key : CacheKey} {now : ℤ}
    {r : Handle} (hkey : cacheKey sha256 (requests i) = some key)
    (hget : (g.cached.get key now).2 = some r) :
    ∃ s j, g.cached.writer r.bodyId = some (s, j) ∧
      cacheKey sha256 (requests j) = cacheKey sha256 (requests i) ∧ s.body = r.body := by
  obtain ⟨s, j, hwriter, hsame, hbody⟩ := h.valid.hit hget
  refine ⟨s, j, hwriter, ?_, hbody⟩
  rw [h.keys _ _ _ hwriter, hsame, hkey]

theorem Inv.lookup {g : Gateway} (h : Inv sha256 requests g) (i : ℕ) (now : ℤ) :
    Inv sha256 requests (lookup sha256 requests g i now) := by
  unfold SharedCache.lookup
  cases cacheKey sha256 (requests i) with
  | none => exact ⟨h.valid, h.keys⟩
  | some key =>
    dsimp only
    split
    · exact ⟨h.valid.get key now, h.keys⟩
    · exact ⟨h.valid.get key now, h.keys⟩

theorem Inv.store {g : Gateway} (h : Inv sha256 requests g) (i : ℕ) (a : Answer) (now : ℤ)
    (allocated : Bool) : Inv sha256 requests (store sha256 requests g i a now allocated) := by
  unfold SharedCache.store
  split
  · cases hstore : storeRequest sha256 (requests i) a now allocated with
    | none => exact ⟨h.valid, h.keys⟩
    | some r =>
      refine ⟨h.valid.set r i, fun b s j hwriter => ?_⟩
      rcases TaggedCache.writer_set hwriter with hbefore | hnew
      · exact h.keys b s j hbefore
      · obtain ⟨rfl, rfl⟩ := Prod.mk.inj hnew
        exact storeRequest_key hstore
  · exact h

theorem Inv.step {g : Gateway} (h : Inv sha256 requests g) (event : Event) :
    Inv sha256 requests (step sha256 requests g event) := by
  cases event with
  | lookup i now => exact h.lookup i now
  | store i a now allocated => exact h.store i a now allocated
  | release r =>
    rw [SharedCache.step]
    split
    · exact ⟨h.valid.release r, h.keys⟩
    · exact h
  | purge s model => exact ⟨h.valid.purge s model, h.keys⟩

end Aigate.SharedCache
