import Aigate.Text

/-!
# The response cache

Sixteen shards, each with hash chains, an LRU list and a lock of its own. A reader holds an
entry by a reference count: an entry that leaves its shard while it is held stays behind as
a tombstone, which its last reader frees. Entries and bodies are allocations with an
identity; every locked section and every release is one step.
-/
namespace Aigate.ResponseCache
open Text

/-- A key, as the callers' `char cache_key[65]` holds it. -/
structure CacheKey where
  text : Bytes
  fits : text.length ≤ 64
  deriving DecidableEq

structure Entry where
  cacheKey : CacheKey
  model : Bytes
  bodyId : ℕ
  responseBody : Bytes
  statusCode : ℤ
  promptTokens : ℤ
  completionTokens : ℤ
  createdAt : ℤ
  expiresAt : ℤ
  refCount : ℤ

/-- The chains and the LRU list hold the identities of entries, head first. -/
structure Shard where
  buckets : Fin 1024 → List ℕ
  lru : List ℕ
  count : ℕ
  bytesUsed : ℕ
  maxCount : ℕ
  maxBytes : ℕ
  hits : ℕ
  misses : ℕ

/-- What a reader got: the entry, and the body that it held then. -/
structure Handle where
  entry : ℕ
  bodyId : ℕ
  body : Bytes
  deriving DecidableEq

/-- The shards, the live entries, the next identities, the bodies freed so far, and the
readers that have not released their entry. -/
structure Cache where
  shards : Fin 16 → Shard
  heap : ℕ → Option Entry
  nextEntry : ℕ
  nextBody : ℕ
  freed : List ℕ
  readers : List Handle
  enabled : Bool
  defaultTtlSec : ℤ
  savedPromptTokens : ℤ
  savedCompletionTokens : ℤ

/-- A hexadecimal digit; any other character counts as zero. -/
def nibble (c : Char) : ℕ :=
  if '0' ≤ c ∧ c ≤ '9' then c.toNat - 48
  else if 'a' ≤ c ∧ c ≤ 'f' then c.toNat - 87
  else if 'A' ≤ c ∧ c ≤ 'F' then c.toNat - 55
  else 0

def shardIndex (key : CacheKey) : Fin 16 :=
  match key.text with
  | c₀ :: c₁ :: _ => Fin.ofNat 16 (nibble c₀ * 16 + nibble c₁)
  | _ => 0

local instance neZeroBuckets : NeZero 1024 := ⟨by decide⟩

def bucketIndex (key : CacheKey) : Fin 1024 := Fin.ofNat 1024 (djb2 5381 key.text)

/-- `response_cache_new`: a zero asks for the default. -/
def responseCacheNew (maxBytes maxEntries : ℕ) (defaultTtlSec : ℤ) : Cache :=
  let bytes := (if 0 < maxBytes then maxBytes else 134217728) / 16
  let entries := (if 0 < maxEntries then maxEntries else 20000) / 16
  { shards := fun _ =>
      { buckets := fun _ => []
        lru := []
        count := 0
        bytesUsed := 0
        maxCount := if entries = 0 then 100 else entries
        maxBytes := if bytes = 0 then 1048576 else bytes
        hits := 0
        misses := 0 }
    heap := fun _ => none
    nextEntry := 0
    nextBody := 0
    freed := []
    readers := []
    enabled := true
    defaultTtlSec := if 0 < defaultTtlSec then defaultTtlSec else 3600
    savedPromptTokens := 0
    savedCompletionTokens := 0 }

def Cache.setShard (c : Cache) (s : Fin 16) (shard : Shard) : Cache :=
  { c with shards := Function.update c.shards s shard }

/-- The walk along the chain of a key. -/
def findEntry (c : Cache) (key : CacheKey) : Option (ℕ × Entry) :=
  ((c.shards (shardIndex key)).buckets (bucketIndex key)).findSome? fun id =>
    (c.heap id).bind fun e => if e.cacheKey = key then some (id, e) else none

/-- `destroy_entry_internal`: free the entry, or leave a tombstone to its readers. -/
def destroyEntry (c : Cache) (id : ℕ) (e : Entry) : Cache :=
  if e.refCount ≤ 0 then
    { c with heap := Function.update c.heap id none, freed := e.bodyId :: c.freed }
  else { c with heap := Function.update c.heap id (some { e with statusCode := -1 }) }

/-- `lru_remove` and the removal from the chain. -/
def Shard.unlink (shard : Shard) (id : ℕ) (e : Entry) (bytesUsed : ℕ) : Shard :=
  { shard with
    buckets := Function.update shard.buckets (bucketIndex e.cacheKey)
      ((shard.buckets (bucketIndex e.cacheKey)).erase id)
    lru := shard.lru.erase id
    count := shard.count - 1
    bytesUsed := bytesUsed }

/-- Unlink an entry and destroy it. -/
def dropEntry (c : Cache) (s : Fin 16) (id : ℕ) (e : Entry) (bytesUsed : ℕ) : Cache :=
  destroyEntry (c.setShard s ((c.shards s).unlink id e bytesUsed)) id e

/-- `evict_one_lru_locked`. -/
def evictOneLru (c : Cache) (s : Fin 16) : Cache :=
  match (c.shards s).lru.getLast? with
  | none => c
  | some id =>
    match c.heap id with
    | none => c
    | some e => dropEntry c s id e ((c.shards s).bytesUsed - e.responseBody.length)

/-- The loop that makes room for a new entry of `len` bytes; each pass takes one entry off
the LRU list, and an empty shard has room. -/
def makeRoom (s : Fin 16) (len : ℕ) : ℕ → Cache → Cache
  | 0, c => c
  | passes + 1, c =>
    let shard := c.shards s
    if shard.maxCount ≤ shard.count ∨ shard.maxBytes < shard.bytesUsed + len ∧ 0 < shard.count then
      makeRoom s len passes (evictOneLru c s)
    else c

def Shard.touch (shard : Shard) (id : ℕ) : Shard := { shard with lru := id :: shard.lru.erase id }

/-- `response_cache_get`; an expired entry is dropped. -/
def responseCacheGet (c : Cache) (key : CacheKey) (now : ℤ) : Cache × Option Handle :=
  if c.enabled = false ∨ key.text = [] then (c, none)
  else
    let s := shardIndex key
    let shard := c.shards s
    match findEntry c key with
    | none => (c.setShard s { shard with misses := shard.misses + 1 }, none)
    | some (id, e) =>
      if e.expiresAt ≤ now then
        (dropEntry (c.setShard s { shard with misses := shard.misses + 1 }) s id e
          (shard.bytesUsed - e.responseBody.length), none)
      else
        let reader : Handle := ⟨id, e.bodyId, e.responseBody⟩
        ({ c.setShard s { shard.touch id with hits := shard.hits + 1 } with
            heap := Function.update c.heap id (some { e with refCount := e.refCount + 1 })
            readers := reader :: c.readers
            savedPromptTokens := c.savedPromptTokens + e.promptTokens
            savedCompletionTokens := c.savedCompletionTokens + e.completionTokens }, some reader)

/-- `response_cache_release_entry`: the last reader of a tombstone frees it. -/
def responseCacheReleaseEntry (c : Cache) (h : Handle) : Cache :=
  match c.heap h.entry with
  | none => c
  | some e =>
    if e.refCount ≤ 1 ∧ e.statusCode = -1 then
      { c with
        heap := Function.update c.heap h.entry none
        freed := e.bodyId :: c.freed
        readers := c.readers.erase h }
    else
      { c with
        heap := Function.update c.heap h.entry (some { e with refCount := e.refCount - 1 })
        readers := c.readers.erase h }

/-- The arguments of `response_cache_set`, the time, and whether its allocations succeed. -/
structure StoreRequest where
  key : CacheKey
  model : Option Bytes
  body : Bytes
  promptTokens : ℤ
  completionTokens : ℤ
  ttlSec : ℤ
  now : ℤ
  allocated : Bool

def expiry (c : Cache) (r : StoreRequest) : ℤ :=
  r.now + if 0 < r.ttlSec then r.ttlSec else c.defaultTtlSec

/-- The entry of the key gets a new body in place, and the old one is freed. -/
def replaceEntry (c : Cache) (r : StoreRequest) (id : ℕ) (e : Entry) : Cache :=
  let s := shardIndex e.cacheKey
  let shard := c.shards s
  let kept := if e.responseBody.length ≤ shard.bytesUsed then
    shard.bytesUsed - e.responseBody.length else shard.bytesUsed
  { c.setShard s { shard.touch id with bytesUsed := kept + r.body.length } with
    heap := Function.update c.heap id (some { e with
      bodyId := c.nextBody
      responseBody := r.body
      statusCode := 200
      promptTokens := r.promptTokens
      completionTokens := r.completionTokens
      createdAt := r.now
      expiresAt := expiry c r })
    nextBody := c.nextBody + 1
    freed := e.bodyId :: c.freed }

/-- A new entry at the head of its chain and of the LRU list. -/
def insertEntry (c : Cache) (r : StoreRequest) : Cache :=
  let s := shardIndex r.key
  let shard := c.shards s
  let b := bucketIndex r.key
  { c.setShard s { shard with
      buckets := Function.update shard.buckets b (c.nextEntry :: shard.buckets b)
      lru := c.nextEntry :: shard.lru
      count := shard.count + 1
      bytesUsed := shard.bytesUsed + r.body.length } with
    heap := Function.update c.heap c.nextEntry (some
      { cacheKey := r.key
        model := (r.model.getD []).take 63
        bodyId := c.nextBody
        responseBody := r.body
        statusCode := 200
        promptTokens := r.promptTokens
        completionTokens := r.completionTokens
        createdAt := r.now
        expiresAt := expiry c r
        refCount := 0 })
    nextEntry := c.nextEntry + 1
    nextBody := c.nextBody + 1 }

/-- `response_cache_set`. -/
def responseCacheSet (c : Cache) (r : StoreRequest) : Cache × ℤ :=
  if c.enabled = false ∨ r.body = [] ∨ 1048576 < r.body.length then (c, -1)
  else
    match findEntry c r.key with
    | some (id, e) => if r.allocated = false then (c, -1) else (replaceEntry c r id e, 0)
    | none =>
      let s := shardIndex r.key
      let c := makeRoom s r.body.length (c.shards s).lru.length c
      if r.allocated = false then (c, -1) else (insertEntry c r, 0)

/-- Whether a purge takes the entries of a model; none or an empty one stands for all. -/
def purges (model : Option Bytes) (e : Entry) : Bool :=
  decide (model.getD [] = []) || decide (some e.model = model)

/-- The visit of `response_cache_purge` to one entry. -/
def purgeEntry (s : Fin 16) (model : Option Bytes) (c : Cache) (id : ℕ) : Cache :=
  match c.heap id with
  | none => c
  | some e =>
    if purges model e then
      let used := (c.shards s).bytesUsed
      dropEntry c s id e
        (if e.responseBody.length ≤ used then used - e.responseBody.length else used)
    else c

/-- The pass of `response_cache_purge` over one shard, chain after chain. -/
def purgeShard (c : Cache) (s : Fin 16) (model : Option Bytes) : Cache :=
  ((List.finRange 1024).flatMap (c.shards s).buckets).foldl (purgeEntry s model) c

/-- The locked sections, and the releases. -/
inductive Event where
  | get (key : CacheKey) (now : ℤ)
  | release (h : Handle)
  | set (r : StoreRequest)
  | purge (s : Fin 16) (model : Option Bytes)

/-- Only a reader that holds an entry releases it. -/
def step (c : Cache) : Event → Cache
  | .get key now => (responseCacheGet c key now).1
  | .release h => if h ∈ c.readers then responseCacheReleaseEntry c h else c
  | .set r => (responseCacheSet c r).1
  | .purge s model => purgeShard c s model

def run (c : Cache) (events : List Event) : Cache := events.foldl step c

end Aigate.ResponseCache
