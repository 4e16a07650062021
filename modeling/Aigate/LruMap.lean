import Aigate.PointerChains
import Aigate.RecencyList
import Aigate.Text

/-!
# The LRU map

The hash table with chains and the recency list of `lru_t`, over the same nodes. The memory is
one map for each field of `struct lru_node`, and a node is an address. A loop is given as many
steps as there are entries; without an end within them the result is none.
-/
namespace Aigate.LruMap
open Text PointerChains RecencyList

/-- A value of the owner. The null pointer is 0. -/
abbrev Ptr := ℕ

/-- `malloc` never hands out memory that is in use. -/
structure Allocator where
  malloc : List ℕ → ℕ
  fresh : ∀ live, malloc live ∉ live

/-- `struct lru` and the nodes. `live` has the nodes that are allocated, and `evicted` the values
that were handed to `on_evict`, if the map was given one. -/
structure Lru where
  capacity : ℕ
  count : ℕ
  onEvict : Bool
  head : Option ℕ
  tail : Option ℕ
  table : ℕ → Option ℕ
  tableCap : ℕ
  key : ℕ → Bytes
  val : ℕ → Ptr
  prev : ℕ → Option ℕ
  next : ℕ → Option ℕ
  nextBkt : ℕ → Option ℕ
  h : ℕ → ℕ
  live : List ℕ
  evicted : List Ptr

/-- FNV-1a modulo the number of buckets. -/
def fnv1a (s : Bytes) (cap : ℕ) : ℕ :=
  s.foldl (fun h c => (h ^^^ c.toNat) * 1099511628211 % 2 ^ 64) 1469598103934665603 % cap

def nextPow2From (n : ℕ) : ℕ → ℕ → ℕ
  | 0, p => p
  | steps + 1, p => if p < n then nextPow2From n steps (2 * p) else p

/-- The loop doubles from 4 and ends before its bound is used up. -/
def nextPow2 (n : ℕ) : ℕ := nextPow2From n n 4

def lruNew (capacity : ℕ) (onEvict : Bool) : Lru where
  capacity := if capacity < 1 then 1 else capacity
  count := 0
  onEvict := onEvict
  head := none
  tail := none
  table := fun _ => none
  tableCap := nextPow2 ((if capacity < 1 then 1 else capacity) * 2)
  key := fun _ => []
  val := fun _ => 0
  prev := fun _ => none
  next := fun _ => none
  nextBkt := fun _ => none
  h := fun _ => 0
  live := []
  evicted := []

/-! ### The recency list -/

def recLinkHead (s : Lru) (n : ℕ) : Lru :=
  let s := { s with
    next := Function.update s.next n s.head
    prev := Function.update s.prev n none }
  let s := match s.head with
    | some a => { s with prev := Function.update s.prev a (some n) }
    | none => s
  let s := { s with head := some n }
  match s.tail with
  | none => { s with tail := some n }
  | some _ => s

def recUnlink (s : Lru) (n : ℕ) : Lru :=
  let s := match s.prev n with
    | some p => { s with next := Function.update s.next p (s.next n) }
    | none => { s with head := s.next n }
  let s := match s.next n with
    | some q => { s with prev := Function.update s.prev q (s.prev n) }
    | none => { s with tail := s.prev n }
  { s with
    prev := Function.update s.prev n none
    next := Function.update s.next n none }

def recMoveToHead (s : Lru) (n : ℕ) : Lru :=
  if s.head = some n then s else recLinkHead (recUnlink s n) n

/-! ### The table -/

def findNode (s : Lru) (k : Bytes) : Option (Option ℕ) :=
  if s.tableCap = 0 then some none
  else walk s.nextBkt (fun a => s.key a = k) s.count (s.table (fnv1a k s.tableCap))

def bktInsert (s : Lru) (n : ℕ) : Lru :=
  let i := fnv1a (s.key n) s.tableCap
  { s with
    h := Function.update s.h n i
    nextBkt := Function.update s.nextBkt n (s.table i)
    table := Function.update s.table i (some n) }

/-- The link that leads to the node, in the table or in another node, is led past it. Without
one the loop runs off the chain. -/
def bktRemove (s : Lru) (n : ℕ) : Option Lru :=
  let past := s.nextBkt n
  if s.table (s.h n) = some n then
    some { s with
      table := Function.update s.table (s.h n) past
      nextBkt := Function.update s.nextBkt n none }
  else
    match walk s.nextBkt (fun a => s.nextBkt a = some n) s.count (s.table (s.h n)) with
    | some (some a) =>
      some { s with
        nextBkt := Function.update (Function.update s.nextBkt a past) n none }
    | _ => none

/-! ### The operations -/

def destroyNode (s : Lru) (n : ℕ) : Lru := { s with live := s.live.filter (· ≠ n) }

/-- The callback, if there is one. -/
def handOver (s : Lru) (v : Ptr) : Lru :=
  if s.onEvict then { s with evicted := s.evicted ++ [v] } else s

/-- A node is taken out of both structures and destroyed. -/
def dropNode (s : Lru) (n : ℕ) : Option Lru :=
  (bktRemove (recUnlink s n) n).map fun s =>
    handOver { destroyNode s n with count := s.count - 1 } (s.val n)

def lruGet (s : Lru) (k : Bytes) : Option (Lru × Ptr) :=
  (findNode s k).map fun
    | some n => (recMoveToHead s n, s.val n)
    | none => (s, 0)

/-- The victim of a full map. -/
def makeRoom (s : Lru) : Option Lru :=
  if s.count = s.capacity then
    match s.tail with
    | some victim => dropNode s victim
    | none => some s
  else some s

def lruPut (m : Allocator) (s : Lru) (k : Bytes) (v : Ptr) : Option Lru :=
  (findNode s k).bind fun
    | some old =>
      some (handOver (recMoveToHead { s with val := Function.update s.val old v } old) (s.val old))
    | none =>
      let n := m.malloc s.live
      let s := { s with
        live := n :: s.live
        key := Function.update s.key n k
        val := Function.update s.val n v
        prev := Function.update s.prev n none
        next := Function.update s.next n none
        nextBkt := Function.update s.nextBkt n none }
      (makeRoom s).map fun s =>
        let s := bktInsert (recLinkHead s n) n
        { s with count := s.count + 1 }

def lruInvalidate (s : Lru) (k : Bytes) : Option (Lru × Bool) :=
  (findNode s k).bind fun
    | some n => (dropNode s n).map fun s => (s, true)
    | none => some (s, false)

/-- `lru_free`: what has been handed to `on_evict` in the end. -/
def lruFree (s : Lru) : Option (List Ptr) :=
  (cells s.next s.count s.head).map fun nodes =>
    if s.onEvict then s.evicted ++ nodes.map s.val else s.evicted

def step (m : Allocator) (s : Lru) : Op Bytes Ptr → Option Lru
  | .put k v => lruPut m s k v
  | .get k => (lruGet s k).map (·.1)
  | .remove k => (lruInvalidate s k).map (·.1)

/-- The map after a history, whose first operation is the last one that was done. -/
def run (m : Allocator) (s : Lru) : List (Op Bytes Ptr) → Option Lru
  | [] => some s
  | op :: history => (run m s history).bind fun s => step m s op

end Aigate.LruMap
