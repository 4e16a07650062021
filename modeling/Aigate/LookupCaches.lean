import Aigate.KeyStore
import Aigate.ModelRouter
import Aigate.ReadThrough

/-!
# The caches of client keys and of model routes

Both stand in front of PostgreSQL and are read by every request. The cache of keys also keeps
the hashes that have no key. An update of the admin API writes the row and then invalidates
the entry of the cache.
-/
namespace Aigate.LookupCaches
open Text GuardedRuns ReadThrough KeyStore ModelRouter

/-- What the clock and the allocator say to `auth_key_resolve`. -/
structure AuthEnv where
  now : ℤ
  memory : Bool

/-- The result of `auth_key_resolve` for a record, from the cache or from the store. -/
def authKeyResult (now : ℤ) (k : KeyRec) : ℤ :=
  if k.isCanary then -4
  else if k.revoked then -2
  else if ∃ t ∈ k.expiresAt, t < now then -3
  else 0

/-- A record that is revoked or has expired is not cached. -/
def authKeyLoad (env : AuthEnv) (k : KeyRec) : Load :=
  if env.memory = false then .fail
  else if authKeyResult env.now k = 0 ∨ authKeyResult env.now k = -4 then .keep
  else .pass

def authKeyCache : Policy KeyRec AuthEnv := ⟨authKeyLoad, true⟩

/-- Whether the keys of the upstreams can be resolved, and whether there is memory. -/
structure RouterEnv where
  keysResolve : Bool
  memory : Bool

def routeLoad (env : RouterEnv) (_ : Route) : Load :=
  if env.keysResolve = false then .fail
  else if env.memory = false then .fail
  else .keep

def routeCache : Policy Route RouterEnv := ⟨routeLoad, false⟩

/-- The keys by their hash, and the models by their name. -/
structure Gateway where
  keys : Cache Bytes KeyRec
  routes : Cache Bytes Route

inductive Event where
  | key (e : ReadThrough.Event Bytes KeyRec AuthEnv)
  | route (e : ReadThrough.Event Bytes Route RouterEnv)

def step (g : Gateway) : Event → Gateway
  | .key e => { g with keys := ReadThrough.step authKeyCache g.keys e }
  | .route e => { g with routes := ReadThrough.step routeCache g.routes e }

def start (keys : Bytes → Option KeyRec) (routes : Bytes → Option Route) : Gateway :=
  ⟨ReadThrough.start keys, ReadThrough.start routes⟩

/-- Every resolve has returned a row that is not older than the updates whose invalidate was over
when it began. -/
structure Coherent (g : Gateway) : Prop where
  keys : Fresh g.keys
  routes : Fresh g.routes

/-- Nothing is put into a cache that is older than a write which was already removed from it. -/
def StepOk (g : Gateway) : Event → Prop
  | .key e => ReadThrough.StepOk g.keys e
  | .route e => ReadThrough.StepOk g.routes e

theorem coherent_run (keys : Bytes → Option KeyRec) (routes : Bytes → Option Route)
    (events : List Event) (hok : RunOk step StepOk (start keys routes) events) :
    Always step Coherent (start keys routes) events := by
  have hstep : ∀ g e, Inv authKeyCache g.keys ∧ Inv routeCache g.routes → StepOk g e →
      Inv authKeyCache (step g e).keys ∧ Inv routeCache (step g e).routes := by
    intro g e ⟨hkeys, hroutes⟩ he
    cases e with
    | key e => exact ⟨hkeys.step he, hroutes⟩
    | route e => exact ⟨hkeys, hroutes.step he⟩
  have hinv := always_of_runOk hstep ⟨inv_start authKeyCache keys, inv_start routeCache routes⟩ hok
  exact fun n => ⟨(hinv n).1.fresh, (hinv n).2.fresh⟩

/-- What `auth_key_resolve` returns for what it has found. -/
def answerResult (now : ℤ) (s : Stamped KeyRec) : ℤ :=
  match s.row with
  | none => -1
  | some k => authKeyResult now k

/-- A key that is revoked for good is not accepted after its invalidate. -/
theorem Coherent.not_accepted {g : Gateway} (h : Coherent g) {l : Lookup Bytes KeyRec}
    (hl : l ∈ g.keys.lookups) {s : Stamped KeyRec} (hs : l.phase = .done (some s))
    (hrevoked : ∀ v, l.since ≤ v → ∀ k, g.keys.history l.key v = some k → k.revoked) (now : ℤ) :
    answerResult now s ≠ 0 := by
  obtain ⟨hsince, -, hrow⟩ := h.keys l hl s hs
  unfold answerResult
  cases hk : s.row with
  | none => simp
  | some k =>
    have hgone : k.revoked = true := hrevoked s.version hsince k (hrow ▸ hk)
    simp only [authKeyResult, hgone, if_true]
    split <;> decide

/-- A model is sent to a target of a route that it has had since. -/
theorem Coherent.routed {g : Gateway} (h : Coherent g) {l : Lookup Bytes Route}
    (hl : l ∈ g.routes.lookups) {s : Stamped Route} (hs : l.phase = .done (some s)) {r : Route}
    (hr : s.row = some r) : ∃ v, l.since ≤ v ∧ g.routes.history l.key v = some r := by
  obtain ⟨hsince, -, hrow⟩ := h.routes l hl s hs
  exact ⟨s.version, hsince, hrow ▸ hr⟩

def keyHash : Bytes := List.replicate 64 'a'

/-- A key without limits. -/
def clientKey (revoked : Bool) : KeyRec :=
  ⟨1, keyHash, [], [], 0, 0, none, revoked, 0, true, 0, 0, [], 0, false, false, 0⟩

def oneKey (hash : Bytes) : Option KeyRec := if hash = keyHash then some (clientKey false) else none

def noRoutes : Bytes → Option Route := fun _ => none

def advanceKey (i : ℕ) : Event := .key (.advance i false ⟨1700000000, true⟩)

/-- The key is revoked and invalidated before it is asked for. -/
def revokedBefore : List Event :=
  [.key (.write keyHash (some (clientKey true))), .key (.invalidate 0), .key (.invalidate 0),
    .key (.lookup keyHash), advanceKey 0, advanceKey 0, advanceKey 0]

/-- The key is revoked and invalidated after a first resolve has read it from the store and
before that resolve puts it into the cache; a second one finds it there. -/
def revokedMeanwhile : List Event :=
  [.key (.lookup keyHash), advanceKey 0, advanceKey 0, advanceKey 0,
    .key (.write keyHash (some (clientKey true))), .key (.invalidate 0), .key (.invalidate 0),
    advanceKey 0, .key (.lookup keyHash), advanceKey 1]

theorem coherent_revokedBefore : Always step Coherent (start oneKey noRoutes) revokedBefore := by
  apply coherent_run
  refine ⟨trivial, trivial, trivial, trivial, ?_, ?_, ?_, trivial⟩
  · intro l hl s hs
    obtain rfl := Option.some.inj hl
    cases hs
  · intro l hl s hs
    obtain rfl := Option.some.inj hl
    cases hs
  · intro l hl s hs
    obtain rfl := Option.some.inj hl
    cases hs

/-- The second resolve accepts the revoked key. -/
theorem not_coherent_revokedMeanwhile :
    ¬ Always step Coherent (start oneKey noRoutes) revokedMeanwhile := by
  intro h
  have hfresh := h.last.keys ⟨keyHash, 1, .done (some ⟨0, some (clientKey false)⟩)⟩
    (List.mem_of_getElem? (i := 1) rfl) _ rfl
  exact absurd hfresh.1 (by decide)

end Aigate.LookupCaches
