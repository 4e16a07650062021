import Aigate.CircuitBreaker

/-!
# The circuit breaker in Redis

With a Redis pool every operation calls one script on a record of four counters, and the
local breaker follows for the time when Redis does not answer. The script and the local
breaker count in milliseconds and in seconds.
-/
namespace Aigate.CircuitBreakerRedis
open Text CircuitBreaker

/-- The fields of the hash; one that is absent counts as zero. States: 0 closed, 1 half
open, 2 open. -/
structure CbRecord where
  state : ℕ
  fails : ℕ
  openUntil : ℤ
  probeActive : ℕ
  expiresAt : ℤ
  deriving DecidableEq

inductive Action where
  | allow
  | success
  | fail
  deriving DecidableEq

/-- `EXPIRE key 86400`, in milliseconds. -/
def recordTtl : ℤ := 86400000

/-- What `HMGET` reads. -/
def hmget (now : ℤ) : Option CbRecord → CbRecord
  | some r => if r.expiresAt < now then ⟨0, 0, 0, 0, 0⟩ else r
  | none => ⟨0, 0, 0, 0, 0⟩

/-- `SCRIPT_CIRCUIT_BREAKER_SYNC`: the record after the call, whether the request is allowed,
and the state. -/
def circuitBreakerSync (maxFails : ℕ) (cooldownMs now : ℤ) (action : Action)
    (stored : Option CbRecord) : Option CbRecord × ℕ × ℕ :=
  let d := hmget now stored
  let expiresAt := now + recordTtl
  match action with
  | .allow =>
    if d.state = 2 then
      if d.openUntil ≤ now then
        (some { d with state := 1, probeActive := 1, expiresAt := expiresAt }, 1, 1)
      else (stored, 0, 2)
    else if d.state = 1 then
      if d.probeActive = 0 then
        (some { d with probeActive := 1, expiresAt := expiresAt }, 1, 1)
      else (stored, 0, 1)
    else (stored, 1, 0)
  | .success =>
    if d.state = 1 ∨ 0 < d.fails ∨ d.state = 2 then (some ⟨0, 0, 0, 0, expiresAt⟩, 1, 0)
    else (stored, 1, 0)
  | .fail =>
    if d.state = 1 then
      (some { d with
        state := 2, openUntil := now + cooldownMs, probeActive := 0, expiresAt := expiresAt }, 0, 2)
    else if maxFails ≤ d.fails + 1 then
      (some ⟨2, d.fails + 1, now + cooldownMs, 0, expiresAt⟩, 0, 2)
    else (some { d with fails := d.fails + 1, expiresAt := expiresAt }, 1, 0)

/-- The conversion `%08x` of a number below 64. -/
def hex8 (n : ℕ) : Bytes :=
  List.replicate 6 '0' ++ [Nat.digitChar (n / 16 % 16), Nat.digitChar (n % 16)]

/-- `cb_redis_key`. -/
def cbRedisKey (p : Pair) : Bytes := ascii "aigate:cb:" ++ hex8 (hashKey p).val

/-- `time(NULL)` of a time in milliseconds. -/
def seconds (now : ℤ) : ℤ := now / 1000

/-- A gateway with a Redis pool: the store, the local breaker, and whether it admits
requests when Redis does not answer. -/
structure Gateway where
  store : Bytes → Option CbRecord
  local_ : Breaker
  failOpen : Bool

/-- `redis_cb_call` that is answered. -/
def redisCbCall (g : Gateway) (now : ℤ) (action : Action) (p : Pair) : Gateway × ℕ :=
  let reply := circuitBreakerSync g.local_.failureThreshold (g.local_.cooloffSec * 1000) now action
    (g.store (cbRedisKey p))
  ({ g with store := Function.update g.store (cbRedisKey p) reply.1 }, reply.2.1)

/-- `cb_allow_request` with a pool. -/
def allowRequest (g : Gateway) (now : ℤ) (answered : Bool) (p : Pair) : Gateway × Bool :=
  if answered then
    let called := redisCbCall g now .allow p
    (called.1, decide (called.2 = 1))
  else if g.failOpen then
    let asked := cbAllowRequest g.local_ (seconds now) p
    ({ g with local_ := asked.1 }, asked.2)
  else (g, false)

/-- `cb_record_success` with a pool; the local state is reset too. -/
def recordSuccess (g : Gateway) (now : ℤ) (answered : Bool) (p : Pair) : Gateway :=
  let g := if answered then (redisCbCall g now .success p).1 else g
  { g with local_ := cbRecordSuccess g.local_ p }

/-- `cb_record_failure` with a pool; the local state follows. -/
def recordFailure (g : Gateway) (now : ℤ) (answered : Bool) (p : Pair) (httpStatus : ℤ) :
    Gateway :=
  if countsAsFailure httpStatus then
    let g := if answered then (redisCbCall g now .fail p).1 else g
    { g with local_ := cbRecordFailure g.local_ (seconds now) p httpStatus }
  else g

/-- An operation at a time in milliseconds, and whether Redis answers. Samples and queries
are local. -/
structure Event where
  now : ℤ
  answered : Bool
  op : Op

def step (g : Gateway) (e : Event) : Gateway :=
  match e.op with
  | .allow p => (allowRequest g e.now e.answered p).1
  | .success p => recordSuccess g e.now e.answered p
  | .failure p httpStatus => recordFailure g e.now e.answered p httpStatus
  | .slaSample p s => { g with local_ := cbRecordSlaSample g.local_ (seconds e.now) p s }
  | .query p => { g with local_ := (cbGetState g.local_ (seconds e.now) p).1 }

def run (g : Gateway) (events : List Event) : Gateway := events.foldl step g

/-- The verdict on a request for a pair. -/
def verdict (g : Gateway) (now : ℤ) (answered : Bool) (p : Pair) : Bool :=
  (allowRequest g now answered p).2

def Gateway.fresh (cb : Breaker) (failOpen : Bool) : Gateway :=
  ⟨fun _ => none, { cb with buckets := fun _ => [] }, failOpen⟩

/-- After any history, operations on one pair do not change the verdict on the other. -/
def Isolated (cb : Breaker) (failOpen : Bool) (p q : Pair) : Prop :=
  ∀ history events : List Event, (∀ e ∈ events, e.op.pair = p) → ∀ now answered,
    verdict (run (run (Gateway.fresh cb failOpen) history) events) now answered q =
      verdict (run (Gateway.fresh cb failOpen) history) now answered q

theorem digitChar_injective :
    ∀ a b : Fin 16, Nat.digitChar a.val = Nat.digitChar b.val → a = b := by decide

theorem hex8_injective (a b : Fin 64) (h : hex8 a.val = hex8 b.val) : a = b := by
  have hdigits := List.append_cancel_left h
  simp only [List.cons.injEq, and_true] at hdigits
  have hhigh := digitChar_injective ⟨a.val / 16 % 16, by omega⟩ ⟨b.val / 16 % 16, by omega⟩
    hdigits.1
  have hlow := digitChar_injective ⟨a.val % 16, by omega⟩ ⟨b.val % 16, by omega⟩ hdigits.2
  rw [Fin.mk.injEq] at hhigh hlow
  omega

theorem cbRedisKey_eq_iff {p q : Pair} : cbRedisKey p = cbRedisKey q ↔ hashKey p = hashKey q := by
  constructor
  · intro h
    exact hex8_injective _ _ (List.append_cancel_left h)
  · intro h
    rw [cbRedisKey, cbRedisKey, h]

/-- What the verdict on a pair depends on. -/
structure SameFor (q : Pair) (g g' : Gateway) : Prop where
  store : g'.store (cbRedisKey q) = g.store (cbRedisKey q)
  buckets : g'.local_.buckets (hashKey q) = g.local_.buckets (hashKey q)
  threshold : g'.local_.failureThreshold = g.local_.failureThreshold
  cooloff : g'.local_.cooloffSec = g.local_.cooloffSec
  failOpen : g'.failOpen = g.failOpen

theorem SameFor.refl (q : Pair) (g : Gateway) : SameFor q g g := ⟨rfl, rfl, rfl, rfl, rfl⟩

theorem SameFor.trans {q : Pair} {g g' g'' : Gateway} (h : SameFor q g g')
    (h' : SameFor q g' g'') : SameFor q g g'' :=
  ⟨h'.store.trans h.store, h'.buckets.trans h.buckets, h'.threshold.trans h.threshold,
    h'.cooloff.trans h.cooloff, h'.failOpen.trans h.failOpen⟩

theorem SameFor.verdict_eq {q : Pair} {g g' : Gateway} (h : SameFor q g g') (now : ℤ)
    (answered : Bool) : verdict g' now answered q = verdict g now answered q := by
  have hentry : entryOrNew g'.local_ q = entryOrNew g.local_ q := by
    rw [entryOrNew, entryOrNew, findEntry, findEntry, h.buckets]
  unfold verdict allowRequest
  cases answered with
  | true =>
    simp only [redisCbCall, h.store, h.threshold, h.cooloff, if_true]
    rfl
  | false =>
    simp only [Bool.false_eq_true, if_false, h.failOpen, cbAllowRequest, hentry]
    split
    · rfl
    · rfl

theorem redisCbCall_same {p q : Pair} (h : hashKey p ≠ hashKey q) (g : Gateway) (now : ℤ)
    (action : Action) : SameFor q g (redisCbCall g now action p).1 := by
  have hkey : cbRedisKey q ≠ cbRedisKey p := fun he => h (cbRedisKey_eq_iff.mp he).symm
  exact ⟨Function.update_of_ne hkey _ _, rfl, rfl, rfl, rfl⟩

/-- A change of the local entry of one pair stays in its chain. -/
theorem onEntry_same {p q : Pair} (h : hashKey p ≠ hashKey q) (g : Gateway)
    (f : CbEntry → CbEntry) : SameFor q g { g with local_ := onEntry g.local_ p f } :=
  ⟨rfl, Function.update_of_ne (Ne.symm h) _ _, rfl, rfl, rfl⟩

theorem onEntryOrNew_same {p q : Pair} (h : hashKey p ≠ hashKey q) (g : Gateway)
    (f : CbEntry → CbEntry) : SameFor q g { g with local_ := onEntryOrNew g.local_ p f } := by
  unfold onEntryOrNew
  split
  · exact onEntry_same h g f
  · exact ⟨rfl, Function.update_of_ne (Ne.symm h) _ _, rfl, rfl, rfl⟩

/-- An operation on a pair with another hash changes nothing for this one. -/
theorem step_same {q : Pair} {e : Event} (h : hashKey e.op.pair ≠ hashKey q) (g : Gateway) :
    SameFor q g (step g e) := by
  obtain ⟨now, answered, op⟩ := e
  cases op with
  | allow p =>
    simp only [step, allowRequest]
    split
    · exact redisCbCall_same h g now .allow
    · split
      · exact onEntryOrNew_same h g _
      · exact SameFor.refl q g
  | success p =>
    simp only [step, recordSuccess]
    split
    · exact (redisCbCall_same h g now .success).trans (onEntry_same h _ _)
    · exact onEntry_same h g _
  | failure p httpStatus =>
    simp only [step, recordFailure, cbRecordFailure]
    split
    · split
      · exact (redisCbCall_same h g now .fail).trans (onEntryOrNew_same h _ _)
      · exact onEntryOrNew_same h g _
    · exact SameFor.refl q g
  | slaSample p s =>
    simp only [step, cbRecordSlaSample]
    split
    · exact SameFor.refl q g
    · exact onEntryOrNew_same h g _
  | query p => exact onEntry_same h g _

theorem run_same {q : Pair} {events : List Event}
    (h : ∀ e ∈ events, hashKey e.op.pair ≠ hashKey q) (g : Gateway) :
    SameFor q g (run g events) := by
  induction events generalizing g with
  | nil => exact SameFor.refl q g
  | cons e events ih =>
    exact (step_same (h e (List.mem_cons_self ..)) g).trans
      (ih (fun e he => h e (List.mem_cons_of_mem _ he)) _)

theorem onEntryOrNew_params (cb : Breaker) (p : Pair) (f : CbEntry → CbEntry) :
    (onEntryOrNew cb p f).failureThreshold = cb.failureThreshold ∧
      (onEntryOrNew cb p f).cooloffSec = cb.cooloffSec := by
  unfold onEntryOrNew
  split
  · exact ⟨rfl, rfl⟩
  · exact ⟨rfl, rfl⟩

/-- A failure that Redis hears of. -/
def failing (p : Pair) : Event := ⟨0, true, .failure p 503⟩

theorem step_failing (g : Gateway) (p : Pair) :
    (step g (failing p)).store (cbRedisKey p) =
        (circuitBreakerSync g.local_.failureThreshold (g.local_.cooloffSec * 1000) 0 .fail
          (g.store (cbRedisKey p))).1 ∧
      (step g (failing p)).local_.failureThreshold = g.local_.failureThreshold ∧
      (step g (failing p)).local_.cooloffSec = g.local_.cooloffSec := by
  have hcounts : countsAsFailure 503 = true := by decide
  simp only [step, failing, recordFailure, cbRecordFailure, hcounts, if_true, redisCbCall]
  exact ⟨Function.update_self .., onEntryOrNew_params _ _ _⟩

/-- Failures that fall short of the threshold are counted. -/
theorem run_failing (cb : Breaker) (failOpen : Bool) (p : Pair) {n : ℕ}
    (hn : n < cb.failureThreshold) :
    let g := run (Gateway.fresh cb failOpen) (List.replicate n (failing p))
    (hmget 0 (g.store (cbRedisKey p))).state = 0 ∧ (hmget 0 (g.store (cbRedisKey p))).fails = n ∧
      g.local_.failureThreshold = cb.failureThreshold ∧ g.local_.cooloffSec = cb.cooloffSec := by
  induction n with
  | zero => exact ⟨rfl, rfl, rfl, rfl⟩
  | succ n ih =>
    obtain ⟨hstate, hfails, hthreshold, hcooloff⟩ := ih (by omega)
    obtain ⟨hstore, hthreshold', hcooloff'⟩ :=
      step_failing (run (Gateway.fresh cb failOpen) (List.replicate n (failing p))) p
    have hrun : run (Gateway.fresh cb failOpen) (List.replicate (n + 1) (failing p)) =
        step (run (Gateway.fresh cb failOpen) (List.replicate n (failing p))) (failing p) := by
      rw [List.replicate_succ', run, run, List.foldl_append]
      rfl
    dsimp only
    rw [hrun, hstore, hthreshold', hcooloff']
    simp only [circuitBreakerSync, hstate, hfails]
    rw [if_neg (by decide), if_neg (by omega)]
    exact ⟨rfl, rfl, hthreshold, hcooloff⟩

/-- The failure that reaches the threshold opens the record. -/
theorem run_tripped (cb : Breaker) (failOpen : Bool) (p : Pair) :
    let g := run (Gateway.fresh cb failOpen) (List.replicate cb.failureThreshold (failing p))
    g.store (cbRedisKey p) =
        some ⟨2, cb.failureThreshold, cb.cooloffSec * 1000, 0, recordTtl⟩ ∧
      g.local_.failureThreshold = cb.failureThreshold ∧ g.local_.cooloffSec = cb.cooloffSec := by
  obtain ⟨n, hn⟩ := Nat.exists_eq_succ_of_ne_zero cb.threshold_pos.ne'
  obtain ⟨hstate, hfails, hthreshold, hcooloff⟩ := run_failing cb failOpen p (n := n) (by omega)
  obtain ⟨hstore, hthreshold', hcooloff'⟩ :=
    step_failing (run (Gateway.fresh cb failOpen) (List.replicate n (failing p))) p
  have hrun : run (Gateway.fresh cb failOpen) (List.replicate cb.failureThreshold (failing p)) =
      step (run (Gateway.fresh cb failOpen) (List.replicate n (failing p))) (failing p) := by
    rw [hn, List.replicate_succ', run, run, List.foldl_append]
    rfl
  dsimp only
  rw [hrun, hstore, hthreshold', hcooloff', hthreshold, hcooloff]
  refine ⟨?_, rfl, rfl⟩
  simp only [circuitBreakerSync, hstate, hfails]
  rw [if_neg (by decide), if_pos (by omega), hn]
  simp

/-- The record of an open breaker turns a request away, or admits a single one. -/
theorem tripped_denies {g : Gateway} {p : Pair} {n : ℕ} {c : ℤ} (hc : 0 ≤ c)
    (h : g.store (cbRedisKey p) = some ⟨2, n, c, 0, recordTtl⟩) :
    verdict (if 0 < c then g else step g ⟨0, true, .allow p⟩) 0 true p = false := by
  have hget : ∀ c, hmget 0 (some ⟨2, n, c, 0, recordTtl⟩) = ⟨2, n, c, 0, recordTtl⟩ :=
    fun _ => rfl
  split
  · simp only [verdict, allowRequest, if_true, redisCbCall, h, circuitBreakerSync, hget]
    rw [if_neg (by omega)]
    rfl
  · obtain rfl : c = 0 := by omega
    simp only [verdict, step, allowRequest, if_true, redisCbCall, h, circuitBreakerSync, hget,
      le_refl, Function.update_self]
    rfl

/-- Pairs that share a bucket share a record, which the failures of one open for the other. -/
theorem not_isolated_of_hash (cb : Breaker) (failOpen : Bool) {p q : Pair}
    (hhash : hashKey p = hashKey q) : ¬Isolated cb failOpen p q := by
  intro hisolated
  have hkey : cbRedisKey q = cbRedisKey p := (cbRedisKey_eq_iff.mpr hhash).symm
  obtain ⟨hstore, -, -⟩ := run_tripped cb failOpen p
  have hdenies := tripped_denies (by positivity) hstore
  have hsame : ∀ g now, verdict g now true q = verdict g now true p := by
    intro g now
    simp only [verdict, allowRequest, redisCbCall, hkey, if_true]
    rfl
  have hfresh : verdict (Gateway.fresh cb failOpen) 0 true p = true := rfl
  have hpair : ∀ e ∈ List.replicate cb.failureThreshold (failing p), e.op.pair = p := by
    intro e he
    rw [List.eq_of_mem_replicate he]
    rfl
  split at hdenies
  · have hafter := hisolated [] _ hpair 0 true
    rw [hsame, hsame] at hafter
    exact Bool.false_ne_true (hdenies.symm.trans (hafter.trans hfresh))
  · have hpair' : ∀ e ∈ List.replicate cb.failureThreshold (failing p) ++
        [⟨0, true, .allow p⟩], e.op.pair = p := by
      intro e he
      rcases List.mem_append.mp he with he | he
      · exact hpair e he
      · rw [List.mem_singleton.mp he]
        rfl
    have hafter := hisolated [] _ hpair' 0 true
    rw [hsame, hsame, run, List.foldl_append] at hafter
    exact Bool.false_ne_true (hdenies.symm.trans (hafter.trans hfresh))

theorem isolated_of_hash (cb : Breaker) (failOpen : Bool) {p q : Pair}
    (hhash : hashKey p ≠ hashKey q) : Isolated cb failOpen p q := by
  intro history events hpair now answered
  refine (run_same (fun e he => ?_) _).verdict_eq now answered
  rw [hpair e he]
  exact hhash

/-- Two pairs are isolated exactly if they hash to different buckets, of which there are 64. -/
theorem isolated_iff (cb : Breaker) (failOpen : Bool) (p q : Pair) :
    Isolated cb failOpen p q ↔ hashKey p ≠ hashKey q :=
  ⟨fun h hhash => not_isolated_of_hash cb failOpen hhash h, isolated_of_hash cb failOpen⟩

/-- Two models at two endpoints that share a bucket, and so a record. -/
theorem not_isolated : ¬∀ p q : Pair, p ≠ q →
    Isolated (Breaker.create 3 30 [] (by decide)) true p q := by
  intro h
  have hhash : hashKey ⟨ascii "gpt-4o", ascii "https://eu.api"⟩ =
      hashKey ⟨ascii "gpt-5", ascii "https://us.api"⟩ := by decide +kernel
  refine not_isolated_of_hash _ true hhash (h _ _ fun heq => ?_)
  exact ascii_ne (by decide) (congrArg Pair.model heq)

end Aigate.CircuitBreakerRedis
