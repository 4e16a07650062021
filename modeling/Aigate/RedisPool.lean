import Mathlib.Algebra.Order.Ring.Int
import Mathlib.Data.List.Basic
import Aigate.GuardedRuns

/-!
# The pool of Redis connections

Calls of `redis_pool_acquire` and `redis_pool_release` by any number of threads. A section
under the lock is one step. The health check, the reconnect and the connect of a call lie
between its sections, so steps of other calls come in between.
-/
namespace Aigate.RedisPool
open GuardedRuns

/-- A connection, with the error flag that the Redis library keeps in it. -/
structure RedisContext where
  err : Bool
  deriving DecidableEq

structure Pool where
  capacity : ℕ
  count : ℤ
  stack : List RedisContext
  deriving DecidableEq

/-- The pool for at most `poolSize` connections, given the first of them if Redis is there. -/
def redisPoolCreate (poolSize : ℤ) (test : Option RedisContext) : Option Pool :=
  if poolSize ≤ 0 then none
  else
    match test with
    | none => none
    | some c => some ⟨if poolSize > 512 then 512 else poolSize.toNat, 1, [c]⟩

/-- How far a call has come. `acquire` checks the connection that it took from the stack; it
has freed the connection and not yet counted down; it has done so and connects again. Or it
connects for the place that it reserved; that connect has failed. Then the caller holds the
connection. `release` has a connection in order for the stack, or has freed it. -/
inductive Phase where
  | checking (c : RedisContext)
  | lost
  | replacing
  | opening
  | failed
  | holding (c : RedisContext)
  | returning (c : RedisContext)
  | dropping
  | done
  deriving DecidableEq

structure System where
  pool : Pool
  calls : List Phase
  deriving DecidableEq

/-- An `acquire` enters its section; a call goes on, with the connection that the Redis library
gives it if it asks for one; a caller's command leaves an error flag. -/
inductive Event where
  | acquire
  | proceed (i : ℕ) (answer : Option RedisContext)
  | command (i : ℕ) (err : Bool)

/-- The first section of `redis_pool_acquire`. With no connection and no place left the call
waits, and then enters again or gives up. -/
def redisPoolAcquire (s : System) : System :=
  match s.pool.stack with
  | c :: stack => ⟨{ s.pool with stack := stack }, s.calls ++ [.checking c]⟩
  | [] =>
    if s.pool.count < s.pool.capacity then
      ⟨{ s.pool with count := s.pool.count + 1 }, s.calls ++ [.opening]⟩
    else s

/-- The last section of `redis_pool_release`. -/
def pushIdle (p : Pool) (c : RedisContext) : Pool :=
  if p.stack.length < p.capacity then { p with stack := c :: p.stack }
  else { p with count := p.count - 1 }

/-- A call goes on from where it is. -/
def proceed (p : Pool) (answer : Option RedisContext) : Phase → Pool × Phase
  | .checking c =>
    if c.err then
      match answer with
      | some c' => (p, .holding c')
      | none => (p, .lost)
    else (p, .holding c)
  | .lost => ({ p with count := p.count - 1 }, .replacing)
  | .replacing =>
    match answer with
    | some c => (p, .holding c)
    | none => (p, .done)
  | .opening =>
    match answer with
    | some c => (p, .holding c)
    | none => (p, .failed)
  | .failed => ({ p with count := p.count - 1 }, .done)
  | .holding c =>
    if c.err then
      match answer with
      | some c' => (p, .returning c')
      | none => (p, .dropping)
    else (p, .returning c)
  | .returning c => (pushIdle p c, .done)
  | .dropping => ({ p with count := p.count - 1 }, .done)
  | .done => (p, .done)

def step (s : System) : Event → System
  | .acquire => redisPoolAcquire s
  | .proceed i answer =>
    match s.calls[i]? with
    | none => s
    | some phase =>
      ⟨(proceed s.pool answer phase).1, s.calls.set i (proceed s.pool answer phase).2⟩
  | .command i err =>
    match s.calls[i]? with
    | some (.holding _) => { s with calls := s.calls.set i (.holding ⟨err⟩) }
    | _ => s

/-- A call has a connection, or the place of one in the count: from the section of `acquire`
that takes it to the section, of `acquire` or of `release`, that gives it up. -/
def Phase.holds : Phase → Bool
  | .replacing => false
  | .done => false
  | _ => true

def held (s : System) : ℕ := s.calls.countP Phase.holds

/-- The count is that of the idle and the held connections, and within its bounds. -/
structure Accounted (s : System) : Prop where
  count_eq : s.pool.count = s.pool.stack.length + held s
  nonneg : 0 ≤ s.pool.count
  le_capacity : s.pool.count ≤ s.pool.capacity

/-- No connection is handed out in the place of one that could not be reconnected. -/
def StepOk (s : System) : Event → Prop
  | .proceed i answer => s.calls[i]? = some .replacing → answer = none
  | _ => True

/-- A place of the count, as a number. -/
def Phase.place (p : Phase) : ℕ := if p.holds then 1 else 0

theorem held_append (p : Pool) (calls : List Phase) (phase : Phase) :
    held ⟨p, calls ++ [phase]⟩ = held ⟨p, calls⟩ + phase.place := by
  rw [held, held, List.countP_append, List.countP_singleton, Phase.place]

theorem held_set {s : System} {i : ℕ} {phase : Phase} (h : s.calls[i]? = some phase) (p : Pool)
    (next : Phase) : held ⟨p, s.calls.set i next⟩ + phase.place = held s + next.place :=
  countP_set_add Phase.holds h next

@[simp] theorem pushIdle_capacity (p : Pool) (c : RedisContext) :
    (pushIdle p c).capacity = p.capacity := by
  unfold pushIdle
  split <;> rfl

/-- Connections that are counted and neither idle nor held. -/
def Pool.away (p : Pool) : ℤ := p.count - p.stack.length

theorem pushIdle_away (p : Pool) (c : RedisContext) : (pushIdle p c).away = p.away - 1 := by
  unfold pushIdle Pool.away
  split
  · simp only [List.length_cons]
    omega
  · dsimp only
    omega

theorem pushIdle_count_le (p : Pool) (c : RedisContext) : (pushIdle p c).count ≤ p.count := by
  unfold pushIdle
  split
  · exact le_refl _
  · exact Int.sub_le_self _ (by decide)

@[simp] theorem proceed_capacity (p : Pool) (answer : Option RedisContext) (phase : Phase) :
    (proceed p answer phase).1.capacity = p.capacity := by
  cases phase with
  | returning c => exact pushIdle_capacity p c
  | checking c => simp only [proceed]; split <;> [split <;> rfl; rfl]
  | holding c => simp only [proceed]; split <;> [split <;> rfl; rfl]
  | replacing => simp only [proceed]; split <;> rfl
  | opening => simp only [proceed]; split <;> rfl
  | _ => rfl

theorem proceed_count_le (p : Pool) (answer : Option RedisContext) (phase : Phase) :
    (proceed p answer phase).1.count ≤ p.count := by
  cases phase with
  | returning c => exact pushIdle_count_le p c
  | checking c => simp only [proceed]; split <;> [split <;> rfl; rfl]
  | holding c => simp only [proceed]; split <;> [split <;> rfl; rfl]
  | replacing => simp only [proceed]; split <;> rfl
  | opening => simp only [proceed]; split <;> rfl
  | lost => exact Int.sub_le_self _ (by decide)
  | failed => exact Int.sub_le_self _ (by decide)
  | dropping => exact Int.sub_le_self _ (by decide)
  | done => exact le_refl _

/-- A call gives its place up when it counts down or pushes, and takes one without counting
when it replaces a connection. -/
theorem proceed_balance (p : Pool) (answer : Option RedisContext) (phase : Phase) :
    (proceed p answer phase).1.away - (proceed p answer phase).2.place +
        (if phase = .replacing ∧ answer ≠ none then 1 else 0) = p.away - phase.place := by
  cases phase with
  | returning c =>
    simp only [proceed, pushIdle_away, Phase.place, Phase.holds]
    simp
  | checking c =>
    cases hc : c.err <;> cases answer <;> simp [proceed, hc, Phase.place, Phase.holds]
  | holding c =>
    cases hc : c.err <;> cases answer <;> simp [proceed, hc, Phase.place, Phase.holds]
  | replacing => cases answer <;> simp [proceed, Phase.place, Phase.holds]
  | opening => cases answer <;> simp [proceed, Phase.place, Phase.holds]
  | lost => simp [proceed, Pool.away, Phase.place, Phase.holds]; omega
  | failed => simp [proceed, Pool.away, Phase.place, Phase.holds]; omega
  | dropping => simp [proceed, Pool.away, Phase.place, Phase.holds]; omega
  | done => simp [proceed, Phase.place, Phase.holds]

/-- A count that is equal is not negative. -/
theorem accounted_iff {s : System} :
    Accounted s ↔ s.pool.away = held s ∧ s.pool.count ≤ s.pool.capacity := by
  constructor
  · intro h
    have hcount := h.count_eq
    exact ⟨by unfold Pool.away; omega, h.le_capacity⟩
  · intro ⟨haway, hle⟩
    have hcount : s.pool.count = s.pool.stack.length + held s := by
      unfold Pool.away at haway
      omega
    exact ⟨hcount, by omega, hle⟩

theorem Accounted.acquire {s : System} (h : Accounted s) : Accounted (redisPoolAcquire s) := by
  obtain ⟨haway, hle⟩ := accounted_iff.mp h
  unfold redisPoolAcquire
  split
  · rename_i c stack hstack
    refine accounted_iff.mpr ⟨?_, hle⟩
    rw [held_append]
    simp only [Pool.away, hstack, List.length_cons, Phase.place, Phase.holds, held] at haway ⊢
    simp
    omega
  · split
    · refine accounted_iff.mpr ⟨?_, by dsimp only; omega⟩
      rw [held_append]
      simp only [Pool.away, Phase.place, Phase.holds, held] at haway ⊢
      simp
      omega
    · exact h

theorem Accounted.proceed {s : System} (h : Accounted s) {i : ℕ} {phase : Phase}
    (hi : s.calls[i]? = some phase) (answer : Option RedisContext) :
    Accounted ⟨(proceed s.pool answer phase).1,
      s.calls.set i (proceed s.pool answer phase).2⟩ ↔ (phase = .replacing → answer = none) := by
  obtain ⟨haway, hle⟩ := accounted_iff.mp h
  have hbalance := proceed_balance s.pool answer phase
  have hheld := held_set hi (RedisPool.proceed s.pool answer phase).1
    (RedisPool.proceed s.pool answer phase).2
  have hcount := proceed_count_le s.pool answer phase
  rw [accounted_iff, proceed_capacity]
  by_cases hbad : phase = .replacing ∧ answer ≠ none
  · rw [if_pos hbad] at hbalance
    refine iff_of_false (fun hgood => ?_) (fun hok => hbad.2 (hok hbad.1))
    have hagain := hgood.1
    dsimp only at hagain
    omega
  · rw [if_neg hbad] at hbalance
    refine iff_of_true ⟨?_, by dsimp only; omega⟩ (fun hphase => ?_)
    · dsimp only
      omega
    · by_contra hanswer
      exact hbad ⟨hphase, hanswer⟩

/-- The steps that keep the account are the ones that hand out no uncounted connection. -/
theorem Accounted.step {s : System} (h : Accounted s) (e : Event) :
    Accounted (step s e) ↔ StepOk s e := by
  cases e with
  | acquire => exact iff_of_true h.acquire trivial
  | proceed i answer =>
    rw [RedisPool.step, StepOk]
    cases hi : s.calls[i]? with
    | none => exact iff_of_true h (fun hcall => nomatch hcall)
    | some phase =>
      rw [Option.some.injEq]
      exact h.proceed hi answer
  | command i err =>
    refine iff_of_true ?_ trivial
    rw [RedisPool.step]
    split
    · rename_i c hi
      obtain ⟨haway, hle⟩ := accounted_iff.mp h
      have hheld := held_set hi s.pool (.holding ⟨err⟩)
      simp only [Phase.place, Phase.holds] at hheld
      exact accounted_iff.mpr ⟨by dsimp only; omega, hle⟩
    · exact h

def start (p : Pool) : System := ⟨p, []⟩

theorem accounted_start {poolSize : ℤ} {test : Option RedisContext} {p : Pool}
    (h : redisPoolCreate poolSize test = some p) : Accounted (start p) := by
  unfold redisPoolCreate at h
  split at h
  · cases h
  · cases test with
    | none => cases h
    | some c =>
      obtain rfl := Option.some.inj h
      refine accounted_iff.mpr ⟨by simp [start, Pool.away, held], ?_⟩
      simp only [start]
      split <;> omega

/-- The account is right in every state of a run exactly if no connection was handed out in the
place of one that could not be reconnected. -/
theorem accounted_run_iff {poolSize : ℤ} {test : Option RedisContext} {p : Pool}
    (h : redisPoolCreate poolSize test = some p) (events : List Event) :
    Always step Accounted (start p) events ↔ RunOk step StepOk (start p) events :=
  have hinv : ∀ s e, True → Accounted s → StepOk s e → True := fun _ _ h _ _ => h
  always_iff_runOk hinv (fun _ e _ hs => hs.step e) trivial (accounted_start h) events

def broken : RedisContext := ⟨true⟩

def working : RedisContext := ⟨false⟩

/-- The first connection has an error flag and cannot be reconnected when a call takes it, and
a new connection is handed out in its place. -/
def replaced : List Event :=
  [.acquire, .proceed 0 none, .proceed 0 none, .proceed 0 (some working)]

/-- The same call, and the new connect fails too. -/
def given : List Event := [.acquire, .proceed 0 none, .proceed 0 none, .proceed 0 none]

theorem accounted_run_iff_given :
    Always step Accounted (start ⟨1, 1, [broken]⟩) given ↔
      RunOk step StepOk (start ⟨1, 1, [broken]⟩) given :=
  accounted_run_iff (show redisPoolCreate 1 (some broken) = _ from rfl) given

/-- A caller holds a connection, and the count of the pool is 0. -/
theorem not_accounted_replaced :
    redisPoolCreate 1 (some broken) = some ⟨1, 1, [broken]⟩ ∧
      ¬ Always step Accounted (start ⟨1, 1, [broken]⟩) replaced := by
  refine ⟨rfl, fun h => ?_⟩
  have hcount := h.last.count_eq
  revert hcount
  decide

end Aigate.RedisPool
