import Mathlib.Data.List.Nodup
import Mathlib.Data.Rat.Defs
import Aigate.GuardedRuns
import Aigate.Text

/-!
# The pairing slots of the shadow engine

A sampled request claims a slot and leaves a task in the queue of the shadow worker. The request
records its result in the slot when it is done, the worker records the shadow's, and the later
one of them commits the two and frees the slot. A section under a lock is one step, so requests
and the worker interleave between them. Requests, tasks and results carry the number of the
request that they belong to; it is not in the code, which goes by the evaluation id alone.
-/
namespace Aigate.ShadowPairing
open Text GuardedRuns

/-- The 32 hex digits of `shadow_generate_eval_id`. -/
structure EvalId where
  text : Bytes
  length_eq : text.length = 32
  deriving DecidableEq

/-- What one side records. The doubles are only copied. -/
structure TrackResult where
  latencyMs : ℚ
  ttftMs : ℚ
  httpStatus : ℤ
  tokens : ℤ
  costUsd : ℚ
  snippet : Bytes

/-- What a slot is given with its claim. -/
structure PairingInfo where
  traceId : Bytes
  sourceModel : Bytes
  targetModel : Bytes
  promptPreview : Bytes
  timestampUs : ℕ

/-- A result, and the number of the request that it is of. -/
structure Recorded where
  request : ℕ
  result : TrackResult

/-- A slot in use. A side is done once it has recorded. -/
structure Pairing where
  evalId : EvalId
  request : ℕ
  info : PairingInfo
  primary : Option Recorded
  shadow : Option Recorded

/-- What `commit_pairing_slot_locked` hands to the evaluation cache. -/
structure EvalItem where
  evalId : EvalId
  info : PairingInfo
  primary : Recorded
  shadow : Recorded

/-- A request that was sampled, until its cleanup. -/
structure InFlight where
  request : ℕ
  evalId : EvalId
  submitted : Bool

structure Task where
  request : ℕ
  evalId : EvalId

/-- The worker has no task, or has popped one and not yet looked for its slot, or has seen the
slot and not yet recorded. -/
inductive Worker where
  | idle
  | looking (t : Task)
  | recording (t : Task)

structure Engine where
  slots : List (Option Pairing)
  queue : List Task
  capacity : ℕ
  dropped : ℕ
  worker : Worker
  committed : List EvalItem
  requests : List InFlight
  next : ℕ

def pairingSlotsCapacity : ℕ := 256

/-- `shadow_engine_create`, with the default of the queue for a capacity of 0. -/
def shadowEngineCreate (queueCap : ℕ) : Engine where
  slots := List.replicate pairingSlotsCapacity none
  queue := []
  capacity := if queueCap = 0 then 256 else queueCap
  dropped := 0
  worker := .idle
  committed := []
  requests := []
  next := 0

/-! ### The table -/

/-- The first slot that is free is taken. -/
def claim (p : Pairing) : List (Option Pairing) → Option (List (Option Pairing))
  | [] => none
  | none :: rest => some (some p :: rest)
  | some q :: rest => (claim p rest).map (some q :: ·)

/-- The first slot in use with an id. -/
def findSlot (id : EvalId) : List (Option Pairing) → Option Pairing
  | [] => none
  | none :: rest => findSlot id rest
  | some p :: rest => if p.evalId = id then some p else findSlot id rest

/-- Another content for that slot. -/
def setSlot (id : EvalId) (x : Option Pairing) : List (Option Pairing) → List (Option Pairing)
  | [] => []
  | none :: rest => none :: setSlot id x rest
  | some p :: rest => if p.evalId = id then x :: rest else some p :: setSlot id x rest

/-- `shadow_engine_start_pairing`. With no free slot nothing happens. -/
def startPairing (e : Engine) (id : EvalId) (request : ℕ) (info : PairingInfo) : Engine :=
  match claim ⟨id, request, info, none, none⟩ e.slots with
  | some slots => { e with slots := slots }
  | none => e

/-- `commit_pairing_slot_locked` once both sides are done, else the slot stays in use. -/
def settle (e : Engine) (p : Pairing) : Engine :=
  match p.primary, p.shadow with
  | some primary, some shadow =>
    { e with
      slots := setSlot p.evalId none e.slots
      committed := e.committed ++ [⟨p.evalId, p.info, primary, shadow⟩] }
  | _, _ => { e with slots := setSlot p.evalId (some p) e.slots }

inductive Side where
  | primary
  | shadow
  deriving DecidableEq

def Pairing.side (p : Pairing) : Side → Option Recorded
  | .primary => p.primary
  | .shadow => p.shadow

def Pairing.fill (p : Pairing) (r : Recorded) : Side → Pairing
  | .primary => { p with primary := some r }
  | .shadow => { p with shadow := some r }

/-- A side records once, in the slot that has the id. -/
def record (side : Side) (e : Engine) (id : EvalId) (r : Recorded) : Engine :=
  match findSlot id e.slots with
  | none => e
  | some p => if (p.side side).isSome then e else settle e (p.fill r side)

/-- `shadow_engine_record_primary`. -/
def recordPrimary (e : Engine) (id : EvalId) (r : Recorded) : Engine := record .primary e id r

/-- `shadow_engine_record_shadow`. -/
def recordShadow (e : Engine) (id : EvalId) (r : Recorded) : Engine := record .shadow e id r

/-- `shadow_queue_push`. A full queue refuses the task, and the request frees it. -/
def queuePush (e : Engine) (t : Task) : Engine :=
  if e.capacity ≤ e.queue.length then { e with dropped := e.dropped + 1 }
  else { e with queue := e.queue ++ [t] }

/-! ### Requests and the worker -/

/-- What the worker records for a task. -/
def shadowResult : TrackResult where
  latencyMs := 42
  ttftMs := 18
  httpStatus := 200
  tokens := 110
  costUsd := 6 / 10000
  snippet := ascii "Shadow candidate response preview"

/-- What the cleanup of a request records. -/
def cleanupResult (status : ℤ) : TrackResult where
  latencyMs := 40
  ttftMs := 0
  httpStatus := if status = 0 then 200 else status
  tokens := 0
  costUsd := 0
  snippet := ascii "Primary completed"

/-- A request draws an id and claims a slot; it submits its task; it records its result, on the
paths that do, and in any case at its cleanup. The worker goes on. -/
inductive Event where
  | pair (id : EvalId) (info : PairingInfo)
  | submit (request : ℕ)
  | primary (request : ℕ) (result : TrackResult)
  | cleanup (request : ℕ) (status : ℤ)
  | work

def inFlight (e : Engine) (n : ℕ) : Option InFlight := e.requests.find? fun r => r.request = n

/-- One round of `shadow_worker_routine`, up to its next lock. -/
def work (e : Engine) : Engine :=
  match e.worker with
  | .idle =>
    match e.queue with
    | [] => e
    | t :: rest => { e with queue := rest, worker := .looking t }
  | .looking t =>
    if (findSlot t.evalId e.slots).isSome then { e with worker := .recording t }
    else { e with worker := .idle }
  | .recording t =>
    { recordShadow e t.evalId ⟨t.request, shadowResult⟩ with worker := .idle }

def step (e : Engine) : Event → Engine
  | .pair id info =>
    let claimed := startPairing e id e.next info
    { claimed with
      requests := e.requests ++ [⟨e.next, id, false⟩]
      next := e.next + 1 }
  | .submit n =>
    match inFlight e n with
    | some ⟨_, id, false⟩ =>
      let pushed := queuePush e ⟨n, id⟩
      { pushed with
        requests := e.requests.map fun r => if r.request = n then ⟨n, id, true⟩ else r }
    | _ => e
  | .primary n result =>
    match inFlight e n with
    | some ⟨_, id, true⟩ => recordPrimary e id ⟨n, result⟩
    | _ => e
  | .cleanup n status =>
    match inFlight e n with
    | some ⟨_, id, true⟩ =>
      let recorded := recordPrimary e id ⟨n, cleanupResult status⟩
      { recorded with requests := e.requests.filter fun r => r.request ≠ n }
    | _ => e
  | .work => work e

/-! ### What is to hold -/

/-- The slots in use. -/
def actives (slots : List (Option Pairing)) : List Pairing := slots.filterMap id

def Worker.task : Worker → List Task
  | .idle => []
  | .looking t => [t]
  | .recording t => [t]

/-- The tasks that are queued or running. -/
def pending (e : Engine) : List Task := e.queue ++ e.worker.task

/-- Each slot in use is for a request in flight or a task queued or running, each request is
committed at most once and with its own two results, and when nothing is in flight the whole
table is free. -/
structure Conserved (e : Engine) : Prop where
  owned : ∀ p ∈ actives e.slots, (∃ r ∈ e.requests, r.request = p.request) ∨
    ∃ t ∈ pending e, t.request = p.request
  paired : ∀ i ∈ e.committed, i.primary.request = i.shadow.request
  once : (e.committed.map fun i => i.primary.request).Nodup
  released : e.requests = [] → pending e = [] → ∀ x ∈ e.slots, x = none

/-- The ids in use, with the numbers of their requests. -/
def tokens (e : Engine) : List (EvalId × ℕ) :=
  (e.requests.map fun r => (r.evalId, r.request)) ++
    ((pending e).map fun t => (t.evalId, t.request)) ++
    (actives e.slots).map fun p => (p.evalId, p.request)

/-- A request that is refused by the queue has no slot, and no id is drawn that is in use. -/
def StepOk (e : Engine) : Event → Prop
  | .pair id _ => ∀ x ∈ tokens e, x.1 ≠ id
  | .submit n => e.capacity ≤ e.queue.length → ∀ p ∈ actives e.slots, p.request ≠ n
  | _ => True

/-! ### The table -/

theorem claim_perm {p : Pairing} {slots slots' : List (Option Pairing)}
    (h : claim p slots = some slots') : (actives slots').Perm (p :: actives slots) := by
  induction slots generalizing slots' with
  | nil => cases h
  | cons x rest ih =>
    cases x with
    | none =>
      obtain rfl := Option.some.inj h
      exact List.Perm.refl _
    | some q =>
      obtain ⟨later, hlater, rfl⟩ := Option.map_eq_some_iff.mp h
      exact ((ih hlater).cons q).trans (List.Perm.swap p q _)

theorem findSlot_none {id : EvalId} {slots : List (Option Pairing)} (h : findSlot id slots = none) :
    ∀ q ∈ actives slots, q.evalId ≠ id := by
  induction slots with
  | nil =>
    intro q hq
    cases hq
  | cons x rest ih =>
    cases x with
    | none => exact ih h
    | some p =>
      unfold findSlot at h
      split at h
      · cases h
      · rename_i hne
        intro q hq
        rcases List.mem_cons.mp hq with rfl | hq
        · exact hne
        · exact ih h q hq

/-- The slot that is found is put aside, and the others stay whatever it is given. -/
theorem findSlot_some {id : EvalId} {slots : List (Option Pairing)} {p : Pairing}
    (h : findSlot id slots = some p) : p.evalId = id ∧ ∃ rest, (actives slots).Perm (p :: rest) ∧
      ∀ x : Option Pairing, (actives (setSlot id x slots)).Perm (x.toList ++ rest) := by
  induction slots with
  | nil => cases h
  | cons x tail ih =>
    cases x with
    | none => exact ih h
    | some q =>
      unfold findSlot at h
      unfold setSlot
      split at h
      · rename_i hid
        obtain rfl := Option.some.inj h
        refine ⟨hid, actives tail, List.Perm.refl _, fun x => ?_⟩
        rw [if_pos hid]
        cases x <;> exact List.Perm.refl _
      · rename_i hid
        obtain ⟨hp, rest, hperm, hset⟩ := ih h
        refine ⟨hp, q :: rest, (hperm.cons q).trans (List.Perm.swap p q _), fun x => ?_⟩
        rw [if_neg hid]
        exact ((hset x).cons q).trans List.perm_middle.symm

/-! ### The invariant -/

/-- A slot in use waits for one of its sides. Until the primary is done its request is in flight;
until the shadow is done there is a task, or the request is yet to submit it. -/
structure PairingOk (e : Engine) (p : Pairing) : Prop where
  primaryOpen : p.primary = none → ∃ r ∈ e.requests, r.request = p.request
  shadowOpen : p.shadow = none → (∃ t ∈ pending e, t.request = p.request) ∨
    ∃ r ∈ e.requests, r.request = p.request ∧ r.submitted = false
  waits : p.primary = none ∨ p.shadow = none
  own : ∀ side r, p.side side = some r → r.request = p.request

structure Inv (e : Engine) : Prop where
  consistent : ∀ x ∈ tokens e, ∀ y ∈ tokens e, x.1 = y.1 ↔ x.2 = y.2
  older : ∀ x ∈ tokens e, x.2 < e.next
  requests : (e.requests.map (·.request)).Nodup
  slots : ((actives e.slots).map (·.request)).Nodup
  ok : ∀ p ∈ actives e.slots, PairingOk e p
  items : ∀ i ∈ e.committed, i.primary.request = i.shadow.request ∧ i.primary.request < e.next ∧
    ∀ p ∈ actives e.slots, p.request ≠ i.primary.request
  once : (e.committed.map fun i => i.primary.request).Nodup

theorem mem_tokens {e : Engine} {x : EvalId × ℕ} : x ∈ tokens e ↔
    (∃ r ∈ e.requests, (r.evalId, r.request) = x) ∨ (∃ t ∈ pending e, (t.evalId, t.request) = x) ∨
      ∃ p ∈ actives e.slots, (p.evalId, p.request) = x := by
  unfold tokens
  rw [List.mem_append, List.mem_append, List.mem_map, List.mem_map, List.mem_map, or_assoc]

theorem token_request {e : Engine} {r : InFlight} (h : r ∈ e.requests) :
    (r.evalId, r.request) ∈ tokens e := mem_tokens.mpr (Or.inl ⟨r, h, rfl⟩)

theorem token_task {e : Engine} {t : Task} (h : t ∈ pending e) :
    (t.evalId, t.request) ∈ tokens e := mem_tokens.mpr (Or.inr (Or.inl ⟨t, h, rfl⟩))

theorem token_slot {e : Engine} {p : Pairing} (h : p ∈ actives e.slots) :
    (p.evalId, p.request) ∈ tokens e := mem_tokens.mpr (Or.inr (Or.inr ⟨p, h, rfl⟩))

theorem Inv.conserved {e : Engine} (h : Inv e) : Conserved e := by
  have howned : ∀ p ∈ actives e.slots, (∃ r ∈ e.requests, r.request = p.request) ∨
      ∃ t ∈ pending e, t.request = p.request := by
    intro p hp
    rcases (h.ok p hp).waits with hprimary | hshadow
    · exact Or.inl ((h.ok p hp).primaryOpen hprimary)
    · rcases (h.ok p hp).shadowOpen hshadow with htask | ⟨r, hr, hnumber, -⟩
      · exact Or.inr htask
      · exact Or.inl ⟨r, hr, hnumber⟩
  refine ⟨howned, fun i hi => (h.items i hi).1, h.once, fun hrequests hpending x hx => ?_⟩
  cases x with
  | none => rfl
  | some p =>
    have hp : p ∈ actives e.slots := List.mem_filterMap.mpr ⟨some p, hx, rfl⟩
    rcases howned p hp with ⟨r, hr, -⟩ | ⟨t, ht, -⟩
    · rw [hrequests] at hr
      cases hr
    · rw [hpending] at ht
      cases ht

theorem inv_create (queueCap : ℕ) : Inv (shadowEngineCreate queueCap) := by
  have hnone : actives (shadowEngineCreate queueCap).slots = [] := by
    refine List.filterMap_eq_nil_iff.mpr fun x hx => ?_
    exact List.eq_of_mem_replicate hx
  have htokens : tokens (shadowEngineCreate queueCap) = [] := by
    unfold tokens
    rw [hnone]
    rfl
  constructor
  · simp [htokens]
  · simp [htokens]
  · exact List.nodup_nil
  · simp [hnone]
  · simp [hnone]
  · intro i hi
    cases hi
  · exact List.nodup_nil

/-! ### A side records -/

theorem Pairing.side_fill (p : Pairing) (r : Recorded) (side other : Side) :
    (p.fill r side).side other = if other = side then some r else p.side other := by
  cases side <;> cases other <;> rfl

@[simp] theorem Pairing.fill_evalId (p : Pairing) (r : Recorded) (side : Side) :
    (p.fill r side).evalId = p.evalId := by cases side <;> rfl

@[simp] theorem Pairing.fill_request (p : Pairing) (r : Recorded) (side : Side) :
    (p.fill r side).request = p.request := by cases side <;> rfl

theorem record_unchanged (side : Side) (e : Engine) (id : EvalId) (r : Recorded) :
    (record side e id r).requests = e.requests ∧ (record side e id r).queue = e.queue ∧
      (record side e id r).worker = e.worker ∧ (record side e id r).next = e.next ∧
        (record side e id r).capacity = e.capacity := by
  unfold record settle
  split
  · exact ⟨rfl, rfl, rfl, rfl, rfl⟩
  · split
    · exact ⟨rfl, rfl, rfl, rfl, rfl⟩
    · split <;> exact ⟨rfl, rfl, rfl, rfl, rfl⟩

/-- The slots in use after a side has recorded: all of them as they were, or one of them is
filled or gone. -/
theorem record_cases (side : Side) (e : Engine) (id : EvalId) (r : Recorded) :
    (record side e id r = e ∧ ∀ q ∈ actives e.slots, q.evalId = id →
      ∃ p ∈ actives e.slots, p.evalId = id ∧ (p.side side).isSome = true) ∨
    ∃ p rest, p.evalId = id ∧ p.side side = none ∧ (actives e.slots).Perm (p :: rest) ∧
      ((actives (record side e id r).slots).Perm (p.fill r side :: rest) ∧
          (record side e id r).committed = e.committed ∧
            ((p.fill r side).primary = none ∨ (p.fill r side).shadow = none) ∨
        ∃ primary shadow, (actives (record side e id r).slots).Perm rest ∧
          (p.fill r side).primary = some primary ∧ (p.fill r side).shadow = some shadow ∧
            (record side e id r).committed = e.committed ++ [⟨id, p.info, primary, shadow⟩]) := by
  unfold record
  cases hfind : findSlot id e.slots with
  | none => exact Or.inl ⟨rfl, fun q hq hid => absurd hid (findSlot_none hfind q hq)⟩
  | some p =>
    obtain ⟨hid, rest, hperm, hset⟩ := findSlot_some hfind
    dsimp only
    cases hside : p.side side with
    | some r' =>
      refine Or.inl ⟨rfl, fun q _ _ => ⟨p, hperm.mem_iff.mpr List.mem_cons_self, hid, ?_⟩⟩
      rw [hside]
      rfl
    | none =>
      refine Or.inr ⟨p, rest, hid, hside, hperm, ?_⟩
      rw [if_neg nofun]
      unfold settle
      have hinfo : (p.fill r side).info = p.info := by cases side <;> rfl
      rw [Pairing.fill_evalId, hid, hinfo]
      cases hprimary : (p.fill r side).primary with
      | none => exact Or.inl ⟨hset _, rfl, Or.inl rfl⟩
      | some primary =>
        cases hshadow : (p.fill r side).shadow with
        | none => exact Or.inl ⟨hset _, rfl, Or.inr rfl⟩
        | some shadow => exact Or.inr ⟨primary, shadow, hset none, rfl, rfl, rfl⟩

/-- A side that records for a request or a task keeps the invariant. -/
theorem Inv.records {e : Engine} (h : Inv e) (side : Side) {id : EvalId} {r : Recorded}
    (htoken : (id, r.request) ∈ tokens e) : Inv (record side e id r) := by
  obtain ⟨hrequests, hqueue, hworker, hnext, -⟩ := record_unchanged side e id r
  rcases record_cases side e id r with ⟨hsame, -⟩ | ⟨p, rest, hid, hside, hperm, hcases⟩
  · rw [hsame]
    exact h
  have hpending : pending (record side e id r) = pending e := by
    unfold pending
    rw [hqueue, hworker]
  have hp : p ∈ actives e.slots := hperm.mem_iff.mpr List.mem_cons_self
  have hrest : ∀ q ∈ rest, q ∈ actives e.slots := fun q hq =>
    hperm.mem_iff.mpr (List.mem_cons_of_mem _ hq)
  have hnumber : p.request = r.request :=
    (h.consistent _ (token_slot hp) _ htoken).mp hid
  have hslots := (hperm.map (·.request)).nodup_iff.mp h.slots
  obtain ⟨hfresh, hrestNodup⟩ := List.nodup_cons.mp hslots
  have hfill : PairingOk e p → ((p.fill r side).primary = none ∨ (p.fill r side).shadow = none) →
      PairingOk e (p.fill r side) := by
    intro hok hwaits
    refine ⟨fun hprimary => ?_, fun hshadow => ?_, hwaits, fun other r' hr' => ?_⟩
    · rw [Pairing.fill_request]
      refine hok.primaryOpen ?_
      cases side
      · cases hprimary
      · exact hprimary
    · rw [Pairing.fill_request]
      refine hok.shadowOpen ?_
      cases side
      · exact hshadow
      · cases hshadow
    · rw [Pairing.side_fill] at hr'
      rw [Pairing.fill_request]
      split at hr'
      · rw [← Option.some.inj hr', hnumber]
      · exact hok.own other r' hr'
  -- the slots in use afterwards are slots in use before, but for what was filled in
  have hsub : ∀ q ∈ actives (record side e id r).slots, q ∈ rest ∨
      (q = p.fill r side ∧ (q.primary = none ∨ q.shadow = none)) := by
    intro q hq
    rcases hcases with ⟨hafter, -, hwaits⟩ | ⟨_, _, hafter, -⟩
    · rcases List.mem_cons.mp (hafter.mem_iff.mp hq) with rfl | hq
      · exact Or.inr ⟨rfl, hwaits⟩
      · exact Or.inl hq
    · exact Or.inl (hafter.mem_iff.mp hq)
  have htokens : ∀ x ∈ tokens (record side e id r), x ∈ tokens e := by
    intro x hx
    rcases mem_tokens.mp hx with ⟨q, hq, rfl⟩ | ⟨t, ht, rfl⟩ | ⟨q, hq, rfl⟩
    · exact token_request (hrequests ▸ hq)
    · exact token_task (hpending ▸ ht)
    · rcases hsub q hq with hq | ⟨rfl, -⟩
      · exact token_slot (hrest q hq)
      · rw [Pairing.fill_evalId, Pairing.fill_request]
        exact token_slot hp
  have hsame : ∀ q, PairingOk e q → PairingOk (record side e id r) q := by
    intro q hq
    refine ⟨?_, ?_, hq.waits, hq.own⟩
    · rw [hrequests]
      exact hq.primaryOpen
    · rw [hrequests, hpending]
      exact hq.shadowOpen
  refine ⟨fun x hx y hy => h.consistent x (htokens x hx) y (htokens y hy), fun x hx => ?_, ?_, ?_,
    fun q hq => ?_, ?_, ?_⟩
  · rw [hnext]
    exact h.older x (htokens x hx)
  · rw [hrequests]
    exact h.requests
  · rcases hcases with ⟨hafter, -⟩ | ⟨_, _, hafter, -⟩
    · rw [(hafter.map (·.request)).nodup_iff, List.map_cons, Pairing.fill_request]
      exact hslots
    · rw [(hafter.map (·.request)).nodup_iff]
      exact hrestNodup
  · rcases hsub q hq with hq | ⟨rfl, hwaits⟩
    · exact hsame q (h.ok q (hrest q hq))
    · exact hsame _ (hfill (h.ok p hp) hwaits)
  · intro i hi
    rw [hnext]
    rcases hcases with ⟨hafter, hcommitted, -⟩ |
      ⟨primary, shadow, hafter, hprimary, hshadow, hcommitted⟩
    · rw [hcommitted] at hi
      obtain ⟨hpair, holder, hgone⟩ := h.items i hi
      refine ⟨hpair, holder, fun q hq => ?_⟩
      rcases hsub q hq with hq | ⟨rfl, -⟩
      · exact hgone q (hrest q hq)
      · rw [Pairing.fill_request]
        exact hgone p hp
    · rw [hcommitted] at hi
      rcases List.mem_append.mp hi with hi | hi
      · obtain ⟨hpair, holder, hgone⟩ := h.items i hi
        exact ⟨hpair, holder, fun q hq => hgone q (hrest q (hafter.mem_iff.mp hq))⟩
      · obtain rfl := List.mem_singleton.mp hi
        have hown : ∀ other r', (p.fill r side).side other = some r' → r'.request = p.request := by
          intro other r' hr'
          rw [Pairing.side_fill] at hr'
          split at hr'
          · rw [← Option.some.inj hr', hnumber]
          · exact (h.ok p hp).own other r' hr'
        have hownPrimary := hown .primary primary hprimary
        have hownShadow := hown .shadow shadow hshadow
        refine ⟨hownPrimary.trans hownShadow.symm, ?_, fun q hq => ?_⟩
        · rw [hownPrimary]
          exact h.older _ (token_slot hp)
        · rw [hownPrimary]
          exact fun hq' => hfresh (List.mem_map.mpr ⟨q, hafter.mem_iff.mp hq, hq'⟩)
  · rcases hcases with ⟨-, hcommitted, -⟩ | ⟨primary, shadow, -, hprimary, -, hcommitted⟩
    · rw [hcommitted]
      exact h.once
    · have hownPrimary : primary.request = p.request := by
        have hr' : (p.fill r side).side .primary = some primary := hprimary
        rw [Pairing.side_fill] at hr'
        split at hr'
        · rw [← Option.some.inj hr', hnumber]
        · exact (h.ok p hp).own .primary primary hr'
      rw [hcommitted, List.map_append, List.map_singleton]
      refine h.once.append (List.nodup_singleton _) ?_
      rw [List.disjoint_singleton]
      intro hmem
      obtain ⟨i, hi, hsameNumber⟩ := List.mem_map.mp hmem
      exact (h.items i hi).2.2 p hp (hownPrimary.symm.trans hsameNumber.symm)

/-- Afterwards no slot of the request still waits for that side. -/
theorem Inv.records_done {e : Engine} (h : Inv e) (side : Side) {id : EvalId} {r : Recorded}
    (htoken : (id, r.request) ∈ tokens e) :
    ∀ q ∈ actives (record side e id r).slots, q.request = r.request → q.side side ≠ none := by
  intro q hq hnumber
  rcases record_cases side e id r with
    ⟨hsame, hfound⟩ | ⟨p, rest, hid, -, hperm, hcases⟩
  · rw [hsame] at hq
    have hqid : q.evalId = id := (h.consistent _ (token_slot hq) _ htoken).mpr hnumber
    obtain ⟨p, hp, hid, hdone⟩ := hfound q hq hqid
    have hsameNumber : p.request = q.request :=
      ((h.consistent _ (token_slot hp) _ htoken).mp hid).trans hnumber.symm
    have hpq : p = q := List.inj_on_of_nodup_map h.slots hp hq hsameNumber
    rw [← hpq]
    exact Option.isSome_iff_ne_none.mp hdone
  · have hp : p ∈ actives e.slots := hperm.mem_iff.mpr List.mem_cons_self
    have hown : p.request = r.request := (h.consistent _ (token_slot hp) _ htoken).mp hid
    have hslots := (hperm.map (·.request)).nodup_iff.mp h.slots
    have hother : q ∉ rest := fun hq' =>
      (List.nodup_cons.mp hslots).1 (List.mem_map.mpr ⟨q, hq', hnumber.trans hown.symm⟩)
    rcases hcases with ⟨hafter, -⟩ | ⟨_, _, hafter, -⟩
    · rcases List.mem_cons.mp (hafter.mem_iff.mp hq) with rfl | hq'
      · rw [Pairing.side_fill, if_pos rfl]
        exact nofun
      · exact absurd hq' hother
    · exact absurd (hafter.mem_iff.mp hq) hother

/-! ### Every step -/

/-- With the same slots, the ids in use may become fewer as long as each slot still waits for
something. -/
theorem Inv.fewer {e e' : Engine} (h : Inv e) (hslots : e'.slots = e.slots)
    (hcommitted : e'.committed = e.committed) (hnext : e'.next = e.next)
    (htokens : ∀ x ∈ tokens e', x ∈ tokens e) (hrequests : (e'.requests.map (·.request)).Nodup)
    (hok : ∀ p ∈ actives e.slots, PairingOk e' p) : Inv e' := by
  refine ⟨fun x hx y hy => h.consistent x (htokens x hx) y (htokens y hy), fun x hx => ?_,
    hrequests, ?_, ?_, ?_, ?_⟩
  · rw [hnext]
    exact h.older x (htokens x hx)
  · rw [hslots]
    exact h.slots
  · rw [hslots]
    exact hok
  · rw [hcommitted, hnext, hslots]
    exact h.items
  · rw [hcommitted]
    exact h.once

/-- A request draws an id that is not in use. -/
theorem Inv.pair {e : Engine} (h : Inv e) {id : EvalId} (hfresh : ∀ x ∈ tokens e, x.1 ≠ id)
    (info : PairingInfo) : Inv (step e (.pair id info)) := by
  set p : Pairing := ⟨id, e.next, info, none, none⟩
  obtain ⟨slots, hstep, hactive⟩ : ∃ slots, step e (.pair id info) =
      { e with
        slots := slots
        requests := e.requests ++ [⟨e.next, id, false⟩]
        next := e.next + 1 } ∧
      ((actives slots).Perm (p :: actives e.slots) ∨ slots = e.slots) := by
    simp only [step, startPairing]
    cases hclaim : claim p e.slots with
    | none => exact ⟨e.slots, rfl, Or.inr rfl⟩
    | some slots => exact ⟨slots, rfl, Or.inl (claim_perm hclaim)⟩
  rw [hstep]
  have hmem : ∀ q ∈ actives slots, q = p ∨ q ∈ actives e.slots := by
    intro q hq
    rcases hactive with hperm | hsame
    · exact List.mem_cons.mp (hperm.mem_iff.mp hq)
    · exact Or.inr (hsame ▸ hq)
  have htokens : ∀ x ∈ tokens { e with
      slots := slots
      requests := e.requests ++ [⟨e.next, id, false⟩]
      next := e.next + 1 }, x = (id, e.next) ∨ x ∈ tokens e := by
    intro x hx
    rcases mem_tokens.mp hx with ⟨r, hr, rfl⟩ | ⟨t, ht, rfl⟩ | ⟨q, hq, rfl⟩
    · rcases List.mem_append.mp hr with hr | hr
      · exact Or.inr (token_request hr)
      · rw [List.mem_singleton.mp hr]
        exact Or.inl rfl
    · exact Or.inr (token_task (e := e) ht)
    · rcases hmem q hq with rfl | hq
      · exact Or.inl rfl
      · exact Or.inr (token_slot hq)
  have holdNumber : ∀ x ∈ tokens e, x.2 ≠ e.next := fun x hx => (h.older x hx).ne
  have hpairs : ∀ q ∈ actives e.slots, q.request ≠ e.next := fun q hq =>
    holdNumber _ (token_slot hq)
  refine ⟨fun x hx y hy => ?_, fun x hx => ?_, ?_, ?_, fun q hq => ?_, fun i hi => ?_, h.once⟩
  · rcases htokens x hx with rfl | hx
    · rcases htokens y hy with rfl | hy
      · exact iff_of_true rfl rfl
      · exact iff_of_false (fun heq => hfresh y hy heq.symm) fun heq => holdNumber y hy heq.symm
    · rcases htokens y hy with rfl | hy
      · exact iff_of_false (hfresh x hx) (holdNumber x hx)
      · exact h.consistent x hx y hy
  · rcases htokens x hx with rfl | hx
    · exact Nat.lt_succ_self _
    · exact (h.older x hx).trans (Nat.lt_succ_self _)
  · rw [List.map_append]
    refine h.requests.append (List.nodup_singleton _) ?_
    rw [List.map_singleton, List.disjoint_singleton]
    intro hnext
    obtain ⟨r, hr, hnumber⟩ := List.mem_map.mp hnext
    exact holdNumber _ (token_request hr) hnumber
  · dsimp only
    rcases hactive with hperm | hsame
    · rw [(hperm.map (·.request)).nodup_iff, List.map_cons]
      refine List.nodup_cons.mpr ⟨fun hnext => ?_, h.slots⟩
      obtain ⟨q, hq, hnumber⟩ := List.mem_map.mp hnext
      exact hpairs q hq hnumber
    · rw [hsame]
      exact h.slots
  · rcases hmem q hq with rfl | hq
    · refine ⟨fun _ => ⟨⟨e.next, id, false⟩, by simp, rfl⟩,
        fun _ => Or.inr ⟨⟨e.next, id, false⟩, by simp, rfl, rfl⟩, Or.inl rfl, fun side r hr => ?_⟩
      cases side <;> cases hr
    · have hok := h.ok q hq
      refine ⟨fun hprimary => ?_, fun hshadow => ?_, hok.waits, hok.own⟩
      · obtain ⟨r, hr, hnumber⟩ := hok.primaryOpen hprimary
        exact ⟨r, List.mem_append_left _ hr, hnumber⟩
      · rcases hok.shadowOpen hshadow with htask | ⟨r, hr, hnumber, hsubmitted⟩
        · exact Or.inl htask
        · exact Or.inr ⟨r, List.mem_append_left _ hr, hnumber, hsubmitted⟩
  · obtain ⟨hpair, holder, hgone⟩ := h.items i hi
    refine ⟨hpair, holder.trans (Nat.lt_succ_self _), fun q hq => ?_⟩
    rcases hmem q hq with rfl | hq
    · exact holder.ne'
    · exact hgone q hq

theorem inFlight_some {e : Engine} {n : ℕ} {r : InFlight} (h : inFlight e n = some r) :
    r ∈ e.requests ∧ r.request = n := by
  refine ⟨List.mem_of_find?_eq_some h, ?_⟩
  simpa using List.find?_some h

/-- A request submits its task, or is refused and has no slot. -/
theorem Inv.submit {e : Engine} (h : Inv e) {n : ℕ}
    (hslot : e.capacity ≤ e.queue.length → ∀ p ∈ actives e.slots, p.request ≠ n) :
    Inv (step e (.submit n)) := by
  simp only [step]
  split
  · rename_i m id hfound
    obtain ⟨hr, hm⟩ := inFlight_some hfound
    obtain rfl : m = n := hm
    set submitted : InFlight → InFlight := fun r => if r.request = m then ⟨m, id, true⟩ else r
    have hnumber : ∀ r, (submitted r).request = r.request := by
      intro r
      simp only [submitted]
      split
      · rename_i hrm
        exact hrm.symm
      · rfl
    have hrequests : ((e.requests.map submitted).map (·.request)) = e.requests.map (·.request) := by
      rw [List.map_map]
      exact List.map_congr_left fun r _ => hnumber r
    obtain ⟨queue, dropped, hpush, hpending⟩ : ∃ queue dropped,
        queuePush e ⟨m, id⟩ = { e with queue := queue, dropped := dropped } ∧
          ((queue = e.queue ∧ e.capacity ≤ e.queue.length) ∨ queue = e.queue ++ [⟨m, id⟩]) := by
      unfold queuePush
      split
      · rename_i hfull
        exact ⟨e.queue, e.dropped + 1, rfl, Or.inl ⟨rfl, hfull⟩⟩
      · exact ⟨_, e.dropped, rfl, Or.inr rfl⟩
    rw [hpush]
    dsimp only
    refine h.fewer rfl rfl rfl (fun x hx => ?_) (by rw [hrequests]; exact h.requests)
      fun p hp => ?_
    · rcases mem_tokens.mp hx with ⟨r, hr', rfl⟩ | ⟨t, ht, rfl⟩ | ⟨q, hq, rfl⟩
      · obtain ⟨r', hbefore, rfl⟩ := List.mem_map.mp hr'
        simp only [submitted]
        split
        · exact (token_request hr : (id, m) ∈ tokens e)
        · exact token_request hbefore
      · rcases hpending with ⟨rfl, -⟩ | rfl
        · exact token_task (e := e) ht
        · unfold pending at ht
          rw [List.append_assoc, List.mem_append, List.mem_append, List.mem_singleton] at ht
          rcases ht with ht | rfl | ht
          · exact token_task (List.mem_append_left _ ht)
          · exact token_request hr
          · exact token_task (List.mem_append_right _ ht)
      · exact token_slot hq
    · have hok := h.ok p hp
      have hkept : ∀ t ∈ pending e, t ∈ queue ++ e.worker.task := by
        intro t ht
        rcases hpending with ⟨rfl, -⟩ | rfl
        · exact ht
        · rcases List.mem_append.mp ht with ht | ht
          · exact List.mem_append_left _ (List.mem_append_left _ ht)
          · exact List.mem_append_right _ ht
      refine ⟨fun hprimary => ?_, fun hshadow => ?_, hok.waits, hok.own⟩
      · obtain ⟨r, hr, hrp⟩ := hok.primaryOpen hprimary
        exact ⟨submitted r, List.mem_map_of_mem hr, (hnumber r).trans hrp⟩
      · rcases hok.shadowOpen hshadow with ⟨t, ht, htp⟩ | ⟨r, hr', hrp, hopen⟩
        · exact Or.inl ⟨t, hkept t ht, htp⟩
        by_cases hpm : p.request = m
        · -- the slot is that of this request, so the queue takes the task
          rcases hpending with ⟨-, hfull⟩ | rfl
          · exact absurd hpm (hslot hfull p hp)
          · exact Or.inl ⟨⟨m, id⟩, List.mem_append_left _ (by simp), hpm.symm⟩
        · refine Or.inr ⟨r, List.mem_map.mpr ⟨r, hr', if_neg ?_⟩, hrp, hopen⟩
          rw [hrp]
          exact hpm
  · exact h

/-- The cleanup of a request that has submitted its task. -/
theorem Inv.cleanup {e : Engine} (h : Inv e) (n : ℕ) (status : ℤ) :
    Inv (step e (.cleanup n status)) := by
  simp only [step]
  split
  · rename_i m id hfound
    obtain ⟨hr, hm⟩ := inFlight_some hfound
    obtain rfl : m = n := hm
    have htoken : (id, m) ∈ tokens e := token_request hr
    have hrecorded : Inv (recordPrimary e id ⟨m, cleanupResult status⟩) := h.records .primary htoken
    have hdone := h.records_done .primary (r := ⟨m, cleanupResult status⟩) htoken
    obtain ⟨hrequests, -⟩ := record_unchanged .primary e id ⟨m, cleanupResult status⟩
    refine hrecorded.fewer rfl rfl rfl (fun x hx => ?_) ?_ fun p hp => ?_
    · rcases mem_tokens.mp hx with ⟨r, hr', rfl⟩ | ⟨t, ht, rfl⟩ | ⟨q, hq, rfl⟩
      · exact token_request (e := record .primary e id _) (hrequests ▸ (List.mem_filter.mp hr').1)
      · exact token_task (e := recordPrimary e id ⟨m, cleanupResult status⟩) ht
      · exact token_slot hq
    · exact h.requests.sublist (List.filter_sublist.map _)
    · have hok := hrecorded.ok p hp
      have hstays : ∀ r ∈ e.requests, r.request ≠ m →
          r ∈ e.requests.filter fun r => r.request ≠ m :=
        fun r hr' hne => List.mem_filter.mpr ⟨hr', decide_eq_true hne⟩
      refine ⟨fun hprimary => ?_, fun hshadow => ?_, hok.waits, hok.own⟩
      · obtain ⟨r, hr', hrp⟩ := hok.primaryOpen hprimary
        refine ⟨r, hstays r (hrequests ▸ hr') fun hrm => ?_, hrp⟩
        exact hdone p hp (hrp.symm.trans hrm) hprimary
      · rcases hok.shadowOpen hshadow with htask | ⟨r, hr', hrp, hopen⟩
        · exact Or.inl htask
        · have hr'' : r ∈ e.requests := hrequests ▸ hr'
          refine Or.inr ⟨r, hstays r hr'' fun hrm => ?_, hrp, hopen⟩
          rw [List.inj_on_of_nodup_map h.requests hr'' hr hrm] at hopen
          cases hopen
  · exact h

/-- The worker drops its task, and no slot waits for that. -/
theorem Inv.dropTask {e : Engine} (h : Inv e) {t : Task} (hworker : e.worker.task = [t])
    (hdone : ∀ p ∈ actives e.slots, p.request = t.request → p.shadow ≠ none) :
    Inv { e with worker := .idle } := by
  have hpending : pending e = e.queue ++ [t] := by
    unfold pending
    rw [hworker]
  have hqueue : pending { e with worker := .idle } = e.queue := List.append_nil _
  refine h.fewer rfl rfl rfl (fun x hx => ?_) h.requests fun p hp => ?_
  · rcases mem_tokens.mp hx with ⟨r, hr, rfl⟩ | ⟨t', ht, rfl⟩ | ⟨q, hq, rfl⟩
    · exact token_request (e := e) hr
    · rw [hqueue] at ht
      exact token_task (hpending ▸ List.mem_append_left _ ht)
    · exact token_slot hq
  · have hok := h.ok p hp
    refine ⟨hok.primaryOpen, fun hshadow => ?_, hok.waits, hok.own⟩
    rcases hok.shadowOpen hshadow with ⟨t', ht, htp⟩ | hrequest
    · rw [hpending] at ht
      rcases List.mem_append.mp ht with ht | ht
      · refine Or.inl ⟨t', ?_, htp⟩
        rw [hqueue]
        exact ht
      · obtain rfl := List.mem_singleton.mp ht
        exact absurd hshadow (hdone p hp htp.symm)
    · exact Or.inr hrequest

theorem Inv.work {e : Engine} (h : Inv e) : Inv (work e) := by
  unfold ShadowPairing.work
  cases hworker : e.worker with
  | idle =>
    cases hqueue : e.queue with
    | nil => exact h
    | cons t rest =>
      have hsame : ∀ t', t' ∈ pending { e with queue := rest, worker := .looking t } ↔
          t' ∈ pending e := by
        intro t'
        unfold pending
        rw [hqueue, hworker]
        simp [Worker.task, or_comm]
      refine h.fewer rfl rfl rfl (fun x hx => ?_) h.requests fun p hp => ?_
      · rcases mem_tokens.mp hx with ⟨r, hr, rfl⟩ | ⟨t', ht, rfl⟩ | ⟨q, hq, rfl⟩
        · exact token_request (e := e) hr
        · exact token_task ((hsame t').mp ht)
        · exact token_slot hq
      · have hok := h.ok p hp
        refine ⟨hok.primaryOpen, fun hshadow => ?_, hok.waits, hok.own⟩
        rcases hok.shadowOpen hshadow with ⟨t', ht, htp⟩ | hrequest
        · exact Or.inl ⟨t', (hsame t').mpr ht, htp⟩
        · exact Or.inr hrequest
  | looking t =>
    have htask : e.worker.task = [t] := by rw [hworker]; rfl
    have htoken : (t.evalId, t.request) ∈ tokens e :=
      token_task (List.mem_append_right _ (htask ▸ List.mem_singleton_self t))
    dsimp only
    cases hfind : findSlot t.evalId e.slots with
    | none =>
      refine h.dropTask htask fun p hp hnumber => ?_
      have hid := (h.consistent _ (token_slot hp) _ htoken).mpr hnumber
      exact absurd hid (findSlot_none hfind p hp)
    | some p =>
      have hsame : pending { e with worker := .recording t } = pending e := by
        unfold pending
        rw [hworker]
        rfl
      refine h.fewer rfl rfl rfl (fun x hx => ?_) h.requests fun p hp => ?_
      · rcases mem_tokens.mp hx with ⟨r, hr, rfl⟩ | ⟨t', ht, rfl⟩ | ⟨q, hq, rfl⟩
        · exact token_request (e := e) hr
        · exact token_task (hsame ▸ ht)
        · exact token_slot hq
      · have hok := h.ok p hp
        exact ⟨hok.primaryOpen, fun hshadow => hsame ▸ hok.shadowOpen hshadow, hok.waits, hok.own⟩
  | recording t =>
    have htask : e.worker.task = [t] := by rw [hworker]; rfl
    have htoken : (t.evalId, t.request) ∈ tokens e :=
      token_task (List.mem_append_right _ (htask ▸ List.mem_singleton_self t))
    have hrecorded := h.records .shadow (r := ⟨t.request, shadowResult⟩) htoken
    have hdone := h.records_done .shadow (r := ⟨t.request, shadowResult⟩) htoken
    refine hrecorded.dropTask (t := t) ?_ hdone
    rw [(record_unchanged .shadow e t.evalId _).2.2.1]
    exact htask

/-- The steps that are allowed keep the invariant. -/
theorem Inv.step {e : Engine} (h : Inv e) (ev : Event) (hok : StepOk e ev) :
    Inv (step e ev) := by
  cases ev with
  | pair id info => exact h.pair hok info
  | submit n => exact h.submit hok
  | primary n result =>
    simp only [ShadowPairing.step]
    split
    · rename_i m id hfound
      obtain ⟨hr, hm⟩ := inFlight_some hfound
      obtain rfl : m = n := hm
      exact h.records .primary (r := ⟨m, result⟩) (token_request hr)
    · exact h
  | cleanup n status => exact h.cleanup n status
  | work => exact h.work

/-- In every run in which the queue refuses only requests that have no slot, and no id is drawn
that is in use, the slots are conserved in every state. -/
theorem conserved_of_runOk (queueCap : ℕ) (events : List Event)
    (h : RunOk step StepOk (shadowEngineCreate queueCap) events) :
    Always step Conserved (shadowEngineCreate queueCap) events := by
  have hinv : Always step Inv (shadowEngineCreate queueCap) events :=
    always_of_runOk (fun _ ev hs hok => hs.step ev hok) (inv_create queueCap) h
  exact fun n => (hinv n).conserved

/-- An id that begins with a letter. -/
def idOf (c : Char) : EvalId := ⟨c :: List.replicate 31 '0', rfl⟩

def someInfo : PairingInfo where
  traceId := []
  sourceModel := ascii "gpt-4o"
  targetModel := ascii "gpt-4o-mini"
  promptPreview := []
  timestampUs := 0

/-- A request comes and goes, and then the worker does its task. -/
def served : List Event :=
  [.pair (idOf 'a') someInfo, .submit 0, .cleanup 0 200, .work, .work, .work]

theorem conserved_served : Always step Conserved (shadowEngineCreate 1) served :=
  conserved_of_runOk 1 served
    ⟨show ∀ x ∈ tokens _, _ by decide +kernel, fun hfull => absurd hfull (by decide +kernel),
      trivial, trivial, trivial, trivial, trivial⟩

/-- Two requests come before the worker does the first task. The second one is refused. -/
def refused : List Event :=
  [.pair (idOf 'a') someInfo, .submit 0, .pair (idOf 'b') someInfo, .submit 1, .cleanup 0 200,
    .cleanup 1 200, .work, .work, .work]

/-- Both requests are over, no task is left, and a slot is in use for good. -/
theorem not_conserved_refused : ¬ Always step Conserved (shadowEngineCreate 1) refused := by
  intro h
  have hrequests : (run step (shadowEngineCreate 1) refused).requests.length = 0 := by
    decide +kernel
  have hpending : (pending (run step (shadowEngineCreate 1) refused)).length = 0 := by
    decide +kernel
  have hused : (run step (shadowEngineCreate 1) refused).slots.any Option.isSome = true := by
    decide +kernel
  obtain ⟨x, hx, hsome⟩ := List.any_eq_true.mp hused
  have hnone := h.last.released (List.length_eq_zero_iff.mp hrequests)
    (List.length_eq_zero_iff.mp hpending) x hx
  rw [hnone] at hsome
  cases hsome

end Aigate.ShadowPairing
