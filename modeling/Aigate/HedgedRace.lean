import Aigate.GuardedRuns
import Aigate.Text

/-!
# The race of a hedged call

`upstream_call_hedged` and the threads of its two workers. They share a control block, with a
mutex, a condition, and a count of the parties that still refer to it. A section under the mutex
is one step, up to the unlock or the wait. What a party does outside of the mutex is a step of
its own: to read its cancel flag, to free the block once it has counted down to zero. The ledger
counts how often the block and each response body are freed, how often a body is handed to the
caller, and notes an access to the block after it was freed.
-/
namespace Aigate.HedgedRace
open Text GuardedRuns

inductive Worker where
  | primary
  | secondary
  deriving DecidableEq

def Worker.other : Worker → Worker
  | .primary => .secondary
  | .secondary => .primary

inductive CurlCode where
  | ok
  | operationTimedout
  | failed
  deriving DecidableEq

/-- The transport code that a worker records. -/
def CurlCode.rc : CurlCode → ℤ
  | .ok => 0
  | .operationTimedout => -110
  | .failed => -502

/-- `hedged_race_ctrl_t`. The length of a response is that of its body. -/
structure RaceCtrl where
  refCount : ℤ
  winningIdx : Option Worker
  cancelFlags : Worker → Bool
  done : Worker → Bool
  httpStatus : Worker → ℤ
  rc : Worker → ℤ
  respBody : Worker → Option Bytes
  latNs : Worker → ℕ

/-- `hedged_call_result_t`, as it is at first. -/
structure HedgedResult where
  status : ℤ := 0
  body : Option Bytes := none
  winningTarget : Worker := .primary
  wasHedged : Bool := false
  latencyNs : ℕ := 0

/-- What the caller is given: the return code and the result. -/
abbrev Answer := ℤ × HedgedResult

def respMaxLen : ℕ := 32 * 1024 * 1024

/-- Where the call is. A wait is asleep, or woken and in need of the mutex. -/
inductive CallPhase where
  | entry
  | delayWait (expired : Bool)
  | delaySleep
  | raceWait (started hedged : Bool)
  | raceSleep (started hedged : Bool)
  | releasing (a : Answer)
  | freeing (a : Answer)
  | returned (a : Answer)

/-- Where a worker's thread is. Once it has recorded its outcome it carries it along. -/
inductive WorkerPhase where
  | idle
  | starting
  | running (aborted : Bool)
  | writing (chunk : Bytes)
  | finished (code : CurlCode) (status : ℤ) (latNs : ℕ)
  | noSession
  | releasing (outcome : ℤ × ℤ)
  | freeing (outcome : ℤ × ℤ)
  | ended (outcome : ℤ × ℤ)

structure Race where
  call : CallPhase
  worker : Worker → WorkerPhase
  ctrl : RaceCtrl
  created : Bool
  ctrlFrees : ℕ
  misused : Bool
  mallocs : Worker → ℕ
  freed : Worker → ℕ
  handed : Worker → ℕ
  results : List Answer

/-- The control block as `calloc` and the coordinator leave it. -/
def newCtrl : RaceCtrl where
  refCount := 1
  winningIdx := none
  cancelFlags := fun _ => false
  done := fun _ => false
  httpStatus := fun _ => 0
  rc := fun _ => 0
  respBody := fun _ => none
  latNs := fun _ => 0

def initial : Race where
  call := .entry
  worker := fun _ => .idle
  ctrl := newCtrl
  created := false
  ctrlFrees := 0
  misused := false
  mallocs := fun _ => 0
  freed := fun _ => 0
  handed := fun _ => 0
  results := []

/-- What a call says about its second target, and the answer of the latency tracker's budget if
it has a tracker. -/
structure HedgedCall where
  hasSecondary : Bool
  secondaryUrl : Bytes
  admitted : Option Bool

def HedgedCall.shouldHedge (p : HedgedCall) : Bool :=
  p.hasSecondary && !p.secondaryUrl.isEmpty && p.admitted.getD true

/-- What happens next. The environment says which allocations and threads succeed, when the hedge
delay expires, when a wait wakes up without a signal, and what a transfer does: it reports
progress, it receives a chunk, it returns. A transfer whose callback asked to stop does not
return with success. -/
inductive Event where
  | enter (ctrlOk ctxOk threadOk : Bool)
  | expire
  | spurious
  | proceed (ctxOk threadOk : Bool)
  | openSession (w : Worker) (ok : Bool)
  | poll (w : Worker)
  | receive (w : Worker) (chunk : Bytes)
  | store (w : Worker) (memOk : Bool)
  | perform (w : Worker) (code : CurlCode) (status : ℤ) (latNs : ℕ)
  | advance (w : Worker)

/-! ### The shared block -/

/-- An access to the control block. -/
def touch (s : Race) : Race := { s with misused := s.misused || decide (0 < s.ctrlFrees) }

/-- The section of `ctrl_release`. -/
def countDown (s : Race) : Race :=
  { touch s with ctrl := { s.ctrl with refCount := s.ctrl.refCount - 1 } }

def bodyCount (c : RaceCtrl) (w : Worker) : ℕ := if (c.respBody w).isSome then 1 else 0

/-- The end of `ctrl_release` for the last party: the two bodies and the block itself. -/
def freeCtrl (s : Race) : Race :=
  { touch s with
    ctrl := { s.ctrl with respBody := fun _ => none }
    ctrlFrees := s.ctrlFrees + 1
    freed := fun w => s.freed w + bodyCount s.ctrl w }

/-- A broadcast of the condition. -/
def broadcast : CallPhase → CallPhase
  | .delaySleep => .delayWait false
  | .raceSleep started hedged => .raceWait started hedged
  | call => call

/-! ### The workers -/

/-- `hedged_write_cb` under the mutex. -/
def writeSection (s : Race) (w : Worker) (chunk : Bytes) (memOk : Bool) : Race :=
  let body := (s.ctrl.respBody w).getD []
  if s.ctrl.cancelFlags w ∨ respMaxLen ≤ body.length + chunk.length ∨ memOk = false then
    { touch s with worker := Function.update s.worker w (.running true) }
  else
    { touch s with
      worker := Function.update s.worker w (.running false)
      ctrl := { s.ctrl with
        respBody := Function.update s.ctrl.respBody w (some (body ++ chunk)) }
      mallocs := Function.update s.mallocs w (s.mallocs w + (1 - bodyCount s.ctrl w)) }

/-- The first worker with a 200 wins, and the other one is told to stop. -/
def arbitrate (c : RaceCtrl) (w : Worker) : RaceCtrl :=
  if c.rc w = 0 ∧ c.httpStatus w = 200 ∧ c.winningIdx = none then
    { c with
      winningIdx := some w
      cancelFlags := Function.update c.cancelFlags w.other true }
  else c

/-- The outcome of a transfer is recorded. -/
def recordOutcome (c : RaceCtrl) (w : Worker) (rc status : ℤ) (latNs : ℕ) : RaceCtrl :=
  { c with
    httpStatus := Function.update c.httpStatus w status
    latNs := Function.update c.latNs w latNs
    rc := Function.update c.rc w rc
    done := Function.update c.done w true }

/-- Without a session only the code is recorded. -/
def recordNoSession (c : RaceCtrl) (w : Worker) : RaceCtrl :=
  { c with
    rc := Function.update c.rc w (-502)
    done := Function.update c.done w true }

/-- The last sections of `hedged_worker_run`. -/
def advance (s : Race) (w : Worker) : Race :=
  match s.worker w with
  | .finished code status latNs =>
    { touch s with
      call := broadcast s.call
      worker := Function.update s.worker w (.releasing (code.rc, status))
      ctrl := arbitrate (recordOutcome s.ctrl w code.rc status latNs) w }
  | .noSession =>
    { touch s with
      call := broadcast s.call
      worker := Function.update s.worker w (.releasing (-502, s.ctrl.httpStatus w))
      ctrl := recordNoSession s.ctrl w }
  | .releasing outcome =>
    { countDown s with
      worker := Function.update s.worker w
        (if s.ctrl.refCount - 1 ≤ 0 then .freeing outcome else .ended outcome) }
  | .freeing outcome =>
    { freeCtrl s with worker := Function.update s.worker w (.ended outcome) }
  | _ => s

/-! ### The call -/

/-- The first three phases of `upstream_call_hedged`. -/
def enter (s : Race) (ctrlOk ctxOk threadOk : Bool) : Race :=
  if ctrlOk = false then
    { s with call := .returned (-502, {}), results := s.results ++ [(-502, {})] }
  else if ctxOk = false ∨ threadOk = false then
    { s with call := .releasing (-502, {}), ctrl := newCtrl, created := true }
  else
    { s with
      call := .delayWait false
      worker := Function.update s.worker .primary .starting
      ctrl := { newCtrl with refCount := 2 }
      created := true }

/-- The primary is not done and nobody has won. -/
def delayTest (c : RaceCtrl) : Bool := !c.done .primary && c.winningIdx.isNone

/-- Somebody has won, or all that were started are done. -/
def raceOver (c : RaceCtrl) (started : Bool) : Bool :=
  c.winningIdx.isSome || (c.done .primary && (!started || c.done .secondary))

/-- The loser is told to stop. -/
def cancelLoser (c : RaceCtrl) (started : Bool) : RaceCtrl :=
  if c.winningIdx = some .primary ∧ started then
    { c with cancelFlags := Function.update c.cancelFlags .secondary true }
  else if c.winningIdx = some .secondary then
    { c with cancelFlags := Function.update c.cancelFlags .primary true }
  else c

/-- The worker whose response is handed out. -/
def harvested (c : RaceCtrl) (started : Bool) : Option Worker :=
  if c.winningIdx = some .secondary then some .secondary
  else if c.winningIdx = some .primary ∨ c.done .primary then some .primary
  else if started && c.done .secondary then some .secondary
  else none

/-- Phase 6, for the worker whose response it is. -/
def handOut (s : Race) (hedged : Bool) (w : Worker) : Race :=
  { s with
    call := .releasing (s.ctrl.rc w,
      { status := s.ctrl.httpStatus w
        body := s.ctrl.respBody w
        winningTarget := w
        wasHedged := hedged
        latencyNs := s.ctrl.latNs w })
    ctrl := { s.ctrl with respBody := Function.update s.ctrl.respBody w none }
    handed := Function.update s.handed w (s.handed w + bodyCount s.ctrl w) }

/-- The second wait and what follows it under the mutex. -/
def raceSection (s : Race) (started hedged : Bool) : Race :=
  if raceOver s.ctrl started then
    let cancelled := { s with ctrl := cancelLoser s.ctrl started }
    match harvested s.ctrl started with
    | some w => handOut cancelled hedged w
    | none => { cancelled with call := .releasing (-502, { wasHedged := hedged }) }
  else { s with call := .raceSleep started hedged }

/-- Phase 5. The count goes up before the thread is started, and down again if it is not. -/
def startSecondary (p : HedgedCall) (s : Race) (ctxOk threadOk : Bool) : Race :=
  if s.ctrl.winningIdx = none ∧ p.shouldHedge ∧ ctxOk then
    if threadOk then
      raceSection
        { s with
          worker := Function.update s.worker .secondary .starting
          ctrl := { s.ctrl with refCount := s.ctrl.refCount + 1 } } true true
    else raceSection s false true
  else raceSection s false false

/-- The call goes on from where it is. -/
def proceed (p : HedgedCall) (s : Race) (ctxOk threadOk : Bool) : Race :=
  match s.call with
  | .delayWait expired =>
    if delayTest s.ctrl ∧ expired = false then { touch s with call := .delaySleep }
    else startSecondary p (touch s) ctxOk threadOk
  | .raceWait started hedged => raceSection (touch s) started hedged
  | .releasing a =>
    if s.ctrl.refCount - 1 ≤ 0 then { countDown s with call := .freeing a }
    else { countDown s with call := .returned a, results := s.results ++ [a] }
  | .freeing a => { freeCtrl s with call := .returned a, results := s.results ++ [a] }
  | _ => s

/-- One step of one of the parties, if it can take it. -/
def step (p : HedgedCall) (s : Race) : Event → Race
  | .enter ctrlOk ctxOk threadOk =>
    match s.call with
    | .entry => enter s ctrlOk ctxOk threadOk
    | _ => s
  | .expire =>
    match s.call with
    | .delaySleep => { s with call := .delayWait true }
    | _ => s
  | .spurious => { s with call := broadcast s.call }
  | .proceed ctxOk threadOk => proceed p s ctxOk threadOk
  | .openSession w ok =>
    match s.worker w with
    | .starting =>
      { s with worker := Function.update s.worker w (if ok then .running false else .noSession) }
    | _ => s
  | .poll w =>
    match s.worker w with
    | .running false =>
      { touch s with worker := Function.update s.worker w (.running (s.ctrl.cancelFlags w)) }
    | _ => s
  | .receive w chunk =>
    match s.worker w with
    | .running false =>
      { touch s with
        worker := Function.update s.worker w
          (if s.ctrl.cancelFlags w then .running true else .writing chunk) }
    | _ => s
  | .store w memOk =>
    match s.worker w with
    | .writing chunk => writeSection s w chunk memOk
    | _ => s
  | .perform w code status latNs =>
    match s.worker w with
    | .running aborted =>
      if aborted = true ∧ code = .ok then s
      else { s with worker := Function.update s.worker w (.finished code status latNs) }
    | _ => s
  | .advance w => advance s w

end Aigate.HedgedRace
