import Aigate.Text

/-!
# The local circuit breaker

One entry for each model and endpoint, found along a hash chain: closed, open until a
deadline, half open with a single probe, or degraded by its latencies. The functions that
change an entry are stated for the entry; those of the breaker find it, and make it where
the program does.
-/
namespace Aigate.CircuitBreaker
open Text

inductive CbState where
  | closed
  | opened
  | halfOpen
  | slaDegraded
  deriving DecidableEq, Repr

/-- A model and an endpoint, as the callers name them. -/
structure Pair where
  model : Bytes
  endpoint : Bytes
  deriving DecidableEq

structure SlaSample where
  ttftMs : ℕ
  latencyMs : ℕ
  deriving DecidableEq

/-- The limits of a model. The comparison of the share of violations with the configured
ratio, which the program makes in single precision, is a parameter. -/
structure ModelSlaCfg where
  model : Bytes
  ttftMaxMs : ℕ
  p95MaxMs : ℕ
  windowSize : ℕ
  ratioReached : ℕ → ℕ → Bool
  fallbackModel : Bytes
  consecutiveRecoverNeed : ℕ
  window_pos : 0 < windowSize
  window_le : windowSize ≤ 128

structure CbEntry where
  model : Bytes
  endpoint : Bytes
  state : CbState
  consecutiveFailures : ℕ
  openUntil : ℤ
  halfOpenProbeActive : Bool
  samples : ℕ → SlaSample
  sampleCount : ℕ
  sampleHead : ℕ
  consecutiveSlaNormal : ℕ
  manualOverride : Bool

/-- `CB_DEFAULT_FAILURE_THRESHOLD` and `CB_DEFAULT_COOLOFF_SEC` unless they are set. -/
structure Breaker where
  failureThreshold : ℕ
  cooloffSec : ℕ
  buckets : Fin 64 → List CbEntry
  slaConfigs : List ModelSlaCfg
  threshold_pos : 0 < failureThreshold

/-- `cb_create` and `cb_set_params`, with configured limits. -/
def Breaker.create (failureThreshold cooloffSec : ℕ) (slaConfigs : List ModelSlaCfg)
    (h : 0 < failureThreshold) : Breaker :=
  ⟨failureThreshold, cooloffSec, fun _ => [], slaConfigs, h⟩

/-- `hash_key`. -/
def hashKey (p : Pair) : Fin 64 := Fin.ofNat 64 (djb2 5381 (p.model ++ ':' :: p.endpoint))

/-- The names as an entry stores them, in buffers of 128 and 512 bytes. -/
def storedPair (p : Pair) : Pair := ⟨p.model.take 127, p.endpoint.take 511⟩

def CbEntry.pair (e : CbEntry) : Pair := ⟨e.model, e.endpoint⟩

def newEntry (p : Pair) : CbEntry where
  model := (storedPair p).model
  endpoint := (storedPair p).endpoint
  state := .closed
  consecutiveFailures := 0
  openUntil := 0
  halfOpenProbeActive := false
  samples := fun _ => ⟨0, 0⟩
  sampleCount := 0
  sampleHead := 0
  consecutiveSlaNormal := 0
  manualOverride := false

/-- `find_entry_locked`. -/
def findEntry (cb : Breaker) (p : Pair) : Option CbEntry :=
  (cb.buckets (hashKey p)).find? fun e => e.pair = p

/-- The first entry of a pair is changed. -/
def changeFirst (p : Pair) (f : CbEntry → CbEntry) : List CbEntry → List CbEntry
  | [] => []
  | e :: es => if e.pair = p then f e :: es else e :: changeFirst p f es

/-- `find_entry_locked` and a change of what it finds. -/
def onEntry (cb : Breaker) (p : Pair) (f : CbEntry → CbEntry) : Breaker :=
  { cb with
    buckets := Function.update cb.buckets (hashKey p) (changeFirst p f (cb.buckets (hashKey p))) }

/-- `get_or_create_entry_locked` and a change of what it returns. -/
def onEntryOrNew (cb : Breaker) (p : Pair) (f : CbEntry → CbEntry) : Breaker :=
  match findEntry cb p with
  | some _ => onEntry cb p f
  | none =>
    { cb with
      buckets := Function.update cb.buckets (hashKey p)
        (f (newEntry p) :: cb.buckets (hashKey p)) }

/-- What `get_or_create_entry_locked` returns. -/
def entryOrNew (cb : Breaker) (p : Pair) : CbEntry := (findEntry cb p).getD (newEntry p)

/-- `update_state_on_time_locked`. -/
def updateStateOnTime (now : ℤ) (e : CbEntry) : CbEntry :=
  if e.state = .opened ∧ e.openUntil ≤ now then
    { e with state := .halfOpen, halfOpenProbeActive := false }
  else e

/-- The decision of `cb_allow_request` on an entry that is up to date. -/
def allowNow (e : CbEntry) : CbEntry × Bool :=
  match e.state with
  | .closed => (e, true)
  | .slaDegraded => (e, true)
  | .halfOpen =>
    if e.halfOpenProbeActive then (e, false) else ({ e with halfOpenProbeActive := true }, true)
  | .opened => (e, false)

def allowEntry (now : ℤ) (e : CbEntry) : CbEntry × Bool := allowNow (updateStateOnTime now e)

/-- `cb_allow_request`. -/
def cbAllowRequest (cb : Breaker) (now : ℤ) (p : Pair) : Breaker × Bool :=
  (onEntryOrNew cb p fun e => (allowEntry now e).1, (allowEntry now (entryOrNew cb p)).2)

/-- The change of `cb_record_success`: whatever the state, the deadline is cleared. -/
def successEntry (e : CbEntry) : CbEntry :=
  { e with
    state := if e.state = .halfOpen then .closed else e.state
    consecutiveFailures := 0
    openUntil := 0
    halfOpenProbeActive := false }

/-- `cb_record_success`. -/
def cbRecordSuccess (cb : Breaker) (p : Pair) : Breaker := onEntry cb p successEntry

def trip (cooloffSec : ℕ) (now : ℤ) (e : CbEntry) : CbEntry :=
  { e with state := .opened, openUntil := now + cooloffSec, halfOpenProbeActive := false }

/-- The change of `cb_record_failure` on an entry that is up to date. -/
def failureNow (threshold cooloffSec : ℕ) (now : ℤ) (e : CbEntry) : CbEntry :=
  match e.state with
  | .halfOpen => trip cooloffSec now e
  | .opened => e
  | _ =>
    let e := { e with consecutiveFailures := e.consecutiveFailures + 1 }
    if threshold ≤ e.consecutiveFailures then trip cooloffSec now e else e

def failureEntry (threshold cooloffSec : ℕ) (now : ℤ) (e : CbEntry) : CbEntry :=
  failureNow threshold cooloffSec now (updateStateOnTime now e)

/-- Client errors say nothing about the endpoint. -/
def countsAsFailure (httpStatus : ℤ) : Bool :=
  !(decide (0 < httpStatus) && decide (httpStatus ≠ 429) &&
    (decide (httpStatus < 500) || decide (599 < httpStatus)))

/-- `cb_record_failure`. -/
def cbRecordFailure (cb : Breaker) (now : ℤ) (p : Pair) (httpStatus : ℤ) :
    Breaker :=
  if countsAsFailure httpStatus then
    onEntryOrNew cb p (failureEntry cb.failureThreshold cb.cooloffSec now)
  else cb

def violates (cfg : ModelSlaCfg) (s : SlaSample) : Bool :=
  (decide (0 < cfg.ttftMaxMs) && decide (cfg.ttftMaxMs < s.ttftMs)) ||
    (decide (0 < cfg.p95MaxMs) && decide (cfg.p95MaxMs < s.latencyMs))

/-- The sample goes into the ring, and the run of good samples is counted. -/
def addSample (cfg : ModelSlaCfg) (s : SlaSample) (e : CbEntry) : CbEntry :=
  { e with
    samples := Function.update e.samples e.sampleHead s
    sampleHead := (e.sampleHead + 1) % cfg.windowSize
    sampleCount := if e.sampleCount < cfg.windowSize then e.sampleCount + 1 else e.sampleCount
    consecutiveSlaNormal := if violates cfg s then 0 else e.consecutiveSlaNormal + 1 }

def violationCount (cfg : ModelSlaCfg) (e : CbEntry) : ℕ :=
  (List.range e.sampleCount).countP fun i => violates cfg (e.samples i)

/-- The step between closed and degraded. -/
def judgeSla (cfg : ModelSlaCfg) (e : CbEntry) : CbEntry :=
  match e.state with
  | .closed =>
    if cfg.windowSize ≤ e.sampleCount ∧
        cfg.ratioReached (violationCount cfg e) e.sampleCount = true then
      { e with state := .slaDegraded, consecutiveSlaNormal := 0 }
    else e
  | .slaDegraded =>
    if cfg.consecutiveRecoverNeed ≤ e.consecutiveSlaNormal then
      { e with state := .closed, sampleCount := 0, sampleHead := 0, consecutiveSlaNormal := 0 }
    else e
  | _ => e

def slaSampleEntry (cfg : ModelSlaCfg) (now : ℤ) (s : SlaSample) (e : CbEntry) : CbEntry :=
  judgeSla cfg (addSample cfg s (updateStateOnTime now e))

/-- `cb_record_sla_sample`; a model without limits has no samples. -/
def cbRecordSlaSample (cb : Breaker) (now : ℤ) (p : Pair) (s : SlaSample) :
    Breaker :=
  match cb.slaConfigs.find? fun cfg => cfg.model = p.model with
  | none => cb
  | some cfg => onEntryOrNew cb p (slaSampleEntry cfg now s)

/-- `cb_get_state`, `cb_get_open_until` and `cb_get_sla_state` bring the entry up to date. -/
def cbGetState (cb : Breaker) (now : ℤ) (p : Pair) : Breaker × CbState :=
  (onEntry cb p (updateStateOnTime now),
    ((findEntry cb p).map fun e => (updateStateOnTime now e).state).getD .closed)

inductive Op where
  | allow (p : Pair)
  | success (p : Pair)
  | failure (p : Pair) (httpStatus : ℤ)
  | slaSample (p : Pair) (s : SlaSample)
  | query (p : Pair)

def Op.pair : Op → Pair
  | .allow p => p
  | .success p => p
  | .failure p _ => p
  | .slaSample p _ => p
  | .query p => p

/-- An operation at a time. -/
def step (cb : Breaker) : ℤ × Op → Breaker
  | (now, .allow p) => (cbAllowRequest cb now p).1
  | (_, .success p) => cbRecordSuccess cb p
  | (now, .failure p httpStatus) => cbRecordFailure cb now p httpStatus
  | (now, .slaSample p s) => cbRecordSlaSample cb now p s
  | (now, .query p) => (cbGetState cb now p).1

def run (cb : Breaker) (events : List (ℤ × Op)) : Breaker := events.foldl step cb

/-- Names that an entry stores whole. -/
def Fits (p : Pair) : Prop := storedPair p = p

instance (p : Pair) : Decidable (Fits p) := inferInstanceAs (Decidable (_ = _))

/-- A change that keeps the names of an entry. -/
def KeepsPair (f : CbEntry → CbEntry) : Prop := ∀ e, (f e).pair = e.pair

theorem updateStateOnTime_pair (now : ℤ) : KeepsPair (updateStateOnTime now) := by
  intro e
  unfold updateStateOnTime
  split
  · rfl
  · rfl

theorem allowEntry_pair (now : ℤ) : KeepsPair fun e => (allowEntry now e).1 := by
  intro e
  have hnow : ∀ u, (allowNow u).1.pair = u.pair := by
    intro u
    unfold allowNow
    split
    · rfl
    · rfl
    · split
      · rfl
      · rfl
    · rfl
  exact (hnow _).trans (updateStateOnTime_pair now e)

theorem successEntry_pair : KeepsPair successEntry := fun _ => rfl

theorem failureEntry_pair (threshold cooloffSec : ℕ) (now : ℤ) :
    KeepsPair (failureEntry threshold cooloffSec now) := by
  intro e
  have hnow : ∀ u, (failureNow threshold cooloffSec now u).pair = u.pair := by
    intro u
    unfold failureNow
    split
    · rfl
    · rfl
    · dsimp only
      split
      · rfl
      · rfl
  exact (hnow _).trans (updateStateOnTime_pair now e)

theorem slaSampleEntry_pair (cfg : ModelSlaCfg) (now : ℤ) (s : SlaSample) :
    KeepsPair (slaSampleEntry cfg now s) := by
  intro e
  have hjudge : ∀ u, (judgeSla cfg u).pair = u.pair := by
    intro u
    unfold judgeSla
    split
    · split
      · rfl
      · rfl
    · split
      · rfl
      · rfl
    · rfl
  exact (hjudge _).trans (updateStateOnTime_pair now e)

theorem find_changeFirst_self (p : Pair) {f : CbEntry → CbEntry} (hf : KeepsPair f)
    (es : List CbEntry) :
    (changeFirst p f es).find? (fun e => e.pair = p) = (es.find? fun e => e.pair = p).map f := by
  induction es with
  | nil => rfl
  | cons e es ih =>
    by_cases he : e.pair = p
    · simp [changeFirst, he, hf e]
    · simp [changeFirst, he, ih]

theorem find_changeFirst_ne {p q : Pair} (hpq : p ≠ q) {f : CbEntry → CbEntry}
    (hf : KeepsPair f) (es : List CbEntry) :
    (changeFirst p f es).find? (fun e => e.pair = q) = es.find? fun e => e.pair = q := by
  induction es with
  | nil => rfl
  | cons e es ih =>
    by_cases he : e.pair = p
    · simp [changeFirst, he, hf e, hpq]
    · by_cases hq : e.pair = q
      · simp [changeFirst, hq, Ne.symm hpq]
      · simp [changeFirst, he, hq, ih]

theorem findEntry_onEntry (cb : Breaker) (p : Pair) {f : CbEntry → CbEntry}
    (hf : KeepsPair f) : findEntry (onEntry cb p f) p = (findEntry cb p).map f := by
  simp only [findEntry, onEntry, Function.update_self]
  exact find_changeFirst_self p hf _

theorem findEntry_onEntry_ne (cb : Breaker) {p q : Pair} (hpq : p ≠ q)
    {f : CbEntry → CbEntry} (hf : KeepsPair f) :
    findEntry (onEntry cb p f) q = findEntry cb q := by
  simp only [findEntry, onEntry]
  by_cases hb : hashKey q = hashKey p
  · rw [hb, Function.update_self]
    exact find_changeFirst_ne hpq hf _
  · rw [Function.update_of_ne hb]

/-- The entry of a pair whose names fit is found again. -/
theorem findEntry_onEntryOrNew (cb : Breaker) {p : Pair} (hp : Fits p)
    {f : CbEntry → CbEntry} (hf : KeepsPair f) :
    findEntry (onEntryOrNew cb p f) p = some (f (entryOrNew cb p)) := by
  unfold onEntryOrNew entryOrNew
  cases hfind : findEntry cb p with
  | some e =>
    dsimp only
    rw [findEntry_onEntry cb p hf, hfind]
    rfl
  | none =>
    have hnew : (f (newEntry p)).pair = p := (hf _).trans hp
    simp only [findEntry, Function.update_self]
    rw [List.find?_cons_of_pos (by simpa using hnew)]
    rfl

theorem entryOrNew_onEntryOrNew (cb : Breaker) {p : Pair} (hp : Fits p) {f : CbEntry → CbEntry}
    (hf : KeepsPair f) : entryOrNew (onEntryOrNew cb p f) p = f (entryOrNew cb p) := by
  rw [entryOrNew, findEntry_onEntryOrNew cb hp hf, Option.getD_some]

/-- An operation on one pair leaves the entries of the others alone, unless cutting its
names makes them those of the other. -/
theorem findEntry_onEntryOrNew_ne (cb : Breaker) {p q : Pair} (hpq : p ≠ q)
    (hstored : storedPair p ≠ q) {f : CbEntry → CbEntry} (hf : KeepsPair f) :
    findEntry (onEntryOrNew cb p f) q = findEntry cb q := by
  unfold onEntryOrNew
  cases hfind : findEntry cb p with
  | some e => exact findEntry_onEntry_ne cb hpq hf
  | none =>
    have hnew : (f (newEntry p)).pair ≠ q := by
      rw [hf]
      exact hstored
    simp only [findEntry]
    by_cases hb : hashKey q = hashKey p
    · rw [hb, Function.update_self, List.find?_cons_of_neg (by simpa using hnew)]
    · rw [Function.update_of_ne hb]

end Aigate.CircuitBreaker
