import Aigate.EventStreams
import Aigate.OverwritingRings
import Aigate.SlidingWindow
import Aigate.TraceContext

/-!
# The way of a trace

A request pushes its trace into a buffer that overwrites its oldest one. One worker pops the
traces, puts each into the cache of recent traces and posts them in batches, until the manager is
stopped; then it puts what is left into the cache. Each step is a section under one lock.
-/
namespace Aigate.TraceExport
open Text JsonTree JsonText JsonEdit Utf8 GuardedRuns DropOldestRing OverwritingRings SlidingWindow
  StreamCache BridgeEvents EventTexts EventStreams GuardrailsEdits TraceContext

/-! ### The recent traces -/

/-- `TRACE_RECENT_CACHE_CAPACITY`. -/
def recentCapacity : ℕ := 500

abbrev RecentCache := RingSlots Context

def RecentCache.empty : RecentCache := ⟨fun _ => .zero, 0, 0⟩

/-- `tracer_cache_add`. -/
def cacheAdd (cache : RecentCache) (ctx : Context) : RecentCache :=
  if ctx.traceId = [] then cache else cache.record recentCapacity ctx

/-- `tracer_cache_get`: the first slot with the identifier, in any case. -/
def cacheGet (cache : RecentCache) (traceId : Bytes) : Option Context :=
  cache.read.find? fun ctx => lower ctx.traceId = lower traceId

/-- `tracer_cache_list_recent`. -/
def cacheListRecent (cache : RecentCache) (maxCount : ℕ) : List Context :=
  (List.range (min cache.count maxCount)).map fun i =>
    cache.slots ((cache.head + recentCapacity - 1 - i) % recentCapacity)

/-! ### The worker -/

/-- The fields of `tracer_config_t` that the worker reads. -/
structure Config where
  enabled : Bool
  otlpEndpoint : Bytes

/-- The traces of a batch. -/
def batchSize : ℕ := 50

/-- Where `trace_exporter_worker` is: before it reads `running`, pops, puts a trace into the cache,
reads the configuration, posts, or in its last loop. -/
inductive Worker where
  | test
  | poll (batch : List Context)
  | store (batch : List Context) (ctx : Context)
  | config (batch : List Context)
  | post (batch : List Context)
  | drain
  | drainStore (ctx : Context)
  | done

/-- The traces of the batch in hand. -/
def Worker.batch : Worker → List Context
  | .poll batch => batch
  | .store batch _ => batch
  | .config batch => batch
  | .post batch => batch
  | _ => []

/-- The trace that was popped last, while it is not in the cache. -/
def Worker.popped : Worker → List Context
  | .store _ ctx => [ctx]
  | .drainStore ctx => [ctx]
  | _ => []

/-- The buffer with what went through it, the manager and its worker, and what both have done: the
traces given to the cache, the batches posted, and what was pushed after the worker was done. -/
structure Manager where
  buffer : Observed Context
  recent : RecentCache
  cfg : Config
  running : Bool
  stopping : Bool
  worker : Worker
  stored : List Context
  posted : List (List Context)
  late : List Context

def Manager.start (capacity : ℕ) (cfg : Config) : Manager where
  buffer := .start (traceRingBufferCreate .zero capacity)
  recent := .empty
  cfg := cfg
  running := true
  stopping := false
  worker := .test
  stored := []
  posted := []
  late := []

/-- What the next pop gives. -/
def Manager.next (s : Manager) : Option Context := (traceRingBufferPop s.buffer.ring).2

def Manager.pop (s : Manager) : Manager := { s with buffer := traceStep s.buffer .pop }

def Manager.push (s : Manager) (ctx : Context) : Manager :=
  { s with
    buffer := traceStep s.buffer (.push ctx)
    late := match s.worker with
      | .done => s.late ++ [ctx]
      | _ => [] }

def Manager.store (s : Manager) (ctx : Context) : Manager :=
  { s with recent := cacheAdd s.recent ctx, stored := s.stored ++ [ctx] }

/-- One step of the worker. -/
def Manager.work (s : Manager) : Manager :=
  match s.worker with
  | .test => { s with worker := if s.running then .poll [] else .drain }
  | .poll batch =>
    if batch.length < batchSize then
      match s.next with
      | some ctx => { s.pop with worker := .store (batch ++ [ctx]) ctx }
      | none => { s with worker := if batch = [] then .test else .config batch }
    else { s with worker := .config batch }
  | .store batch ctx => { s.store ctx with worker := .poll batch }
  | .config batch =>
    { s with
      worker := if s.cfg.enabled ∧ s.cfg.otlpEndpoint ≠ [] then .post batch else .test }
  | .post batch => { s with posted := s.posted ++ [batch], worker := .test }
  | .drain =>
    match s.next with
    | some ctx => { s.pop with worker := .drainStore ctx }
    | none => { s with worker := .done }
  | .drainStore ctx => { s.store ctx with worker := .drain }
  | .done => s

inductive Event where
  /-- A request pushes its trace. -/
  | push (ctx : Context)
  /-- `tracer_manager_stop` takes back `running`. -/
  | stop
  /-- It pushes a trace of zero bytes, to wake the worker. -/
  | wake
  | updateConfig (cfg : Config)
  | work

def step (s : Manager) : Event → Manager
  | .push ctx => s.push ctx
  | .stop => if s.running then { s with running := false, stopping := true } else s
  | .wake => if s.stopping then { s.push .zero with stopping := false } else s
  | .updateConfig cfg => { s with cfg := cfg }
  | .work => s.work

/-- The traces with an identifier among those given to the cache, from the newest. -/
def Manager.log (s : Manager) : List Context := (s.stored.filter (·.traceId ≠ [])).reverse

/-- Every trace that was pushed is in the cache's log, in the hand of the worker, in the buffer or
counted as dropped; none is there twice or out of order, and the batches are parts of the same
sequence. When the worker is done, only what came later is left. -/
structure Conserved (s : Manager) : Prop where
  order : (s.stored ++ s.worker.popped ++ s.buffer.queue.pending).Sublist s.buffer.queue.arrived
  accounted : s.buffer.queue.arrived.length =
    s.stored.length + s.worker.popped.length + s.buffer.ring.count + s.buffer.ring.droppedCount
  posted : s.posted.flatten.Sublist (s.stored ++ s.worker.popped)
  batches : ∀ batch ∈ s.posted, batch ≠ [] ∧ batch.length ≤ batchSize
  rest : s.worker = .done → s.buffer.queue.pending.Sublist s.late

/-- What a reader of the cache sees: the last traces, from the newest, and one of them for each of
their identifiers. -/
structure Recent (s : Manager) : Prop where
  list : ∀ maxCount, cacheListRecent s.recent maxCount = s.log.take (min recentCapacity maxCount)
  found : ∀ id ctx, cacheGet s.recent id = some ctx →
    ctx ∈ s.log.take recentCapacity ∧ lower ctx.traceId = lower id
  missing : ∀ id, cacheGet s.recent id = none →
    ∀ ctx ∈ s.log.take recentCapacity, lower ctx.traceId ≠ lower id

/-! ### The cache holds the last traces -/

theorem log_store (s : Manager) (ctx : Context) :
    (s.store ctx).log = if ctx.traceId = [] then s.log else ctx :: s.log := by
  unfold Manager.log Manager.store
  by_cases h : ctx.traceId = []
  · simp [List.filter_append, h]
  · simp [List.filter_append, h]

theorem keeps_cacheAdd {cache : RecentCache} {log : List Context}
    (h : Keeps recentCapacity cache log) (ctx : Context) :
    Keeps recentCapacity (cacheAdd cache ctx) (if ctx.traceId = [] then log else ctx :: log) := by
  unfold cacheAdd
  split
  · exact h
  · exact h.record ctx

theorem recent_of_keeps {s : Manager} (h : Keeps recentCapacity s.recent s.log) : Recent s := by
  have hperm := h.read_perm (by decide)
  refine ⟨h.newest, ?_, ?_⟩
  · intro id ctx hget
    have hmem := hperm.subset (List.mem_of_find?_eq_some hget)
    have hsame := List.find?_some hget
    exact ⟨hmem, of_decide_eq_true hsame⟩
  · intro id hget ctx hctx
    have hnone := List.find?_eq_none.mp hget ctx (hperm.symm.subset hctx)
    exact fun hsame => hnone (decide_eq_true hsame)

/-! ### Runs -/

/-- The batch in hand is not too long, and not empty once a trace has been popped for it. -/
def Worker.BatchOk : Worker → Prop
  | .poll batch => batch.length ≤ batchSize
  | .store batch _ => batch ≠ [] ∧ batch.length ≤ batchSize
  | .config batch => batch ≠ [] ∧ batch.length ≤ batchSize
  | .post batch => batch ≠ [] ∧ batch.length ≤ batchSize
  | _ => True

structure Inv (s : Manager) : Prop where
  buffer : OverwritingRings.Inv s.buffer ∧ Overwrites s.buffer
  popped : s.buffer.popped = s.stored ++ s.worker.popped
  recent : Keeps recentCapacity s.recent s.log
  posted : (s.posted.flatten ++ s.worker.batch).Sublist s.buffer.popped
  batchOk : s.worker.BatchOk
  batches : ∀ batch ∈ s.posted, batch ≠ [] ∧ batch.length ≤ batchSize
  rest : s.worker = .done → s.buffer.queue.pending.Sublist s.late

theorem Inv.conserved {s : Manager} (h : Inv s) : Conserved s where
  order := by
    rw [← h.popped]
    exact h.buffer.2.order
  accounted := by
    have hall := h.buffer.2.accounted
    have hlength := congrArg List.length h.popped
    rw [List.length_append] at hlength
    omega
  posted := by
    rw [← h.popped]
    exact (List.sublist_append_left _ _).trans h.posted
  batches := h.batches
  rest := h.rest

theorem Manager.popped_pop {s : Manager} {ctx : Context} (h : s.next = some ctx) :
    s.pop.buffer.popped = s.buffer.popped ++ [ctx] := by
  unfold Manager.next at h
  simp [Manager.pop, traceStep, h]

/-- A pop that gives nothing has found the buffer empty. -/
theorem Inv.pending_nil {s : Manager} (h : Inv s) (hnext : s.next = none) :
    s.buffer.queue.pending = [] := by
  have hcount : s.buffer.ring.count = 0 := by
    by_contra hne
    simp [Manager.next, traceRingBufferPop, hne] at hnext
  have hagree := h.buffer.2.agree h.buffer.1
  exact List.eq_nil_of_length_eq_zero (hagree.length.trans hcount)

theorem Inv.push {s : Manager} (h : Inv s) (ctx : Context) : Inv (s.push ctx) where
  buffer := keeps_traceStep h.buffer (.push ctx)
  popped := h.popped
  recent := h.recent
  posted := h.posted
  batchOk := h.batchOk
  batches := h.batches
  rest := by
    intro hdone
    have hworker : s.worker = .done := hdone
    have hpending : (s.push ctx).buffer.queue.pending =
        (s.buffer.queue.makeRoom s.buffer.ring.capacity).pending ++ [ctx] := rfl
    have hlate : (s.push ctx).late = s.late ++ [ctx] := by simp [Manager.push, hworker]
    have hroom : (s.buffer.queue.makeRoom s.buffer.ring.capacity).pending.Sublist
        s.buffer.queue.pending := by
      unfold Queue.makeRoom
      split
      · exact List.tail_sublist _
      · exact List.Sublist.refl _
    rw [hpending, hlate]
    exact (hroom.trans (h.rest hworker)).append_right [ctx]

/-- What the worker does between its sections. -/
theorem Inv.move {s : Manager} (h : Inv s) {worker : Worker}
    (hpopped : worker.popped = s.worker.popped)
    (hbatch : worker.batch.Sublist s.worker.batch) (hok : worker.BatchOk)
    (hdone : worker = .done → s.buffer.queue.pending = []) : Inv { s with worker := worker } where
  buffer := h.buffer
  popped := by
    rw [hpopped]
    exact h.popped
  recent := h.recent
  posted := ((List.Sublist.refl _).append hbatch).trans h.posted
  batchOk := hok
  batches := h.batches
  rest := by
    intro hworker
    rw [hdone hworker]
    exact List.nil_sublist _

/-- A pop that gives a trace, which is in the hand of the worker then. -/
theorem Inv.take {s : Manager} (h : Inv s) {ctx : Context} (hnext : s.next = some ctx)
    {worker : Worker} (hnone : s.worker.popped = []) (hpopped : worker.popped = [ctx])
    (hbatch : worker.batch.Sublist (s.worker.batch ++ [ctx])) (hok : worker.BatchOk)
    (hdone : worker ≠ .done) : Inv { s.pop with worker := worker } where
  buffer := keeps_traceStep h.buffer .pop
  popped := by
    have hall := h.popped
    rw [hnone, List.append_nil] at hall
    change s.pop.buffer.popped = s.stored ++ worker.popped
    rw [Manager.popped_pop hnext, hall, hpopped]
  recent := h.recent
  posted := by
    change (s.posted.flatten ++ worker.batch).Sublist s.pop.buffer.popped
    have hstep := (List.Sublist.refl s.posted.flatten).append hbatch
    rw [← List.append_assoc] at hstep
    rw [Manager.popped_pop hnext]
    exact hstep.trans (h.posted.append_right [ctx])
  batchOk := hok
  batches := h.batches
  rest := fun hworker => absurd hworker hdone

/-- The trace in hand goes into the cache. -/
theorem Inv.store {s : Manager} (h : Inv s) {ctx : Context} {worker : Worker}
    (hhand : s.worker.popped = [ctx]) (hpopped : worker.popped = [])
    (hbatch : worker.batch = s.worker.batch) (hok : worker.BatchOk) (hdone : worker ≠ .done) :
    Inv { s.store ctx with worker := worker } where
  buffer := h.buffer
  popped := by
    change s.buffer.popped = s.stored ++ [ctx] ++ worker.popped
    rw [hpopped, List.append_nil, h.popped, hhand]
  recent := by
    change Keeps recentCapacity (cacheAdd s.recent ctx) (s.store ctx).log
    rw [log_store]
    exact keeps_cacheAdd h.recent ctx
  posted := by
    change (s.posted.flatten ++ worker.batch).Sublist s.buffer.popped
    rw [hbatch]
    exact h.posted
  batchOk := hok
  batches := h.batches
  rest := fun hworker => absurd hworker hdone

theorem Inv.work {s : Manager} (h : Inv s) : Inv s.work := by
  have hok := h.batchOk
  cases hworker : s.worker with
  | test =>
    rw [hworker] at hok
    simp only [Manager.work, hworker]
    split
    · exact h.move (by rw [hworker]; rfl) (List.nil_sublist _) (Nat.zero_le _) (by simp)
    · exact h.move (by rw [hworker]; rfl) (List.nil_sublist _) trivial (by simp)
  | poll batch =>
    rw [hworker] at hok
    simp only [Manager.work, hworker]
    by_cases hroom : batch.length < batchSize
    · rw [if_pos hroom]
      cases hnext : s.next with
      | some ctx =>
        refine h.take hnext (by rw [hworker]; rfl) rfl (by rw [hworker]; rfl) ⟨by simp, ?_⟩
          (by simp)
        rw [List.length_append]
        exact hroom
      | none =>
        by_cases hnil : batch = []
        · simp only [hnil, if_true]
          exact h.move (by rw [hworker]; rfl) (List.nil_sublist _) trivial (by simp)
        · simp only [hnil, if_false]
          exact h.move (by rw [hworker]; rfl) (by rw [hworker]; rfl) ⟨hnil, hok⟩ (by simp)
    · rw [if_neg hroom]
      have hne : batch ≠ [] := by
        rintro rfl
        exact hroom (by decide)
      exact h.move (by rw [hworker]; rfl) (by rw [hworker]; rfl) ⟨hne, hok⟩ (by simp)
  | store batch ctx =>
    rw [hworker] at hok
    simp only [Manager.work, hworker]
    exact h.store (by rw [hworker]; rfl) rfl (by rw [hworker]; rfl) hok.2 (by simp)
  | config batch =>
    rw [hworker] at hok
    simp only [Manager.work, hworker]
    split
    · exact h.move (by rw [hworker]; rfl) (by rw [hworker]; rfl) hok (by simp)
    · exact h.move (by rw [hworker]; rfl) (List.nil_sublist _) trivial (by simp)
  | post batch =>
    rw [hworker] at hok
    simp only [Manager.work, hworker]
    have hposted := h.posted
    rw [hworker] at hposted
    have hpopped := h.popped
    rw [hworker] at hpopped
    refine ⟨h.buffer, hpopped, h.recent, ?_, trivial, ?_, by simp⟩
    · simp only [List.flatten_append, List.flatten_singleton, Worker.batch, List.append_nil]
      exact hposted
    · intro batch' hbatch'
      rcases List.mem_append.mp hbatch' with hold | hnew
      · exact h.batches batch' hold
      · rw [List.mem_singleton.mp hnew]
        exact hok
  | drain =>
    simp only [Manager.work, hworker]
    cases hnext : s.next with
    | some ctx =>
      exact h.take hnext (by rw [hworker]; rfl) rfl (List.nil_sublist _) trivial (by simp)
    | none =>
      exact h.move (by rw [hworker]; rfl) (List.nil_sublist _) trivial fun _ => h.pending_nil hnext
  | drainStore ctx =>
    simp only [Manager.work, hworker]
    exact h.store (by rw [hworker]; rfl) rfl (by rw [hworker]; rfl) trivial (by simp)
  | done =>
    simp only [Manager.work, hworker]
    exact h

theorem Inv.step (s : Manager) (e : Event) (h : Inv s) : Inv (step s e) := by
  cases e with
  | push ctx => exact h.push ctx
  | stop =>
    unfold TraceExport.step
    dsimp only
    split
    · exact ⟨h.buffer, h.popped, h.recent, h.posted, h.batchOk, h.batches, h.rest⟩
    · exact h
  | wake =>
    unfold TraceExport.step
    dsimp only
    split
    · have hpush := h.push .zero
      exact ⟨hpush.buffer, hpush.popped, hpush.recent, hpush.posted, hpush.batchOk, hpush.batches,
        hpush.rest⟩
    · exact h
  | updateConfig cfg =>
    exact ⟨h.buffer, h.popped, h.recent, h.posted, h.batchOk, h.batches, h.rest⟩
  | work => exact h.work

theorem inv_start (capacity : ℕ) (cfg : Config) : Inv (.start capacity cfg) where
  buffer := start_overwrites Context.zero (if capacity = 0 then 1024 else capacity)
    (by split <;> omega)
  popped := rfl
  recent := keeps_nil recentCapacity rfl rfl
  posted := List.Sublist.refl _
  batchOk := trivial
  batches := fun _ hbatch => absurd hbatch List.not_mem_nil
  rest := fun hdone => by cases hdone

/-- In every interleaving of requests, the worker, changes of the configuration and the stop of
the manager, no trace is lost but those that are counted, and none is posted twice. -/
theorem conserved_run (capacity : ℕ) (cfg : Config) (events : List Event) :
    Always step Conserved (.start capacity cfg) events :=
  fun n => (always_of_step Inv.step (inv_start capacity cfg) events n).conserved

/-- In every such interleaving, the cache shows the last five hundred of the traces it was
given. -/
theorem recent_run (capacity : ℕ) (cfg : Config) (events : List Event) :
    Always step Recent (.start capacity cfg) events :=
  fun n => recent_of_keeps (always_of_step Inv.step (inv_start capacity cfg) events n).recent

/-! ### The document of a batch -/

def SpanKind.code : SpanKind → Int64
  | .internal => 1
  | .server => 2
  | .client => 3

def SpanStatus.code : SpanStatus → Int64
  | .error => 2
  | _ => 1

def attributeObject (a : SpanAttr) : Json :=
  .object (stringMember "key" a.key ++
    [(ascii "value", .object (stringMember "stringValue" a.value))])

/-- The start of the first span. -/
def rootStart (ctx : Context) : ℕ := (ctx.spans.head?.map TraceSpan.startTimeNs).getD 0

/-- The start of a span by the wall clock, in 64 bits. -/
def startUnixNs (ctx : Context) (span : TraceSpan) : ℕ :=
  (ctx.reqStartRealtimeUs * 1000 + (span.startTimeNs - rootStart ctx)) % 2 ^ 64

def endUnixNs (ctx : Context) (span : TraceSpan) : ℕ :=
  (startUnixNs ctx span + (span.endTimeNs - span.startTimeNs)) % 2 ^ 64

/-- The parent of the span with the index `i`. -/
def parentOf (ctx : Context) (i : ℕ) (span : TraceSpan) : Option Bytes :=
  if span.parentSpanId ≠ [] then some span.parentSpanId
  else if ctx.inboundParentId ≠ [] ∧ i = 0 then some ctx.inboundParentId
  else none

def statusObject (span : TraceSpan) : Json :=
  .object ([(ascii "code", .integer (SpanStatus.code span.status))] ++
    if span.statusDesc ≠ [] then stringMember "message" span.statusDesc else [])

def spanObject (ctx : Context) (i : ℕ) (span : TraceSpan) : Json :=
  .object (stringMember "traceId" ctx.traceId ++ stringMember "spanId" span.spanId ++
    (parentOf ctx i span).toList.flatMap (stringMember "parentSpanId") ++
    stringMember "name" span.name ++
    [(ascii "kind", .integer (SpanKind.code span.kind)),
      (ascii "startTimeUnixNano", .string (decimal (startUnixNs ctx span))),
      (ascii "endTimeUnixNano", .string (decimal (endUnixNs ctx span))),
      (ascii "attributes", .array (span.attributes.map attributeObject)),
      (ascii "status", statusObject span)])

def spansArray (traces : List Context) : List Json :=
  traces.flatMap fun ctx => ctx.spans.mapIdx (spanObject ctx)

def resourceObject : Json :=
  .object [(ascii "attributes", .array
    [attributeObject ⟨ascii "service.name", ascii "aigate"⟩,
      attributeObject ⟨ascii "service.version", ascii "0.1.0"⟩])]

def scopeObject : Json :=
  .object [(ascii "name", .string (ascii "aigate.tracer")),
    (ascii "version", .string (ascii "1.0.0"))]

def otlpDocument (traces : List Context) : Json :=
  .object [(ascii "resourceSpans", .array [.object [(ascii "resource", resourceObject),
    (ascii "scopeSpans", .array [.object [(ascii "scope", scopeObject),
      (ascii "spans", .array (spansArray traces))]])]])]

/-- `tracer_serialize_otlp_json`. -/
def serializeOtlpJson (traces : List Context) : Option Bytes :=
  if traces = [] then none else some (dumps (otlpDocument traces))

/-- A span as a collector reads it. -/
structure SpanRecord where
  traceId : Bytes
  spanId : Bytes
  parentSpanId : Option Bytes
  name : Bytes
  kind : Int64
  startUnixNs : ℕ
  endUnixNs : ℕ
  attributes : List (Bytes × Bytes)
  code : Int64
  message : Option Bytes

def getInteger (j : Json) (key : String) : Option Int64 :=
  match j.get key with
  | some (.integer n) => some n
  | _ => none

def readAttribute (j : Json) : Option (Bytes × Bytes) := do
  let key ← j.getString "key"
  let value ← j.get "value"
  let text ← value.getString "stringValue"
  return (key, text)

def readSpan (j : Json) : Option SpanRecord := do
  let traceId ← j.getString "traceId"
  let spanId ← j.getString "spanId"
  let name ← j.getString "name"
  let kind ← getInteger j "kind"
  let start ← j.getString "startTimeUnixNano"
  let stop ← j.getString "endTimeUnixNano"
  let items ← j.getArray "attributes"
  let attributes ← items.mapM readAttribute
  let status ← j.get "status"
  let code ← getInteger status "code"
  return ⟨traceId, spanId, j.getString "parentSpanId", name, kind, ofDecimal start,
    ofDecimal stop, attributes, code, status.getString "message"⟩

/-- The spans of a document, in order. -/
def readSpans (text : Bytes) : Option (List SpanRecord) := do
  let root ← jsonLoads text
  let resources ← root.getArray "resourceSpans"
  let scopes ← resources.mapM (·.getArray "scopeSpans")
  let spans ← scopes.flatten.mapM (·.getArray "spans")
  spans.flatten.mapM readSpan

/-- What a collector should read of the span with the index `i`. -/
def recordOf (ctx : Context) (i : ℕ) (span : TraceSpan) : SpanRecord where
  traceId := ctx.traceId
  spanId := span.spanId
  parentSpanId := parentOf ctx i span
  name := span.name
  kind := SpanKind.code span.kind
  startUnixNs := startUnixNs ctx span
  endUnixNs := endUnixNs ctx span
  attributes := span.attributes.map fun a => (a.key, a.value)
  code := SpanStatus.code span.status
  message := if span.statusDesc ≠ [] then some span.statusDesc else none

def records (ctx : Context) : List SpanRecord := ctx.spans.mapIdx (recordOf ctx)

/-- A text that can be packed. -/
def Valid (s : Bytes) : Prop := utf8Check s = true ∧ Nonzero s

structure SpanTexts (span : TraceSpan) : Prop where
  spanId : Valid span.spanId
  parentSpanId : Valid span.parentSpanId
  name : Valid span.name
  statusDesc : Valid span.statusDesc
  attributes : ∀ a ∈ span.attributes, Valid a.key ∧ Valid a.value

/-- All texts of a trace are UTF-8. -/
structure Texts (ctx : Context) : Prop where
  traceId : Valid ctx.traceId
  inboundParentId : Valid ctx.inboundParentId
  spans : ∀ span ∈ ctx.spans, SpanTexts span

theorem stringMember_valid {s : Bytes} (h : Valid s) (key : String) :
    stringMember key s = [(ascii key, .string s)] := if_pos h.1

theorem clean_keyed {key : String} {v : Json} (hkey : Clean (.string (ascii key))) (hv : Clean v) :
    ∀ m ∈ [(ascii key, v)], Clean (.string m.1) ∧ Clean m.2 := by
  intro m hm
  rw [List.mem_singleton.mp hm]
  exact ⟨hkey, hv⟩

theorem Valid.parentOf {ctx : Context} (hctx : Valid ctx.inboundParentId) {span : TraceSpan}
    (hspan : Valid span.parentSpanId) {i : ℕ} {parent : Bytes}
    (h : TraceExport.parentOf ctx i span = some parent) : Valid parent := by
  unfold TraceExport.parentOf at h
  split at h
  · exact Option.some.inj h ▸ hspan
  · split at h
    · exact Option.some.inj h ▸ hctx
    · cases h

theorem readAttribute_attributeObject {a : SpanAttr} (hkey : Valid a.key) (hvalue : Valid a.value) :
    readAttribute (attributeObject a) = some (a.key, a.value) := by
  rw [attributeObject, stringMember_valid hkey, stringMember_valid hvalue]
  simp [readAttribute, Json.getString, Json.get, lookup, Json.stringValue, ascii_inj]

theorem mapM_map {α β γ : Type} {f : α → β} {g : β → Option γ} {h : α → γ} {l : List α}
    (hall : ∀ a ∈ l, g (f a) = some (h a)) : (l.map f).mapM g = some (l.map h) := by
  induction l with
  | nil => rfl
  | cons a rest ih =>
    obtain ⟨ha, hrest⟩ := List.forall_mem_cons.mp hall
    simp [ha, ih hrest]

/-- A span is read as it was written. -/
theorem readSpan_spanObject {ctx : Context} (hctx : Texts ctx) {i : ℕ} {span : TraceSpan}
    (hspan : SpanTexts span) : readSpan (spanObject ctx i span) = some (recordOf ctx i span) := by
  have hattributes : (span.attributes.map attributeObject).mapM readAttribute =
      some (span.attributes.map fun a => (a.key, a.value)) :=
    mapM_map fun a ha =>
      readAttribute_attributeObject (hspan.attributes a ha).1 (hspan.attributes a ha).2
  have hstatus : getInteger (statusObject span) "code" = some (SpanStatus.code span.status) ∧
      (statusObject span).getString "message" =
        if span.statusDesc ≠ [] then some span.statusDesc else none := by
    rw [statusObject, stringMember_valid hspan.statusDesc]
    by_cases hdesc : span.statusDesc = []
    · simp [getInteger, Json.getString, Json.get, lookup, ascii_inj, hdesc]
    · simp [getInteger, Json.getString, Json.get, lookup, ascii_inj, hdesc, Json.stringValue]
  have hobject : spanObject ctx i span = .object
      ([(ascii "traceId", .string ctx.traceId), (ascii "spanId", .string span.spanId)] ++
        ((parentOf ctx i span).toList.map fun parent => (ascii "parentSpanId", .string parent)) ++
        [(ascii "name", .string span.name),
          (ascii "kind", .integer (SpanKind.code span.kind)),
          (ascii "startTimeUnixNano", .string (decimal (startUnixNs ctx span))),
          (ascii "endTimeUnixNano", .string (decimal (endUnixNs ctx span))),
          (ascii "attributes", .array (span.attributes.map attributeObject)),
          (ascii "status", statusObject span)]) := by
    rw [spanObject, stringMember_valid hctx.traceId, stringMember_valid hspan.spanId,
      stringMember_valid hspan.name]
    cases hparent : parentOf ctx i span with
    | none => simp
    | some parent =>
      have hvalid := Valid.parentOf hctx.inboundParentId hspan.parentSpanId hparent
      simp [stringMember_valid hvalid]
  have hstrings : (spanObject ctx i span).getString "traceId" = some ctx.traceId ∧
      (spanObject ctx i span).getString "spanId" = some span.spanId ∧
      (spanObject ctx i span).getString "parentSpanId" = parentOf ctx i span ∧
      (spanObject ctx i span).getString "name" = some span.name := by
    rw [hobject]
    cases parentOf ctx i span <;>
      simp [Json.getString, Json.get, lookup, ascii_inj, Json.stringValue]
  have htimes : (spanObject ctx i span).getString "startTimeUnixNano" =
        some (decimal (startUnixNs ctx span)) ∧
      (spanObject ctx i span).getString "endTimeUnixNano" =
        some (decimal (endUnixNs ctx span)) := by
    rw [hobject]
    cases parentOf ctx i span <;>
      simp [Json.getString, Json.get, lookup, ascii_inj, Json.stringValue]
  have hothers : getInteger (spanObject ctx i span) "kind" = some (SpanKind.code span.kind) ∧
      (spanObject ctx i span).getArray "attributes" = some (span.attributes.map attributeObject) ∧
      (spanObject ctx i span).get "status" = some (statusObject span) := by
    rw [hobject]
    cases parentOf ctx i span <;>
      simp [getInteger, Json.getArray, Json.get, lookup, ascii_inj, Json.arrayItems]
  simp only [readSpan, hstrings, htimes, hothers, Option.bind_eq_bind, Option.bind_some,
    hattributes, hstatus, ofDecimal_decimal]
  rfl

theorem clean_attributeObject {a : SpanAttr} (hkey : Valid a.key) (hvalue : Valid a.value) :
    Clean (attributeObject a) := by
  have hinner : Clean (.object [(ascii "stringValue", .string a.value)]) :=
    clean_object (List.nodup_singleton _)
      (clean_keyed (clean_ascii _ (by decide)) (clean_string hvalue))
  rw [attributeObject, stringMember_valid hkey, stringMember_valid hvalue]
  refine clean_object (by simp [ascii_inj]) ?_
  exact List.forall_mem_append.mpr ⟨clean_keyed (clean_ascii _ (by decide)) (clean_string hkey),
    clean_keyed (clean_ascii _ (by decide)) hinner⟩

theorem valid_decimal (n : ℕ) : Valid (decimal n) := by
  refine ⟨utf8Check_of_ascii fun c hc => ?_, nonzero_decimal n⟩
  have hdigit := decimal_digits hc
  rw [Char.isDigit_iff_toNat] at hdigit
  simp only [Char.reduceToNat] at hdigit
  omega

theorem clean_statusObject {span : TraceSpan} (h : SpanTexts span) : Clean (statusObject span) := by
  rw [statusObject, stringMember_valid h.statusDesc]
  split
  · refine clean_object (by simp [ascii_inj]) ?_
    exact List.forall_mem_append.mpr ⟨clean_keyed (clean_ascii _ (by decide)) (clean_integer _),
      clean_keyed (clean_ascii _ (by decide)) (clean_string h.statusDesc)⟩
  · rw [List.append_nil]
    exact clean_object (List.nodup_singleton _)
      (clean_keyed (clean_ascii _ (by decide)) (clean_integer _))

theorem clean_spanObject {ctx : Context} (hctx : Texts ctx) {i : ℕ} {span : TraceSpan}
    (hspan : SpanTexts span) : Clean (spanObject ctx i span) := by
  have hattributes : Clean (.array (span.attributes.map attributeObject)) := by
    refine clean_array fun x hx => ?_
    obtain ⟨a, ha, rfl⟩ := List.mem_map.mp hx
    exact clean_attributeObject (hspan.attributes a ha).1 (hspan.attributes a ha).2
  have htail : ∀ m ∈ [(ascii "kind", .integer (SpanKind.code span.kind)),
      (ascii "startTimeUnixNano", .string (decimal (startUnixNs ctx span))),
      (ascii "endTimeUnixNano", .string (decimal (endUnixNs ctx span))),
      (ascii "attributes", .array (span.attributes.map attributeObject)),
      (ascii "status", statusObject span)], Clean (.string m.1) ∧ Clean m.2 := by
    simp only [List.forall_mem_cons]
    exact ⟨⟨clean_ascii _ (by decide), clean_integer _⟩,
      ⟨clean_ascii _ (by decide), clean_string (valid_decimal _)⟩,
      ⟨clean_ascii _ (by decide), clean_string (valid_decimal _)⟩,
      ⟨clean_ascii _ (by decide), hattributes⟩,
      ⟨clean_ascii _ (by decide), clean_statusObject hspan⟩, List.forall_mem_nil _⟩
  have hparent : ∀ m ∈ (parentOf ctx i span).toList.flatMap (stringMember "parentSpanId"),
      Clean (.string m.1) ∧ Clean m.2 := by
    intro m hm
    obtain ⟨parent, hmem, hm⟩ := List.mem_flatMap.mp hm
    have hvalid := Valid.parentOf hctx.inboundParentId hspan.parentSpanId
      (Option.mem_toList.mp hmem)
    rw [stringMember_valid hvalid] at hm
    exact clean_keyed (clean_ascii _ (by decide)) (clean_string hvalid) m hm
  rw [spanObject]
  refine clean_object ?_ ?_
  · rw [stringMember_valid hctx.traceId, stringMember_valid hspan.spanId,
      stringMember_valid hspan.name]
    cases hcase : parentOf ctx i span with
    | none => simp [ascii_inj]
    | some parent =>
      have hvalid := Valid.parentOf hctx.inboundParentId hspan.parentSpanId hcase
      simp [stringMember_valid hvalid, ascii_inj]
  · simp only [List.forall_mem_append]
    exact ⟨⟨⟨⟨clean_stringMember (clean_ascii _ (by decide)) hctx.traceId.2,
      clean_stringMember (clean_ascii _ (by decide)) hspan.spanId.2⟩, hparent⟩,
      clean_stringMember (clean_ascii _ (by decide)) hspan.name.2⟩, htail⟩

theorem clean_otlpDocument {traces : List Context} (h : ∀ ctx ∈ traces, Texts ctx) :
    Clean (otlpDocument traces) := by
  have hspans : Clean (.array (spansArray traces)) := by
    refine clean_array fun x hx => ?_
    obtain ⟨ctx, hctx, hx⟩ := List.mem_flatMap.mp hx
    obtain ⟨i, hi, rfl⟩ := List.mem_mapIdx.mp hx
    exact clean_spanObject (h ctx hctx) ((h ctx hctx).spans _ (List.getElem_mem hi))
  have hfixed : ∀ {s : String},
      s.toList.all (fun c => c.toNat < 128 ∧ c ≠ Char.ofNat 0) = true → Valid (ascii s) :=
    fun hs => valid_ascii _ hs
  have hresource : Clean resourceObject := by
    refine clean_object (List.nodup_singleton _)
      (clean_keyed (clean_ascii _ (by decide)) (clean_array ?_))
    simp only [List.forall_mem_cons]
    exact ⟨clean_attributeObject (hfixed (by decide)) (hfixed (by decide)),
      clean_attributeObject (hfixed (by decide)) (hfixed (by decide)), List.forall_mem_nil _⟩
  have hscope : Clean scopeObject := by
    refine clean_object (by simp [ascii_inj]) ?_
    simp only [List.forall_mem_cons]
    exact ⟨⟨clean_ascii _ (by decide), clean_ascii _ (by decide)⟩,
      ⟨clean_ascii _ (by decide), clean_ascii _ (by decide)⟩, List.forall_mem_nil _⟩
  have hscopeSpans : Clean (.object [(ascii "scope", scopeObject),
      (ascii "spans", .array (spansArray traces))]) := by
    refine clean_object (by simp [ascii_inj]) ?_
    simp only [List.forall_mem_cons]
    exact ⟨⟨clean_ascii _ (by decide), hscope⟩, ⟨clean_ascii _ (by decide), hspans⟩,
      List.forall_mem_nil _⟩
  have hresourceSpans : Clean (.object [(ascii "resource", resourceObject), (ascii "scopeSpans",
      .array [.object [(ascii "scope", scopeObject),
        (ascii "spans", .array (spansArray traces))]])]) := by
    refine clean_object (by simp [ascii_inj]) ?_
    simp only [List.forall_mem_cons]
    exact ⟨⟨clean_ascii _ (by decide), hresource⟩, ⟨clean_ascii _ (by decide),
      clean_array fun x hx => List.mem_singleton.mp hx ▸ hscopeSpans⟩, List.forall_mem_nil _⟩
  exact clean_object (List.nodup_singleton _) (clean_keyed (clean_ascii _ (by decide))
    (clean_array fun x hx => List.mem_singleton.mp hx ▸ hresourceSpans))

theorem depth_stringMember (key : String) (s : Bytes) : depthMembers (stringMember key s) ≤ 1 := by
  unfold stringMember
  split <;> simp [depthMembers, depth]

theorem depthMembers_append (l r : List (Bytes × Json)) :
    depthMembers (l ++ r) = max (depthMembers l) (depthMembers r) := by
  induction l with
  | nil => simp [depthMembers]
  | cons m rest ih => simp [depthMembers, ih, max_assoc]

theorem depth_attributeObject (a : SpanAttr) : depth (attributeObject a) ≤ 3 := by
  have hkey := depth_stringMember "key" a.key
  have hvalue := depth_stringMember "stringValue" a.value
  simp only [attributeObject, depth, depthMembers_append, depthMembers]
  omega

theorem depth_statusObject (span : TraceSpan) : depth (statusObject span) ≤ 2 := by
  have hmessage := depth_stringMember "message" span.statusDesc
  simp only [statusObject, depth, depthMembers_append, depthMembers]
  split
  · omega
  · simp [depthMembers]

theorem depth_spanObject (ctx : Context) (i : ℕ) (span : TraceSpan) :
    depth (spanObject ctx i span) ≤ 5 := by
  have hattributes : depthItems (span.attributes.map attributeObject) ≤ 3 := by
    refine depthItems_le_iff.mpr fun x hx => ?_
    obtain ⟨a, -, rfl⟩ := List.mem_map.mp hx
    exact depth_attributeObject a
  have hparent : depthMembers ((parentOf ctx i span).toList.flatMap (stringMember "parentSpanId")) ≤
      1 := by
    cases parentOf ctx i span with
    | none => simp [depthMembers]
    | some parent => simpa using depth_stringMember "parentSpanId" parent
  have htrace := depth_stringMember "traceId" ctx.traceId
  have hid := depth_stringMember "spanId" span.spanId
  have hname := depth_stringMember "name" span.name
  have hstatus := depth_statusObject span
  simp only [spanObject, depth, depthMembers_append, depthMembers]
  omega

theorem depth_otlpDocument (traces : List Context) : depth (otlpDocument traces) ≤ maxDepth := by
  have hspans : depthItems (spansArray traces) ≤ 5 := by
    refine depthItems_le_iff.mpr fun x hx => ?_
    obtain ⟨ctx, -, hx⟩ := List.mem_flatMap.mp hx
    obtain ⟨i, -, rfl⟩ := List.mem_mapIdx.mp hx
    exact depth_spanObject ctx i _
  have hname := depth_attributeObject ⟨ascii "service.name", ascii "aigate"⟩
  have hversion := depth_attributeObject ⟨ascii "service.version", ascii "0.1.0"⟩
  simp only [otlpDocument, resourceObject, scopeObject, depth, depthMembers, depthItems, maxDepth]
  omega

theorem readSpans_dumps {traces : List Context} (h : ∀ ctx ∈ traces, Texts ctx) :
    readSpans (dumps (otlpDocument traces)) = some (traces.flatMap records) := by
  have hloads : jsonLoads (dumps (otlpDocument traces)) = some (otlpDocument traces) :=
    (clean_otlpDocument h).jsonLoads_dumps rfl (depth_otlpDocument traces)
  have hread : (spansArray traces).mapM readSpan = some (traces.flatMap records) := by
    have hctx : ∀ ctx ∈ traces, (ctx.spans.mapIdx (spanObject ctx)).mapM readSpan =
        some (records ctx) := by
      intro ctx hmem
      have hzip : ctx.spans.mapIdx (spanObject ctx) =
          ctx.spans.zipIdx.map fun p => spanObject ctx p.2 p.1 := by
        rw [List.mapIdx_eq_zipIdx_map]
      have hrecords : records ctx = ctx.spans.zipIdx.map fun p => recordOf ctx p.2 p.1 := by
        rw [records, List.mapIdx_eq_zipIdx_map]
      rw [hzip, hrecords]
      exact mapM_map fun p hp => readSpan_spanObject (h ctx hmem)
        ((h ctx hmem).spans p.1 (List.fst_mem_of_mem_zipIdx hp))
    clear hloads h
    induction traces with
    | nil => rfl
    | cons ctx rest ih =>
      obtain ⟨hfirst, hrest⟩ := List.forall_mem_cons.mp hctx
      have hcons : spansArray (ctx :: rest) =
          ctx.spans.mapIdx (spanObject ctx) ++ spansArray rest := rfl
      rw [hcons, List.mapM_append, hfirst, ih hrest]
      rfl
  rw [readSpans, hloads]
  simp [otlpDocument, Json.getArray, Json.get, lookup, ascii_inj, Json.arrayItems, hread]

/-- A collector reads the spans of a batch in order, each as it was. -/
theorem readSpans_serialize (traces : List Context) (hne : traces ≠ [])
    (h : ∀ ctx ∈ traces, Texts ctx) :
    (serializeOtlpJson traces).bind readSpans = some (traces.flatMap records) := by
  rw [serializeOtlpJson, if_neg hne, Option.bind_some]
  exact readSpans_dumps h

/-- A request with a span of its own, which has ended. -/
def sampleContext : Context :=
  spanEnd (TraceContext.step (begin none true sampleTrace sampleSpan sampleSpan 1 5)
    (6, .start (ascii "auth_and_limits") .internal none sampleSpan)).ctx rootName .ok none 9

theorem texts_sampleContext : Texts sampleContext := by
  have hvalid : ∀ span ∈ sampleContext.spans, Valid span.spanId ∧ Valid span.parentSpanId ∧
      Valid span.name ∧ Valid span.statusDesc ∧ span.attributes = [] := by
    unfold Valid
    decide +kernel
  refine ⟨by unfold Valid; decide +kernel, by unfold Valid; decide +kernel, fun span hspan => ?_⟩
  obtain ⟨hid, hparent, hname, hdesc, hnone⟩ := hvalid span hspan
  exact ⟨hid, hparent, hname, hdesc, fun a ha => absurd ha (hnone ▸ List.not_mem_nil)⟩

theorem readSpans_sample : (serializeOtlpJson [sampleContext]).bind readSpans =
    some ([sampleContext].flatMap records) :=
  readSpans_serialize [sampleContext] (List.cons_ne_nil _ _)
    fun _ hctx => List.mem_singleton.mp hctx ▸ texts_sampleContext

/-! ### What a collector makes of it -/

/-- Spans of one trace, each below an earlier one and within the time of the first. -/
structure RecordTree (records : List SpanRecord) : Prop where
  trace : ∀ r ∈ records, ∀ r' ∈ records, r.traceId = r'.traceId
  below : ∀ i r, 0 < i → records[i]? = some r →
    ∃ j < i, ∃ p, records[j]? = some p ∧ r.parentSpanId = some p.spanId
  within : ∀ root ∈ records.head?, ∀ r ∈ records, root.startUnixNs ≤ r.startUnixNs ∧
    r.startUnixNs ≤ r.endUnixNs ∧ r.endUnixNs ≤ root.endUnixNs

/-- The wall clock at the end of a request is a number of 64 bits. -/
def Fits (ctx : Context) : Prop :=
  ∀ root ∈ ctx.spans.head?,
    ctx.reqStartRealtimeUs * 1000 + (root.endTimeNs - root.startTimeNs) < 2 ^ 64

/-- Within the span of the request nothing is cut to 64 bits. -/
theorem unixNs_eq {ctx : Context} {root s : TraceSpan} (hroot : ctx.spans.head? = some root)
    (hfits : Fits ctx) (hafter : root.startTimeNs ≤ s.startTimeNs)
    (hbefore : s.startTimeNs ≤ root.endTimeNs) (hend : s.endTimeNs ≤ root.endTimeNs) :
    startUnixNs ctx s = ctx.reqStartRealtimeUs * 1000 + (s.startTimeNs - root.startTimeNs) ∧
      endUnixNs ctx s = ctx.reqStartRealtimeUs * 1000 + (s.startTimeNs - root.startTimeNs) +
        (s.endTimeNs - s.startTimeNs) := by
  have hlast : ctx.reqStartRealtimeUs * 1000 + (s.startTimeNs - root.startTimeNs) +
      (s.endTimeNs - s.startTimeNs) < 2 ^ 64 := by
    have hwithin : (s.startTimeNs - root.startTimeNs) + (s.endTimeNs - s.startTimeNs) ≤
        root.endTimeNs - root.startTimeNs := by omega
    rw [Nat.add_assoc]
    exact (Nat.add_le_add_left hwithin _).trans_lt (hfits root hroot)
  have hstart : startUnixNs ctx s =
      ctx.reqStartRealtimeUs * 1000 + (s.startTimeNs - root.startTimeNs) := by
    rw [startUnixNs, rootStart, hroot, Option.map_some, Option.getD_some]
    exact Nat.mod_eq_of_lt ((Nat.le_add_right _ _).trans_lt hlast)
  refine ⟨hstart, ?_⟩
  rw [endUnixNs, hstart]
  exact Nat.mod_eq_of_lt hlast

theorem recordTree_records {ctx : Context} (h : Traced ctx) (hfits : Fits ctx) :
    RecordTree (records ctx) where
  trace := by
    intro r hr r' hr'
    obtain ⟨i, -, rfl⟩ := List.mem_mapIdx.mp hr
    obtain ⟨j, -, rfl⟩ := List.mem_mapIdx.mp hr'
    rfl
  below := by
    intro i r hi hr
    rw [records, List.getElem?_mapIdx, Option.map_eq_some_iff] at hr
    obtain ⟨s, hs, rfl⟩ := hr
    obtain ⟨j, hj, p, hp, hid⟩ := h.tree i s hi hs
    refine ⟨j, hj, recordOf ctx j p, by rw [records, List.getElem?_mapIdx, hp, Option.map_some], ?_⟩
    have hne : s.parentSpanId ≠ [] := hid ▸ (h.ids p (List.mem_of_getElem? hp)).ne_nil
    change parentOf ctx i s = some p.spanId
    rw [parentOf, if_pos hne, hid]
  within := by
    intro first hfirst r hr
    rw [records, List.head?_mapIdx, Option.mem_map] at hfirst
    obtain ⟨root, hroot, rfl⟩ := hfirst
    obtain ⟨i, hi, rfl⟩ := List.mem_mapIdx.mp hr
    have hmem : ctx.spans[i] ∈ ctx.spans := List.getElem_mem hi
    obtain ⟨hself, hclosed, hended⟩ := h.within root hroot root (List.mem_of_head? hroot)
    obtain ⟨hafter, hbefore, hends⟩ := h.within root hroot _ hmem
    have hend : ctx.spans[i].endTimeNs ≤ root.endTimeNs := by
      by_cases hopen : ctx.spans[i].endTimeNs = 0
      · rw [hopen]
        exact Nat.zero_le _
      · exact (hends hopen).2
    obtain ⟨hstart, hstop⟩ := unixNs_eq hroot hfits hafter hbefore hend
    obtain ⟨hrootStart, hrootStop⟩ := unixNs_eq hroot hfits hself hclosed (le_refl _)
    simp only [recordOf, hstart, hstop, hrootStart, hrootStop]
    omega

/-- A collector makes of a batch one tree for each trace, in order. -/
theorem collected_trees (traces : List Context) (hne : traces ≠ [])
    (h : ∀ ctx ∈ traces, Traced ctx ∧ Texts ctx ∧ Fits ctx) :
    ∃ groups : List (List SpanRecord),
      (serializeOtlpJson traces).bind readSpans = some groups.flatten ∧
        groups.map List.length = traces.map (fun ctx => ctx.spans.length) ∧
          ∀ group ∈ groups, RecordTree group := by
  refine ⟨traces.map records, ?_, ?_, ?_⟩
  · rw [serializeOtlpJson, if_neg hne, Option.bind_some,
      readSpans_dumps fun ctx hctx => (h ctx hctx).2.1, List.flatMap_def]
  · rw [List.map_map]
    exact List.map_congr_left fun ctx _ => List.length_mapIdx
  · intro group hgroup
    obtain ⟨ctx, hctx, rfl⟩ := List.mem_map.mp hgroup
    exact recordTree_records (h ctx hctx).1 (h ctx hctx).2.2

theorem collected_sample :
    ∃ groups : List (List SpanRecord),
      (serializeOtlpJson [sampleContext]).bind readSpans = some groups.flatten ∧
        groups.map List.length = [sampleContext].map (fun ctx => ctx.spans.length) ∧
          ∀ group ∈ groups, RecordTree group := by
  refine collected_trees [sampleContext] (List.cons_ne_nil _ _) fun ctx hctx => ?_
  rw [List.mem_singleton.mp hctx]
  refine ⟨?_, texts_sampleContext, by unfold Fits; decide +kernel⟩
  have hbegin := inv_begin none true sampleTrace sampleSpan sampleSpan 1 5
  have hstart := hbegin.step (e := (6, .start (ascii "auth_and_limits") .internal none sampleSpan))
    ⟨by decide, by decide +kernel, fun _ hparent => absurd hparent (Option.not_mem_none _)⟩
  exact hstart.traced .ok none (by decide)

end Aigate.TraceExport
