import Aigate.AuditLog
import Aigate.DropOldestRing
import Aigate.GuardedRuns

/-!
# The audit queue and the trace buffer

Two rings that overwrite their oldest item when they are full, each under a lock of its own. A
pop that finds its ring empty gives the lock up while it waits, and takes what is there when it
has the lock again. The audit queue copies what it is given, and writes over the oldest event
before it knows whether there is memory for the copy.
-/
namespace Aigate.OverwritingRings
open DropOldestRing GuardedRuns AuditLog

/-- The fields that both rings have. -/
structure Ring (α : Type*) extends RingBuffer α where
  capacity : ℕ
  droppedCount : ℕ

def Ring.empty {α : Type*} (zero : α) (capacity : ℕ) : Ring α :=
  ⟨⟨fun _ => zero, 0, 0, 0⟩, capacity, 0⟩

/-- Write at the head, which is the oldest item, and step over it. -/
def Ring.overwrite {α : Type*} (ring : Ring α) (a : α) : Ring α :=
  let head := (ring.head + 1) % ring.capacity
  ⟨⟨Function.update ring.queue ring.head a, head, head, ring.count⟩, ring.capacity,
    ring.droppedCount + 1⟩

def Ring.insert {α : Type*} (ring : Ring α) (a : α) : Ring α :=
  { ring with toRingBuffer := ring.write ring.capacity a }

/-! ### The audit queue -/

/-- An event of zero bytes. -/
def zeroEvent : AuditEvent where
  traceId := []
  timestampMs := 0
  keyId := 0
  clientIp := []
  model := []
  routedModel := []
  fallbackReason := []
  provider := []
  httpStatus := 0
  promptTokens := 0
  completionTokens := 0
  latencyNs := 0
  ttftNs := 0
  severity := .info
  violationType := []
  ruleDetail := []
  promptSnapshot := none

/-- `audit_event_copy`: the copy, and whether there was memory for its snapshot. -/
def auditEventCopy (ev : AuditEvent) (memory : Bool) : AuditEvent × Bool :=
  match ev.promptSnapshot with
  | none => (ev, true)
  | some snapshot =>
    if snapshot = [] then ({ ev with promptSnapshot := none }, true)
    else if memory then (ev, true)
    else ({ ev with promptSnapshot := none }, false)

/-- `audit_ring_create`. -/
def auditRingCreate (capacity : ℕ) : Ring AuditEvent :=
  .empty zeroEvent (if capacity < 4 then 4 else capacity)

/-- `audit_ring_push`. -/
def auditRingPush (ring : Ring AuditEvent) (ev : AuditEvent) (memory : Bool) :
    Ring AuditEvent × Bool :=
  let copy := auditEventCopy ev memory
  if ring.count = ring.capacity then
    if copy.2 then (ring.overwrite copy.1, true)
    else ({ ring with queue := Function.update ring.queue ring.head copy.1 }, false)
  else
    if copy.2 then (ring.insert copy.1, true)
    else ({ ring with queue := Function.update ring.queue ring.tail copy.1 }, false)

/-- The loop of `audit_ring_pop_batch`: the slots that are left are cleared. -/
def auditRingPopBatch : ℕ → Ring AuditEvent → Ring AuditEvent × List AuditEvent
  | 0, ring => (ring, [])
  | max + 1, ring =>
    if ring.count > 0 then
      let left := { ring with
        toRingBuffer := { ring.dropHead ring.capacity with
          queue := Function.update ring.queue ring.head zeroEvent } }
      let rest := auditRingPopBatch max left
      (rest.1, ring.queue ring.head :: rest.2)
    else (ring, [])

/-! ### The trace buffer -/

/-- `trace_ring_buffer_create`. -/
def traceRingBufferCreate {τ : Type*} (zero : τ) (capacity : ℕ) : Ring τ :=
  .empty zero (if capacity = 0 then 1024 else capacity)

/-- `trace_ring_buffer_push`. -/
def traceRingBufferPush {τ : Type*} (rb : Ring τ) (ctx : τ) : Ring τ :=
  if rb.count = rb.capacity then rb.overwrite ctx else rb.insert ctx

/-- `trace_ring_buffer_pop`. -/
def traceRingBufferPop {τ : Type*} (rb : Ring τ) : Ring τ × Option τ :=
  if rb.count = 0 then (rb, none)
  else ({ rb with toRingBuffer := rb.dropHead rb.capacity }, some (rb.queue rb.head))

/-! ### Runs -/

/-- A ring, the queue that drops its oldest element to which the same calls were made, and what
the pops have given out. -/
structure Observed (α : Type*) where
  ring : Ring α
  queue : Queue α
  popped : List α

def Observed.start {α : Type*} (ring : Ring α) : Observed α := ⟨ring, .empty, []⟩

def popMany {α : Type*} (cap : ℕ) : ℕ → Queue α → Queue α
  | 0, q => q
  | n + 1, q => popMany cap n (q.step cap .pop)

inductive AuditCall where
  | push (ev : AuditEvent) (memory : Bool)
  | popBatch (max : ℕ)

/-- A push that returns false has pushed nothing. -/
def auditStep (s : Observed AuditEvent) : AuditCall → Observed AuditEvent
  | .push ev memory =>
    let after := auditRingPush s.ring ev memory
    let item := (auditEventCopy ev memory).1
    { s with
      ring := after.1
      queue := if after.2 then s.queue.step s.ring.capacity (.push item) else s.queue }
  | .popBatch max =>
    let after := auditRingPopBatch max s.ring
    ⟨after.1, popMany s.ring.capacity max s.queue, s.popped ++ after.2⟩

def traceStep {τ : Type*} (s : Observed τ) : Op τ → Observed τ
  | .push ctx =>
    { s with
      ring := traceRingBufferPush s.ring ctx
      queue := s.queue.step s.ring.capacity (.push ctx) }
  | .pop =>
    let after := traceRingBufferPop s.ring
    ⟨after.1, s.queue.step s.ring.capacity .pop, s.popped ++ after.2.toList⟩

/-- The ring shows what the queue does, whose elements leave in the order in which they arrived,
and everything pushed is popped, dropped or queued. -/
structure Overwrites {α : Type*} (s : Observed α) : Prop where
  pending : s.ring.contents s.ring.capacity = s.queue.pending
  popped : s.popped = s.queue.taken
  dropped : s.ring.droppedCount = s.queue.dropped
  order : (s.popped ++ s.queue.pending).Sublist s.queue.arrived
  accounted : s.queue.arrived.length = s.popped.length + s.ring.droppedCount + s.ring.count

/-- The copy is made, or the ring is not full, or its oldest event is what is written over it. -/
def StepOk (s : Observed AuditEvent) : AuditCall → Prop
  | .push ev memory =>
    (auditEventCopy ev memory).2 = true ∨ s.ring.count ≠ s.ring.capacity ∨
      s.ring.queue s.ring.head = (auditEventCopy ev memory).1
  | .popBatch _ => True

/-! ### One call -/

section
variable {α : Type*}

structure Inv (s : Observed α) : Prop where
  ok : s.ring.Ok s.ring.capacity
  lawful : s.queue.Lawful

/-- What the two have in common. -/
structure Agree (ring : Ring α) (queue : Queue α) : Prop where
  ok : ring.Ok ring.capacity
  pending : ring.contents ring.capacity = queue.pending
  dropped : ring.droppedCount = queue.dropped

theorem overwrites_of_agree {s : Observed α} (h : Agree s.ring s.queue)
    (hpopped : s.popped = s.queue.taken) (hlawful : s.queue.Lawful) : Overwrites s := by
  refine ⟨h.pending, hpopped, h.dropped, ?_, ?_⟩
  · rw [hpopped]
    exact hlawful.sublist
  · have hcount := hlawful.counted
    have hlength := congrArg List.length h.pending
    rw [RingBuffer.length_contents] at hlength
    rw [hpopped, h.dropped, hlength]
    omega

theorem Overwrites.agree {s : Observed α} (h : Overwrites s) (hinv : Inv s) :
    Agree s.ring s.queue := ⟨hinv.ok, h.pending, h.dropped⟩

theorem agree_empty (zero : α) {capacity : ℕ} (hpos : 0 < capacity) :
    Agree (.empty zero capacity) .empty :=
  ⟨⟨hpos, (Nat.zero_mod capacity).symm, Nat.zero_le _⟩, rfl, rfl⟩

theorem Agree.length {ring : Ring α} {queue : Queue α} (h : Agree ring queue) :
    queue.pending.length = ring.count := by
  rw [← h.pending, RingBuffer.length_contents]

theorem Agree.overwrite {ring : Ring α} {queue : Queue α} (h : Agree ring queue)
    (hfull : ring.count = ring.capacity) (a : α) :
    Agree (ring.overwrite a) (queue.step ring.capacity (.push a)) := by
  have hpos : 0 < ring.count := hfull ▸ Nat.zero_lt_of_lt h.ok.head_lt
  -- the tail of a full ring is its head, so that the new item is the last one
  have htail : ring.tail = ring.head := by
    rw [h.ok.tail_eq, hfull, Nat.add_mod_right, Nat.mod_eq_of_lt h.ok.head_lt]
  have hsame : (ring.overwrite a).toRingBuffer =
      (ring.dropHead ring.capacity).write ring.capacity a := by
    simp only [Ring.overwrite, RingBuffer.write, RingBuffer.dropHead, htail]
    rw [Nat.sub_add_cancel hpos]
  have hdrop := h.ok.dropHead hpos
  have hroom : (ring.dropHead ring.capacity).count < ring.capacity :=
    hfull ▸ Nat.sub_lt hpos one_pos
  have hqueue : queue.step ring.capacity (.push a) =
      { queue with
        arrived := queue.arrived ++ [a]
        pending := queue.pending.tail ++ [a]
        dropped := queue.dropped + 1 } := by
    rw [Queue.step, Queue.makeRoom, if_pos (h.length.trans hfull)]
    rfl
  rw [hqueue]
  refine ⟨?_, ?_, congrArg (· + 1) h.dropped⟩
  · exact hsame ▸ hdrop.write hroom a
  · change (ring.overwrite a).toRingBuffer.contents ring.capacity = _
    rw [hsame, hdrop.contents_write hroom, RingBuffer.contents_dropHead, h.pending]

theorem Agree.insert {ring : Ring α} {queue : Queue α} (h : Agree ring queue)
    (hroom : ring.count ≠ ring.capacity) (a : α) :
    Agree (ring.insert a) (queue.step ring.capacity (.push a)) := by
  have hlt := lt_of_le_of_ne h.ok.count_le hroom
  have hqueue : queue.makeRoom ring.capacity = queue :=
    if_neg (h.length ▸ hroom)
  rw [Queue.step, hqueue]
  refine ⟨h.ok.write hlt a, ?_, h.dropped⟩
  change (ring.write ring.capacity a).contents ring.capacity = queue.pending ++ [a]
  rw [h.ok.contents_write hlt, h.pending]

theorem Agree.pop {ring : Ring α} {queue : Queue α} (h : Agree ring queue)
    (hpos : 0 < ring.count) :
    Agree { ring with toRingBuffer := ring.dropHead ring.capacity }
        (queue.step ring.capacity .pop) ∧
      (queue.step ring.capacity .pop).taken = queue.taken ++ [ring.queue ring.head] := by
  refine ⟨⟨h.ok.dropHead hpos, ?_, h.dropped⟩, ?_⟩
  · change (ring.dropHead ring.capacity).contents ring.capacity = queue.pending.tail
    rw [RingBuffer.contents_dropHead, h.pending]
  · rw [Queue.step, ← h.pending, h.ok.contents_take hpos]

theorem step_pop_nil {queue : Queue α} (h : queue.pending = []) (cap : ℕ) :
    queue.step cap .pop = queue := by
  obtain ⟨arrived, taken, pending, dropped⟩ := queue
  subst h
  simp [Queue.step]

theorem popMany_nil {queue : Queue α} (h : queue.pending = []) (cap n : ℕ) :
    popMany cap n queue = queue := by
  induction n with
  | zero => rfl
  | succ n ih => rw [popMany, step_pop_nil h, ih]

theorem lawful_popMany {queue : Queue α} (h : queue.Lawful) (cap n : ℕ) :
    (popMany cap n queue).Lawful := by
  induction n generalizing queue with
  | zero => exact h
  | succ n ih => exact ih h.pop

end

/-- A batch is what as many pops give. -/
theorem agree_popBatch {ring : Ring AuditEvent} {queue : Queue AuditEvent} (h : Agree ring queue)
    (max : ℕ) :
    (auditRingPopBatch max ring).1.capacity = ring.capacity ∧
      Agree (auditRingPopBatch max ring).1 (popMany ring.capacity max queue) ∧
      (popMany ring.capacity max queue).taken = queue.taken ++ (auditRingPopBatch max ring).2 := by
  induction max generalizing ring queue with
  | zero => exact ⟨rfl, h, (List.append_nil _).symm⟩
  | succ max ih =>
    by_cases hpos : 0 < ring.count
    · obtain ⟨hleft, htaken⟩ := h.pop hpos
      have hcleared := h.ok.contents_set_head hpos zeroEvent
      rw [auditRingPopBatch, if_pos hpos, popMany]
      dsimp only
      -- clearing the slot of what was taken changes nothing that is left
      have hagree : Agree { ring with
          toRingBuffer := { ring.dropHead ring.capacity with
            queue := Function.update ring.queue ring.head zeroEvent } }
          (queue.step ring.capacity .pop) := by
        refine ⟨⟨hleft.ok.head_lt, hleft.ok.tail_eq, hleft.ok.count_le⟩, ?_, hleft.dropped⟩
        have htail := congrArg List.tail hcleared
        rw [← RingBuffer.contents_dropHead, List.tail_cons, h.pending] at htail
        exact htail
      obtain ⟨hcap, hrest, hgiven⟩ := ih hagree
      refine ⟨hcap, hrest, hgiven.trans ?_⟩
      rw [htaken, List.append_assoc, List.singleton_append]
    · have hnil : queue.pending = [] :=
        List.eq_nil_of_length_eq_zero (h.length.trans (Nat.eq_zero_of_not_pos hpos))
      rw [auditRingPopBatch, if_neg hpos, popMany_nil hnil]
      exact ⟨rfl, h, (List.append_nil _).symm⟩

/-- A push whose copy is not made writes over the slot at the head of a full ring, and behind the
newest event of one that is not full. -/
theorem auditStep_failed (s : Observed AuditEvent) {ev : AuditEvent} {memory : Bool}
    (hcopy : (auditEventCopy ev memory).2 = false) :
    auditStep s (.push ev memory) =
      { s with
        ring := { s.ring with
          queue := Function.update s.ring.queue
            (if s.ring.count = s.ring.capacity then s.ring.head else s.ring.tail)
            (auditEventCopy ev memory).1 } } := by
  by_cases hfull : s.ring.count = s.ring.capacity
  · simp [auditStep, auditRingPush, hcopy, hfull]
  · simp [auditStep, auditRingPush, hcopy, hfull]

theorem auditStep_made (s : Observed AuditEvent) {ev : AuditEvent} {memory : Bool}
    (hcopy : (auditEventCopy ev memory).2 = true) :
    auditStep s (.push ev memory) =
      { s with
        ring :=
          if s.ring.count = s.ring.capacity then s.ring.overwrite (auditEventCopy ev memory).1
          else s.ring.insert (auditEventCopy ev memory).1
        queue := s.queue.step s.ring.capacity (.push (auditEventCopy ev memory).1) } := by
  by_cases hfull : s.ring.count = s.ring.capacity
  · simp [auditStep, auditRingPush, hcopy, hfull]
  · simp [auditStep, auditRingPush, hcopy, hfull]

theorem Agree.push {α : Type*} {ring : Ring α} {queue : Queue α} (h : Agree ring queue) (a : α) :
    Agree (if ring.count = ring.capacity then ring.overwrite a else ring.insert a)
      (queue.step ring.capacity (.push a)) := by
  split
  · exact h.overwrite ‹_› a
  · exact h.insert ‹_› a

theorem lawful_push {α : Type*} {ring : Ring α} {queue : Queue α} (h : Agree ring queue)
    (hlawful : queue.Lawful) (op : Op α) : (queue.step ring.capacity op).Lawful :=
  hlawful.step (Nat.zero_lt_of_lt h.ok.head_lt) op

/-- The ring after a call that is allowed. -/
theorem keeps_step {s : Observed AuditEvent} (hinv : Inv s) (h : Overwrites s) {call : AuditCall}
    (hok : StepOk s call) : Inv (auditStep s call) ∧ Overwrites (auditStep s call) := by
  have hagree := h.agree hinv
  cases call with
  | push ev memory =>
    cases hcopy : (auditEventCopy ev memory).2 with
    | true =>
      rw [auditStep_made s hcopy]
      have hnext := hagree.push (auditEventCopy ev memory).1
      have hlawful := lawful_push hagree hinv.lawful (.push (auditEventCopy ev memory).1)
      refine ⟨⟨hnext.ok, hlawful⟩, overwrites_of_agree hnext ?_ hlawful⟩
      exact h.popped.trans (Queue.taken_push _ _ _).symm
    | false =>
      rw [auditStep_failed s hcopy]
      have hok := hok.resolve_left (by rw [hcopy]; exact Bool.false_ne_true)
      have hnext : Agree { s.ring with
          queue := Function.update s.ring.queue
            (if s.ring.count = s.ring.capacity then s.ring.head else s.ring.tail)
            (auditEventCopy ev memory).1 } s.queue := by
        by_cases hfull : s.ring.count = s.ring.capacity
        · rw [if_pos hfull, ← hok.resolve_left (not_not.mpr hfull), Function.update_eq_self]
          exact hagree
        · rw [if_neg hfull]
          have hroom := lt_of_le_of_ne hinv.ok.count_le hfull
          refine ⟨⟨hinv.ok.head_lt, hinv.ok.tail_eq, hinv.ok.count_le⟩, ?_, h.dropped⟩
          exact (hinv.ok.contents_set_tail hroom _).trans h.pending
      exact ⟨⟨hnext.ok, hinv.lawful⟩, overwrites_of_agree hnext h.popped hinv.lawful⟩
  | popBatch max =>
    obtain ⟨-, hnext, htaken⟩ := agree_popBatch hagree max
    have hlawful := lawful_popMany hinv.lawful s.ring.capacity max
    refine ⟨⟨hnext.ok, hlawful⟩, overwrites_of_agree hnext ?_ hlawful⟩
    exact (congrArg (· ++ _) h.popped).trans htaken.symm

/-- An event without its snapshot takes the place of the oldest one. -/
theorem not_overwrites_failed {s : Observed AuditEvent} (hinv : Inv s) (h : Overwrites s)
    {ev : AuditEvent} {memory : Bool} (hok : ¬StepOk s (.push ev memory)) :
    ¬Overwrites (auditStep s (.push ev memory)) := by
  intro hnext
  obtain ⟨hcopy, hfull, hne⟩ : (auditEventCopy ev memory).2 = false ∧
      s.ring.count = s.ring.capacity ∧ s.ring.queue s.ring.head ≠ (auditEventCopy ev memory).1 := by
    simpa [StepOk] using hok
  have hpos : 0 < s.ring.count := hfull ▸ Nat.zero_lt_of_lt hinv.ok.head_lt
  rw [auditStep_failed s hcopy, if_pos hfull] at hnext
  have hset := hinv.ok.contents_set_head hpos (auditEventCopy ev memory).1
  have hsame : (auditEventCopy ev memory).1 :: (s.ring.contents s.ring.capacity).tail =
      s.ring.contents s.ring.capacity := hset.symm.trans (hnext.pending.trans h.pending.symm)
  have hfirst := congrArg (List.take 1) hsame
  rw [hinv.ok.contents_take hpos] at hfirst
  exact hne (List.cons.inj hfirst).1.symm

theorem overwrites_step_iff {s : Observed AuditEvent} (hinv : Inv s) (h : Overwrites s)
    (call : AuditCall) : Overwrites (auditStep s call) ↔ StepOk s call := by
  constructor
  · intro hnext
    cases call with
    | push ev memory => exact not_imp_not.mp (not_overwrites_failed hinv h) hnext
    | popBatch max => trivial
  · intro hok
    exact (keeps_step hinv h hok).2

theorem keeps_traceStep {τ : Type*} {s : Observed τ} (h : Inv s ∧ Overwrites s) (op : Op τ) :
    Inv (traceStep s op) ∧ Overwrites (traceStep s op) := by
  obtain ⟨hinv, h⟩ := h
  have hagree := h.agree hinv
  have hlawful := lawful_push hagree hinv.lawful op
  cases op with
  | push ctx =>
    have hnext := hagree.push ctx
    refine ⟨⟨hnext.ok, hlawful⟩, overwrites_of_agree hnext ?_ hlawful⟩
    exact h.popped.trans (Queue.taken_push _ _ _).symm
  | pop =>
    unfold traceStep traceRingBufferPop
    by_cases hzero : s.ring.count = 0
    · have hnil : s.queue.pending = [] := List.eq_nil_of_length_eq_zero (hagree.length.trans hzero)
      rw [if_pos hzero, step_pop_nil hnil]
      dsimp only
      rw [Option.toList_none, List.append_nil]
      exact ⟨hinv, h⟩
    · obtain ⟨hnext, htaken⟩ := hagree.pop (Nat.pos_of_ne_zero hzero)
      rw [if_neg hzero]
      refine ⟨⟨hnext.ok, hlawful⟩, overwrites_of_agree hnext ?_ hlawful⟩
      exact (congrArg (· ++ _) h.popped).trans htaken.symm

theorem start_overwrites {α : Type*} (zero : α) (capacity : ℕ) (hpos : 0 < capacity) :
    Inv (.start (.empty zero capacity)) ∧ Overwrites (.start (.empty zero capacity)) := by
  have hagree := agree_empty zero hpos
  exact ⟨⟨hagree.ok, Queue.lawful_empty⟩, overwrites_of_agree hagree rfl Queue.lawful_empty⟩

/-- The trace buffer is a queue that drops its oldest item. The audit queue is one exactly as long
as no push to the full queue fails for lack of memory, or what it leaves is what was there. -/
theorem overwrites_iff {τ : Type*} (zero : τ) :
    (∀ capacity calls, Always auditStep Overwrites (.start (auditRingCreate capacity)) calls ↔
      RunOk auditStep StepOk (.start (auditRingCreate capacity)) calls) ∧
    ∀ capacity ops,
      Always traceStep Overwrites (.start (traceRingBufferCreate zero capacity)) ops := by
  constructor
  · intro capacity calls
    obtain ⟨hinv, hstart⟩ := start_overwrites zeroEvent (if capacity < 4 then 4 else capacity)
      (by split <;> omega)
    have hkeep : ∀ (s : Observed AuditEvent) call, Inv s → Overwrites s → StepOk s call →
        Inv (auditStep s call) := fun s call hinv h hok => (keeps_step hinv h hok).1
    have hstep : ∀ (s : Observed AuditEvent) call, Inv s → Overwrites s →
        (Overwrites (auditStep s call) ↔ StepOk s call) :=
      fun s call hinv h => overwrites_step_iff hinv h call
    exact always_iff_runOk hkeep hstep hinv hstart calls
  · intro capacity ops
    have hstart := start_overwrites zero (if capacity = 0 then 1024 else capacity)
      (by split <;> omega)
    have hstep : ∀ (s : Observed τ) op, Inv s ∧ Overwrites s →
        Inv (traceStep s op) ∧ Overwrites (traceStep s op) := fun s op h => keeps_traceStep h op
    exact fun n => (always_of_step hstep hstart ops n).2

/-- The oldest of four events is lost without being counted: the fifth stands in its place. -/
def failedPush : List AuditCall :=
  [.push { zeroEvent with keyId := 1 } true, .push { zeroEvent with keyId := 2 } true,
    .push { zeroEvent with keyId := 3 } true, .push { zeroEvent with keyId := 4 } true,
    .push { zeroEvent with keyId := 5, promptSnapshot := some (Text.ascii "hi") } false]

theorem not_overwrites_failedPush :
    ¬Always auditStep Overwrites (.start (auditRingCreate 4)) failedPush := by
  intro h
  have hpending := (h 5).pending
  revert hpending
  decide +kernel

end Aigate.OverwritingRings
