import Aigate.BoundedFifo
import Aigate.UsageFlush

/-!
# The audit ring of the usage meter

Every recorded request writes a row at the tail of a ring of 4096 slots. The flush worker
drains a batch from the head, and moves the head back when the flush of the batch fails.
The row is written before the ring is found full, so that a request which meets a full ring
overwrites the oldest pending row. As long as this does not happen the ring is a bounded
queue.
-/
namespace Aigate.AuditRing
open UsageFlush BoundedFifo

/-- `UM_REQ_CAP`. -/
def reqCap : ℕ := 4096

/-- The value that a 32-bit counter holds. -/
def int32 (n : ℤ) : ℤ := n.bmod (2 ^ 32)

/-- The slots, the head and tail sequence numbers, and the drop counter. -/
structure Ring where
  slots : ℤ → UsageRequestRow
  reqHead : ℤ
  reqTail : ℤ
  reqDropped : ℕ

/-- The slots start with whatever the allocation holds. -/
def Ring.fresh (memory : ℤ → UsageRequestRow) : Ring := ⟨memory, 0, 0, 0⟩

def slotIdx (seq : ℤ) : ℤ := seq.tmod reqCap

/-- The ring part of `um_record_full`. -/
def umRecordRow (ring : Ring) (row : UsageRequestRow) : Ring :=
  let slots := Function.update ring.slots (slotIdx ring.reqTail) row
  let tail := int32 (ring.reqTail + 1)
  if int32 (tail - ring.reqHead) > reqCap then
    { ring with slots := slots, reqTail := int32 (tail - 1), reqDropped := ring.reqDropped + 1 }
  else { ring with slots := slots, reqTail := tail }

/-- The rows between head and tail. -/
def ringRows (ring : Ring) (n : ℕ) : List UsageRequestRow :=
  (List.range n).map fun i : ℕ => ring.slots (slotIdx (int32 (ring.reqHead + (i : ℤ))))

def pendingCount (ring : Ring) : ℕ := (int32 (ring.reqTail - ring.reqHead)).toNat

/-- `um_drain_requests`: copy at most `cap` rows and advance the head. -/
def umDrainRequests (ring : Ring) (cap : ℕ) : Ring × List UsageRequestRow :=
  let n := min (pendingCount ring) cap
  ({ ring with reqHead := int32 (ring.reqHead + n) }, ringRows ring n)

/-- `um_requeue_requests`: move the head back, not further than the ring reaches. -/
def umRequeueRequests (ring : Ring) (n : ℕ) : Ring :=
  if n = 0 then ring else
  let head := int32 (ring.reqHead - n)
  let oldest := int32 (ring.reqTail - reqCap)
  if head < oldest then
    { ring with reqHead := oldest, reqDropped := ring.reqDropped + (oldest - head).toNat }
  else { ring with reqHead := head }

/-- The ring, the batch that the worker holds, and the rows that were flushed. -/
structure Worker where
  ring : Ring
  lent : List UsageRequestRow
  flushed : List UsageRequestRow

/-- The worker drains a batch and flushes it; a batch whose flush fails is given back. -/
def Worker.step (w : Worker) : Event UsageRequestRow → Worker
  | .push row => { w with ring := umRecordRow w.ring row }
  | .take n =>
    let drained := umDrainRequests w.ring n
    ⟨drained.1, drained.2, w.flushed ++ w.lent⟩
  | .settle => { w with lent := [], flushed := w.flushed ++ w.lent }
  | .giveBack => { w with ring := umRequeueRequests w.ring w.lent.length, lent := [] }

def Worker.start (memory : ℤ → UsageRequestRow) : Worker := ⟨Ring.fresh memory, [], []⟩

def Worker.run (w : Worker) (events : List (Event UsageRequestRow)) : Worker :=
  events.foldl Worker.step w

/-- A request that finds room, or repeats the oldest pending row, and whose sequence number
fits its counter. -/
def StepOk (w : Worker) : Event UsageRequestRow → Prop
  | .push row => w.ring.reqTail < 2 ^ 31 - 1 ∧
    (pendingCount w.ring < reqCap ∨ row = w.ring.slots (slotIdx w.ring.reqHead))
  | _ => True

def RunOk (w : Worker) : List (Event UsageRequestRow) → Prop
  | [] => True
  | e :: events => StepOk w e ∧ RunOk (w.step e) events

/-- The worker shows what a bounded queue shows. -/
structure Agrees (w : Worker) (f : Fifo UsageRequestRow) : Prop where
  pending : ringRows w.ring (pendingCount w.ring) = f.queue
  lent : w.lent = f.lent
  flushed : w.flushed = f.settled
  dropped : w.ring.reqDropped = f.dropped

/-- The ring holds a window of the accepted rows, whose numbers are their places. -/
structure Holds (ring : Ring) (accepted : List UsageRequestRow) (head : ℕ) : Prop where
  head_le : head ≤ accepted.length
  length_le : accepted.length ≤ head + reqCap
  fits : accepted.length < 2 ^ 31
  reqHead : ring.reqHead = head
  reqTail : ring.reqTail = accepted.length
  window : ∀ j, (hj : j < accepted.length) → accepted.length ≤ j + reqCap →
    ring.slots (slotIdx j) = accepted[j]

theorem int32_of_lt {n : ℤ} (h₁ : -2 ^ 31 ≤ n) (h₂ : n < 2 ^ 31) : int32 n = n := by
  unfold int32
  exact Int.bmod_eq_of_le (by omega) (by omega)

theorem slotIdx_natCast (j : ℕ) : slotIdx j = ((j % reqCap : ℕ) : ℤ) := by
  unfold slotIdx
  rw [Int.tmod_eq_emod_of_nonneg (Int.natCast_nonneg j)]
  rfl

theorem slotIdx_eq_iff {i j : ℕ} : slotIdx i = slotIdx j ↔ i % reqCap = j % reqCap := by
  rw [slotIdx_natCast, slotIdx_natCast, Nat.cast_inj]

theorem Holds.pendingCount_eq {ring : Ring} {accepted : List UsageRequestRow} {head : ℕ}
    (h : Holds ring accepted head) : pendingCount ring = accepted.length - head := by
  have hfits := h.fits
  have hle := h.head_le
  unfold pendingCount
  rw [h.reqHead, h.reqTail, int32_of_lt (by omega) (by omega)]
  omega

/-- A stretch of the window is read back in order. -/
theorem Holds.ringRows_eq {ring : Ring} {accepted : List UsageRequestRow} {head : ℕ}
    (h : Holds ring accepted head) {n : ℕ} (hn : head + n ≤ accepted.length) :
    ringRows ring n = (accepted.drop head).take n := by
  have hfits := h.fits
  apply List.ext_getElem
  · simp only [ringRows, List.length_map, List.length_range, List.length_take, List.length_drop]
    omega
  · intro i h₁ h₂
    have hi : i < n := by simpa [ringRows] using h₁
    have hcast : int32 (ring.reqHead + (i : ℤ)) = ((head + i : ℕ) : ℤ) := by
      rw [h.reqHead, int32_of_lt (by omega) (by omega), Nat.cast_add]
    simp only [ringRows, List.getElem_map, List.getElem_range, List.getElem_take,
      List.getElem_drop, hcast]
    exact h.window (head + i) (by omega) (by have := h.length_le; omega)

/-- A request that finds room is accepted. -/
theorem Holds.record {ring : Ring} {accepted : List UsageRequestRow} {head : ℕ}
    (h : Holds ring accepted head) (row : UsageRequestRow) (hroom : accepted.length < head + reqCap)
    (hfits : accepted.length < 2 ^ 31 - 1) :
    Holds (umRecordRow ring row) (accepted ++ [row]) head ∧
      (umRecordRow ring row).reqDropped = ring.reqDropped := by
  have hle := h.head_le
  have htail : int32 (ring.reqTail + 1) = accepted.length + 1 := by
    rw [h.reqTail]
    exact int32_of_lt (by omega) (by omega)
  have hnot : ¬int32 (int32 (ring.reqTail + 1) - ring.reqHead) > reqCap := by
    rw [htail, h.reqHead, int32_of_lt (by omega) (by omega)]
    omega
  have hrecord : umRecordRow ring row = { ring with
      slots := Function.update ring.slots (slotIdx ring.reqTail) row
      reqTail := int32 (ring.reqTail + 1) } := by
    unfold umRecordRow
    exact if_neg hnot
  rw [hrecord]
  refine ⟨⟨?_, ?_, ?_, h.reqHead, ?_, ?_⟩, rfl⟩
  · simp only [List.length_append, List.length_singleton]
    omega
  · simp only [List.length_append, List.length_singleton]
    omega
  · simp only [List.length_append, List.length_singleton]
    omega
  · rw [htail]
    simp
  · intro j hj hwin
    simp only [List.length_append, List.length_singleton] at hj hwin
    rw [h.reqTail]
    by_cases hlast : j = accepted.length
    · subst hlast
      simp
    · have hne : slotIdx (j : ℤ) ≠ slotIdx (accepted.length : ℤ) := by
        have hcap : reqCap = 4096 := rfl
        rw [Ne, slotIdx_eq_iff, hcap]
        omega
      dsimp only
      rw [Function.update_of_ne hne, List.getElem_append_left (by omega)]
      exact h.window j (by omega) (by omega)

/-- A request that finds the ring full overwrites the oldest pending row. -/
theorem Holds.record_full {ring : Ring} {accepted : List UsageRequestRow} {head : ℕ}
    (h : Holds ring accepted head) (row : UsageRequestRow) (hfull : accepted.length = head + reqCap)
    (hfits : accepted.length < 2 ^ 31 - 1) :
    umRecordRow ring row = { ring with
      slots := Function.update ring.slots (slotIdx ring.reqHead) row
      reqDropped := ring.reqDropped + 1 } := by
  have hcap : reqCap = 4096 := rfl
  have htail : int32 (ring.reqTail + 1) = accepted.length + 1 := by
    rw [h.reqTail]
    exact int32_of_lt (by omega) (by omega)
  have hover : int32 (int32 (ring.reqTail + 1) - ring.reqHead) > reqCap := by
    rw [htail, h.reqHead, int32_of_lt (by omega) (by omega)]
    omega
  have hback : int32 (int32 (ring.reqTail + 1) - 1) = ring.reqTail := by
    rw [htail, h.reqTail, int32_of_lt (by omega) (by omega)]
    omega
  have hslot : slotIdx ring.reqTail = slotIdx ring.reqHead := by
    rw [h.reqTail, h.reqHead, slotIdx_eq_iff, hcap]
    omega
  unfold umRecordRow
  simp only [hover, if_true, hback, hslot]

theorem Holds.drain {ring : Ring} {accepted : List UsageRequestRow} {head : ℕ}
    (h : Holds ring accepted head) (cap : ℕ) :
    Holds (umDrainRequests ring cap).1 accepted (head + min (accepted.length - head) cap) ∧
      (umDrainRequests ring cap).2 = (accepted.drop head).take cap ∧
      (umDrainRequests ring cap).1.reqDropped = ring.reqDropped := by
  have hle := h.head_le
  have hfits := h.fits
  have hlen := h.length_le
  unfold umDrainRequests
  rw [h.pendingCount_eq]
  refine ⟨⟨by omega, by omega, hfits, ?_, h.reqTail, h.window⟩, ?_, rfl⟩
  · simp only [h.reqHead]
    rw [int32_of_lt (by omega) (by omega)]
    omega
  · dsimp only
    rw [h.ringRows_eq (by omega)]
    rcases Nat.le_total (accepted.length - head) cap with hc | hc
    · rw [Nat.min_eq_left hc, List.take_of_length_le (by rw [List.length_drop]),
        List.take_of_length_le (by rw [List.length_drop]; exact hc)]
    · rw [Nat.min_eq_right hc]

theorem Holds.requeue {ring : Ring} {accepted : List UsageRequestRow} {head n : ℕ}
    (h : Holds ring accepted head) (hn : n ≤ head) :
    Holds (umRequeueRequests ring n) accepted
        (head - n + (n + (accepted.length - head) - reqCap)) ∧
      (umRequeueRequests ring n).reqDropped =
        ring.reqDropped + (n + (accepted.length - head) - reqCap) := by
  have hle := h.head_le
  have hfits := h.fits
  have hlen := h.length_le
  have hcap : reqCap = 4096 := rfl
  have hhead : int32 (ring.reqHead - n) = (head : ℤ) - n := by
    rw [h.reqHead]
    exact int32_of_lt (by omega) (by omega)
  have hold : int32 (ring.reqTail - reqCap) = (accepted.length : ℤ) - reqCap := by
    rw [h.reqTail]
    exact int32_of_lt (by omega) (by omega)
  by_cases hn0 : n = 0
  · subst hn0
    have hzero : 0 + (accepted.length - head) - reqCap = 0 := by omega
    simp only [umRequeueRequests, if_true, hzero, Nat.sub_zero, Nat.add_zero]
    exact ⟨h, trivial⟩
  unfold umRequeueRequests
  rw [if_neg hn0]
  simp only [hhead, hold]
  split
  · refine ⟨⟨by omega, by omega, hfits, ?_, h.reqTail, h.window⟩, ?_⟩
    · simp only
      omega
    · simp only
      omega
  · refine ⟨⟨by omega, by omega, hfits, ?_, h.reqTail, h.window⟩, ?_⟩
    · simp only
      omega
    · simp only
      omega

/-- The worker's state next to that of the queue: the waiting and the lent rows are the
accepted rows before and after the head. -/
structure Simulates (w : Worker) (f : Fifo UsageRequestRow) (accepted : List UsageRequestRow)
    (head : ℕ) : Prop where
  holds : Holds w.ring accepted head
  queue : f.queue = accepted.drop head
  lent_eq : w.lent = f.lent
  lent_le : f.lent.length ≤ head
  lent : f.lent = (accepted.take head).drop (head - f.lent.length)
  flushed : w.flushed = f.settled
  dropped : w.ring.reqDropped = f.dropped

theorem Simulates.agrees {w : Worker} {f : Fifo UsageRequestRow}
    {accepted : List UsageRequestRow} {head : ℕ} (h : Simulates w f accepted head) :
    Agrees w f where
  pending := by
    have hle := h.holds.head_le
    rw [h.holds.pendingCount_eq, h.holds.ringRows_eq (by omega), h.queue,
      List.take_of_length_le (by rw [List.length_drop])]
  lent := h.lent_eq
  flushed := h.flushed
  dropped := h.dropped

section step
variable {w : Worker} {f : Fifo UsageRequestRow} {accepted : List UsageRequestRow} {head : ℕ}

theorem Simulates.queue_length (h : Simulates w f accepted head) :
    f.queue.length = accepted.length - head := by
  rw [h.queue, List.length_drop]

theorem Simulates.push (h : Simulates w f accepted head) {row : UsageRequestRow}
    (hok : StepOk w (.push row)) :
    ∃ accepted', Simulates (w.step (.push row)) (f.step reqCap (.push row)) accepted' head := by
  have hle := h.holds.head_le
  have hlen := h.holds.length_le
  have hqueue := h.queue_length
  obtain ⟨hfits, hroom⟩ := hok
  rw [h.holds.reqTail] at hfits
  rw [h.holds.pendingCount_eq] at hroom
  by_cases hfull : accepted.length < head + reqCap
  · obtain ⟨hholds, hdropped⟩ := h.holds.record row hfull (by omega)
    refine ⟨accepted ++ [row], ?_⟩
    rw [Fifo.step_push (by omega)]
    refine ⟨hholds, ?_, h.lent_eq, h.lent_le, ?_, h.flushed, hdropped.trans h.dropped⟩
    · dsimp only
      rw [h.queue, List.drop_append_of_le_length hle]
    · dsimp only
      rw [List.take_append_of_le_length hle]
      exact h.lent
  · have hrow : row = w.ring.slots (slotIdx w.ring.reqHead) := by
      rcases hroom with hroom | hrow
      · omega
      · exact hrow
    have hrecord := h.holds.record_full row (by omega) (by omega)
    rw [hrow, Function.update_eq_self] at hrecord
    refine ⟨accepted, ?_⟩
    rw [Fifo.step_push_full (by omega), Worker.step, hrow, hrecord]
    exact ⟨⟨hle, hlen, h.holds.fits, h.holds.reqHead, h.holds.reqTail, h.holds.window⟩,
      h.queue, h.lent_eq, h.lent_le, h.lent, h.flushed, congrArg (· + 1) h.dropped⟩

theorem Simulates.take (h : Simulates w f accepted head) (n : ℕ) :
    Simulates (w.step (.take n)) (f.step reqCap (.take n)) accepted
      (head + min (accepted.length - head) n) := by
  obtain ⟨hholds, hrows, hdropped⟩ := h.holds.drain n
  rw [Fifo.step_take, Worker.step]
  refine ⟨hholds, ?_, ?_, ?_, ?_, ?_, hdropped.trans h.dropped⟩
  · dsimp only
    rw [h.queue, List.drop_drop]
    rcases Nat.le_total (accepted.length - head) n with hc | hc
    · rw [Nat.min_eq_left hc, List.drop_of_length_le (by omega),
        List.drop_of_length_le (by omega)]
    · rw [Nat.min_eq_right hc]
  · dsimp only
    rw [hrows, h.queue]
  · dsimp only
    rw [List.length_take, h.queue_length, Nat.min_comm]
    exact Nat.le_add_left _ _
  · dsimp only
    have hback : head + min (accepted.length - head) n - min n (accepted.length - head) = head := by
      rw [Nat.min_comm]
      omega
    have htaken : head + min (accepted.length - head) n - head =
        min n (accepted.length - head) := by
      rw [Nat.min_comm]
      omega
    rw [List.length_take, h.queue_length, h.queue, hback, List.drop_take, htaken,
      ← List.length_drop]
    exact List.take_eq_take_min
  · dsimp only
    rw [h.flushed, h.lent_eq]

theorem Simulates.settle (h : Simulates w f accepted head) :
    Simulates (w.step .settle) (f.step reqCap .settle) accepted head := by
  rw [Fifo.step_settle, Worker.step]
  refine ⟨h.holds, h.queue, rfl, Nat.zero_le _, ?_, ?_, h.dropped⟩
  · dsimp only
    rw [List.length_nil, Nat.sub_zero]
    exact (List.drop_of_length_le (List.length_take_le _ _)).symm
  · dsimp only
    rw [h.flushed, h.lent_eq]

theorem Simulates.giveBack (h : Simulates w f accepted head) :
    Simulates (w.step .giveBack) (f.step reqCap .giveBack) accepted
      (head - w.lent.length + (w.lent.length + (accepted.length - head) - reqCap)) := by
  have hle := h.holds.head_le
  have hlen := h.holds.length_le
  have hlent : w.lent.length ≤ head := h.lent_eq ▸ h.lent_le
  obtain ⟨hholds, hdropped⟩ := h.holds.requeue hlent
  rw [Fifo.step_giveBack, Worker.step]
  refine ⟨hholds, ?_, rfl, Nat.zero_le _, ?_, h.flushed, ?_⟩
  · dsimp only
    rw [h.queue_length, h.lent_eq]
    have hsplit : accepted.drop (head - f.lent.length) = f.lent ++ f.queue := by
      calc accepted.drop (head - f.lent.length)
          = (accepted.take head ++ accepted.drop head).drop (head - f.lent.length) := by
            rw [List.take_append_drop]
        _ = (accepted.take head).drop (head - f.lent.length) ++ accepted.drop head :=
            List.drop_append_of_le_length (by rw [List.length_take]; omega)
        _ = f.lent ++ f.queue := by rw [← h.lent, ← h.queue]
    rw [← List.drop_drop, hsplit, List.drop_append_of_le_length (by omega)]
  · dsimp only
    rw [List.length_nil, Nat.sub_zero]
    exact (List.drop_of_length_le (List.length_take_le _ _)).symm
  · dsimp only
    rw [hdropped, h.dropped, h.queue_length, h.lent_eq]

theorem Simulates.step (h : Simulates w f accepted head) {e : Event UsageRequestRow}
    (hok : StepOk w e) :
    ∃ accepted' head', Simulates (w.step e) (f.step reqCap e) accepted' head' := by
  cases e with
  | push row =>
    obtain ⟨accepted', h'⟩ := h.push hok
    exact ⟨accepted', head, h'⟩
  | take n => exact ⟨accepted, _, h.take n⟩
  | settle => exact ⟨accepted, head, h.settle⟩
  | giveBack => exact ⟨accepted, _, h.giveBack⟩

end step

theorem Simulates.run {w : Worker} {f : Fifo UsageRequestRow}
    {accepted : List UsageRequestRow} {head : ℕ} (h : Simulates w f accepted head)
    {events : List (Event UsageRequestRow)} (hok : RunOk w events) :
    ∃ accepted' head', Simulates (w.run events) (f.run reqCap events) accepted' head' := by
  induction events generalizing w f accepted head with
  | nil => exact ⟨accepted, head, h⟩
  | cons e events ih =>
    obtain ⟨accepted', head', h'⟩ := h.step hok.1
    exact ih h' hok.2

theorem simulates_start (memory : ℤ → UsageRequestRow) :
    Simulates (Worker.start memory) Fifo.empty [] 0 where
  holds := ⟨le_rfl, Nat.zero_le _, by simp, rfl, rfl, by simp⟩
  queue := rfl
  lent_eq := rfl
  lent_le := le_rfl
  lent := rfl
  flushed := rfl
  dropped := rfl

/-- The ring behaves as a bounded queue at the end of a run: it shows what the queue shows,
what was flushed, is out or pends left in order and once, and a request that finds the ring
full adds one to the drop counter. -/
structure BehavesAsFifo (memory : ℤ → UsageRequestRow) (events : List (Event UsageRequestRow)) :
    Prop where
  agrees : Agrees ((Worker.start memory).run events) (Fifo.empty.run reqCap events)
  order : (((Worker.start memory).run events).flushed ++ ((Worker.start memory).run events).lent ++
    ringRows ((Worker.start memory).run events).ring
      (pendingCount ((Worker.start memory).run events).ring)).Sublist (arrivals events)
  counted : ((Worker.start memory).run events).ring.reqDropped +
    (((Worker.start memory).run events).flushed.length +
      ((Worker.start memory).run events).lent.length +
      pendingCount ((Worker.start memory).run events).ring) = (arrivals events).length

/-- A run in which no request overwrites a pending row is a run of the bounded queue. -/
theorem audit_fifo (memory : ℤ → UsageRequestRow) {events : List (Event UsageRequestRow)}
    (hok : RunOk (Worker.start memory) events) : BehavesAsFifo memory events := by
  obtain ⟨accepted, head, h⟩ := (simulates_start memory).run hok
  have ha := h.agrees
  have hsub := run_sublist reqCap events
  have hcount := run_count reqCap events
  have hlength := congrArg List.length ha.pending
  simp only [ringRows, List.length_map, List.length_range] at hlength
  refine ⟨ha, ?_, ?_⟩
  · rw [ha.flushed, ha.lent, ha.pending]
    exact hsub
  · rw [ha.flushed, ha.lent, hlength, ha.dropped, ← hcount]
    simp only [Fifo.kept, List.length_append]
    omega

/-- A row of key `k`. -/
def rowOf (k : ℤ) : UsageRequestRow := ⟨k, [], [], 200, 1, 1, 0, 0, 5, 0, []⟩

/-- A batch that is given back comes out again first, whatever was recorded in between. -/
theorem audit_fifo_sample : BehavesAsFifo (fun _ => rowOf 0)
    [.push (rowOf 1), .push (rowOf 2), .take 1, .push (rowOf 3), .giveBack, .take 2, .settle] :=
  audit_fifo _ ⟨⟨by decide +kernel, Or.inl (by decide +kernel)⟩,
    ⟨by decide +kernel, Or.inl (by decide +kernel)⟩, trivial,
    ⟨by decide +kernel, Or.inl (by decide +kernel)⟩, trivial, trivial, trivial, trivial⟩

/-- A request that meets a full ring takes the place of the oldest pending row. -/
theorem Holds.ringRows_full {ring : Ring} {accepted : List UsageRequestRow} {head : ℕ}
    (h : Holds ring accepted head) (row : UsageRequestRow) (hfull : accepted.length = head + reqCap)
    (hfits : accepted.length < 2 ^ 31 - 1) :
    (ringRows (umRecordRow ring row) (pendingCount (umRecordRow ring row))).head? = some row := by
  have hpending : pendingCount ring = reqCap := by
    rw [h.pendingCount_eq]
    omega
  have hhead : int32 (ring.reqHead + ((0 : ℕ) : ℤ)) = ring.reqHead := by
    rw [h.reqHead, int32_of_lt (by omega) (by omega)]
    simp
  have hcount : pendingCount (umRecordRow ring row) = reqCap := by
    rw [h.record_full row hfull hfits]
    exact hpending
  rw [hcount, h.record_full row hfull hfits, List.head?_eq_getElem?, ringRows,
    List.getElem?_map, List.getElem?_range (by decide), Option.map_some, hhead]
  exact congrArg some (Function.update_self _ _ _)

theorem holds_pushes (memory : ℤ → UsageRequestRow) (rows : List UsageRequestRow)
    (h : rows.length ≤ reqCap) :
    Holds ((Worker.start memory).run (rows.map .push)).ring rows 0 := by
  have hcap : reqCap = 4096 := rfl
  induction rows using List.reverseRecOn with
  | nil => exact (simulates_start memory).holds
  | append_singleton rows row ih =>
    rw [List.length_append, List.length_singleton] at h
    rw [List.map_append, List.map_singleton, Worker.run, List.foldl_append]
    exact ((ih (by omega)).record row (by omega) (by omega)).1

/-- Any 4096 pending rows that do not start with the row that arrives next. -/
theorem not_fifo_of_full (memory : ℤ → UsageRequestRow) (rows : List UsageRequestRow)
    (row : UsageRequestRow) (hfull : rows.length = reqCap) (hne : rows.head? ≠ some row) :
    ¬BehavesAsFifo memory (rows.map .push ++ [.push row]) := by
  intro hfifo
  have hcap : reqCap = 4096 := rfl
  have hpending := hfifo.agrees.pending
  rw [run_snoc, run_push rows (by omega), Fifo.step_push_full (by dsimp only; omega)] at hpending
  have hring := (holds_pushes memory rows (by omega)).ringRows_full row (by omega) (by omega)
  rw [Worker.run, List.foldl_append] at hpending
  exact hne ((congrArg List.head? hpending).symm.trans hring)

/-- Once 4096 rows of key 1 pend, a request of key 2 overwrites the first of them. -/
theorem audit_not_fifo : ¬BehavesAsFifo (fun _ => rowOf 0)
    ((List.replicate reqCap (rowOf 1)).map .push ++ [.push (rowOf 2)]) :=
  not_fifo_of_full _ _ _ List.length_replicate (by decide)

end Aigate.AuditRing
