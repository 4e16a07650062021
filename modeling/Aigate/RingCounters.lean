import Aigate.AuditRing

/-!
# The sequence numbers of the audit ring

The head and the tail of the ring count rows and are never set back to 0; a slot is the number
modulo the size of the ring. The counters have 32 bits and a sign. Up to 2 ^ 31 accepted rows
the slots are those of the true numbers, and with the next row the slot of the tail is negative.
-/
namespace Aigate.RingCounters
open UsageFlush BoundedFifo AuditRing

/-- A slot that is in the ring. -/
def InRing (slot : ℤ) : Prop := 0 ≤ slot ∧ slot < reqCap

instance (slot : ℤ) : Decidable (InRing slot) := inferInstanceAs (Decidable (_ ∧ _))

/-- The slots that are computed from the tail and from the head lie in the ring, and the
difference of the two is the number of pending rows. -/
structure Addressed (ring : Ring) (pending : ℕ) : Prop where
  tail : InRing (slotIdx ring.reqTail)
  rows : ∀ i < pending, InRing (slotIdx (int32 (ring.reqHead + (i : ℤ))))
  occupancy : int32 (ring.reqTail - ring.reqHead) = pending

/-- The rows that pend after some events, by the queue that the ring stands for. -/
def pendingRows (events : List (Event UsageRequestRow)) : ℕ :=
  (Fifo.empty.run reqCap events).queue.length

/-- A row that finds room. -/
def accepts (f : Fifo UsageRequestRow) : Event UsageRequestRow → ℕ
  | .push _ => if f.queue.length < reqCap then 1 else 0
  | _ => 0

def acceptedFrom (f : Fifo UsageRequestRow) : List (Event UsageRequestRow) → ℕ
  | [] => 0
  | e :: events => accepts f e + acceptedFrom (f.step reqCap e) events

/-- The rows that were ever put in the ring. -/
def acceptedRows (events : List (Event UsageRequestRow)) : ℕ := acceptedFrom Fifo.empty events

theorem acceptedFrom_snoc (f : Fifo UsageRequestRow) (events : List (Event UsageRequestRow))
    (e : Event UsageRequestRow) :
    acceptedFrom f (events ++ [e]) = acceptedFrom f events + accepts (f.run reqCap events) e := by
  induction events generalizing f with
  | nil => exact Nat.add_comm _ _
  | cons e' events ih =>
    rw [List.cons_append, acceptedFrom, acceptedFrom, ih, Nat.add_assoc]
    rfl

theorem acceptedRows_snoc (events : List (Event UsageRequestRow)) (e : Event UsageRequestRow) :
    acceptedRows (events ++ [e]) =
      acceptedRows events + accepts (Fifo.empty.run reqCap events) e :=
  acceptedFrom_snoc _ _ _

theorem int32_add (a b : ℤ) : int32 (int32 a + b) = int32 (a + b) := Int.bmod_add_bmod

theorem int32_sub (a b : ℤ) : int32 (int32 a - b) = int32 (a - b) := Int.bmod_sub_bmod

theorem int32_sub_int32 (a b : ℤ) : int32 (int32 a - int32 b) = int32 (a - b) := by
  rw [int32_sub]
  exact Int.sub_bmod_bmod

/-- The slot of a number up to 2 ^ 31; the number 2 ^ 31 itself wraps, to a multiple of the
size of the ring. -/
theorem inRing_of_le {n : ℕ} (h : n ≤ 2 ^ 31) : InRing (slotIdx (int32 n)) := by
  rcases Nat.lt_or_eq_of_le h with hlt | rfl
  · rw [int32_of_lt (by omega) (by omega), slotIdx_natCast]
    have hmod := Nat.mod_lt n (show 0 < reqCap by decide)
    exact ⟨Int.natCast_nonneg _, by exact_mod_cast hmod⟩
  · decide

theorem not_inRing_wrapped : ¬InRing (slotIdx (int32 ((2 ^ 31 + 1 : ℕ) : ℤ))) := by
  decide

/-- The counters are the true numbers in 32 bits, and the pending and the lent rows lie
before them. -/
structure Counts (w : Worker) (f : Fifo UsageRequestRow) (tail head : ℕ) : Prop where
  reqTail : w.ring.reqTail = int32 tail
  reqHead : w.ring.reqHead = int32 head
  pending : head + f.queue.length = tail
  queue_le : f.queue.length ≤ reqCap
  lent : w.lent.length = f.lent.length
  lent_le : f.lent.length ≤ head

section step
variable {w : Worker} {f : Fifo UsageRequestRow} {tail head : ℕ}

theorem Counts.occupancy (h : Counts w f tail head) :
    int32 (w.ring.reqTail - w.ring.reqHead) = f.queue.length := by
  have hcap : reqCap = 4096 := rfl
  have hpending := h.pending
  have hle := h.queue_le
  rw [h.reqTail, h.reqHead, int32_sub_int32, int32_of_lt (by omega) (by omega)]
  omega

theorem Counts.pendingCount_eq (h : Counts w f tail head) :
    pendingCount w.ring = f.queue.length := by
  rw [pendingCount, h.occupancy, Int.toNat_natCast]

theorem Counts.addressed (h : Counts w f tail head) (hle : tail ≤ 2 ^ 31) :
    Addressed w.ring f.queue.length where
  tail := by
    rw [h.reqTail]
    exact inRing_of_le hle
  rows := by
    intro i hi
    have hpending := h.pending
    rw [h.reqHead, int32_add, ← Nat.cast_add]
    exact inRing_of_le (by omega)
  occupancy := h.occupancy

/-- The tail moves on when there is room, and goes back to where it was when there is none. -/
theorem Counts.push (h : Counts w f tail head) (row : UsageRequestRow) :
    Counts (w.step (.push row)) (f.step reqCap (.push row)) (tail + accepts f (.push row)) head := by
  have hcap : reqCap = 4096 := rfl
  have hpending := h.pending
  have hle := h.queue_le
  have hnext : int32 (w.ring.reqTail + 1) = int32 ((tail + 1 : ℕ) : ℤ) := by
    rw [h.reqTail, int32_add, Nat.cast_succ]
  have hoccupied : int32 (int32 (w.ring.reqTail + 1) - w.ring.reqHead) = f.queue.length + 1 := by
    rw [hnext, h.reqHead, int32_sub_int32, int32_of_lt (by omega) (by omega)]
    omega
  by_cases hroom : f.queue.length < reqCap
  · have hnot : ¬int32 (int32 (w.ring.reqTail + 1) - w.ring.reqHead) > reqCap := by
      rw [hoccupied]
      omega
    rw [Fifo.step_push hroom, accepts, if_pos hroom, Worker.step, umRecordRow,
      if_neg hnot]
    refine ⟨hnext, h.reqHead, ?_, ?_, h.lent, h.lent_le⟩
    · rw [List.length_append, List.length_singleton]
      omega
    · rw [List.length_append, List.length_singleton]
      omega
  · have hover : int32 (int32 (w.ring.reqTail + 1) - w.ring.reqHead) > reqCap := by
      rw [hoccupied]
      omega
    rw [Fifo.step_push_full hroom, accepts, if_neg hroom, Worker.step, umRecordRow,
      if_pos hover, Nat.add_zero]
    refine ⟨?_, h.reqHead, hpending, hle, h.lent, h.lent_le⟩
    rw [hnext, int32_sub, Nat.cast_succ, add_sub_cancel_right]
    simp only [Nat.add_zero]

theorem Counts.take (h : Counts w f tail head) (n : ℕ) :
    Counts (w.step (.take n)) (f.step reqCap (.take n)) tail (head + min f.queue.length n) := by
  have hpending := h.pending
  have hle := h.queue_le
  rw [Fifo.step_take, Worker.step, umDrainRequests]
  dsimp only
  rw [h.pendingCount_eq]
  refine ⟨h.reqTail, ?_, ?_, ?_, ?_, ?_⟩
  · rw [h.reqHead, int32_add, ← Nat.cast_add]
  · rw [List.length_drop]
    omega
  · rw [List.length_drop]
    omega
  · rw [ringRows, List.length_map, List.length_range, List.length_take, Nat.min_comm]
  · rw [List.length_take]
    omega

theorem Counts.settle (h : Counts w f tail head) :
    Counts (w.step .settle) (f.step reqCap .settle) tail head :=
  ⟨h.reqTail, h.reqHead, h.pending, h.queue_le, rfl, Nat.zero_le _⟩

/-- The head goes back as far as the ring reaches. The comparison of the two places is one of
32-bit values, so that it is right only before the counters wrap. -/
theorem Counts.giveBack (h : Counts w f tail head) (hle : tail ≤ 2 ^ 31) :
    ∃ head', Counts (w.step .giveBack) (f.step reqCap .giveBack) tail head' := by
  have hcap : reqCap = 4096 := rfl
  have hpending := h.pending
  have hqueue := h.queue_le
  have hlent := h.lent_le
  rw [Fifo.step_giveBack, Worker.step, h.lent]
  have hlength : (f.lent.drop (f.lent.length + f.queue.length - reqCap) ++ f.queue).length =
      f.lent.length - (f.lent.length + f.queue.length - reqCap) + f.queue.length := by
    rw [List.length_append, List.length_drop]
  by_cases hzero : f.lent.length = 0
  · rw [hzero, umRequeueRequests, if_pos rfl]
    refine ⟨head, h.reqTail, h.reqHead, ?_, ?_, rfl, Nat.zero_le _⟩
    · dsimp only
      rw [List.length_append, List.length_drop, hzero]
      omega
    · dsimp only
      rw [List.length_append, List.length_drop, hzero]
      omega
  have hback : int32 (w.ring.reqHead - (f.lent.length : ℤ)) = (head : ℤ) - f.lent.length := by
    rw [h.reqHead, int32_sub, int32_of_lt (by omega) (by omega)]
  have hold : int32 (w.ring.reqTail - reqCap) = (tail : ℤ) - reqCap := by
    rw [h.reqTail, int32_sub, int32_of_lt (by omega) (by omega)]
  rw [umRequeueRequests, if_neg hzero]
  dsimp only
  rw [hback, hold]
  split
  · refine ⟨tail - reqCap, h.reqTail, ?_, ?_, ?_, rfl, Nat.zero_le _⟩
    · rw [int32_of_lt (by omega) (by omega)]
      dsimp only
      omega
    · dsimp only
      rw [hlength]
      omega
    · dsimp only
      rw [hlength]
      omega
  · refine ⟨head - f.lent.length, h.reqTail, ?_, ?_, ?_, rfl, Nat.zero_le _⟩
    · rw [int32_of_lt (by omega) (by omega)]
      dsimp only
      omega
    · dsimp only
      rw [hlength]
      omega
    · dsimp only
      rw [hlength]
      omega

theorem Counts.step (h : Counts w f tail head) (hle : tail ≤ 2 ^ 31) (e : Event UsageRequestRow) :
    ∃ head', Counts (w.step e) (f.step reqCap e) (tail + accepts f e) head' := by
  cases e with
  | push row => exact ⟨head, h.push row⟩
  | take n => exact ⟨_, h.take n⟩
  | settle => exact ⟨head, h.settle⟩
  | giveBack => exact h.giveBack hle

end step

theorem counts_start (memory : ℤ → UsageRequestRow) : Counts (Worker.start memory) Fifo.empty 0 0 :=
  ⟨rfl, rfl, rfl, Nat.zero_le _, rfl, le_rfl⟩

theorem worker_run_snoc (w : Worker) (events : List (Event UsageRequestRow))
    (e : Event UsageRequestRow) : w.run (events ++ [e]) = (w.run events).step e := by
  simp [Worker.run]

/-- The counters are right as long as no more than 2 ^ 31 rows were accepted before the last
event. -/
theorem counts_run (memory : ℤ → UsageRequestRow) (events : List (Event UsageRequestRow))
    (h : acceptedRows events.dropLast ≤ 2 ^ 31) :
    ∃ head, Counts ((Worker.start memory).run events) (Fifo.empty.run reqCap events)
      (acceptedRows events) head := by
  induction events using List.reverseRecOn with
  | nil => exact ⟨0, counts_start memory⟩
  | append_singleton events e ih =>
    rw [List.dropLast_concat] at h
    have hbefore : acceptedRows events.dropLast ≤ acceptedRows events := by
      rcases List.eq_nil_or_concat' events with rfl | ⟨es, e', rfl⟩
      · rfl
      · rw [List.dropLast_concat, acceptedRows_snoc]
        exact Nat.le_add_right _ _
    obtain ⟨head, hcounts⟩ := ih (hbefore.trans h)
    rw [worker_run_snoc, BoundedFifo.run_snoc, acceptedRows_snoc]
    exact hcounts.step h e

/-- Every state of a run in which the slots lie in the ring has accepted at most 2 ^ 31 rows. -/
theorem acceptedRows_le (memory : ℤ → UsageRequestRow) (events : List (Event UsageRequestRow))
    (h : ∀ n, Addressed ((Worker.start memory).run (events.take n)).ring
      (pendingRows (events.take n))) : acceptedRows events ≤ 2 ^ 31 := by
  induction events using List.reverseRecOn with
  | nil => exact Nat.zero_le _
  | append_singleton events e ih =>
    have hbefore : acceptedRows events ≤ 2 ^ 31 := by
      refine ih fun n => ?_
      have hn := h (min n events.length)
      rwa [List.take_append_of_le_length (Nat.min_le_right _ _), ← List.take_eq_take_min] at hn
    obtain ⟨head, hcounts⟩ := counts_run memory (events ++ [e])
      (by rwa [List.dropLast_concat])
    have hlast := (h (events ++ [e]).length).tail
    rw [List.take_length, hcounts.reqTail] at hlast
    have hone : accepts (Fifo.empty.run reqCap events) e ≤ 1 := by
      unfold accepts
      split
      · split <;> decide
      · exact Nat.zero_le _
    rw [acceptedRows_snoc] at hlast ⊢
    by_contra hover
    have hwrapped : acceptedRows events + accepts (Fifo.empty.run reqCap events) e = 2 ^ 31 + 1 := by
      omega
    rw [hwrapped] at hlast
    exact not_inRing_wrapped hlast

/-- The slots lie in the ring all along a run, and the occupancy is right, exactly when the run
accepts no more than 2 ^ 31 rows. -/
theorem addressed_run_iff (memory : ℤ → UsageRequestRow) (events : List (Event UsageRequestRow)) :
    (∀ n, Addressed ((Worker.start memory).run (events.take n)).ring
      (pendingRows (events.take n))) ↔ acceptedRows events ≤ 2 ^ 31 := by
  refine ⟨acceptedRows_le memory events, fun h n => ?_⟩
  have hbegin : ∀ es : List (Event UsageRequestRow), es <+: events → acceptedRows es ≤ 2 ^ 31 := by
    rintro es ⟨rest, rfl⟩
    refine le_trans ?_ h
    induction rest using List.reverseRecOn with
    | nil => rw [List.append_nil]
    | append_singleton rest e ih =>
      rw [← List.append_assoc, acceptedRows_snoc]
      refine Nat.le_add_right_of_le (ih ?_)
      rw [← List.append_assoc, acceptedRows_snoc] at h
      exact (Nat.le_add_right _ _).trans h
  obtain ⟨head, hcounts⟩ := counts_run memory (events.take n)
    (hbegin _ ((List.dropLast_prefix _).trans (List.take_prefix n events)))
  exact hcounts.addressed (hbegin _ (List.take_prefix n events))

/-- Requests that are drained and flushed as they come. -/
def drainedTraffic (row : UsageRequestRow) : ℕ → List (Event UsageRequestRow)
  | 0 => []
  | k + 1 => .push row :: .take 1 :: .settle :: drainedTraffic row k

theorem acceptedFrom_drainedTraffic (row : UsageRequestRow) (k : ℕ) (f : Fifo UsageRequestRow)
    (h : f.queue = []) : acceptedFrom f (drainedTraffic row k) = k := by
  induction k generalizing f with
  | zero => rfl
  | succ k ih =>
    have hroom : f.queue.length < reqCap := by
      rw [h]
      decide
    rw [drainedTraffic, acceptedFrom, acceptedFrom, acceptedFrom, Fifo.step_push hroom,
      Fifo.step_take, Fifo.step_settle, ih _ (by rw [h]; rfl), accepts, if_pos hroom]
    simp only [accepts]
    omega

/-- A request more than 2 ^ 31, with a ring that is never fuller than one row. -/
theorem not_addressed_wrapped : ¬∀ n,
    Addressed ((Worker.start fun _ => rowOf 0).run
      ((drainedTraffic (rowOf 1) (2 ^ 31 + 1)).take n)).ring
      (pendingRows ((drainedTraffic (rowOf 1) (2 ^ 31 + 1)).take n)) := by
  intro h
  have hle := acceptedRows_le _ _ h
  rw [acceptedRows, acceptedFrom_drainedTraffic _ _ _ rfl] at hle
  omega

end Aigate.RingCounters
