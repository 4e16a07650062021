import Mathlib.Data.List.Range
import Mathlib.Data.Nat.ModEq
import Mathlib.Logic.Function.Basic

/-!
# Queues that drop their oldest element

A queue of bounded length makes room for what arrives by dropping the oldest element, and
counts it. A ring of slots with a head, a tail and a count is such a queue.
-/
namespace Aigate.DropOldestRing

variable {α : Type*}

inductive Op (α : Type*) where
  | push (a : α)
  | pop

/-- The elements that arrived, those that were taken, those that wait, and the number of
elements dropped. -/
structure Queue (α : Type*) where
  arrived : List α
  taken : List α
  pending : List α
  dropped : ℕ

def Queue.empty : Queue α := ⟨[], [], [], 0⟩

/-- The oldest element goes if the queue is full. -/
def Queue.makeRoom (cap : ℕ) (q : Queue α) : Queue α :=
  if q.pending.length = cap then { q with pending := q.pending.tail, dropped := q.dropped + 1 }
  else q

def Queue.append (q : Queue α) (a : α) : Queue α :=
  { q with arrived := q.arrived ++ [a], pending := q.pending ++ [a] }

def Queue.step (cap : ℕ) (q : Queue α) : Op α → Queue α
  | .push a => (q.makeRoom cap).append a
  | .pop => { q with taken := q.taken ++ q.pending.take 1, pending := q.pending.tail }

theorem Queue.taken_push (cap : ℕ) (q : Queue α) (a : α) :
    (q.step cap (.push a)).taken = q.taken := by
  rw [Queue.step, Queue.append, Queue.makeRoom]
  split <;> rfl

/-- Nothing is taken twice or out of order, and what is gone and was not taken is counted. -/
structure Queue.Lawful (q : Queue α) : Prop where
  sublist : (q.taken ++ q.pending).Sublist q.arrived
  counted : q.arrived.length = q.taken.length + q.pending.length + q.dropped

theorem Queue.lawful_empty : (Queue.empty : Queue α).Lawful := ⟨List.Sublist.refl _, rfl⟩

theorem Queue.Lawful.makeRoom {cap : ℕ} (hcap : 0 < cap) {q : Queue α} (h : q.Lawful) :
    (q.makeRoom cap).Lawful := by
  unfold Queue.makeRoom
  split
  · have hsub : (q.taken ++ q.pending.tail).Sublist (q.taken ++ q.pending) :=
      (List.tail_sublist q.pending).append_left q.taken
    refine ⟨hsub.trans h.sublist, ?_⟩
    have hcounted := h.counted
    simp only [List.length_tail]
    omega
  · exact h

theorem Queue.Lawful.append {q : Queue α} (h : q.Lawful) (a : α) : (q.append a).Lawful := by
  constructor
  · rw [Queue.append, ← List.append_assoc]
    exact h.sublist.append_right [a]
  · have hcounted := h.counted
    simp only [Queue.append, List.length_append, List.length_singleton]
    omega

theorem Queue.Lawful.pop {cap : ℕ} {q : Queue α} (h : q.Lawful) : (q.step cap .pop).Lawful := by
  have hall : q.taken ++ q.pending.take 1 ++ q.pending.tail = q.taken ++ q.pending := by
    cases q.pending <;> simp
  constructor
  · rw [Queue.step, hall]
    exact h.sublist
  · have hlength := congrArg List.length hall
    simp only [List.length_append] at hlength
    have hcounted := h.counted
    simp only [Queue.step, List.length_append]
    omega

theorem Queue.Lawful.step {cap : ℕ} (hcap : 0 < cap) {q : Queue α} (h : q.Lawful) (op : Op α) :
    (q.step cap op).Lawful := by
  cases op with
  | push a => exact (h.makeRoom hcap).append a
  | pop => exact h.pop

/-- A ring of `cap` slots: it is read at the head and written at the tail. -/
structure RingBuffer (α : Type*) where
  queue : ℕ → α
  head : ℕ
  tail : ℕ
  count : ℕ

def RingBuffer.dropHead (cap : ℕ) (r : RingBuffer α) : RingBuffer α :=
  { r with head := (r.head + 1) % cap, count := r.count - 1 }

def RingBuffer.write (cap : ℕ) (r : RingBuffer α) (a : α) : RingBuffer α :=
  ⟨Function.update r.queue r.tail a, r.head, (r.tail + 1) % cap, r.count + 1⟩

/-- The elements of a ring, from the head. -/
def RingBuffer.contents (cap : ℕ) (r : RingBuffer α) : List α :=
  (List.range r.count).map fun i => r.queue ((r.head + i) % cap)

/-- The tail is where the elements end, and no more of them are there than slots. -/
structure RingBuffer.Ok (cap : ℕ) (r : RingBuffer α) : Prop where
  head_lt : r.head < cap
  tail_eq : r.tail = (r.head + r.count) % cap
  count_le : r.count ≤ cap

@[simp] theorem RingBuffer.length_contents (cap : ℕ) (r : RingBuffer α) :
    (r.contents cap).length = r.count := by
  simp [RingBuffer.contents]

theorem RingBuffer.contents_dropHead (cap : ℕ) (r : RingBuffer α) :
    (r.dropHead cap).contents cap = (r.contents cap).tail := by
  cases hcount : r.count with
  | zero => simp [RingBuffer.contents, RingBuffer.dropHead, hcount]
  | succ n =>
    simp only [RingBuffer.contents, RingBuffer.dropHead, hcount, Nat.add_sub_cancel,
      List.range_succ_eq_map, List.map_cons, List.tail_cons, List.map_map]
    apply List.map_congr_left
    intro i _
    rw [Function.comp_apply, Nat.mod_add_mod, Nat.add_assoc, Nat.add_comm 1 i]

theorem RingBuffer.Ok.dropHead {cap : ℕ} {r : RingBuffer α} (h : r.Ok cap)
    (hcount : 0 < r.count) : (r.dropHead cap).Ok cap := by
  refine ⟨Nat.mod_lt _ (Nat.zero_lt_of_lt h.head_lt), ?_, ?_⟩
  · have hsum : r.head + 1 + (r.count - 1) = r.head + r.count := by omega
    simp only [RingBuffer.dropHead]
    rw [Nat.mod_add_mod, hsum, h.tail_eq]
  · exact (Nat.sub_le _ _).trans h.count_le

/-- The slot at the tail of a ring that is not full holds none of its elements. -/
theorem RingBuffer.Ok.slot_ne {cap : ℕ} {r : RingBuffer α} (h : r.Ok cap)
    (hroom : r.count < cap) {i : ℕ} (hi : i < r.count) : (r.head + i) % cap ≠ r.tail := by
  intro heq
  rw [h.tail_eq] at heq
  have hmod : i % cap = r.count % cap := Nat.ModEq.add_left_cancel' r.head heq
  rw [Nat.mod_eq_of_lt (hi.trans hroom), Nat.mod_eq_of_lt hroom] at hmod
  omega

theorem RingBuffer.Ok.contents_write {cap : ℕ} {r : RingBuffer α} (h : r.Ok cap)
    (hroom : r.count < cap) (a : α) : (r.write cap a).contents cap = r.contents cap ++ [a] := by
  simp only [RingBuffer.contents, RingBuffer.write, List.range_succ, List.map_append, List.map_cons,
    List.map_nil]
  congr 1
  · apply List.map_congr_left
    intro i hi
    exact Function.update_of_ne (h.slot_ne hroom (List.mem_range.mp hi)) _ _
  · rw [← h.tail_eq, Function.update_self]

theorem RingBuffer.Ok.write {cap : ℕ} {r : RingBuffer α} (h : r.Ok cap) (hroom : r.count < cap)
    (a : α) : (r.write cap a).Ok cap := by
  refine ⟨h.head_lt, ?_, ?_⟩
  · simp only [RingBuffer.write]
    rw [h.tail_eq, Nat.mod_add_mod, Nat.add_assoc]
  · exact hroom

/-- The slot at the head holds the oldest element only. -/
theorem RingBuffer.Ok.slot_ne_head {cap : ℕ} {r : RingBuffer α} (h : r.Ok cap) {i : ℕ}
    (hi : i + 1 < r.count) : (r.head + (i + 1)) % cap ≠ r.head := by
  intro heq
  have hmod : (r.head + (i + 1)) % cap = (r.head + 0) % cap := by
    rw [heq, Nat.add_zero, Nat.mod_eq_of_lt h.head_lt]
  have hzero : (i + 1) % cap = 0 % cap := Nat.ModEq.add_left_cancel' r.head hmod
  rw [Nat.mod_eq_of_lt (hi.trans_le h.count_le), Nat.zero_mod] at hzero
  omega

/-- Writing over the oldest element. -/
theorem RingBuffer.Ok.contents_set_head {cap : ℕ} {r : RingBuffer α} (h : r.Ok cap)
    (hcount : 0 < r.count) (a : α) :
    ({ r with queue := Function.update r.queue r.head a } : RingBuffer α).contents cap =
      a :: (r.contents cap).tail := by
  obtain ⟨n, hn⟩ := Nat.exists_eq_succ_of_ne_zero hcount.ne'
  simp only [RingBuffer.contents, hn, List.range_succ_eq_map, List.map_cons, List.tail_cons,
    Nat.add_zero, Nat.mod_eq_of_lt h.head_lt, Function.update_self, List.map_map]
  congr 1
  apply List.map_congr_left
  intro i hi
  have hlt := List.mem_range.mp hi
  exact Function.update_of_ne (h.slot_ne_head (by omega)) _ _

/-- Writing behind the newest element, where there is room, changes none. -/
theorem RingBuffer.Ok.contents_set_tail {cap : ℕ} {r : RingBuffer α} (h : r.Ok cap)
    (hroom : r.count < cap) (a : α) :
    ({ r with queue := Function.update r.queue r.tail a } : RingBuffer α).contents cap =
      r.contents cap := by
  apply List.map_congr_left
  intro i hi
  exact Function.update_of_ne (h.slot_ne hroom (List.mem_range.mp hi)) _ _

/-- The element at the head is the oldest one. -/
theorem RingBuffer.Ok.contents_take {cap : ℕ} {r : RingBuffer α} (h : r.Ok cap)
    (hcount : 0 < r.count) : (r.contents cap).take 1 = [r.queue r.head] := by
  obtain ⟨n, hn⟩ := Nat.exists_eq_succ_of_ne_zero hcount.ne'
  simp [RingBuffer.contents, hn, List.range_succ_eq_map, Nat.mod_eq_of_lt h.head_lt]

end Aigate.DropOldestRing
