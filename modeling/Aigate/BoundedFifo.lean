import Mathlib

/-!
# Bounded queues with lent batches

A queue of bounded length drops what arrives while it is full. A consumer takes batches
from the front, and either settles a batch or gives it back; what no longer fits of a batch
given back is dropped from its front. Elements leave in the order in which they arrived,
and each at most once.
-/
namespace Aigate.BoundedFifo

variable {α : Type*}

inductive Event (α : Type*) where
  | push (a : α)
  | take (n : ℕ)
  | settle
  | giveBack

/-- The waiting elements, the batch that was taken, the elements settled so far, and the
number of elements dropped. -/
structure Fifo (α : Type*) where
  queue : List α
  lent : List α
  settled : List α
  dropped : ℕ

def Fifo.empty : Fifo α := ⟨[], [], [], 0⟩

/-- A batch that is not given back is settled when the next one is taken. -/
def Fifo.step (cap : ℕ) (f : Fifo α) : Event α → Fifo α
  | .push a =>
    if f.queue.length < cap then { f with queue := f.queue ++ [a] }
    else { f with dropped := f.dropped + 1 }
  | .take n =>
    { f with
      queue := f.queue.drop n
      lent := f.queue.take n
      settled := f.settled ++ f.lent }
  | .settle => { f with lent := [], settled := f.settled ++ f.lent }
  | .giveBack =>
    { f with
      queue := f.lent.drop (f.lent.length + f.queue.length - cap) ++ f.queue
      lent := []
      dropped := f.dropped + (f.lent.length + f.queue.length - cap) }

theorem Fifo.step_push {cap : ℕ} {f : Fifo α} (h : f.queue.length < cap) (a : α) :
    f.step cap (.push a) = { f with queue := f.queue ++ [a] } := if_pos h

theorem Fifo.step_push_full {cap : ℕ} {f : Fifo α} (h : ¬f.queue.length < cap) (a : α) :
    f.step cap (.push a) = { f with dropped := f.dropped + 1 } := if_neg h

theorem Fifo.step_take (cap : ℕ) (f : Fifo α) (n : ℕ) :
    f.step cap (.take n) =
      ⟨f.queue.drop n, f.queue.take n, f.settled ++ f.lent, f.dropped⟩ := rfl

theorem Fifo.step_settle (cap : ℕ) (f : Fifo α) :
    f.step cap .settle = ⟨f.queue, [], f.settled ++ f.lent, f.dropped⟩ := rfl

theorem Fifo.step_giveBack (cap : ℕ) (f : Fifo α) :
    f.step cap .giveBack =
      ⟨f.lent.drop (f.lent.length + f.queue.length - cap) ++ f.queue, [], f.settled,
        f.dropped + (f.lent.length + f.queue.length - cap)⟩ := rfl

def Fifo.run (cap : ℕ) (f : Fifo α) (events : List (Event α)) : Fifo α :=
  events.foldl (Fifo.step cap) f

/-- The elements that arrived, in order. -/
def arrivals : List (Event α) → List α
  | [] => []
  | .push a :: events => a :: arrivals events
  | _ :: events => arrivals events

/-- Everything that left, is out or waits. -/
def Fifo.kept (f : Fifo α) : List α := f.settled ++ f.lent ++ f.queue

theorem arrivals_append (es fs : List (Event α)) :
    arrivals (es ++ fs) = arrivals es ++ arrivals fs := by
  induction es with
  | nil => rfl
  | cons e es ih => cases e <;> simp [arrivals, ih]

theorem step_length_le {cap : ℕ} {f : Fifo α} (h : f.queue.length ≤ cap) (e : Event α) :
    (f.step cap e).queue.length ≤ cap := by
  cases e with
  | push a =>
    simp only [Fifo.step]
    split
    · simpa using ‹_›
    · exact h
  | take n =>
    simp only [Fifo.step, List.length_drop]
    omega
  | settle => exact h
  | giveBack =>
    simp only [Fifo.step, List.length_append, List.length_drop]
    omega

/-- No step brings back an element or changes the order. -/
theorem step_sublist (cap : ℕ) (f : Fifo α) (e : Event α) :
    (f.step cap e).kept.Sublist (f.kept ++ arrivals [e]) := by
  cases e with
  | push a =>
    simp only [Fifo.step, Fifo.kept, arrivals]
    split
    · simp
    · exact List.sublist_append_left _ _
  | take n => simp [Fifo.step, Fifo.kept, arrivals]
  | settle => simp [Fifo.step, Fifo.kept, arrivals]
  | giveBack =>
    simp only [Fifo.step, Fifo.kept, arrivals, List.append_nil, List.append_assoc]
    exact List.Sublist.append_left ((List.drop_sublist _ _).append_right _) _

/-- Every arrival is kept or counted as dropped. -/
theorem step_count (cap : ℕ) (f : Fifo α) (e : Event α) (h : f.queue.length ≤ cap) :
    (f.step cap e).kept.length + (f.step cap e).dropped =
      f.kept.length + f.dropped + (arrivals [e]).length := by
  cases e with
  | push a =>
    simp only [Fifo.step, arrivals, List.length_singleton]
    split
    · simp only [Fifo.kept, List.length_append, List.length_singleton]
      omega
    · simp only [Fifo.kept]
      omega
  | take n =>
    simp only [Fifo.step, Fifo.kept, arrivals, List.length_append, List.length_take,
      List.length_drop, List.length_nil]
    omega
  | settle => simp [Fifo.step, Fifo.kept, arrivals]
  | giveBack =>
    simp only [Fifo.step, Fifo.kept, arrivals, List.length_append, List.length_drop,
      List.length_nil]
    omega

theorem run_snoc (cap : ℕ) (f : Fifo α) (es : List (Event α)) (e : Event α) :
    f.run cap (es ++ [e]) = (f.run cap es).step cap e := by
  simp [Fifo.run]

theorem run_length_le (cap : ℕ) (es : List (Event α)) :
    ((Fifo.empty : Fifo α).run cap es).queue.length ≤ cap := by
  induction es using List.reverseRecOn with
  | nil => exact Nat.zero_le _
  | append_singleton es e ih =>
    rw [run_snoc]
    exact step_length_le ih e

/-- What arrives while there is room waits. -/
theorem run_push {cap : ℕ} (as : List α) (h : as.length ≤ cap) :
    (Fifo.empty : Fifo α).run cap (as.map .push) = ⟨as, [], [], 0⟩ := by
  induction as using List.reverseRecOn with
  | nil => rfl
  | append_singleton as a ih =>
    rw [List.length_append, List.length_singleton] at h
    rw [List.map_append, List.map_singleton, run_snoc, ih (by omega), Fifo.step_push (by simpa)]

/-- First in, first out, and at most once. -/
theorem run_sublist (cap : ℕ) (es : List (Event α)) :
    ((Fifo.empty : Fifo α).run cap es).kept.Sublist (arrivals es) := by
  induction es using List.reverseRecOn with
  | nil => exact List.Sublist.refl _
  | append_singleton es e ih =>
    rw [run_snoc, arrivals_append]
    exact (step_sublist cap _ e).trans (ih.append_right _)

theorem run_count (cap : ℕ) (es : List (Event α)) :
    ((Fifo.empty : Fifo α).run cap es).kept.length + ((Fifo.empty : Fifo α).run cap es).dropped =
      (arrivals es).length := by
  induction es using List.reverseRecOn with
  | nil => rfl
  | append_singleton es e ih =>
    rw [run_snoc, step_count cap _ e (run_length_le cap es), ih, arrivals_append,
      List.length_append]

end Aigate.BoundedFifo
