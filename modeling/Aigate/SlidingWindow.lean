import Mathlib.Data.List.Perm.Basic
import Mathlib.Data.List.Nodup
import Mathlib.Logic.Function.Basic

/-!
# The last values in a ring

Values are written round a window of slots, with a count of the slots that are written. As long as
the head and the count start together, the counted slots hold the last values, as many as the
window has room for, and each of them once.
-/
namespace Aigate.SlidingWindow

variable {α : Type*}

structure RingSlots (α : Type*) where
  slots : ℕ → α
  head : ℕ
  count : ℕ

def RingSlots.record (r : RingSlots α) (window : ℕ) (a : α) : RingSlots α where
  slots := Function.update r.slots r.head a
  head := (r.head + 1) % window
  count := if r.count < window then r.count + 1 else r.count

/-- What is read of the ring. -/
def RingSlots.read (r : RingSlots α) : List α := (List.range r.count).map r.slots

/-- The ring holds the last values of a log, which has the newest first. -/
structure Keeps (window : ℕ) (r : RingSlots α) (log : List α) : Prop where
  count : r.count = min log.length window
  head : r.head = log.length % window
  stored : ∀ i < min log.length window,
    log[i]? = some (r.slots ((log.length - 1 - i) % window))

theorem keeps_nil (window : ℕ) {r : RingSlots α} (hcount : r.count = 0) (hhead : r.head = 0) :
    Keeps window r [] where
  count := by rw [hcount, List.length_nil, Nat.zero_min]
  head := by rw [hhead, List.length_nil, Nat.zero_mod]
  stored := fun i hi => by simp at hi

/-- Slots less than a window apart differ. -/
theorem mod_ne {window a b : ℕ} (h : a < b) (h' : b < a + window) : a % window ≠ b % window := by
  intro heq
  have hdvd : window ∣ b - a := Nat.dvd_of_mod_eq_zero (Nat.sub_mod_eq_zero_of_mod_eq heq.symm)
  have hle := Nat.le_of_dvd (by omega) hdvd
  omega

theorem Keeps.record {window : ℕ} {r : RingSlots α} {log : List α} (h : Keeps window r log)
    (a : α) : Keeps window (r.record window a) (a :: log) where
  count := by
    have hcount := h.count
    simp only [RingSlots.record, List.length_cons]
    split <;> omega
  head := by
    simp only [RingSlots.record, List.length_cons, h.head, Nat.mod_add_mod]
  stored := by
    intro i hi
    rw [List.length_cons] at hi
    cases i with
    | zero => simp [RingSlots.record, h.head]
    | succ j =>
      have hj : j < min log.length window := by omega
      have hne : (log.length - 1 - j) % window ≠ log.length % window :=
        mod_ne (by omega) (by omega)
      have hslot : log.length + 1 - 1 - (j + 1) = log.length - 1 - j := by omega
      simp only [RingSlots.record, List.length_cons, List.getElem?_cons_succ, h.head, hslot]
      rw [Function.update_of_ne hne]
      exact h.stored j hj

/-- A log that is shorter than both windows can change its window. -/
theorem Keeps.resize {window window' : ℕ} {r : RingSlots α} {log : List α} (h : Keeps window r log)
    (hless : log.length < window) (hless' : log.length < window') : Keeps window' r log where
  count := by
    have hcount := h.count
    omega
  head := by rw [h.head, Nat.mod_eq_of_lt hless, Nat.mod_eq_of_lt hless']
  stored := by
    intro i hi
    have hi' : i < min log.length window := by omega
    have hslot : log.length - 1 - i < window := by omega
    have hslot' : log.length - 1 - i < window' := by omega
    rw [h.stored i hi', Nat.mod_eq_of_lt hslot, Nat.mod_eq_of_lt hslot']

/-- The slots of the last values, from the newest, are the counted slots in some order. -/
theorem slots_perm {window : ℕ} (hwindow : 0 < window) (n : ℕ) :
    ((List.range (min n window)).map fun i => (n - 1 - i) % window).Perm
      (List.range (min n window)) := by
  have hnodup : ((List.range (min n window)).map fun i => (n - 1 - i) % window).Nodup := by
    refine List.Nodup.map_on ?_ List.nodup_range
    intro i hi j hj heq
    rw [List.mem_range] at hi hj
    by_contra hne
    rcases Nat.lt_or_gt_of_ne hne with hlt | hlt
    · exact mod_ne (by omega) (by omega) heq.symm
    · exact mod_ne (by omega) (by omega) heq
  have hsubset : ((List.range (min n window)).map fun i => (n - 1 - i) % window) ⊆
      List.range (min n window) := by
    intro k hk
    obtain ⟨i, hi, rfl⟩ := List.mem_map.mp hk
    rw [List.mem_range] at hi ⊢
    by_cases hn : n ≤ window
    · rw [Nat.mod_eq_of_lt (by omega)]
      omega
    · rw [Nat.min_eq_right (by omega)]
      exact Nat.mod_lt _ hwindow
  exact (List.subperm_of_subset hnodup hsubset).perm_of_length_le (by simp)

/-- What is read are the last values, each once. -/
theorem Keeps.read_perm {window : ℕ} (hwindow : 0 < window) {r : RingSlots α} {log : List α}
    (h : Keeps window r log) : r.read.Perm (log.take window) := by
  have htake : log.take window =
      ((List.range (min log.length window)).map fun i => (log.length - 1 - i) % window).map
        r.slots := by
    apply List.ext_getElem?
    intro i
    rw [List.map_map, List.getElem?_map, List.getElem?_take]
    by_cases hi : i < min log.length window
    · rw [if_pos (by omega), h.stored i hi, List.getElem?_range hi]
      rfl
    · have hrange : (List.range (min log.length window))[i]? = none := by
        rw [List.getElem?_eq_none_iff, List.length_range]
        omega
      rw [hrange]
      split
      · rw [List.getElem?_eq_none (by omega)]
        rfl
      · rfl
  rw [htake, RingSlots.read, h.count]
  exact ((slots_perm hwindow log.length).map r.slots).symm

/-- Read from the slot behind the head, the ring gives the last values from the newest. -/
theorem Keeps.newest {window : ℕ} {r : RingSlots α} {log : List α} (h : Keeps window r log)
    (most : ℕ) :
    ((List.range (min r.count most)).map fun i => r.slots ((r.head + window - 1 - i) % window)) =
      log.take (min window most) := by
  apply List.ext_getElem?
  intro i
  rw [List.getElem?_map, List.getElem?_take]
  have hcount := h.count
  by_cases hi : i < min r.count most
  · have hlt : i < min log.length window := by omega
    have hslot : (r.head + window - 1 - i) % window = (log.length - 1 - i) % window := by
      have hmod : (log.length % window + (window - 1 - i)) % window =
          (log.length - 1 - i + window) % window := by
        rw [Nat.mod_add_mod]
        congr 1
        omega
      rw [h.head, show log.length % window + window - 1 - i =
        log.length % window + (window - 1 - i) by omega, hmod, Nat.add_mod_right]
    rw [List.getElem?_range hi, if_pos (by omega), h.stored i hlt, Option.map_some, hslot]
  · have hrange : (List.range (min r.count most))[i]? = none := by
      rw [List.getElem?_eq_none_iff, List.length_range]
      omega
    rw [hrange]
    split
    · rw [List.getElem?_eq_none (by omega)]
      rfl
    · rfl

end Aigate.SlidingWindow
