import Aigate.GuardedRuns

/-!
# Counters that jobs increment one by one

A job increments the cells of its program in order, each once and in a step of its own. The
value of a cell is the number of jobs that have passed it. A reader that meets no job between
two of its cells finds the values as if every program had run as a whole.
-/
namespace Aigate.AtomicCounters
open GuardedRuns

variable {C : Type*}

/-- The cells that a job increments, and how many of them it has. -/
structure Job (C : Type*) where
  program : List C
  done : ℕ

def Job.passed (t : Job C) : List C := t.program.take t.done

def Job.next (t : Job C) : Option C := t.program[t.done]?

def Job.finished (t : Job C) : Prop := t.program.length ≤ t.done

instance (t : Job C) : Decidable t.finished := inferInstanceAs (Decidable (_ ≤ _))

def Job.tick (t : Job C) : Job C := { t with done := t.done + 1 }

theorem Job.passed_of_finished {t : Job C} (h : t.finished) : t.passed = t.program :=
  List.take_of_length_le h

theorem Job.next_eq_none {t : Job C} : t.next = none ↔ t.finished := List.getElem?_eq_none_iff

theorem Job.passed_tick {t : Job C} {c : C} (h : t.next = some c) :
    t.tick.passed = t.passed ++ [c] := by
  obtain ⟨hlt, hc⟩ := List.getElem?_eq_some_iff.mp h
  rw [passed, passed, tick, List.take_add_one, List.getElem?_eq_getElem hlt, hc]
  rfl

/-- A cell that comes next has not been passed. -/
theorem Job.not_mem_passed {t : Job C} (hnodup : t.program.Nodup) {c : C}
    (h : t.next = some c) : c ∉ t.passed := by
  have hnew : t.tick.passed.Nodup := hnodup.sublist (List.take_sublist _ _)
  rw [passed_tick h] at hnew
  exact fun hmem => (List.nodup_append.mp hnew).2.2 c hmem c List.mem_cons_self rfl

/-- A job that has passed a cell has passed those before it. -/
theorem Job.passed_before {t : Job C} {before after : List C} {c d : C}
    (hprogram : t.program = before ++ d :: after) (hnodup : t.program.Nodup)
    (hd : d ∈ t.passed) (hc : c ∈ before) : c ∈ t.passed := by
  have hlong : before.length < t.done := by
    by_contra hshort
    have htake : t.passed = before.take t.done := by
      rw [passed, hprogram, List.take_append_of_le_length (Nat.le_of_not_lt hshort)]
    rw [hprogram] at hnodup
    rw [htake] at hd
    exact (List.nodup_append.mp hnodup).2.2 d (List.mem_of_mem_take hd) d List.mem_cons_self rfl
  rw [passed, hprogram, List.take_append, List.take_of_length_le (Nat.le_of_lt hlong)]
  exact List.mem_append_left _ hc

variable [DecidableEq C]

/-- The jobs that have passed a cell. -/
def passedBy (jobs : List (Job C)) (c : C) : ℕ := jobs.countP fun t => c ∈ t.passed

/-- An increment adds one to its cell and leaves the others. -/
theorem passedBy_tick {jobs : List (Job C)} {i : ℕ} {t : Job C} (hi : jobs[i]? = some t)
    (hnodup : t.program.Nodup) {c : C} (hc : t.next = some c) (c' : C) :
    passedBy (jobs.set i t.tick) c' = passedBy jobs c' + if c' = c then 1 else 0 := by
  have hset := countP_set_add (fun t => decide (c' ∈ t.passed)) hi t.tick
  rw [Job.passed_tick hc] at hset
  by_cases heq : c' = c
  · subst heq
    have hnew := Job.not_mem_passed hnodup hc
    simpa [passedBy, hnew] using hset
  · simpa [passedBy, heq] using hset

theorem passedBy_append (jobs : List (Job C)) (program : List C) (c : C) :
    passedBy (jobs ++ [⟨program, 0⟩]) c = passedBy jobs c := by
  simp [passedBy, Job.passed]

/-- Where every job that has passed a cell has passed another. -/
theorem passedBy_le {jobs : List (Job C)} {c d : C}
    (h : ∀ t ∈ jobs, c ∈ t.passed → d ∈ t.passed) : passedBy jobs c ≤ passedBy jobs d :=
  List.countP_mono_left fun t ht hc => by simpa using h t ht (by simpa using hc)

theorem passedBy_finished {jobs : List (Job C)} (h : ∀ t ∈ jobs, t.finished) (c : C) :
    passedBy jobs c = jobs.countP fun t => c ∈ t.program := by
  refine List.countP_congr fun t ht => ?_
  rw [Job.passed_of_finished (h t ht)]

end Aigate.AtomicCounters
