import Mathlib.Data.List.Basic

/-!
# Runs with a condition on their steps

A machine takes one step for each event. A condition on the steps says which of them are
allowed in the state that they start from. An invariant of the allowed steps holds in every
state of a run of such steps, and if no other step keeps it, then in no other run.
-/
namespace Aigate.GuardedRuns

variable {S E : Type*} (step : S → E → S) (ok : S → E → Prop) (good : S → Prop)

def run (s : S) (events : List E) : S := events.foldl step s

/-- Every step of the run is allowed. -/
def RunOk : S → List E → Prop
  | _, [] => True
  | s, e :: rest => ok s e ∧ RunOk (step s e) rest

/-- The property holds in every state of the run. -/
def Always (s : S) (events : List E) : Prop := ∀ n, good (run step s (events.take n))

instance decidableRunOk [∀ s e, Decidable (ok s e)] : ∀ s events, Decidable (RunOk step ok s events)
  | _, [] => isTrue trivial
  | s, e :: rest => @instDecidableAnd _ _ _ (decidableRunOk (step s e) rest)

variable {step ok good}

@[simp] theorem always_nil {s : S} : Always step good s [] ↔ good s := by
  constructor
  · intro h
    exact h 0
  · intro h n
    simpa [run] using h

theorem always_cons {s : S} {e : E} {rest : List E} :
    Always step good s (e :: rest) ↔ good s ∧ Always step good (step s e) rest := by
  constructor
  · intro h
    exact ⟨h 0, fun n => h (n + 1)⟩
  · intro ⟨hs, hrest⟩ n
    cases n with
    | zero => exact hs
    | succ n => exact hrest n

theorem Always.last {s : S} {events : List E} (h : Always step good s events) :
    good (run step s events) := by
  simpa using h events.length

/-- What the allowed steps keep holds in every state of a run of such steps. -/
theorem always_of_runOk (hstep : ∀ s e, good s → ok s e → good (step s e)) {s : S}
    (hs : good s) {events : List E} (h : RunOk step ok s events) : Always step good s events := by
  induction events generalizing s with
  | nil => exact always_nil.mpr hs
  | cons e rest ih =>
    obtain ⟨he, hrest⟩ := h
    have hnext : good (step s e) := hstep s e hs he
    exact always_cons.mpr ⟨hs, ih hnext hrest⟩

/-- What every step keeps holds in every state of every run. -/
theorem always_of_step (hstep : ∀ s e, good s → good (step s e)) {s : S} (hs : good s)
    (events : List E) : Always step good s events := by
  induction events generalizing s with
  | nil => exact always_nil.mpr hs
  | cons e rest ih =>
    have hnext : good (step s e) := hstep s e hs
    exact always_cons.mpr ⟨hs, ih hnext⟩

/-- A property that exactly the allowed steps keep holds in every state of exactly the runs of
such steps. -/
theorem always_iff_runOk {inv : S → Prop} (hinv : ∀ s e, inv s → good s → ok s e → inv (step s e))
    (hstep : ∀ s e, inv s → good s → (good (step s e) ↔ ok s e)) {s : S} (hi : inv s) (hs : good s)
    (events : List E) : Always step good s events ↔ RunOk step ok s events := by
  induction events generalizing s with
  | nil => exact always_nil.trans (iff_of_true hs trivial)
  | cons e rest ih =>
    rw [always_cons, RunOk]
    constructor
    · intro ⟨_, hrest⟩
      have hnext : good (step s e) := hrest 0
      have he : ok s e := (hstep s e hi hs).mp hnext
      exact ⟨he, (ih (hinv s e hi hs he) hnext).mp hrest⟩
    · intro ⟨he, hrest⟩
      have hnext : good (step s e) := (hstep s e hi hs).mpr he
      exact ⟨hs, (ih (hinv s e hi hs he) hnext).mpr hrest⟩

/-! A machine of several parties keeps a list of them, and each step changes one. -/

/-- How many parties count, when one of them changes. -/
theorem countP_set_add {α : Type*} (p : α → Bool) {parties : List α} {i : ℕ} {a : α}
    (h : parties[i]? = some a) (b : α) :
    (parties.set i b).countP p + (if p a then 1 else 0) =
      parties.countP p + (if p b then 1 else 0) := by
  obtain ⟨hi, rfl⟩ := List.getElem?_eq_some_iff.mp h
  have hle : (if p parties[i] then 1 else 0) ≤ parties.countP p := by
    split
    · exact List.countP_pos_iff.mpr ⟨_, List.getElem_mem hi, by assumption⟩
    · exact Nat.zero_le _
  rw [List.countP_set hi]
  omega

end Aigate.GuardedRuns
