import Mathlib.Data.List.Basic
import Mathlib.Logic.Function.Iterate

/-!
# Programs with protected calls and a limit of instructions

A program is run instruction by instruction. An error that is raised in a protected call is
given to the caller, as the result of the call. After a number of instructions an error is
raised from outside, and the count starts again.
-/
namespace Aigate.ProtectedCalls

variable {σ κ η ε : Type*}

/-- What an instruction does: it goes on, calls the host, begins or ends a protected call, or
raises an error. The end of the outermost call is that of the program. -/
inductive Act (σ κ η ε : Type*) where
  | next (s : σ)
  | call (h : η) (after : κ → σ)
  | protect (body : σ) (after : σ → Option ε → σ)
  | leave (s : σ)
  | raise (e : ε)

/-- A program with its host, the number of instructions and the error after them. -/
structure Machine (σ κ η ε : Type*) where
  act : σ → Act σ κ η ε
  host : η → κ → κ × Option ε
  quota : ℕ
  limit : ε

/-- The protected calls in progress are kept with what follows each of them. -/
structure Config (σ κ ε : Type*) where
  state : σ
  world : κ
  frames : List (σ → Option ε → σ)
  left : ℕ

inductive Outcome (σ κ ε : Type*) where
  | running (c : Config σ κ ε)
  | finished (state : σ) (world : κ) (left : ℕ)
  | failed (e : ε) (world : κ)

/-- An error goes to the innermost protected call. -/
def Config.unwind (c : Config σ κ ε) (e : ε) : Outcome σ κ ε :=
  match c.frames with
  | [] => .failed e c.world
  | after :: frames => .running { c with state := after c.state (some e), frames := frames }

/-- An instruction. -/
def Config.exec (m : Machine σ κ η ε) (c : Config σ κ ε) : Outcome σ κ ε :=
  match m.act c.state with
  | .next s => .running { c with state := s }
  | .call h after =>
    match m.host h c.world with
    | (w, none) => .running { c with state := after w, world := w }
    | (w, some e) => { c with world := w }.unwind e
  | .protect body after => .running { c with state := body, frames := after :: c.frames }
  | .leave s =>
    match c.frames with
    | [] => .finished s c.world c.left
    | after :: frames => .running { c with state := after s none, frames := frames }
  | .raise e => c.unwind e

/-- An instruction, or the error that comes in its place. -/
def Config.step (m : Machine σ κ η ε) (c : Config σ κ ε) : Outcome σ κ ε :=
  if c.left = 0 then { c with left := m.quota }.unwind m.limit
  else { c with left := c.left - 1 }.exec m

/-! ### The count -/

/-- How many instructions are left after a step that is not an error at the outermost call. -/
def Outcome.left : Outcome σ κ ε → Option ℕ
  | .running c => some c.left
  | .finished _ _ left => some left
  | .failed _ _ => none

theorem left_unwind {c : Config σ κ ε} {e : ε} {n : ℕ} (h : n ∈ (c.unwind e).left) :
    n = c.left := by
  unfold Config.unwind at h
  cases hframes : c.frames with
  | nil =>
    rw [hframes] at h
    cases h
  | cons after frames =>
    rw [hframes] at h
    exact (Option.some.inj h).symm

theorem left_exec {m : Machine σ κ η ε} {c : Config σ κ ε} {n : ℕ} (h : n ∈ (c.exec m).left) :
    n = c.left := by
  unfold Config.exec at h
  cases hact : m.act c.state with
  | next s =>
    rw [hact] at h
    exact (Option.some.inj h).symm
  | call request after =>
    rw [hact] at h
    dsimp only at h
    obtain ⟨w, err, hhost⟩ : ∃ w err, m.host request c.world = (w, err) := ⟨_, _, rfl⟩
    rw [hhost] at h
    cases err with
    | none => exact (Option.some.inj h).symm
    | some e => exact left_unwind (c := { c with world := w }) h
  | protect body after =>
    rw [hact] at h
    exact (Option.some.inj h).symm
  | leave s =>
    rw [hact] at h
    dsimp only at h
    cases hframes : c.frames with
    | nil =>
      rw [hframes] at h
      exact (Option.some.inj h).symm
    | cons after frames =>
      rw [hframes] at h
      exact (Option.some.inj h).symm
  | raise e =>
    rw [hact] at h
    exact left_unwind h

/-- An instruction takes one from the count. -/
theorem left_step {m : Machine σ κ η ε} {c : Config σ κ ε} (hleft : c.left ≠ 0) {n : ℕ}
    (h : n ∈ (c.step m).left) : n + 1 = c.left := by
  rw [Config.step, if_neg hleft] at h
  have heq := left_exec h
  dsimp only at heq
  omega

theorem step_of_done {m : Machine σ κ η ε} {c : Config σ κ ε} (h : c.left = 0) :
    c.step m = { c with left := m.quota }.unwind m.limit := if_pos h

/-! ### The host -/

/-- The state of the host behind a step. -/
def Outcome.world : Outcome σ κ ε → κ
  | .running c => c.world
  | .finished _ world _ => world
  | .failed _ world => world

theorem world_unwind (c : Config σ κ ε) (e : ε) : (c.unwind e).world = c.world := by
  unfold Config.unwind
  cases c.frames with
  | nil => rfl
  | cons after frames => rfl

/-- Only a call of the host changes its state. -/
theorem world_step_of_call {m : Machine σ κ η ε} {c : Config σ κ ε} (hleft : c.left ≠ 0) {h : η}
    {after : κ → σ} (hact : m.act c.state = .call h after) :
    (c.step m).world = (m.host h c.world).1 := by
  rw [Config.step, if_neg hleft, Config.exec]
  dsimp only
  rw [hact]
  dsimp only
  obtain ⟨w, err, hhost⟩ : ∃ w err, m.host h c.world = (w, err) := ⟨_, _, rfl⟩
  rw [hhost]
  cases err with
  | none => rfl
  | some e => exact world_unwind { c with world := w, left := c.left - 1 } e

theorem world_step_of_not_call {m : Machine σ κ η ε} {c : Config σ κ ε}
    (hact : c.left ≠ 0 → ∀ h after, m.act c.state ≠ .call h after) :
    (c.step m).world = c.world := by
  unfold Config.step
  split
  · exact world_unwind _ _
  · rename_i hleft
    unfold Config.exec
    dsimp only
    cases hcase : m.act c.state with
    | next s => rfl
    | call h after => exact absurd hcase (hact hleft h after)
    | protect body after => rfl
    | leave s =>
      dsimp only
      cases c.frames with
      | nil => rfl
      | cons after frames => rfl
    | raise e => exact world_unwind _ _

/-! ### The end -/

/-- Without protected calls no error is caught. -/
theorem frames_unwind {c c' : Config σ κ ε} {e : ε} (hframes : c.frames = []) :
    c.unwind e ≠ .running c' := by
  unfold Config.unwind
  rw [hframes]
  exact fun h => by cases h

theorem frames_step {m : Machine σ κ η ε} (hplain : ∀ s body after, m.act s ≠ .protect body after)
    {c c' : Config σ κ ε} (hframes : c.frames = []) (h : c.step m = .running c') :
    c'.frames = [] := by
  unfold Config.step at h
  split at h
  · exact absurd h (frames_unwind hframes)
  · unfold Config.exec at h
    dsimp only at h
    cases hact : m.act c.state with
    | next s =>
      rw [hact] at h
      exact Outcome.running.inj h ▸ hframes
    | call request after =>
      rw [hact] at h
      dsimp only at h
      obtain ⟨w, err, hhost⟩ : ∃ w err, m.host request c.world = (w, err) := ⟨_, _, rfl⟩
      rw [hhost] at h
      cases err with
      | none => exact Outcome.running.inj h ▸ hframes
      | some e => exact absurd h (frames_unwind hframes)
    | protect body after => exact absurd hact (hplain _ _ _)
    | leave s =>
      rw [hact, hframes] at h
      cases h
    | raise e =>
      rw [hact] at h
      exact absurd h (frames_unwind hframes)

/-- A sequence with a count that goes down, but for some of its steps, ends exactly if there
are finitely many of these. -/
theorem ends_iff {α : Type*} {run : ℕ → α} {done caught : α → Prop} (left : α → ℕ)
    (hstay : ∀ n, done (run n) → done (run (n + 1)))
    (hnot : ∀ n, done (run n) → ¬caught (run n))
    (hdown : ∀ n, ¬done (run (n + 1)) → ¬caught (run n) → left (run (n + 1)) < left (run n)) :
    (∃ n, done (run n)) ↔ ∃ b, ∀ n ≥ b, ¬caught (run n) := by
  constructor
  · rintro ⟨n, hn⟩
    refine ⟨n, fun k hk => hnot k ?_⟩
    induction hk with
    | refl => exact hn
    | step _ ih => exact hstay _ ih
  · rintro ⟨b, hb⟩
    by_contra hnever
    rw [not_exists] at hnever
    have hsum : ∀ k, left (run (b + k)) + k ≤ left (run b) := by
      intro k
      induction k with
      | zero => exact Nat.le_refl _
      | succ k ih =>
        have hlt := hdown (b + k) (hnever _) (hb (b + k) (Nat.le_add_right b k))
        rw [Nat.add_assoc] at hlt
        omega
    have hall := hsum (left (run b) + 1)
    omega

end Aigate.ProtectedCalls
