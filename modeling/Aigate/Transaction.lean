import Mathlib

/-!
# Sessions of a transactional store

One connection to a store whose data statements are functions on its content. Outside a
transaction a statement takes effect at once, inside one on a working copy. Every
statement may be refused, or lost with the connection before or after it ran.
-/
namespace Aigate.Transaction

variable {S : Type*}

/-- A connection: down, between transactions, in one with its working copy, or in a
failed one. -/
inductive Tx (S : Type*) where
  | down
  | idle
  | opened (work : S)
  | aborted

structure Session (S : Type*) where
  durable : S
  tx : Tx S

inductive Statement (S : Type*) where
  | begin
  | data (f : S → S)
  | commit
  | rollback

/-- How the execution of one statement ends. -/
inductive Outcome where
  | done
  | refused
  | lost (executed : Bool)
  deriving DecidableEq, Repr

/-- A statement that the server executes, and whether it reports success. -/
def Session.apply (s : Session S) (stmt : Statement S) : Session S × Bool :=
  match stmt, s.tx with
  | _, .down => (s, false)
  | .begin, .idle => (⟨s.durable, .opened s.durable⟩, true)
  | .begin, .opened _ => (s, true)
  | .begin, .aborted => (s, false)
  | .data f, .idle => (⟨f s.durable, .idle⟩, true)
  | .data f, .opened w => (⟨s.durable, .opened (f w)⟩, true)
  | .data _, .aborted => (s, false)
  | .commit, .opened w => (⟨w, .idle⟩, true)
  | .commit, _ => (⟨s.durable, .idle⟩, true)
  | .rollback, _ => (⟨s.durable, .idle⟩, true)

/-- A statement that fails: a failed end of a transaction still ends it, a failed
statement inside one aborts it. -/
def Session.refuse (s : Session S) (stmt : Statement S) : Session S :=
  match stmt, s.tx with
  | _, .down => s
  | .begin, _ => s
  | .data _, .idle => s
  | .data _, _ => ⟨s.durable, .aborted⟩
  | .commit, _ => ⟨s.durable, .idle⟩
  | .rollback, _ => ⟨s.durable, .idle⟩

/-- The server drops the open transaction of a lost connection. -/
def Session.drop (s : Session S) : Session S := ⟨s.durable, .down⟩

def Session.exec (s : Session S) (stmt : Statement S) (o : Outcome) : Session S × Bool :=
  match o with
  | .done => s.apply stmt
  | .refused => (s.refuse stmt, false)
  | .lost executed => (if executed then (s.apply stmt).1.drop else s.drop, false)

/-- A batch of data statements, up to the first failure. -/
def Session.execAll (s : Session S) (o : ℕ → Outcome) (i : ℕ) : List (S → S) → Session S × Bool
  | [] => (s, true)
  | f :: rest =>
    if (s.exec (.data f) (o i)).2 then (s.exec (.data f) (o i)).1.execAll o (i + 1) rest
    else ((s.exec (.data f) (o i)).1, false)

/-- Between transactions, with or without a connection. -/
def Session.AtRest (s : Session S) : Prop := s.tx = .down ∨ s.tx = .idle

theorem execAll_cons_of_done {s s' : Session S} {f : S → S} {o : ℕ → Outcome} {i : ℕ}
    {rest : List (S → S)} (h : s.exec (.data f) (o i) = (s', true)) :
    s.execAll o i (f :: rest) = s'.execAll o (i + 1) rest := by
  simp [Session.execAll, h]

theorem execAll_cons_of_failed {s : Session S} {f : S → S} {o : ℕ → Outcome} {i : ℕ}
    {rest : List (S → S)} (h : (s.exec (.data f) (o i)).2 = false) :
    s.execAll o i (f :: rest) = ((s.exec (.data f) (o i)).1, false) := by
  simp [Session.execAll, h]

/-- Inside a transaction a data statement either works on the copy or fails, and what is
durable stays. -/
theorem exec_data_opened {s : Session S} {w : S} (ht : s.tx = .opened w) (f : S → S)
    (o : Outcome) :
    (o = .done ∧ s.exec (.data f) o = (⟨s.durable, .opened (f w)⟩, true)) ∨
      (o ≠ .done ∧ (s.exec (.data f) o).2 = false ∧
        (s.exec (.data f) o).1.durable = s.durable) := by
  cases o with
  | done => left; simp [Session.exec, Session.apply, ht]
  | refused => right; simp [Session.exec, Session.refuse, ht]
  | lost executed => right; cases executed <;> simp [Session.exec, Session.apply, Session.drop, ht]

/-- Without a transaction a data statement is durable at once. -/
theorem exec_data_idle {s : Session S} (ht : s.tx = .idle) (f : S → S) (o : Outcome) :
    (o = .done ∧ s.exec (.data f) o = (⟨f s.durable, .idle⟩, true)) ∨
      (o = .lost true ∧ (s.exec (.data f) o).2 = false ∧
        (s.exec (.data f) o).1.durable = f s.durable) ∨
      (o ≠ .done ∧ o ≠ .lost true ∧ (s.exec (.data f) o).2 = false ∧
        (s.exec (.data f) o).1.durable = s.durable) := by
  cases o with
  | done => left; simp [Session.exec, Session.apply, ht]
  | refused => right; right; simp [Session.exec, Session.refuse, ht]
  | lost executed =>
    right
    cases executed with
    | true => left; simp [Session.exec, Session.apply, Session.drop, ht]
    | false => right; simp [Session.exec, Session.drop]

/-- Without a connection every statement fails and nothing happens. -/
theorem exec_down {s : Session S} (ht : s.tx = .down) (stmt : Statement S) (o : Outcome) :
    (s.exec stmt o).2 = false ∧ (s.exec stmt o).1 = s := by
  obtain ⟨d, t⟩ := s
  subst ht
  cases o with
  | lost executed => cases executed <;> cases stmt <;> exact ⟨rfl, rfl⟩
  | _ => cases stmt <;> exact ⟨rfl, rfl⟩

theorem exec_rollback_durable (s : Session S) (o : Outcome) :
    (s.exec .rollback o).1.durable = s.durable := by
  obtain ⟨d, t⟩ := s
  cases o with
  | lost executed => cases executed <;> cases t <;> rfl
  | _ => cases t <;> rfl

/-- The end of a transaction, successful or not, leaves none behind. -/
theorem exec_end_atRest (s : Session S) {stmt : Statement S}
    (h : stmt = .commit ∨ stmt = .rollback) (o : Outcome) : (s.exec stmt o).1.AtRest := by
  obtain ⟨d, t⟩ := s
  rcases h with rfl | rfl <;> cases o with
  | lost executed =>
    cases executed <;> cases t <;>
      simp [Session.exec, Session.drop, Session.AtRest, Session.apply]
  | done => cases t <;> simp [Session.exec, Session.apply, Session.AtRest]
  | refused => cases t <;> simp [Session.exec, Session.refuse, Session.AtRest]

/-- A commit makes the working copy durable unless it is refused or lost on the way. -/
theorem exec_commit_opened {s : Session S} {w : S} (ht : s.tx = .opened w) (o : Outcome) :
    (s.exec .commit o).1.durable = if o = .done ∨ o = .lost true then w else s.durable := by
  obtain ⟨d, t⟩ := s
  subst ht
  cases o with
  | lost executed => cases executed <;> rfl
  | _ => rfl

theorem exec_commit_idle {s : Session S} (ht : s.tx = .idle) (o : Outcome) :
    (s.exec .commit o).1.durable = s.durable := by
  obtain ⟨d, t⟩ := s
  subst ht
  cases o with
  | lost executed => cases executed <;> rfl
  | _ => rfl

theorem execAll_down {s : Session S} (ht : s.tx = .down) (o : ℕ → Outcome) (i : ℕ) (f : S → S)
    (rest : List (S → S)) : s.execAll o i (f :: rest) = (s, false) := by
  have h := exec_down ht (.data f) (o i)
  rw [execAll_cons_of_failed h.1, h.2]

/-- A transaction starts on a working copy, or not at all. -/
theorem exec_begin_idle {s : Session S} (ht : s.tx = .idle) (o : Outcome) :
    (s.exec .begin o).1 = ⟨s.durable, match o with
      | .done => .opened s.durable
      | .refused => .idle
      | .lost _ => .down⟩ := by
  obtain ⟨d, t⟩ := s
  subst ht
  cases o with
  | lost executed => cases executed <;> rfl
  | _ => rfl

/-- A batch in a transaction: all of it on the copy, or a failure with nothing durable. -/
theorem execAll_opened {s : Session S} {w : S} (ht : s.tx = .opened w) (o : ℕ → Outcome) (i : ℕ)
    (fs : List (S → S)) :
    ((∀ j < fs.length, o (i + j) = .done) ∧
      s.execAll o i fs = (⟨s.durable, .opened (fs.foldl (fun w f => f w) w)⟩, true)) ∨
    ((∃ j < fs.length, o (i + j) ≠ .done) ∧ (s.execAll o i fs).2 = false ∧
      (s.execAll o i fs).1.durable = s.durable) := by
  induction fs generalizing s w i with
  | nil =>
    left
    simp [Session.execAll, ← ht]
  | cons f rest ih =>
    have hshift (j : ℕ) : i + 1 + j = i + (j + 1) := by omega
    rcases exec_data_opened ht f (o i) with ⟨ho, he⟩ | ⟨ho, hf, hd⟩
    · rw [execAll_cons_of_done he]
      rcases ih (s := ⟨s.durable, .opened (f w)⟩) rfl (i + 1) with ⟨hall, hrun⟩ | ⟨hex, hrun⟩
      · left
        refine ⟨fun j hj => ?_, by rw [hrun, List.foldl_cons]⟩
        cases j with
        | zero => exact ho
        | succ j => exact hshift j ▸ hall j (by simpa using hj)
      · right
        obtain ⟨j, hj, hne⟩ := hex
        exact ⟨⟨j + 1, by simpa using hj, hshift j ▸ hne⟩, hrun⟩
    · right
      rw [execAll_cons_of_failed hf]
      exact ⟨⟨0, by simp, ho⟩, rfl, hd⟩

/-- A batch without a transaction: a prefix of it is durable when it fails. -/
theorem execAll_idle {s : Session S} (ht : s.tx = .idle) (o : ℕ → Outcome) (i : ℕ)
    (fs : List (S → S)) :
    ((∀ j < fs.length, o (i + j) = .done) ∧
      s.execAll o i fs = (⟨fs.foldl (fun w f => f w) s.durable, .idle⟩, true)) ∨
    (∃ k < fs.length, (∀ j < k, o (i + j) = .done) ∧ o (i + k) ≠ .done ∧
      (s.execAll o i fs).2 = false ∧
      (s.execAll o i fs).1.durable =
        (fs.take (if o (i + k) = .lost true then k + 1 else k)).foldl (fun w f => f w)
          s.durable) := by
  induction fs generalizing s i with
  | nil =>
    left
    simp [Session.execAll, ← ht]
  | cons f rest ih =>
    have hshift (j : ℕ) : i + 1 + j = i + (j + 1) := by omega
    rcases exec_data_idle ht f (o i) with ⟨ho, he⟩ | ⟨ho, hf, hd⟩ | ⟨ho, hl, hf, hd⟩
    · rw [execAll_cons_of_done he]
      rcases ih (s := ⟨f s.durable, .idle⟩) rfl (i + 1) with
        ⟨hall, hrun⟩ | ⟨k, hk, hpre, hne, hrun, hdur⟩
      · left
        refine ⟨fun j hj => ?_, by rw [hrun, List.foldl_cons]⟩
        cases j with
        | zero => exact ho
        | succ j => exact hshift j ▸ hall j (by simpa using hj)
      · right
        refine ⟨k + 1, by simpa using hk, fun j hj => ?_, hshift k ▸ hne, hrun, ?_⟩
        · cases j with
          | zero => exact ho
          | succ j => exact hshift j ▸ hpre j (by omega)
        · rw [hdur, ← hshift k]
          split_ifs <;> rfl
    · right
      rw [execAll_cons_of_failed hf]
      refine ⟨0, by simp, by simp, by simp [ho], rfl, ?_⟩
      rw [hd]
      simp [ho]
    · right
      rw [execAll_cons_of_failed hf]
      refine ⟨0, by simp, by simp, by simpa using ho, rfl, ?_⟩
      rw [hd]
      simp [hl]

end Aigate.Transaction
