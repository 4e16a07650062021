import Aigate.Text
import Aigate.Transaction

/-!
# Flushing usage rows

`pq_flush_usage` and `pq_flush_requests` send a batch in chunks of 64 rows between a
BEGIN and a COMMIT whose results nobody looks at. The usage meter drains its slots into
such a batch and puts the rows back when the flush fails.
-/
namespace Aigate.UsageFlush
open Text Transaction

/-- A row of daily usage; the meter makes one only for a counted request. -/
structure UsageRow where
  keyId : ℤ
  modelName : Bytes
  day : ℤ
  requests : ℤ
  promptTokens : ℤ
  completionTokens : ℤ
  errors : ℤ
  cachedPromptTokens : ℤ
  counted : 0 < requests
  deriving DecidableEq

/-- A row of the per-request audit. -/
structure UsageRequestRow where
  keyId : ℤ
  modelName : Bytes
  provider : Bytes
  httpStatus : ℤ
  promptTokens : ℤ
  completionTokens : ℤ
  cachedPromptTokens : ℤ
  reasoningTokens : ℤ
  latencyNs : ℕ
  ts : ℤ
  guardrailAction : Bytes
  deriving DecidableEq, Repr

/-- Requests, prompt tokens, completion tokens, errors, cached prompt tokens. -/
abbrev Counters := ℤ × ℤ × ℤ × ℤ × ℤ

def UsageRow.counters (r : UsageRow) : Counters :=
  (r.requests, r.promptTokens, r.completionTokens, r.errors, r.cachedPromptTokens)

/-- The key and the model that a row counts for. -/
def UsageRow.pair (r : UsageRow) : ℤ × Bytes := (r.keyId, r.modelName)

/-- The table `usage_daily`: one entry for each key, model and day. -/
abbrev UsageDaily := List ((ℤ × Bytes) × ℤ × Counters)

/-- `INSERT ... ON CONFLICT DO UPDATE` of one row. -/
def upsert : UsageDaily → UsageRow → UsageDaily
  | [], r => [(r.pair, r.day, r.counters)]
  | (pair, day, c) :: rest, r =>
    if pair = r.pair ∧ day = r.day then (pair, day, c + r.counters) :: rest
    else (pair, day, c) :: upsert rest r

/-- A table that rows are added to: adding is done in order, and shows. -/
structure RowSink (S Row : Type) where
  insert : List Row → S → S
  insert_nil : ∀ s, insert [] s = s
  insert_append : ∀ a b s, insert (a ++ b) s = insert b (insert a s)
  insert_eq_self : ∀ rows s, insert rows s = s → rows = []

theorem sum_requests_upsert (t : UsageDaily) (r : UsageRow) :
    ((upsert t r).map (fun e => e.2.2.1)).sum = (t.map (fun e => e.2.2.1)).sum + r.requests := by
  induction t with
  | nil => simp [upsert, UsageRow.counters]
  | cons e rest ih =>
    obtain ⟨pair, day, c⟩ := e
    simp only [upsert]
    split_ifs
    · simp [UsageRow.counters]
      ring
    · simp [ih]
      ring

theorem sum_requests_foldl (t : UsageDaily) (rows : List UsageRow) :
    ((rows.foldl upsert t).map (fun e => e.2.2.1)).sum =
      (t.map (fun e => e.2.2.1)).sum + (rows.map UsageRow.requests).sum := by
  induction rows generalizing t with
  | nil => simp
  | cons r rest ih =>
    rw [List.foldl_cons, ih, sum_requests_upsert, List.map_cons, List.sum_cons]
    ring

theorem sum_requests_pos {rows : List UsageRow} (h : rows ≠ []) :
    0 < (rows.map UsageRow.requests).sum := by
  induction rows with
  | nil => exact absurd rfl h
  | cons r rest ih =>
    have hr := r.counted
    rw [List.map_cons, List.sum_cons]
    by_cases hrest : rest = []
    · subst hrest
      simpa using hr
    · have := ih hrest
      omega

def usageDaily : RowSink UsageDaily UsageRow where
  insert rows t := rows.foldl upsert t
  insert_nil t := rfl
  insert_append a b t := List.foldl_append
  insert_eq_self rows t h := by
    by_contra hne
    have hsum := sum_requests_foldl t rows
    have hpos := sum_requests_pos hne
    rw [h] at hsum
    omega

def usageRequests : RowSink (List UsageRequestRow) UsageRequestRow where
  insert rows t := t ++ rows
  insert_nil t := List.append_nil t
  insert_append a b t := by rw [List.append_assoc]
  insert_eq_self rows t h := by simpa using h

/-- The batch in pieces of a fixed size; its length is enough fuel. -/
def chunksOf {α : Type} (size : ℕ) : ℕ → List α → List (List α)
  | 0, _ => []
  | _ + 1, [] => []
  | fuel + 1, x :: xs => (x :: xs).take size :: chunksOf size fuel ((x :: xs).drop size)

/-- `FLUSH_USAGE_CHUNK` and `FLUSH_REQ_CHUNK`. -/
def flushChunk : ℕ := 64

/-- How the statements of one flush end. -/
structure FlushOutcomes where
  reconnect : Bool
  begin : Outcome
  chunk : ℕ → Outcome
  rollback : Outcome
  commit : Outcome

/-- `pq_ensure_conn_flush`. -/
def ensureConn {S : Type} (s : Session S) (reconnect : Bool) : Session S :=
  match s.tx with
  | .down => if reconnect then ⟨s.durable, .idle⟩ else s
  | _ => s

/-- The statements of a flush on a live connection: the session after them and the
returned code. -/
def flushUp {S Row : Type} (sink : RowSink S Row) (s : Session S) (rows : List Row)
    (o : FlushOutcomes) : Session S × ℤ :=
  let begun := (s.exec .begin o.begin).1
  let run := begun.execAll o.chunk 0 ((chunksOf flushChunk rows.length rows).map sink.insert)
  if run.2 then ((run.1.exec .commit o.commit).1, 0)
  else ((run.1.exec .rollback o.rollback).1, -1)

/-- The common body of the two flushes. -/
def flushRows {S Row : Type} (sink : RowSink S Row) (s : Session S) (rows : List Row)
    (o : FlushOutcomes) : Session S × ℤ :=
  match rows, (ensureConn s o.reconnect).tx with
  | [], _ => (s, 0)
  | _ :: _, .down => (ensureConn s o.reconnect, -1)
  | _ :: _, _ => flushUp sink (ensureConn s o.reconnect) rows o

def pqFlushUsage : Session UsageDaily → List UsageRow → FlushOutcomes → Session UsageDaily × ℤ :=
  flushRows usageDaily

def pqFlushRequests : Session (List UsageRequestRow) → List UsageRequestRow → FlushOutcomes →
    Session (List UsageRequestRow) × ℤ :=
  flushRows usageRequests

/-- Success means that every row is durable, failure that none is. -/
def ExactlyOnce {S Row : Type} (sink : RowSink S Row) (s : Session S) (rows : List Row)
    (result : Session S × ℤ) : Prop :=
  (result.2 = 0 → result.1.durable = sink.insert rows s.durable) ∧
    (result.2 = -1 → result.1.durable = s.durable)

/-- The failures that do no harm: a BEGIN that opened the transaction, followed by a failed
chunk or a COMMIT that took effect; a BEGIN that lost the connection; and a refused BEGIN
when all chunks go through or the first one fails without effect. -/
def Harmless {S Row : Type} (s : Session S) (rows : List Row) (o : FlushOutcomes) : Prop :=
  let n := (chunksOf flushChunk rows.length rows).length
  rows = [] ∨ (s.tx = .down ∧ o.reconnect = false) ∨
    match o.begin with
    | .done => (∃ j < n, o.chunk j ≠ .done) ∨ o.commit = .done ∨ o.commit = .lost true
    | .lost _ => True
    | .refused => (∀ j < n, o.chunk j = .done) ∨ (o.chunk 0 ≠ .done ∧ o.chunk 0 ≠ .lost true)

theorem chunksOf_cons {α : Type} (size fuel : ℕ) (x : α) (xs : List α) :
    chunksOf size (fuel + 1) (x :: xs) =
      (x :: xs).take size :: chunksOf size fuel ((x :: xs).drop size) := rfl

theorem chunksOf_flatten {α : Type} {size : ℕ} (hs : 0 < size) (fuel : ℕ) (xs : List α)
    (h : xs.length ≤ fuel) : (chunksOf size fuel xs).flatten = xs := by
  induction fuel generalizing xs with
  | zero => simp [chunksOf, List.length_eq_zero_iff.mp (Nat.le_zero.mp h)]
  | succ fuel ih =>
    cases xs with
    | nil => rfl
    | cons x xs =>
      have hdrop : ((x :: xs).drop size).length ≤ fuel := by
        simp only [List.length_drop, List.length_cons] at h ⊢
        omega
      rw [chunksOf_cons, List.flatten_cons, ih _ hdrop, List.take_append_drop]

theorem chunksOf_ne_nil {α : Type} {size : ℕ} (hs : 0 < size) (fuel : ℕ) (xs : List α) :
    ∀ c ∈ chunksOf size fuel xs, c ≠ [] := by
  induction fuel generalizing xs with
  | zero => simp [chunksOf]
  | succ fuel ih =>
    cases xs with
    | nil => simp [chunksOf]
    | cons x xs =>
      obtain ⟨n, rfl⟩ : ∃ n, size = n + 1 := ⟨size - 1, by omega⟩
      intro c hc
      rw [chunksOf_cons, List.mem_cons] at hc
      rcases hc with rfl | hc
      · simp
      · exact ih _ c hc

section Flush

variable {S Row : Type} (sink : RowSink S Row)

/-- Inserting the chunks one after the other is inserting the rows. -/
theorem foldl_insert (chunks : List (List Row)) (s : S) :
    (chunks.map sink.insert).foldl (fun w f => f w) s = sink.insert chunks.flatten s := by
  induction chunks generalizing s with
  | nil => simp [sink.insert_nil]
  | cons c rest ih =>
    rw [List.map_cons, List.foldl_cons, ih, List.flatten_cons, sink.insert_append]

theorem flushRows_cases {s : Session S} (hs : s.AtRest) (x : Row) (xs : List Row)
    (o : FlushOutcomes) :
    (s.tx = .down ∧ o.reconnect = false ∧ flushRows sink s (x :: xs) o = (s, -1)) ∨
      (¬ (s.tx = .down ∧ o.reconnect = false) ∧
        flushRows sink s (x :: xs) o = flushUp sink ⟨s.durable, .idle⟩ (x :: xs) o) := by
  obtain ⟨d, t⟩ := s
  rcases hs with ht | ht <;> simp only at ht <;> subst ht
  · cases hr : o.reconnect with
    | false => left; simp [flushRows, ensureConn, hr]
    | true => right; simp [flushRows, ensureConn, hr]
  · right
    simp [flushRows, ensureConn]

theorem flushUp_done (d : S) (rows : List Row) {o : FlushOutcomes} (hb : o.begin = .done) :
    ((∀ j < (chunksOf flushChunk rows.length rows).length, o.chunk j = .done) ∧
      (flushUp sink ⟨d, .idle⟩ rows o).2 = 0 ∧
      (flushUp sink ⟨d, .idle⟩ rows o).1.durable =
        if o.commit = .done ∨ o.commit = .lost true then sink.insert rows d else d) ∨
    ((∃ j < (chunksOf flushChunk rows.length rows).length, o.chunk j ≠ .done) ∧
      (flushUp sink ⟨d, .idle⟩ rows o).2 = -1 ∧ (flushUp sink ⟨d, .idle⟩ rows o).1.durable = d) := by
  have hbegin := exec_begin_idle (s := (⟨d, .idle⟩ : Session S)) rfl o.begin
  rw [hb] at hbegin
  have hfold := foldl_insert sink (chunksOf flushChunk rows.length rows) d
  rw [chunksOf_flatten (by decide) _ rows (le_refl _)] at hfold
  rcases execAll_opened (s := (⟨d, .opened d⟩ : Session S)) rfl o.chunk 0
    ((chunksOf flushChunk rows.length rows).map sink.insert) with ⟨hall, hrun⟩ | ⟨hex, hf, hd⟩
  · left
    have hcommit := exec_commit_opened (s := (⟨d, .opened (sink.insert rows d)⟩ : Session S)) rfl
      o.commit
    refine ⟨by simpa using hall, ?_, ?_⟩ <;>
      simp only [flushUp, hb, hbegin, hrun, hfold, if_true]
    exact hcommit
  · right
    refine ⟨by simpa using hex, ?_, ?_⟩ <;>
      simp only [flushUp, hb, hbegin, hf, Bool.false_eq_true, if_false]
    rw [exec_rollback_durable, hd]

theorem flushUp_lost (d : S) (x : Row) (xs : List Row) {o : FlushOutcomes} {e : Bool}
    (hb : o.begin = .lost e) :
    (flushUp sink ⟨d, .idle⟩ (x :: xs) o).2 = -1 ∧ (flushUp sink ⟨d, .idle⟩ (x :: xs) o).1.durable = d := by
  have hbegin := exec_begin_idle (s := (⟨d, .idle⟩ : Session S)) rfl o.begin
  rw [hb] at hbegin
  have hrun := execAll_down (s := (⟨d, .down⟩ : Session S)) rfl o.chunk 0
    (sink.insert ((x :: xs).take flushChunk))
    ((chunksOf flushChunk xs.length ((x :: xs).drop flushChunk)).map sink.insert)
  constructor <;>
    simp only [flushUp, hb, hbegin, List.length_cons, chunksOf_cons, List.map_cons, hrun,
      Bool.false_eq_true, if_false]
  rw [exec_rollback_durable]

/-- Without a transaction the flush leaves a prefix of the chunks behind when it fails. -/
theorem flushUp_refused (d : S) (rows : List Row) {o : FlushOutcomes} (hb : o.begin = .refused) :
    ((∀ j < (chunksOf flushChunk rows.length rows).length, o.chunk j = .done) ∧
      (flushUp sink ⟨d, .idle⟩ rows o).2 = 0 ∧
      (flushUp sink ⟨d, .idle⟩ rows o).1.durable = sink.insert rows d) ∨
    (∃ k < (chunksOf flushChunk rows.length rows).length, (∀ j < k, o.chunk j = .done) ∧
      o.chunk k ≠ .done ∧ (flushUp sink ⟨d, .idle⟩ rows o).2 = -1 ∧
      (flushUp sink ⟨d, .idle⟩ rows o).1.durable = sink.insert
        ((chunksOf flushChunk rows.length rows).take
          (if o.chunk k = .lost true then k + 1 else k)).flatten d) := by
  have hbegin := exec_begin_idle (s := (⟨d, .idle⟩ : Session S)) rfl o.begin
  rw [hb] at hbegin
  have hfold := foldl_insert sink (chunksOf flushChunk rows.length rows) d
  rw [chunksOf_flatten (by decide) _ rows (le_refl _)] at hfold
  rcases execAll_idle (s := (⟨d, .idle⟩ : Session S)) rfl o.chunk 0
    ((chunksOf flushChunk rows.length rows).map sink.insert) with
    ⟨hall, hrun⟩ | ⟨k, hk, hpre, hne, hf, hd⟩
  · left
    have hcommit := exec_commit_idle (s := (⟨sink.insert rows d, .idle⟩ : Session S)) rfl o.commit
    refine ⟨by simpa using hall, ?_, ?_⟩ <;>
      simp only [flushUp, hb, hbegin, hrun, hfold, if_true]
    exact hcommit
  · right
    simp only [Nat.zero_add] at hpre hne hd
    refine ⟨k, by simpa using hk, hpre, hne, ?_, ?_⟩ <;>
      simp only [flushUp, hb, hbegin, hf, Bool.false_eq_true, if_false]
    rw [exec_rollback_durable, hd, ← List.map_take, foldl_insert]

theorem take_chunks_flatten_eq_nil {rows : List Row} {n : ℕ}
    (hn : 0 < (chunksOf flushChunk rows.length rows).length)
    (h : ((chunksOf flushChunk rows.length rows).take n).flatten = []) : n = 0 := by
  cases hc : chunksOf flushChunk rows.length rows with
  | nil => simp [hc] at hn
  | cons c rest =>
    have hne := chunksOf_ne_nil (show 0 < flushChunk by decide) rows.length rows c
      (by rw [hc]; simp)
    cases n with
    | zero => rfl
    | succ n =>
      rw [hc, List.take_succ_cons, List.flatten_cons] at h
      exact absurd (List.append_eq_nil_iff.mp h).1 hne

/-- A flush counts every row exactly once precisely under the harmless failures. -/
theorem flushRows_exactlyOnce {s : Session S} (hs : s.AtRest) (rows : List Row)
    (o : FlushOutcomes) : ExactlyOnce sink s rows (flushRows sink s rows o) ↔ Harmless s rows o := by
  cases rows with
  | nil => simp [flushRows, ExactlyOnce, Harmless, sink.insert_nil]
  | cons x xs =>
    rcases flushRows_cases sink hs x xs o with ⟨hdown, hrec, he⟩ | ⟨hup, he⟩
    · simp [he, ExactlyOnce, Harmless, hdown, hrec]
    · have hpos : 0 < (chunksOf flushChunk (x :: xs).length (x :: xs)).length := by
        simp [chunksOf_cons]
      rw [he]
      cases hb : o.begin with
      | done =>
        rcases flushUp_done sink s.durable (x :: xs) hb with
          ⟨hall, hrc, hd⟩ | ⟨hex, hrc, hd⟩
        · have hno : ¬ ∃ j < (chunksOf flushChunk (x :: xs).length (x :: xs)).length,
              o.chunk j ≠ .done := fun ⟨j, hj, hne⟩ => hne (hall j hj)
          simp only [ExactlyOnce, Harmless, hrc, hd, hup, hb, hno, false_or, reduceCtorEq]
          split_ifs with hc
          · simp [hc]
          · simp only [hc, iff_false, not_and, forall_const]
            intro h
            exact absurd (sink.insert_eq_self _ _ h.symm) (by simp)
        · simp only [ExactlyOnce, Harmless, hrc, hd, hb, hex, true_or, or_true, iff_true]
          exact ⟨fun h => absurd h (by decide), fun _ => trivial⟩
      | lost e =>
        have := flushUp_lost sink s.durable x xs hb
        simp [ExactlyOnce, Harmless, this.1, this.2, hb]
      | refused =>
        rcases flushUp_refused sink s.durable (x :: xs) hb with
          ⟨hall, hrc, hd⟩ | ⟨k, hk, hpre, hne, hrc, hd⟩
        · simp only [ExactlyOnce, Harmless, hrc, hd, hb]
          exact iff_of_true ⟨fun _ => trivial, fun h => absurd h (by decide)⟩
            (Or.inr (Or.inr (Or.inl hall)))
        · have hlost : (∀ j < (chunksOf flushChunk (x :: xs).length (x :: xs)).length,
              o.chunk j = .done) ↔ False := iff_false_intro fun hall => hne (hall k hk)
          simp only [ExactlyOnce, Harmless, hrc, hd, hup, hb, hlost, false_or, reduceCtorEq]
          constructor
          · rintro ⟨-, h⟩
            have htake := take_chunks_flatten_eq_nil hpos
              (sink.insert_eq_self _ _ (h trivial))
            split_ifs at htake with hl
            subst htake
            exact ⟨hne, hl⟩
          · rintro ⟨h0, hl⟩
            have hk0 : k = 0 := by
              by_contra hk0
              exact h0 (hpre 0 (by omega))
            subst hk0
            simp [hl, sink.insert_nil]

/-- A flush answers 0 or -1. -/
theorem flushRows_code (s : Session S) (rows : List Row) (o : FlushOutcomes) :
    (flushRows sink s rows o).2 = 0 ∨ (flushRows sink s rows o).2 = -1 := by
  unfold flushRows
  split
  · exact Or.inl rfl
  · exact Or.inr rfl
  · unfold flushUp
    dsimp only
    split_ifs
    · exact Or.inl rfl
    · exact Or.inr rfl

/-- A flush leaves no transaction behind. -/
theorem flushRows_atRest {s : Session S} (hs : s.AtRest) (rows : List Row) (o : FlushOutcomes) :
    (flushRows sink s rows o).1.AtRest := by
  cases rows with
  | nil => exact hs
  | cons x xs =>
    rcases flushRows_cases sink hs x xs o with ⟨-, -, he⟩ | ⟨-, he⟩
    · rw [he]
      exact hs
    · rw [he]
      unfold flushUp
      dsimp only
      split_ifs with hok
      · exact exec_end_atRest _ (Or.inl rfl) _
      · exact exec_end_atRest _ (Or.inr rfl) _

end Flush

end Aigate.UsageFlush
