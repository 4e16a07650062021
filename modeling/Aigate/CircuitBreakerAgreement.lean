import Aigate.CircuitBreakerCoolOff
import Aigate.CircuitBreakerRedis

/-!
# The script and the local breaker

Both are run side by side on one pair. Their states match as long as no late success or
failure reaches an open breaker, the record does not expire under a state that matters, and
no request falls between the deadline in seconds and the one in milliseconds.
-/
namespace Aigate.CircuitBreakerAgreement
open CircuitBreaker CircuitBreakerRedis
open CircuitBreakerCoolOff (failureEntry_cooling)

inductive Call where
  | allow
  | success
  | failure (httpStatus : ℤ)
  deriving DecidableEq

/-- The local breaker and the record of one pair. -/
structure Both where
  breaker : Breaker
  record : Option CbRecord

/-- The script with the parameters of the breaker. -/
def sync (b : Both) (now : ℤ) (action : Action) : Option CbRecord × ℕ × ℕ :=
  circuitBreakerSync b.breaker.failureThreshold (b.breaker.cooloffSec * 1000) now action b.record

/-- A call at a time in milliseconds, made to both. -/
def step (p : Pair) (b : Both) : ℤ × Call → Both
  | (now, .allow) => ⟨(cbAllowRequest b.breaker (seconds now) p).1, (sync b now .allow).1⟩
  | (now, .success) => ⟨cbRecordSuccess b.breaker p, (sync b now .success).1⟩
  | (now, .failure httpStatus) =>
    if countsAsFailure httpStatus then
      ⟨cbRecordFailure b.breaker (seconds now) p httpStatus, (sync b now .fail).1⟩
    else b

def SameVerdict (p : Pair) (b : Both) (event : ℤ × Call) : Prop :=
  event.2 = .allow → (cbAllowRequest b.breaker (seconds event.1) p).2 =
    decide ((sync b event.1 .allow).2.1 = 1)

/-- The verdicts are the same at every step. -/
def RunAgrees (p : Pair) (b : Both) : List (ℤ × Call) → Prop
  | [] => True
  | event :: events => SameVerdict p b event ∧ RunAgrees p (step p b event) events

/-- What a step may meet: whole names, a record that expires only when nothing is counted,
no request in the last part of a second of the cool-off, no success while open, and no
failure while open unless the cool-off is over or has just begun. -/
structure StepOk (p : Pair) (b : Both) (event : ℤ × Call) : Prop where
  fits : Fits p
  kept : ∀ r, b.record = some r → r.expiresAt < event.1 →
    (entryOrNew b.breaker p).state = .closed ∧ (entryOrNew b.breaker p).consecutiveFailures = 0
  allow : event.2 = .allow → (entryOrNew b.breaker p).state = .opened →
    (entryOrNew b.breaker p).openUntil ≤ seconds event.1 →
    (hmget event.1 b.record).openUntil ≤ event.1
  success : event.2 = .success → (entryOrNew b.breaker p).state ≠ .opened
  failure : ∀ httpStatus, event.2 = .failure httpStatus → countsAsFailure httpStatus = true →
    (entryOrNew b.breaker p).state = .opened →
    (entryOrNew b.breaker p).openUntil ≤ seconds event.1 ∨
      (entryOrNew b.breaker p).openUntil = seconds event.1 + b.breaker.cooloffSec

def RunOk (p : Pair) (b : Both) : List (ℤ × Call) → Prop
  | [] => True
  | event :: events => StepOk p b event ∧ RunOk p (step p b event) events

/-- The fields of a record, expired or not. -/
def fields : Option CbRecord → CbRecord
  | some r => r
  | none => ⟨0, 0, 0, 0, 0⟩

/-- An entry and the fields of a record stand for the same state. -/
def Matches (threshold : ℕ) (e : CbEntry) (d : CbRecord) : Prop :=
  match e.state with
  | .closed => d.state = 0 ∧ d.fails = e.consecutiveFailures
  | .opened => d.state = 2 ∧ threshold ≤ d.fails ∧ 1000 * e.openUntil ≤ d.openUntil ∧
    d.openUntil < 1000 * e.openUntil + 1000
  | .halfOpen => e.halfOpenProbeActive = true ∧ d.state = 1 ∧ d.probeActive ≠ 0 ∧
    threshold ≤ d.fails
  | .slaDegraded => False

def Agrees (p : Pair) (b : Both) : Prop :=
  Matches b.breaker.failureThreshold (entryOrNew b.breaker p) (fields b.record)

theorem seconds_bounds (now : ℤ) : 1000 * seconds now ≤ now ∧ now < 1000 * seconds now + 1000 := by
  unfold seconds
  omega

/-- What the script reads matches too. -/
theorem Agrees.hmget {p : Pair} {b : Both} (h : Agrees p b) {event : ℤ × Call}
    (hok : StepOk p b event) : Matches b.breaker.failureThreshold (entryOrNew b.breaker p)
      (hmget event.1 b.record) := by
  unfold Agrees at h
  cases hrecord : b.record with
  | none =>
    rw [hrecord] at h
    exact h
  | some r =>
    rw [hrecord] at h
    unfold CircuitBreakerRedis.hmget
    dsimp only
    split
    · obtain ⟨hclosed, hzero⟩ := hok.kept r hrecord ‹_›
      unfold Matches
      rw [hclosed]
      exact ⟨rfl, hzero.symm⟩
    · exact h

theorem agrees_allow {p : Pair} {b : Both} (h : Agrees p b) {now : ℤ}
    (hok : StepOk p b (now, .allow)) :
    SameVerdict p b (now, .allow) ∧ Agrees p (step p b (now, .allow)) := by
  have hmatch := h.hmget hok
  have hentry := entryOrNew_onEntryOrNew b.breaker hok.fits (allowEntry_pair (seconds now))
  have hparams := (onEntryOrNew_params b.breaker p fun e => (allowEntry (seconds now) e).1).1
  have hbounds := seconds_bounds now
  have hdeadline := hok.allow rfl
  unfold SameVerdict Agrees step sync cbAllowRequest
  dsimp only
  rw [hentry, hparams]
  unfold Agrees at h
  dsimp only at hmatch hdeadline
  generalize entryOrNew b.breaker p = e at h hmatch hdeadline
  cases hstate : e.state with
  | closed =>
    have hsame : allowEntry (seconds now) e = (e, true) := by
      simp [allowEntry, updateStateOnTime, allowNow, hstate]
    simp only [Matches, hstate] at hmatch
    simp only [hsame, circuitBreakerSync, hmatch.1]
    exact ⟨fun _ => rfl, h⟩
  | slaDegraded =>
    simp only [Matches, hstate] at hmatch
  | halfOpen =>
    simp only [Matches, hstate] at hmatch
    have hsame : allowEntry (seconds now) e = (e, false) := by
      simp [allowEntry, updateStateOnTime, allowNow, hstate, hmatch.1]
    simp only [hsame, circuitBreakerSync, hmatch.2.1, hmatch.2.2.1]
    exact ⟨fun _ => rfl, h⟩
  | opened =>
    simp only [Matches, hstate] at hmatch
    obtain ⟨hopen, hfails, hlow, hhigh⟩ := hmatch
    by_cases hexpired : e.openUntil ≤ seconds now
    · have hsame : allowEntry (seconds now) e =
          ({ e with state := .halfOpen, halfOpenProbeActive := true }, true) := by
        simp [allowEntry, updateStateOnTime, allowNow, hstate, hexpired]
      simp only [hsame, circuitBreakerSync, hopen, hdeadline hstate hexpired, if_true]
      exact ⟨fun _ => rfl, rfl, rfl, one_ne_zero, hfails⟩
    · have hsame : allowEntry (seconds now) e = (e, false) := by
        simp [allowEntry, updateStateOnTime, allowNow, hstate, hexpired]
      have hearly : ¬(CircuitBreakerRedis.hmget now b.record).openUntil ≤ now := by omega
      simp only [hsame, circuitBreakerSync, hopen, hearly, if_true, if_false]
      exact ⟨fun _ => rfl, h⟩

theorem agrees_success {p : Pair} {b : Both} (h : Agrees p b) {now : ℤ}
    (hok : StepOk p b (now, .success)) : Agrees p (step p b (now, .success)) := by
  have hmatch := h.hmget hok
  have hopen := hok.success rfl
  have hentry : (entryOrNew (cbRecordSuccess b.breaker p) p).state = .closed ∧
      (entryOrNew (cbRecordSuccess b.breaker p) p).consecutiveFailures = 0 := by
    unfold entryOrNew at hmatch hopen ⊢
    rw [cbRecordSuccess, findEntry_onEntry b.breaker p successEntry_pair]
    cases hfind : findEntry b.breaker p with
    | none => exact ⟨rfl, rfl⟩
    | some e =>
      rw [hfind, Option.getD_some] at hmatch hopen
      rw [Option.map_some, Option.getD_some]
      refine ⟨?_, rfl⟩
      unfold successEntry
      dsimp only
      split
      · rfl
      · cases hstate : e.state with
        | closed => rfl
        | opened => exact absurd hstate hopen
        | halfOpen => exact absurd hstate ‹_›
        | slaDegraded => simp only [Matches, hstate] at hmatch
  unfold Agrees step sync
  dsimp only
  unfold Matches
  rw [hentry.1, hentry.2]
  simp only [circuitBreakerSync]
  split
  · exact ⟨rfl, rfl⟩
  · rename_i hidle
    simp only [not_or, not_lt, Nat.le_zero_eq] at hidle
    unfold Agrees at h
    generalize entryOrNew b.breaker p = e at h hmatch hopen
    cases hstate : e.state with
    | closed =>
      simp only [Matches, hstate] at h hmatch
      exact ⟨h.1, h.2.trans (hmatch.2.symm.trans hidle.2.1)⟩
    | opened => exact absurd hstate hopen
    | halfOpen =>
      simp only [Matches, hstate] at hmatch
      exact absurd hmatch.2.1 hidle.1
    | slaDegraded => simp only [Matches, hstate] at hmatch

theorem agrees_failure {p : Pair} {b : Both} (h : Agrees p b) {now httpStatus : ℤ}
    (hok : StepOk p b (now, .failure httpStatus)) :
    Agrees p (step p b (now, .failure httpStatus)) := by
  unfold step
  dsimp only
  split
  · rename_i hcounts
    have hmatch := h.hmget hok
    have hdeadline := hok.failure httpStatus rfl hcounts
    have hentry := entryOrNew_onEntryOrNew b.breaker hok.fits
      (failureEntry_pair b.breaker.failureThreshold b.breaker.cooloffSec (seconds now))
    have hparams := (onEntryOrNew_params b.breaker p
      (failureEntry b.breaker.failureThreshold b.breaker.cooloffSec (seconds now))).1
    have hbounds := seconds_bounds now
    unfold Agrees sync cbRecordFailure
    rw [if_pos hcounts]
    dsimp only at hmatch hdeadline ⊢
    rw [hentry, hparams]
    generalize entryOrNew b.breaker p = e at hmatch hdeadline
    cases hstate : e.state with
    | closed =>
      simp only [Matches, hstate] at hmatch
      have hupdate : updateStateOnTime (seconds now) e = e := by
        simp [updateStateOnTime, hstate]
      by_cases hreached : b.breaker.failureThreshold ≤ e.consecutiveFailures + 1
      · simp only [failureEntry, hupdate, failureNow, hstate, circuitBreakerSync, hmatch.1,
          hmatch.2, hreached, zero_ne_one, if_true, if_false]
        refine ⟨rfl, hreached, ?_, ?_⟩
        · simp only [trip, fields]
          omega
        · simp only [trip, fields]
          omega
      · simp only [failureEntry, hupdate, failureNow, hstate, circuitBreakerSync, hmatch.1,
          hmatch.2, hreached, zero_ne_one, if_false]
        exact ⟨rfl, rfl⟩
    | slaDegraded =>
      simp only [Matches, hstate] at hmatch
    | halfOpen =>
      simp only [Matches, hstate] at hmatch
      have hupdate : updateStateOnTime (seconds now) e = e := by
        simp [updateStateOnTime, hstate]
      simp only [failureEntry, hupdate, failureNow, hstate, circuitBreakerSync, hmatch.2.1,
        if_true]
      refine ⟨rfl, hmatch.2.2.2, ?_, ?_⟩
      · simp only [trip, fields]
        omega
      · simp only [trip, fields]
        omega
    | opened =>
      simp only [Matches, hstate] at hmatch
      have hfails : b.breaker.failureThreshold ≤
          (CircuitBreakerRedis.hmget now b.record).fails + 1 := by omega
      have hthen : (failureEntry b.breaker.failureThreshold b.breaker.cooloffSec (seconds now)
          e).state = .opened ∧ (failureEntry b.breaker.failureThreshold b.breaker.cooloffSec
          (seconds now) e).openUntil = seconds now + b.breaker.cooloffSec := by
        by_cases hexpired : e.openUntil ≤ seconds now
        · simp [failureEntry, updateStateOnTime, failureNow, hstate, hexpired, trip]
        · have hjust := (hdeadline hstate).resolve_left hexpired
          rw [failureEntry_cooling hstate (not_le.mp hexpired)]
          exact ⟨hstate, hjust⟩
      simp only [circuitBreakerSync, hmatch.1]
      rw [if_neg (by decide), if_pos hfails]
      unfold Matches
      rw [hthen.1, hthen.2]
      exact ⟨rfl, hfails, by simp only [fields]; omega, by simp only [fields]; omega⟩
  · exact h

theorem Agrees.step {p : Pair} {b : Both} (h : Agrees p b) {event : ℤ × Call}
    (hok : StepOk p b event) : SameVerdict p b event ∧ Agrees p (step p b event) := by
  obtain ⟨now, call⟩ := event
  cases call with
  | allow => exact agrees_allow h hok
  | success => exact ⟨fun hcall => absurd hcall (by simp), agrees_success h hok⟩
  | failure httpStatus => exact ⟨fun hcall => absurd hcall (by simp), agrees_failure h hok⟩

theorem Agrees.run {p : Pair} {b : Both} (h : Agrees p b) {events : List (ℤ × Call)}
    (hok : RunOk p b events) : RunAgrees p b events := by
  induction events generalizing b with
  | nil => trivial
  | cons event events ih =>
    obtain ⟨hverdict, hnext⟩ := h.step hok.1
    exact ⟨hverdict, ih hnext hok.2⟩

/-- A breaker without entries, and no record. -/
def Both.fresh (cb : Breaker) : Both := ⟨{ cb with buckets := fun _ => [] }, none⟩

/-- Script and local breaker give the same verdicts in every run that meets the condition. -/
theorem verdicts_agree (cb : Breaker) (p : Pair) {events : List (ℤ × Call)}
    (hok : RunOk p (Both.fresh cb) events) : RunAgrees p (Both.fresh cb) events := by
  have hfresh : Agrees p (Both.fresh cb) := ⟨rfl, rfl⟩
  exact hfresh.run hok

def samplePair : Pair := ⟨Text.ascii "gpt-4o", Text.ascii "https://a"⟩

/-- One failure opens for thirty seconds. -/
def sampleBreaker : Breaker := Breaker.create 1 30 [] Nat.one_pos

/-- An opening, and a probe after the cool-off. -/
theorem verdicts_agree_sample : RunAgrees samplePair (Both.fresh sampleBreaker)
    [(500, .failure 503), (30500, .allow)] := by
  have hfits : Fits samplePair := by decide +kernel
  have hrecord : (step samplePair (Both.fresh sampleBreaker) (500, .failure 503)).record =
      some ⟨2, 1, 30500, 0, 86400500⟩ := by decide +kernel
  refine verdicts_agree sampleBreaker samplePair ⟨⟨hfits, ?_, ?_, ?_, ?_⟩,
    ⟨hfits, ?_, fun _ _ _ => by decide +kernel, ?_, ?_⟩, trivial⟩
  · intro r hr
    cases hr
  · intro hcall
    cases hcall
  · intro hcall
    cases hcall
  · intro _ _ _ hopen
    exact absurd hopen (by decide)
  · intro r hr hexpired
    rw [hrecord] at hr
    cases hr
    exact absurd hexpired (by decide)
  · intro hcall
    cases hcall
  · intro _ hcall
    cases hcall

/-- A success that arrives while the breaker is open closes the record, but not the entry. -/
theorem verdicts_not_agree : ¬RunAgrees samplePair (Both.fresh sampleBreaker)
    [(0, .failure 503), (1000, .success), (2000, .allow), (2000, .allow)] := by
  intro h
  exact absurd (h.2.2.2.1 rfl) (by decide +kernel)

end Aigate.CircuitBreakerAgreement
