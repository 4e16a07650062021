import Mathlib.Data.Rat.Floor
import Mathlib.Tactic.Linarith
import Aigate.GuardedRuns

/-!
# The token bucket in Redis

The limit of requests per second when several gateways share it. A script keeps the tokens of a
key and the time of its last call in Redis, and Redis forgets them 3 seconds after the last call
of its own clock. Each gateway brings its own time. The numbers are exact rationals here, where
the script has doubles.
-/
namespace Aigate.TokenBucket
open GuardedRuns

structure Bucket where
  tokens : ℚ
  lastMs : ℤ
  deriving DecidableEq

/-- The tokens that a call finds. -/
def refill (qps capacity : ℤ) (data : Option Bucket) (now : ℤ) : ℚ :=
  match data with
  | none => capacity
  | some b => min (capacity : ℚ) (b.tokens + (max 0 (now - b.lastMs) : ℤ) * (qps / 1000))

/-- `SCRIPT_QPS_TOKEN_BUCKET`: what is stored, and the status and the wait that are returned. -/
def qpsTokenBucket (qps capacity : ℤ) (data : Option Bucket) (now : ℤ) : Bucket × ℤ × ℤ :=
  if 1 ≤ refill qps capacity data now then (⟨refill qps capacity data now - 1, now⟩, 1, 0)
  else
    (⟨refill qps capacity data now, now⟩, 0,
      ⌈(1 - refill qps capacity data now) * 1000 / qps⌉)

/-- The key, with what was stored last even if it has expired, the times that the calls have
brought, and the number of calls that were admitted. -/
structure System where
  bucket : Option Bucket
  expired : Bool
  times : List ℤ
  admitted : ℕ

inductive Event where
  | call (now : ℤ)
  | expire

/-- What the script reads. -/
def System.data (s : System) : Option Bucket := if s.expired then none else s.bucket

/-- `rl_allow_request` passes the rate as the capacity too. -/
def step (qps : ℤ) (s : System) : Event → System
  | .call now =>
    ⟨some (qpsTokenBucket qps qps s.data now).1, false, now :: s.times,
      if (qpsTokenBucket qps qps s.data now).2.1 = 1 then s.admitted + 1 else s.admitted⟩
  | .expire => { s with expired := true }

def start : System := ⟨none, false, [], 0⟩

/-- No more calls were admitted than the bucket holds and the time between the first and the last
of their times brings. -/
def Bounded (qps : ℤ) (s : System) : Prop :=
  ∀ lo hi : ℤ, lo ≤ hi → (∀ t ∈ s.times, lo ≤ t ∧ t ≤ hi) →
    (s.admitted : ℚ) ≤ qps + qps * (hi - lo) / 1000

/-- A call brings no time before that of the last call, and the time since then would have filled
a bucket that has expired. -/
def StepOk (qps : ℤ) (s : System) : Event → Prop
  | .call now => ∀ b, s.bucket = some b → b.lastMs ≤ now ∧
    (s.expired → (qps : ℚ) ≤ b.tokens + (now - b.lastMs) * qps / 1000)
  | .expire => True

/-- The calls admitted and the tokens left are paid for by the time up to the last call. -/
structure Paid (qps : ℤ) (s : System) (b : Bucket) : Prop where
  nonneg : 0 ≤ b.tokens
  last : b.lastMs ∈ s.times
  paid : ∃ first ∈ s.times,
    (s.admitted : ℚ) + b.tokens ≤ qps + qps * (b.lastMs - first) / 1000

structure Inv (qps : ℤ) (s : System) : Prop where
  paid : ∀ b, s.bucket = some b → Paid qps s b
  unused : s.bucket = none → s.times = [] ∧ s.admitted = 0

theorem inv_start (qps : ℤ) : Inv qps start := ⟨(fun _ h => nomatch h), fun _ => ⟨rfl, rfl⟩⟩

/-- A longer span pays for more. -/
theorem span_mono {qps : ℤ} (hqps : 0 < qps) {lo hi lo' hi' : ℤ} (hlo : lo' ≤ lo) (hhi : hi ≤ hi') :
    (qps : ℚ) * (hi - lo) / 1000 ≤ qps * (hi' - lo') / 1000 := by
  have hpos : (0 : ℚ) < qps := by exact_mod_cast hqps
  have hspan : (hi : ℚ) - lo ≤ hi' - lo' := by
    have hlo' : (lo' : ℚ) ≤ lo := by exact_mod_cast hlo
    have hhi' : (hi : ℚ) ≤ hi' := by exact_mod_cast hhi
    linarith
  have hmul := mul_le_mul_of_nonneg_left hspan hpos.le
  linarith

theorem Inv.bounded {qps : ℤ} (hqps : 0 < qps) {s : System} (h : Inv qps s) : Bounded qps s := by
  intro lo hi hle hall
  cases hb : s.bucket with
  | none =>
    have hspan := span_mono hqps (le_refl lo) hle
    have hpos : (0 : ℚ) < qps := by exact_mod_cast hqps
    rw [(h.unused hb).2]
    push_cast
    linarith
  | some b =>
    obtain ⟨hnonneg, hlast, first, hfirst, hpaid⟩ := h.paid b hb
    have hspan := span_mono hqps (hall first hfirst).1 (hall b.lastMs hlast).2
    linarith

/-- A call finds no more tokens than were left and the time since then brings. -/
theorem refill_le {qps : ℤ} {s : System} {b : Bucket} (hb : s.bucket = some b) {now : ℤ}
    (hok : StepOk qps s (.call now)) :
    refill qps qps s.data now ≤ b.tokens + qps * (now - b.lastMs) / 1000 := by
  obtain ⟨hle, hfull⟩ := hok b hb
  cases hexpired : s.expired with
  | true =>
    have hdata : s.data = none := by rw [System.data, hexpired, if_pos rfl]
    have hcap := hfull hexpired
    rw [hdata, refill]
    linarith
  | false =>
    have hdata : s.data = some b := by rw [System.data, hexpired, hb]; rfl
    rw [hdata, refill, max_eq_right (by omega)]
    apply (min_le_right _ _).trans
    push_cast
    linarith

theorem refill_nonneg {qps : ℤ} (hqps : 0 < qps) {data : Option Bucket}
    (hdata : ∀ b, data = some b → 0 ≤ b.tokens) (now : ℤ) : 0 ≤ refill qps qps data now := by
  have hpos : (0 : ℚ) < qps := by exact_mod_cast hqps
  cases data with
  | none => exact hpos.le
  | some b =>
    rw [refill]
    apply le_min hpos.le
    have hdelta : (0 : ℚ) ≤ (max 0 (now - b.lastMs) : ℤ) := by exact_mod_cast le_max_left _ _
    have hbrought := mul_nonneg hdelta (div_nonneg hpos.le (by norm_num : (0 : ℚ) ≤ 1000))
    have htokens := hdata b rfl
    linarith

/-- A call takes one token for each admission. -/
theorem step_call (qps : ℤ) (s : System) (now : ℤ) : ∃ b, (step qps s (.call now)).bucket = some b ∧
    b.lastMs = now ∧ ((step qps s (.call now)).admitted : ℚ) + b.tokens =
      s.admitted + refill qps qps s.data now ∧
    (0 ≤ refill qps qps s.data now → 0 ≤ b.tokens) := by
  by_cases hone : 1 ≤ refill qps qps s.data now
  · refine ⟨⟨refill qps qps s.data now - 1, now⟩, ?_, rfl, ?_, fun _ => ?_⟩
    · simp [step, qpsTokenBucket, hone]
    · simp only [step, qpsTokenBucket, if_pos hone, if_true]
      push_cast
      ring
    · dsimp only
      linarith
  · refine ⟨⟨refill qps qps s.data now, now⟩, ?_, rfl, ?_, fun h => h⟩
    · simp [step, qpsTokenBucket, hone]
    · simp [step, qpsTokenBucket, hone]

theorem Inv.step {qps : ℤ} (hqps : 0 < qps) {s : System} (h : Inv qps s) {e : Event}
    (hok : StepOk qps s e) : Inv qps (step qps s e) := by
  cases e with
  | expire =>
    refine ⟨fun b hb => ?_, h.unused⟩
    obtain ⟨hnonneg, hlast, hpaid⟩ := h.paid b hb
    exact ⟨hnonneg, hlast, hpaid⟩
  | call now =>
    obtain ⟨b, hb, hlast, hsum, hnonneg⟩ := step_call qps s now
    have hdata : ∀ b', s.data = some b' → 0 ≤ b'.tokens := by
      intro b' hb'
      rw [System.data] at hb'
      split at hb'
      · cases hb'
      · exact (h.paid b' hb').nonneg
    have hmem : now ∈ (TokenBucket.step qps s (.call now)).times := List.mem_cons_self
    refine ⟨fun b' hb' => ?_, fun hnone => ?_⟩
    · rw [hb] at hb'
      obtain rfl := Option.some.inj hb'
      refine ⟨hnonneg (refill_nonneg hqps hdata now), hlast ▸ hmem, ?_⟩
      rw [hsum, hlast]
      cases hbefore : s.bucket with
      | none =>
        have hempty : s.data = none := by rw [System.data, hbefore, ite_self]
        refine ⟨now, hmem, ?_⟩
        rw [(h.unused hbefore).2, hempty, refill]
        push_cast
        linarith
      | some b₀ =>
        obtain ⟨-, -, first, hfirst, hpaid⟩ := h.paid b₀ hbefore
        have hrefill := refill_le hbefore hok
        refine ⟨first, List.mem_cons_of_mem now hfirst, ?_⟩
        linarith
    · rw [hb] at hnone
      cases hnone

/-- In every state of such a run the calls admitted are within the bound. -/
theorem bounded_run (qps : ℤ) (hqps : 0 < qps) (events : List Event)
    (hok : RunOk (step qps) (StepOk qps) start events) :
    Always (step qps) (Bounded qps) start events := by
  have hinv : Always (step qps) (Inv qps) start events :=
    always_of_runOk (fun _ _ h hs => h.step hqps hs) (inv_start qps) hok
  exact fun n => (hinv n).bounded hqps

/-- Two calls, half a second apart. -/
def inOrder : List Event := [.call 1000, .call 1500]

/-- The calls of two gateways, one a second ahead of the other. -/
def skewed : List Event := [.call 1000, .call 0, .call 1000, .call 0, .call 1000]

theorem bounded_inOrder : Always (step 1) (Bounded 1) start inOrder := by
  apply bounded_run 1 (by decide) inOrder
  refine ⟨(fun b hb => nomatch hb), fun b hb => ?_, trivial⟩
  obtain rfl := Option.some.inj hb
  refine ⟨?_, fun hexpired => nomatch hexpired⟩
  simp [qpsTokenBucket, refill, start, System.data]

/-- Of the calls at 0 and 1000 three are admitted, with a rate of 1. -/
theorem not_bounded_skewed : ¬ Always (step 1) (Bounded 1) start skewed := by
  intro h
  have hadmitted : (run (step 1) start skewed).admitted = 3 := by decide +kernel
  have htimes : (run (step 1) start skewed).times = [1000, 0, 1000, 0, 1000] := by decide +kernel
  have hbound := h.last 0 1000 (by decide) (by rw [htimes]; decide)
  rw [hadmitted] at hbound
  norm_num at hbound

end Aigate.TokenBucket
