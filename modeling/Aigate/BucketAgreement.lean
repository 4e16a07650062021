import Aigate.GuardedRuns
import Aigate.LocalBucket
import Aigate.TokenBucket

/-!
# The local bucket and the script

The calls of one key, made to the local bucket and to the script. The script takes the limit of
the call as the capacity, where the local bucket keeps the limit of its first call. Both read the
same clock here, and the script reads it exactly.
-/
namespace Aigate.BucketAgreement
open GuardedRuns LocalBucket

/-- What Redis keeps for a key. -/
structure Stored where
  tokens : ℚ
  lastMs : ℚ

def refillAt (qps capacity : ℤ) (data : Option Stored) (now : ℚ) : ℚ :=
  match data with
  | none => capacity
  | some d => min (capacity : ℚ) (d.tokens + max 0 (now - d.lastMs) * (qps / 1000))

/-- `SCRIPT_QPS_TOKEN_BUCKET` at any time. -/
def qpsTokenBucketAt (qps capacity : ℤ) (data : Option Stored) (now : ℚ) : Stored × ℤ × ℤ :=
  if 1 ≤ refillAt qps capacity data now then (⟨refillAt qps capacity data now - 1, now⟩, 1, 0)
  else
    (⟨refillAt qps capacity data now, now⟩, 0,
      ⌈(1 - refillAt qps capacity data now) * 1000 / qps⌉)

def ofBucket (b : TokenBucket.Bucket) : Stored := ⟨b.tokens, b.lastMs⟩

theorem refillAt_whole (qps capacity : ℤ) (data : Option TokenBucket.Bucket) (now : ℤ) :
    refillAt qps capacity (data.map ofBucket) now = TokenBucket.refill qps capacity data now := by
  cases data with
  | none => rfl
  | some b =>
    simp only [refillAt, TokenBucket.refill, Option.map_some, ofBucket]
    push_cast
    rfl

/-- In whole milliseconds it is the script. -/
theorem qpsTokenBucketAt_whole (qps capacity : ℤ) (data : Option TokenBucket.Bucket) (now : ℤ) :
    qpsTokenBucketAt qps capacity (data.map ofBucket) now =
      (ofBucket (TokenBucket.qpsTokenBucket qps capacity data now).1,
        (TokenBucket.qpsTokenBucket qps capacity data now).2) := by
  rw [qpsTokenBucketAt, TokenBucket.qpsTokenBucket, refillAt_whole]
  split
  · rfl
  · rfl

def nowMs (now : UInt64) : ℚ := now.toNat / 1000000

/-- What the script reads: Redis forgets a key 3 seconds after its last call. -/
def hmget (data : Option Stored) (now : ℚ) : Option Stored :=
  data.filter fun d => now - d.lastMs ≤ 3000

theorem hmget_some (d : Stored) (now : ℚ) :
    hmget (some d) now = if now - d.lastMs ≤ 3000 then some d else none := by
  simp only [hmget, Option.filter_some, decide_eq_true_eq]

/-- `rl_allow_request` with a pool, whose calls succeed. -/
def rlAllowRequestShared (data : Option Stored) (qps : ℤ) (now : UInt64) : Option Stored × ℤ :=
  if qps ≤ 0 then (data, 0)
  else
    let result := qpsTokenBucketAt qps qps (hmget data (nowMs now)) (nowMs now)
    (some result.1, if result.2.1 = 1 then 0 else -1)

/-- A call under the limit that the key has then. -/
structure Call where
  qps : ℤ
  now : UInt64

/-- Both buckets, and the codes of the calls so far. -/
structure System where
  own : Bucket
  shared : Option Stored
  codes : List (ℤ × ℤ)

def start : System := ⟨newBucket, none, []⟩

def step (s : System) (c : Call) : System where
  own := (s.own.allow c.qps c.now).1
  shared := (rlAllowRequestShared s.shared c.qps c.now).1
  codes := ((s.own.allow c.qps c.now).2.1, (rlAllowRequestShared s.shared c.qps c.now).2) :: s.codes

/-- The same calls were admitted. -/
def Agree (s : System) : Prop := ∀ codes ∈ s.codes, codes.1 = codes.2

/-- The limit of a call is the capacity of the local bucket, unless what is left and what the time
has brought exceeds neither; and if the local bucket is filled up, then so is that of Redis. -/
structure StepOk (s : System) (c : Call) : Prop where
  filled : 0 < c.qps → s.own.fresh → ∀ d, s.shared = some d →
    (c.qps : ℚ) ≤ d.tokens + (nowMs c.now - d.lastMs) * (c.qps / 1000)
  kept : 0 < c.qps → ¬s.own.fresh → s.own.capacity = c.qps ∨
    s.own.brought c.qps c.now ≤ s.own.capacity ∧ s.own.brought c.qps c.now ≤ c.qps

/-- The local bucket will be filled up, or both hold the same. -/
def Matched (s : System) : Prop :=
  s.own.fresh ∨ s.shared = some ⟨s.own.tokens, nowMs s.own.lastRefillNs⟩

theorem toNat_sub_cast {now last : UInt64} (h : last ≤ now) :
    ((now - last).toNat : ℚ) = now.toNat - last.toNat := by
  rw [UInt64.toNat_sub_of_le _ _ h, Nat.cast_sub (UInt64.le_iff_toNat_le.mp h)]

/-- The script and the local bucket count the same time. -/
theorem brought_eq (b : Bucket) (qps : ℤ) {now : UInt64} (h : b.lastRefillNs ≤ now) :
    b.tokens + max 0 (nowMs now - nowMs b.lastRefillNs) * (qps / 1000) = b.brought qps now := by
  have hle : (b.lastRefillNs.toNat : ℚ) ≤ now.toNat := by exact_mod_cast UInt64.le_iff_toNat_le.mp h
  have hspan : 0 ≤ nowMs now - nowMs b.lastRefillNs := by
    unfold nowMs
    linarith
  rw [Bucket.brought, toNat_sub_cast h, max_eq_right hspan, nowMs, nowMs]
  ring

/-- Three seconds fill any bucket. -/
theorem le_brought {b : Bucket} {qps : ℤ} (hqps : 0 < qps) {now : UInt64}
    (h : b.lastRefillNs ≤ now) (hlong : 3000 < nowMs now - nowMs b.lastRefillNs) :
    (qps : ℚ) < b.brought qps now := by
  have hpos : (0 : ℚ) < qps := by exact_mod_cast hqps
  have htokens := b.tokens_nonneg
  have hmul := mul_lt_mul_of_pos_right hlong (show (0 : ℚ) < qps / 1000 by linarith)
  rw [← brought_eq b qps h, max_eq_right (by linarith)]
  linarith

theorem refill_stale {b : Bucket} (h : ¬b.fresh) (qps : ℤ) (now : UInt64) :
    b.refill qps now = min b.capacity (b.brought qps now) := by
  rw [Bucket.refill, if_neg h]
  split
  · rename_i hless
    exact (min_eq_left hless.le).symm
  · rename_i hless
    exact (min_eq_right (not_lt.mp hless)).symm

/-- Both calls find the same. -/
theorem Matched.refill_eq {s : System} {c : Call} (h : Matched s) (hok : StepOk s c)
    (htime : s.own.lastRefillNs ≤ c.now) (hqps : 0 < c.qps) :
    refillAt c.qps c.qps (hmget s.shared (nowMs c.now)) (nowMs c.now) =
      s.own.refill c.qps c.now := by
  have hpos : (0 : ℚ) < c.qps := by exact_mod_cast hqps
  by_cases hfresh : s.own.fresh
  · rw [Bucket.refill, if_pos hfresh]
    cases hdata : hmget s.shared (nowMs c.now) with
    | none => rfl
    | some d =>
      have hshared : s.shared = some d := (Option.filter_eq_some_iff.mp hdata).1
      have hfull := hok.filled hqps hfresh d hshared
      have hmax := mul_le_mul_of_nonneg_right (le_max_right 0 (nowMs c.now - d.lastMs))
        (show (0 : ℚ) ≤ c.qps / 1000 by linarith)
      exact min_eq_left (by linarith)
  · have hshared := h.resolve_left hfresh
    rw [refill_stale hfresh]
    by_cases hlong : nowMs c.now - nowMs s.own.lastRefillNs ≤ 3000
    · have hdata : hmget s.shared (nowMs c.now) = s.shared := by
        rw [hshared, hmget_some, if_pos hlong]
      rw [hdata, hshared]
      simp only [refillAt]
      rw [brought_eq s.own c.qps htime]
      rcases hok.kept hqps hfresh with hcap | ⟨hcap, hless⟩
      · rw [hcap]
      · rw [min_eq_right hcap, min_eq_right hless]
    · have hdata : hmget s.shared (nowMs c.now) = none := by
        rw [hshared, hmget_some, if_neg hlong]
      have hmore := le_brought hqps htime (not_le.mp hlong)
      rw [hdata, refillAt]
      rcases hok.kept hqps hfresh with hcap | ⟨-, hless⟩
      · rw [hcap, min_eq_left hmore.le]
      · exact absurd hless (not_le.mpr hmore)

/-- A call that finds the same in both takes the same from both. -/
theorem step_of_refill_eq {s : System} {c : Call} (hqps : 0 < c.qps)
    (h : refillAt c.qps c.qps (hmget s.shared (nowMs c.now)) (nowMs c.now) =
      s.own.refill c.qps c.now) :
    (step s c).shared = some ⟨(step s c).own.tokens, nowMs (step s c).own.lastRefillNs⟩ ∧
      ∃ code, (step s c).codes = (code, code) :: s.codes := by
  by_cases hone : 1 ≤ s.own.refill c.qps c.now
  · refine ⟨?_, 0, ?_⟩
    · simp [step, rlAllowRequestShared, qpsTokenBucketAt, Bucket.allow, h, hone, hqps, hqps.not_ge]
    · simp [step, rlAllowRequestShared, qpsTokenBucketAt, Bucket.allow, h, hone, hqps, hqps.not_ge]
  · refine ⟨?_, -1, ?_⟩
    · simp [step, rlAllowRequestShared, qpsTokenBucketAt, Bucket.allow, h, hone, hqps, hqps.not_ge]
    · simp [step, rlAllowRequestShared, qpsTokenBucketAt, Bucket.allow, h, hone, hqps, hqps.not_ge]

theorem step_unlimited {s : System} {c : Call} (hqps : c.qps ≤ 0) :
    (step s c).own.fresh ∧ (step s c).own.lastRefillNs = s.own.lastRefillNs ∧
      (step s c).codes = (0, 0) :: s.codes := by
  refine ⟨Or.inl ?_, ?_, ?_⟩
  · simp [step, Bucket.allow, hqps.not_gt]
  · simp [step, Bucket.allow, hqps.not_gt]
  · simp [step, rlAllowRequestShared, Bucket.allow, hqps, hqps.not_gt]

theorem Agree.step {s : System} {c : Call} {code : ℤ} (h : Agree s)
    (hcodes : (step s c).codes = (code, code) :: s.codes) : Agree (step s c) := by
  intro codes hmem
  rw [hcodes] at hmem
  rcases List.mem_cons.mp hmem with rfl | hmem
  · rfl
  · exact h codes hmem

theorem matched_agree_step (s : System) (c : Call) (h : Matched s ∧ Agree s)
    (hc : StepOk s c ∧ s.own.lastRefillNs ≤ c.now) : Matched (step s c) ∧ Agree (step s c) := by
  obtain ⟨hmatched, hagree⟩ := h
  obtain ⟨hok, htime⟩ := hc
  by_cases hqps : 0 < c.qps
  · obtain ⟨hshared, code, hcodes⟩ := step_of_refill_eq hqps (hmatched.refill_eq hok htime hqps)
    exact ⟨Or.inr hshared, hagree.step hcodes⟩
  · obtain ⟨hfresh, -, hcodes⟩ := step_unlimited (not_lt.mp hqps)
    exact ⟨Or.inl hfresh, hagree.step hcodes⟩

/-- The time of the last call is that of this one, or of an earlier one. -/
theorem lastRefillNs_step (s : System) (c : Call) :
    (step s c).own.lastRefillNs = c.now ∨
      (step s c).own.lastRefillNs = s.own.lastRefillNs := by
  by_cases hqps : 0 < c.qps
  · by_cases hone : 1 ≤ s.own.refill c.qps c.now
    · exact Or.inl (by simp [step, Bucket.allow, hqps, hone])
    · exact Or.inl (by simp [step, Bucket.allow, hqps, hone])
  · exact Or.inr (step_unlimited (not_lt.mp hqps)).2.1

theorem runOk_ordered {s : System} {calls : List Call} (hok : RunOk step StepOk s calls)
    (hordered : calls.Pairwise fun c c' => c.now ≤ c'.now)
    (htime : ∀ c ∈ calls, s.own.lastRefillNs ≤ c.now) :
    RunOk step (fun s c => StepOk s c ∧ s.own.lastRefillNs ≤ c.now) s calls := by
  induction calls generalizing s with
  | nil => trivial
  | cons c rest ih =>
    obtain ⟨hc, hrest⟩ := hok
    obtain ⟨hfirst, hpairs⟩ := List.pairwise_cons.mp hordered
    refine ⟨⟨hc, htime c List.mem_cons_self⟩, ih hrest hpairs fun c' hc' => ?_⟩
    rcases lastRefillNs_step s c with hlast | hlast
    · rw [hlast]
      exact hfirst c' hc'
    · rw [hlast]
      exact htime c' (List.mem_cons_of_mem c hc')

/-- In such a run both admit the same calls. -/
theorem agree_run {calls : List Call} (hordered : calls.Pairwise fun c c' => c.now ≤ c'.now)
    (hok : RunOk step StepOk start calls) : Always step Agree start calls := by
  have hstart : Matched start ∧ Agree start := ⟨Or.inl (Or.inl rfl), fun _ h => nomatch h⟩
  have hrun := runOk_ordered hok hordered fun c _ => UInt64.zero_le
  have halways := always_of_runOk matched_agree_step hstart hrun
  exact fun n => (halways n).2

/-- Three calls under a limit of two a second, the third too early. -/
def sameLimit : List Call := [⟨2, 1000000000⟩, ⟨2, 1000000000⟩, ⟨2, 1200000000⟩]

/-- A call under a limit of one a second, and two at once when it has been raised to ten. -/
def raisedLimit : List Call := [⟨1, 1000000000⟩, ⟨10, 2000000000⟩, ⟨10, 2000000000⟩]

theorem agree_sameLimit : Always step Agree start sameLimit := by
  apply agree_run (by decide)
  have hkept : ∀ s c, ¬s.own.fresh → s.own.capacity = c.qps → StepOk s c := fun _ _ hstale hcap =>
    ⟨fun _ hfresh => absurd hfresh hstale, fun _ _ => Or.inl hcap⟩
  exact ⟨⟨(fun _ _ _ hd => nomatch hd), fun _ hstale => absurd (Or.inl rfl) hstale⟩,
    hkept _ _ (by decide +kernel) (by decide +kernel),
    hkept _ _ (by decide +kernel) (by decide +kernel), trivial⟩

/-- The second of them is denied by the local bucket, which still has room for one token. -/
theorem not_agree_raisedLimit : ¬Always step Agree start raisedLimit := by
  intro h
  have hcodes : (run step start raisedLimit).codes = [(-1, 0), (0, 0), (0, 0)] := by decide +kernel
  have heq := h.last (-1, 0) (by rw [hcodes]; decide)
  exact absurd heq (by decide)

end Aigate.BucketAgreement
