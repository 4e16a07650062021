import Mathlib.Data.Rat.Floor
import Mathlib.Logic.Function.Basic
import Mathlib.Tactic.Linarith
import Mathlib.Tactic.Positivity

/-!
# The token bucket of one gateway

Without Redis, or when Redis fails, the limiter keeps the tokens of each key itself, with the time
of the last call and the capacity of the bucket. A call that is denied is told how long to wait.
The numbers are exact rationals here, where the program has doubles.
-/
namespace Aigate.LocalBucket

/-- What the table keeps for the rate of requests of a key. A capacity is only ever set to a
positive limit, or to none. -/
structure Bucket where
  tokens : ℚ
  capacity : ℚ
  lastRefillNs : UInt64
  tokens_nonneg : 0 ≤ tokens
  capacity_ok : capacity = 0 ∨ 1 ≤ capacity

/-- The table of the buckets, by key. -/
abbrev Ratelimit := ℤ → Option Bucket

/-- A slot that `find_or_make` has cleared. -/
def newBucket : Bucket := ⟨0, 0, 0, le_rfl, Or.inl rfl⟩

/-- A new slot may need a larger table, for which the memory is granted or not. -/
def findOrMake (rl : Ratelimit) (keyId : ℤ) (granted : Bool) : Option Bucket :=
  match rl keyId with
  | some b => some b
  | none => if granted then some newBucket else none

/-- The bucket is filled up, whatever it held. -/
def Bucket.fresh (b : Bucket) : Prop := b.capacity = 0 ∨ b.lastRefillNs = 0

instance (b : Bucket) : Decidable b.fresh := inferInstanceAs (Decidable (_ ∨ _))

/-- What is left and what the time since the last call has brought. -/
def Bucket.brought (b : Bucket) (qps : ℤ) (now : UInt64) : ℚ :=
  b.tokens + ((now - b.lastRefillNs).toNat : ℚ) / 1000000000 * qps

/-- The capacity is that of the first call, under whatever limit. -/
def Bucket.newCapacity (b : Bucket) (qps : ℤ) : ℚ := if b.fresh then qps else b.capacity

/-- The tokens that a call finds. -/
def Bucket.refill (b : Bucket) (qps : ℤ) (now : UInt64) : ℚ :=
  if b.fresh then qps
  else if b.capacity < b.brought qps now then b.capacity else b.brought qps now

/-- The wait that a denied call is told, in milliseconds. -/
def retryMs (qps : ℤ) (tokens : ℚ) : ℤ := max 1 (⌊(1 - tokens) / qps * 1000⌋ + 1)

theorem one_le_cast {qps : ℤ} (h : 0 < qps) : (1 : ℚ) ≤ qps := by
  exact_mod_cast h

theorem newCapacity_ok (b : Bucket) {qps : ℤ} (h : 0 < qps) :
    b.newCapacity qps = 0 ∨ 1 ≤ b.newCapacity qps := by
  unfold Bucket.newCapacity
  split
  · exact Or.inr (one_le_cast h)
  · exact b.capacity_ok

theorem brought_nonneg (b : Bucket) {qps : ℤ} (h : 0 < qps) (now : UInt64) :
    0 ≤ b.brought qps now := by
  have hqps := one_le_cast h
  have htokens := b.tokens_nonneg
  unfold Bucket.brought
  positivity

theorem refill_nonneg (b : Bucket) {qps : ℤ} (h : 0 < qps) (now : UInt64) :
    0 ≤ b.refill qps now := by
  have hqps := one_le_cast h
  have hbrought := brought_nonneg b h now
  have hcapacity : 0 ≤ b.capacity := by
    rcases b.capacity_ok with hzero | hone
    · exact hzero.ge
    · exact zero_le_one.trans hone
  unfold Bucket.refill
  split_ifs
  · linarith
  · exact hcapacity
  · exact hbrought

/-- A call on the bucket: the bucket after it, the code, and the wait if one is set. -/
def Bucket.allow (b : Bucket) (qps : ℤ) (now : UInt64) : Bucket × ℤ × Option ℤ :=
  if h : 0 < qps then
    if hone : 1 ≤ b.refill qps now then
      (⟨b.refill qps now - 1, b.newCapacity qps, now, by linarith, newCapacity_ok b h⟩, 0, none)
    else
      (⟨b.refill qps now, b.newCapacity qps, now, refill_nonneg b h now, newCapacity_ok b h⟩, -1,
        some (retryMs qps (b.refill qps now)))
  else (⟨0, 0, b.lastRefillNs, le_rfl, Or.inl rfl⟩, 0, none)

/-- `rl_allow_request_local`; a call that finds no bucket is denied and told nothing. -/
def rlAllowRequestLocal (rl : Ratelimit) (keyId qps : ℤ) (now : UInt64) (granted : Bool) :
    Ratelimit × ℤ × Option ℤ :=
  match findOrMake rl keyId granted with
  | none => (rl, -1, none)
  | some b => (Function.update rl keyId (some (b.allow qps now).1), (b.allow qps now).2)

/-- The time some milliseconds later. -/
def later (now : UInt64) (ms : ℤ) : UInt64 := now + UInt64.ofNat (ms.toNat * 1000000)

/-- A denied call finds less than a token, in a bucket that is not filled up. -/
theorem allow_denied {b : Bucket} {qps : ℤ} {now : UInt64} {r : ℤ}
    (h : (b.allow qps now).2 = (-1, some r)) :
    0 < qps ∧ ¬b.fresh ∧ b.refill qps now < 1 ∧ r = retryMs qps (b.refill qps now) ∧
      (b.allow qps now).1.tokens = b.refill qps now ∧
      (b.allow qps now).1.capacity = b.capacity ∧ (b.allow qps now).1.lastRefillNs = now := by
  unfold Bucket.allow at h ⊢
  split at h
  · rename_i hqps
    split at h
    · simp at h
    · rename_i hone
      have hstale : ¬b.fresh := by
        intro hfresh
        apply hone
        rw [Bucket.refill, if_pos hfresh]
        exact one_le_cast hqps
      simp only [Prod.mk.injEq, Option.some.injEq, true_and] at h
      refine ⟨hqps, hstale, not_le.mp hone, h.symm, ?_⟩
      rw [dif_pos hqps, dif_neg hone]
      exact ⟨rfl, if_neg hstale, rfl⟩
  · simp at h

/-- No wait is longer than a second and a millisecond. -/
theorem retryMs_bounds {qps : ℤ} (hqps : 0 < qps) {tokens : ℚ} (hnonneg : 0 ≤ tokens) :
    1 ≤ retryMs qps tokens ∧ retryMs qps tokens ≤ 1001 := by
  have hone := one_le_cast hqps
  have hneed : (1 - tokens) / qps * 1000 ≤ 1000 := by
    have hle : (1 - tokens) / qps ≤ 1 := by
      rw [div_le_one (by linarith)]
      linarith
    linarith
  have hfloor : ⌊(1 - tokens) / qps * 1000⌋ ≤ 1000 := by
    have hle : (⌊(1 - tokens) / qps * 1000⌋ : ℚ) ≤ 1000 := (Int.floor_le _).trans hneed
    exact_mod_cast hle
  unfold retryMs
  exact ⟨le_max_left _ _, max_le (by norm_num) (by linarith)⟩

/-- The wait brings what is missing. -/
theorem retryMs_enough {qps : ℤ} (hqps : 0 < qps) (tokens : ℚ) :
    1 ≤ tokens + (retryMs qps tokens : ℚ) / 1000 * qps := by
  have hpos : (0 : ℚ) < qps := by exact_mod_cast hqps
  have hmore : (1 - tokens) / qps * 1000 ≤ (retryMs qps tokens : ℚ) := by
    have hfloor := (Int.lt_floor_add_one ((1 - tokens) / qps * 1000)).le
    have hmax : ((⌊(1 - tokens) / qps * 1000⌋ + 1 : ℤ) : ℚ) ≤ (retryMs qps tokens : ℚ) := by
      exact_mod_cast le_max_right 1 _
    push_cast at hmax
    linarith
  have hneed : (1 - tokens) / qps ≤ (retryMs qps tokens : ℚ) / 1000 := by linarith
  have hmul := mul_le_mul_of_nonneg_right hneed hpos.le
  rw [div_mul_cancel₀ _ hpos.ne'] at hmul
  linarith

theorem one_le_refill {b : Bucket} {qps : ℤ} (hqps : 0 < qps) {now : UInt64}
    (hcapacity : 1 ≤ b.capacity) (hbrought : 1 ≤ b.brought qps now) : 1 ≤ b.refill qps now := by
  unfold Bucket.refill
  split_ifs
  · exact one_le_cast hqps
  · exact hcapacity
  · exact hbrought

/-- The time that has passed is the wait, even where the clock wraps. -/
theorem toNat_later_sub (now : UInt64) {ms : ℤ} (hms : ms ≤ 1001) :
    (later now ms - now).toNat = ms.toNat * 1000000 := by
  have hsub : later now ms - now = UInt64.ofNat (ms.toNat * 1000000) := by
    unfold later
    rw [UInt64.add_comm, UInt64.add_sub_cancel]
  rw [hsub]
  apply UInt64.toNat_ofNat_of_lt
  have hnat : ms.toNat ≤ 1001 := by omega
  calc ms.toNat * 1000000 ≤ 1001 * 1000000 := Nat.mul_le_mul_right _ hnat
    _ < UInt64.size := by decide

/-- A call with the limit of the denied one that comes after the wait finds a token. -/
theorem refill_later {b : Bucket} {qps : ℤ} {now : UInt64} {r : ℤ}
    (h : (b.allow qps now).2 = (-1, some r)) :
    1 ≤ (b.allow qps now).1.refill qps (later now r) := by
  obtain ⟨hqps, hstale, -, rfl, htokens, hcapacity, hlast⟩ := allow_denied h
  obtain ⟨hpos, hle⟩ := retryMs_bounds hqps (refill_nonneg b hqps now)
  have hcap : 1 ≤ b.capacity := b.capacity_ok.resolve_left fun hzero => hstale (Or.inl hzero)
  have hbrought : 1 ≤ (b.allow qps now).1.brought qps
      (later now (retryMs qps (b.refill qps now))) := by
    have henough := retryMs_enough hqps (b.refill qps now)
    have hcast : (((retryMs qps (b.refill qps now)).toNat : ℤ) : ℚ) =
        (retryMs qps (b.refill qps now) : ℚ) := by
      rw [Int.toNat_of_nonneg (by linarith)]
    unfold Bucket.brought
    rw [htokens, hlast, toNat_later_sub now hle]
    push_cast at hcast ⊢
    rw [hcast]
    linarith
  exact one_le_refill hqps (hcapacity.symm ▸ hcap) hbrought

/-- Whatever the buckets are, a denied call that is told to wait is admitted after the wait. -/
theorem admitted_after_wait (rl : Ratelimit) (keyId qps : ℤ) (now : UInt64)
    (granted granted' : Bool) (r : ℤ)
    (h : (rlAllowRequestLocal rl keyId qps now granted).2 = (-1, some r)) :
    (rlAllowRequestLocal (rlAllowRequestLocal rl keyId qps now granted).1 keyId qps (later now r)
      granted').2.1 = 0 := by
  unfold rlAllowRequestLocal at h
  cases hfind : findOrMake rl keyId granted with
  | none => simp [hfind] at h
  | some b =>
    simp only [hfind] at h
    have hqps := (allow_denied h).1
    have hfound : findOrMake (Function.update rl keyId (some (b.allow qps now).1)) keyId granted' =
        some (b.allow qps now).1 := by
      unfold findOrMake
      rw [Function.update_self]
    have hfirst : (rlAllowRequestLocal rl keyId qps now granted).1 =
        Function.update rl keyId (some (b.allow qps now).1) := by
      unfold rlAllowRequestLocal
      rw [hfind]
    unfold rlAllowRequestLocal at hfirst ⊢
    rw [hfirst, hfound]
    dsimp only
    rw [Bucket.allow, dif_pos hqps, dif_pos (refill_later h)]

/-- A third of a token, refilled with two a second. -/
def thirdLeft : Bucket := ⟨1 / 3, 2, 5000000000, by norm_num, Or.inr (by norm_num)⟩

theorem admitted_after_wait_third :
    (rlAllowRequestLocal (rlAllowRequestLocal (fun _ => some thirdLeft) 7 2 5000000000 true).1
      7 2 (later 5000000000 334) true).2.1 = 0 :=
  admitted_after_wait (fun _ => some thirdLeft) 7 2 5000000000 true true 334 (by decide +kernel)

end Aigate.LocalBucket
