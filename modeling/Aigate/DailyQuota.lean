import Mathlib
import Aigate.GuardedRuns

/-!
# The daily quotas

The limiter counts the tokens of each key since the worker of the usage meter last cleared the
counters. The worker looks at the day from time to time, and it passes over a bucket that is
marked with the day already. A bucket made later has no mark. What the limiter keeps for the
rate of requests is left out.
-/
namespace Aigate.DailyQuota
open GuardedRuns

def longMax : ℤ := 2 ^ 63 - 1

/-- `utc_midnight` and `utc_midnight_now`, of the seconds since the epoch. -/
def utcMidnight (t : ℕ) : ℕ := t - t % 86400

theorem utcMidnight_mono {t t' : ℕ} (h : t ≤ t') : utcMidnight t ≤ utcMidnight t' := by
  unfold utcMidnight
  omega

theorem utcMidnight_idem (t : ℕ) : utcMidnight (utcMidnight t) = utcMidnight t := by
  unfold utcMidnight
  omega

/-- `rl_reserve_tokens` and `rl_reserve_reasoning_tokens` differ in what they count. -/
inductive Counter where
  | daily
  | dailyReasoning
  deriving DecidableEq

structure Bucket where
  dailyUsed : ℤ
  dailyReasoningUsed : ℤ
  day : ℕ

def Bucket.used (b : Bucket) : Counter → ℤ
  | .daily => b.dailyUsed
  | .dailyReasoning => b.dailyReasoningUsed

def Bucket.add (b : Bucket) (tokens : ℤ) : Counter → Bucket
  | .daily => { b with dailyUsed := b.dailyUsed + tokens }
  | .dailyReasoning => { b with dailyReasoningUsed := b.dailyReasoningUsed + tokens }

theorem Bucket.used_add (b : Bucket) (tokens : ℤ) (c c' : Counter) :
    (b.add tokens c).used c' = b.used c' + if c' = c then tokens else 0 := by
  cases c <;> cases c' <;> simp [Bucket.add, Bucket.used]

@[simp] theorem Bucket.day_add (b : Bucket) (tokens : ℤ) (c : Counter) :
    (b.add tokens c).day = b.day := by
  cases c <;> rfl

/-- The table of the buckets: what it holds for each key, how many buckets it has, and its
slots. -/
structure Ratelimit where
  bucket : ℤ → Option Bucket
  count : ℕ
  cap : ℕ

def ratelimitNew : Ratelimit := ⟨fun _ => none, 0, 16⟩

def newBucket : Bucket := ⟨0, 0, 0⟩

/-- A table that is three quarters full grows before it takes a new bucket, if it is given the
memory. -/
def findOrMake (rl : Ratelimit) (keyId : ℤ) (granted : Bool) : Option (Ratelimit × Bucket) :=
  match rl.bucket keyId with
  | some b => some (rl, b)
  | none =>
    if rl.count < rl.cap * 3 / 4 then
      some (⟨Function.update rl.bucket keyId (some newBucket), rl.count + 1, rl.cap⟩, newBucket)
    else if granted then
      some (⟨Function.update rl.bucket keyId (some newBucket), rl.count + 1, rl.cap * 2⟩, newBucket)
    else none

/-- The table after a call that only looks its bucket up. -/
def touch (rl : Ratelimit) (keyId : ℤ) (granted : Bool) : Ratelimit :=
  ((findOrMake rl keyId granted).map Prod.fst).getD rl

def Ratelimit.put (rl : Ratelimit) (keyId : ℤ) (b : Bucket) : Ratelimit :=
  { rl with bucket := Function.update rl.bucket keyId (some b) }

def reserveTokensLocal (c : Counter) (rl : Ratelimit) (keyId dailyQuota tokens : ℤ)
    (granted : Bool) : Ratelimit × ℤ :=
  match findOrMake rl keyId granted with
  | none => (rl, -1)
  | some (rl', b) =>
    (rl'.put keyId (b.add tokens c),
      if 0 < dailyQuota ∧ dailyQuota < (b.add tokens c).used c then -1 else 0)

def remainingDailyLocal (c : Counter) (rl : Ratelimit) (keyId dailyQuota : ℤ)
    (granted : Bool) : Ratelimit × ℤ :=
  match findOrMake rl keyId granted with
  | none => (rl, longMax)
  | some (rl', b) => (rl', if dailyQuota ≤ 0 then longMax else dailyQuota - b.used c)

def Bucket.reset (mid : ℕ) (b : Bucket) : Bucket := if b.day ≠ mid then ⟨0, 0, mid⟩ else b

def rlResetDay (rl : Ratelimit) (now : ℕ) : Ratelimit :=
  { rl with bucket := fun keyId => (rl.bucket keyId).map (Bucket.reset (utcMidnight now)) }

/-- Tokens that a call of the limiter has reserved. -/
structure Reservation where
  counter : Counter
  keyId : ℤ
  day : ℕ
  tokens : ℤ

/-- The limiter, the day of the worker's last rollover, the time, and what was reserved so far. -/
structure System where
  rl : Ratelimit
  lastRolloverDay : ℕ
  now : ℕ
  reservations : List Reservation

/-- The calls of the limiter, and the worker's look at the day. -/
inductive Call where
  | allow (keyId : ℤ) (granted : Bool)
  | remaining (c : Counter) (keyId dailyQuota : ℤ) (granted : Bool)
  | reserve (c : Counter) (keyId dailyQuota tokens : ℤ) (granted : Bool)
  | tick

/-- A call, some seconds after the one before. -/
structure Event where
  after : ℕ
  call : Call

def System.today (s : System) : ℕ := utcMidnight s.now

/-- `worker_main`. -/
def rollover (s : System) : System :=
  if s.today ≠ s.lastRolloverDay then
    { s with rl := rlResetDay s.rl s.today, lastRolloverDay := s.today }
  else s

def call (s : System) : Call → System
  | .allow keyId granted => { s with rl := touch s.rl keyId granted }
  | .remaining c keyId dailyQuota granted =>
    { s with rl := (remainingDailyLocal c s.rl keyId dailyQuota granted).1 }
  | .reserve c keyId dailyQuota tokens granted =>
    { s with
      rl := (reserveTokensLocal c s.rl keyId dailyQuota tokens granted).1
      reservations := ⟨c, keyId, s.today, tokens⟩ :: s.reservations }
  | .tick => rollover s

def System.advance (s : System) (seconds : ℕ) : System := { s with now := s.now + seconds }

def step (s : System) (e : Event) : System := call (s.advance e.after) e.call

def start (now : ℕ) : System := ⟨ratelimitNew, utcMidnight now, now, []⟩

def reservedOn (rs : List Reservation) (c : Counter) (keyId : ℤ) (day : ℕ) : ℤ :=
  ((rs.filter fun r => r.counter = c ∧ r.keyId = keyId ∧ r.day = day).map Reservation.tokens).sum

/-- What remains of each quota is what was not reserved today. -/
def Accounted (s : System) : Prop :=
  ∀ c keyId dailyQuota, 0 < dailyQuota → (remainingDailyLocal c s.rl keyId dailyQuota true).2 =
    dailyQuota - reservedOn s.reservations c keyId s.today

/-- What the limiter counts for a key. -/
def Ratelimit.used (rl : Ratelimit) (c : Counter) (keyId : ℤ) : ℤ :=
  (rl.bucket keyId).elim 0 fun b => b.used c

def Ratelimit.NothingUsed (rl : Ratelimit) : Prop := ∀ c keyId, rl.used c keyId = 0

/-- A reservation gets its bucket. -/
def HasBucket (rl : Ratelimit) (keyId : ℤ) (granted : Bool) : Prop :=
  rl.bucket keyId = none → rl.count < rl.cap * 3 / 4 ∨ granted

/-- When a day begins, the worker looks at it before any call finds tokens of the day before and
before any tokens are reserved, and a reservation gets its bucket. -/
def StepOk (s : System) (e : Event) : Prop :=
  match e.call with
  | .tick => (s.advance e.after).today ≠ s.today ∨
      (s.advance e.after).today = s.lastRolloverDay ∨ s.rl.NothingUsed
  | .reserve _ keyId _ tokens granted =>
    ((s.advance e.after).today = s.today ∨ s.rl.NothingUsed) ∧
      (HasBucket s.rl keyId granted ∨ tokens = 0)
  | _ => (s.advance e.after).today = s.today ∨ s.rl.NothingUsed

/-- What a call of `find_or_make` gives: every counter is as it was. -/
structure Found (rl : Ratelimit) (keyId : ℤ) (rl' : Ratelimit) (b : Bucket) : Prop where
  here : rl'.bucket keyId = some b
  used : ∀ c keyId', rl'.used c keyId' = rl.used c keyId'
  marked : ∀ keyId' b', rl'.bucket keyId' = some b' → rl.bucket keyId' = some b' ∨ b'.day = 0

theorem found_new {rl : Ratelimit} {keyId : ℤ} (h : rl.bucket keyId = none) (count cap : ℕ) :
    Found rl keyId ⟨Function.update rl.bucket keyId (some newBucket), count, cap⟩ newBucket where
  here := Function.update_self ..
  used c keyId' := by
    by_cases hkey : keyId' = keyId
    · subst hkey
      cases c <;> simp [Ratelimit.used, h, newBucket, Bucket.used]
    · simp [Ratelimit.used, Function.update_of_ne hkey]
  marked keyId' b' hb' := by
    by_cases hkey : keyId' = keyId
    · subst hkey
      dsimp only at hb'
      rw [Function.update_self] at hb'
      obtain rfl := Option.some.inj hb'
      exact Or.inr rfl
    · dsimp only at hb'
      rw [Function.update_of_ne hkey] at hb'
      exact Or.inl hb'

theorem findOrMake_some {rl rl' : Ratelimit} {keyId : ℤ} {granted : Bool} {b : Bucket}
    (h : findOrMake rl keyId granted = some (rl', b)) : Found rl keyId rl' b := by
  unfold findOrMake at h
  split at h
  next b' hb' =>
    obtain ⟨rfl, rfl⟩ := Prod.mk.inj (Option.some.inj h)
    exact ⟨hb', fun _ _ => rfl, fun _ _ => Or.inl⟩
  next hnone =>
    split_ifs at h
    · obtain ⟨rfl, rfl⟩ := Prod.mk.inj (Option.some.inj h)
      exact found_new hnone _ _
    · obtain ⟨rfl, rfl⟩ := Prod.mk.inj (Option.some.inj h)
      exact found_new hnone _ _

theorem findOrMake_none {rl : Ratelimit} {keyId : ℤ} {granted : Bool} :
    findOrMake rl keyId granted = none ↔ ¬ HasBucket rl keyId granted := by
  unfold findOrMake HasBucket
  cases rl.bucket keyId with
  | some b => simp
  | none => by_cases hroom : rl.count < rl.cap * 3 / 4 <;> cases granted <;> simp [hroom]

theorem Found.used_here {rl rl' : Ratelimit} {keyId : ℤ} {b : Bucket} (h : Found rl keyId rl' b)
    (c : Counter) : b.used c = rl.used c keyId := by
  rw [← h.used, Ratelimit.used, h.here]
  rfl

theorem used_touch (rl : Ratelimit) (keyId : ℤ) (granted : Bool) (c : Counter) (keyId' : ℤ) :
    (touch rl keyId granted).used c keyId' = rl.used c keyId' := by
  unfold touch
  cases h : findOrMake rl keyId granted with
  | none => rfl
  | some found => exact (findOrMake_some h).used c keyId'

theorem remainingDailyLocal_fst (c : Counter) (rl : Ratelimit) (keyId dailyQuota : ℤ)
    (granted : Bool) : (remainingDailyLocal c rl keyId dailyQuota granted).1 =
      touch rl keyId granted := by
  unfold remainingDailyLocal touch
  cases findOrMake rl keyId granted <;> rfl

theorem remainingDailyLocal_snd (c : Counter) (rl : Ratelimit) (keyId : ℤ) {dailyQuota : ℤ}
    (h : 0 < dailyQuota) : (remainingDailyLocal c rl keyId dailyQuota true).2 =
      dailyQuota - rl.used c keyId := by
  unfold remainingDailyLocal
  cases hfound : findOrMake rl keyId true with
  | none => exact absurd (fun _ => Or.inr rfl) (findOrMake_none.mp hfound)
  | some found =>
    dsimp only
    rw [if_neg (by omega), (findOrMake_some hfound).used_here]

/-- Tokens that get their bucket are counted, and no other counter changes. -/
theorem used_reserve {rl : Ratelimit} {keyId : ℤ} {granted : Bool} (h : HasBucket rl keyId granted)
    (c : Counter) (dailyQuota tokens : ℤ) (c' : Counter) (keyId' : ℤ) :
    (reserveTokensLocal c rl keyId dailyQuota tokens granted).1.used c' keyId' =
      rl.used c' keyId' + if c' = c ∧ keyId' = keyId then tokens else 0 := by
  unfold reserveTokensLocal
  cases hfound : findOrMake rl keyId granted with
  | none => exact absurd h (findOrMake_none.mp hfound)
  | some found =>
    have hspec := findOrMake_some hfound
    by_cases hkey : keyId' = keyId
    · subst hkey
      simp [Ratelimit.put, Ratelimit.used, Bucket.used_add, hspec.used_here]
    · have hsame := hspec.used c' keyId'
      simpa [Ratelimit.put, Ratelimit.used, Function.update_of_ne hkey, hkey] using hsame

theorem reserve_of_not_hasBucket {rl : Ratelimit} {keyId : ℤ} {granted : Bool}
    (h : ¬ HasBucket rl keyId granted) (c : Counter) (dailyQuota tokens : ℤ) :
    (reserveTokensLocal c rl keyId dailyQuota tokens granted).1 = rl := by
  rw [reserveTokensLocal, findOrMake_none.mpr h]

theorem accounted_iff {s : System} : Accounted s ↔
    ∀ c keyId, s.rl.used c keyId = reservedOn s.reservations c keyId s.today := by
  constructor
  · intro h c keyId
    have hone := h c keyId 1 Int.one_pos
    rw [remainingDailyLocal_snd c s.rl keyId Int.one_pos] at hone
    omega
  · intro h c keyId dailyQuota hpos
    rw [remainingDailyLocal_snd c s.rl keyId hpos, h]

theorem reservedOn_cons (r : Reservation) (rs : List Reservation) (c : Counter) (keyId : ℤ)
    (day : ℕ) : reservedOn (r :: rs) c keyId day = reservedOn rs c keyId day +
      if c = r.counter ∧ keyId = r.keyId ∧ day = r.day then r.tokens else 0 := by
  unfold reservedOn
  rw [List.filter_cons]
  by_cases hr : r.counter = c ∧ r.keyId = keyId ∧ r.day = day
  · obtain ⟨rfl, rfl, rfl⟩ := hr
    simp [add_comm]
  · have hr' : ¬ (c = r.counter ∧ keyId = r.keyId ∧ day = r.day) := by
      intro ⟨hc, hkey, hday⟩
      exact hr ⟨hc.symm, hkey.symm, hday.symm⟩
    simp [hr, hr']

theorem reservedOn_later {rs : List Reservation} {day : ℕ} (h : ∀ r ∈ rs, r.day < day)
    (c : Counter) (keyId : ℤ) : reservedOn rs c keyId day = 0 := by
  have hnone : (rs.filter fun r => r.counter = c ∧ r.keyId = keyId ∧ r.day = day) = [] := by
    rw [List.filter_eq_nil_iff]
    intro r hr
    have hday := h r hr
    simp only [decide_eq_true_eq]
    omega
  rw [reservedOn, hnone]
  rfl

/-- No day is marked, rolled over or reserved on before it has come. -/
structure Inv (s : System) : Prop where
  last : s.lastRolloverDay ≤ s.today
  marked : ∀ keyId b, s.rl.bucket keyId = some b → b.day ≤ s.lastRolloverDay
  past : ∀ r ∈ s.reservations, r.day ≤ s.today

theorem inv_start (now : ℕ) : Inv (start now) :=
  ⟨Nat.le_refl _, (fun _ _ h => nomatch h), fun _ h => nomatch h⟩

theorem accounted_start (now : ℕ) : Accounted (start now) :=
  accounted_iff.mpr fun _ _ => rfl

theorem today_le_advance (s : System) (seconds : ℕ) : s.today ≤ (s.advance seconds).today :=
  utcMidnight_mono (Nat.le_add_right ..)

theorem Inv.advance {s : System} (h : Inv s) (seconds : ℕ) : Inv (s.advance seconds) where
  last := Nat.le_trans h.last (today_le_advance s seconds)
  marked := h.marked
  past r hr := Nat.le_trans (h.past r hr) (today_le_advance s seconds)

theorem Inv.touch {s : System} (h : Inv s) (keyId : ℤ) (granted : Bool) :
    Inv { s with rl := touch s.rl keyId granted } := by
  refine { h with marked := fun keyId' b' hb' => ?_ }
  unfold DailyQuota.touch at hb'
  cases hfound : findOrMake s.rl keyId granted with
  | none =>
    rw [hfound] at hb'
    exact h.marked keyId' b' hb'
  | some found =>
    rw [hfound] at hb'
    rcases (findOrMake_some hfound).marked keyId' b' hb' with hold | hnew
    · exact h.marked keyId' b' hold
    · exact hnew ▸ Nat.zero_le _

theorem Inv.reserve {s : System} (h : Inv s) (c : Counter) (keyId dailyQuota tokens : ℤ)
    (granted : Bool) : Inv (call s (.reserve c keyId dailyQuota tokens granted)) where
  last := h.last
  marked keyId' b' hb' := by
    dsimp only [call, reserveTokensLocal] at hb'
    cases hfound : findOrMake s.rl keyId granted with
    | none =>
      rw [hfound] at hb'
      exact h.marked keyId' b' hb'
    | some found =>
      have hspec := findOrMake_some hfound
      have hday : ∀ k b, found.1.bucket k = some b → b.day ≤ s.lastRolloverDay := by
        intro k b hb
        rcases hspec.marked k b hb with hold | hnew
        · exact h.marked k b hold
        · exact hnew ▸ Nat.zero_le _
      rw [hfound] at hb'
      dsimp only [Ratelimit.put] at hb'
      by_cases hkey : keyId' = keyId
      · subst hkey
        rw [Function.update_self] at hb'
        obtain rfl := Option.some.inj hb'
        rw [Bucket.day_add]
        exact hday keyId' found.2 hspec.here
      · rw [Function.update_of_ne hkey] at hb'
        exact hday keyId' b' hb'
  past r hr := by
    rcases List.mem_cons.mp hr with rfl | hr
    · exact Nat.le_refl _
    · exact h.past r hr

theorem Inv.rollover {s : System} (h : Inv s) : Inv (rollover s) := by
  unfold DailyQuota.rollover
  split_ifs with hday
  · refine ⟨Nat.le_refl _, fun keyId b hb => ?_, h.past⟩
    obtain ⟨b₀, hb₀, rfl⟩ := Option.map_eq_some_iff.mp hb
    have hbefore := Nat.le_trans (h.marked keyId b₀ hb₀) h.last
    unfold Bucket.reset
    split
    · exact utcMidnight_idem s.now ▸ Nat.le_refl _
    · exact hbefore
  · exact h

theorem Inv.step {s : System} (h : Inv s) (e : Event) : Inv (step s e) := by
  have hadv := h.advance e.after
  unfold DailyQuota.step
  cases e.call with
  | allow keyId granted => exact hadv.touch keyId granted
  | remaining c keyId dailyQuota granted =>
    rw [call, remainingDailyLocal_fst]
    exact hadv.touch keyId granted
  | reserve c keyId dailyQuota tokens granted => exact hadv.reserve c keyId dailyQuota tokens granted
  | tick => exact hadv.rollover

/-- On a new day nothing is reserved yet. -/
theorem Inv.reservedOn_newDay {s : System} (h : Inv s) {seconds : ℕ}
    (hnew : (s.advance seconds).today ≠ s.today) (c : Counter) (keyId : ℤ) :
    reservedOn s.reservations c keyId (s.advance seconds).today = 0 := by
  apply reservedOn_later
  intro r hr
  have hle := today_le_advance s seconds
  have hpast := h.past r hr
  omega

/-- Time alone keeps what remains right until a day begins, and then if nothing is counted. -/
theorem accounted_advance {s : System} (hinv : Inv s) (h : Accounted s) (seconds : ℕ) :
    Accounted (s.advance seconds) ↔ (s.advance seconds).today = s.today ∨ s.rl.NothingUsed := by
  by_cases hday : (s.advance seconds).today = s.today
  · refine iff_of_true (accounted_iff.mpr fun c keyId => ?_) (Or.inl hday)
    rw [hday]
    exact accounted_iff.mp h c keyId
  · have hzero := hinv.reservedOn_newDay hday
    rw [or_iff_right hday, accounted_iff]
    constructor
    · intro hacc c keyId
      exact (hacc c keyId).trans (hzero c keyId)
    · intro hnone c keyId
      exact (hnone c keyId).trans (hzero c keyId).symm

theorem accounted_touch {s : System} (keyId : ℤ) (granted : Bool) :
    Accounted { s with rl := touch s.rl keyId granted } ↔ Accounted s := by
  rw [accounted_iff, accounted_iff]
  simp only [used_touch, System.today]

/-- Tokens that get their bucket are counted on their day. -/
theorem accounted_reserve {s : System} {keyId : ℤ} {granted : Bool}
    (h : HasBucket s.rl keyId granted) (c : Counter) (dailyQuota tokens : ℤ) :
    Accounted (call s (.reserve c keyId dailyQuota tokens granted)) ↔ Accounted s := by
  rw [accounted_iff, accounted_iff]
  have hboth : ∀ c' keyId',
      (call s (.reserve c keyId dailyQuota tokens granted)).rl.used c' keyId' =
        reservedOn (call s (.reserve c keyId dailyQuota tokens granted)).reservations c' keyId'
          s.today ↔ s.rl.used c' keyId' = reservedOn s.reservations c' keyId' s.today := by
    intro c' keyId'
    dsimp only [call]
    rw [used_reserve h, reservedOn_cons]
    simp only [and_true]
    omega
  exact forall₂_congr hboth

/-- Tokens that do not get their bucket are lost. -/
theorem accounted_reserve_lost {s : System} {keyId : ℤ} {granted : Bool}
    (h : ¬ HasBucket s.rl keyId granted) (c : Counter) (dailyQuota tokens : ℤ)
    (hnone : reservedOn s.reservations c keyId s.today = 0) :
    Accounted (call s (.reserve c keyId dailyQuota tokens granted)) ↔ Accounted s ∧ tokens = 0 := by
  have hbucket : s.rl.bucket keyId = none := by
    by_contra hsome
    exact h fun hnone => absurd hnone hsome
  have hcall : ∀ c' keyId',
      reservedOn (call s (.reserve c keyId dailyQuota tokens granted)).reservations c' keyId'
        s.today = reservedOn s.reservations c' keyId' s.today +
          if c' = c ∧ keyId' = keyId then tokens else 0 := by
    intro c' keyId'
    dsimp only [call]
    rw [reservedOn_cons]
    simp only [and_true]
  have hrl : (call s (.reserve c keyId dailyQuota tokens granted)).rl = s.rl :=
    reserve_of_not_hasBucket h c dailyQuota tokens
  have htoday : (call s (.reserve c keyId dailyQuota tokens granted)).today = s.today := rfl
  rw [accounted_iff, accounted_iff, hrl, htoday]
  constructor
  · intro hafter
    have htokens : tokens = 0 := by
      have hused : s.rl.used c keyId = 0 := by rw [Ratelimit.used, hbucket]; rfl
      have hhere := hafter c keyId
      rw [hcall, hused, hnone, if_pos ⟨rfl, rfl⟩] at hhere
      omega
    refine ⟨fun c' keyId' => ?_, htokens⟩
    rw [hafter, hcall, htokens, ite_self, add_zero]
  · intro ⟨hbefore, htokens⟩ c' keyId'
    rw [hbefore, hcall, htokens, ite_self, add_zero]

/-- The first look at a day clears every counter, because no bucket is marked with that day. -/
theorem used_rollover {s : System} (h : Inv s) (hday : s.today ≠ s.lastRolloverDay) :
    (rollover s).rl.NothingUsed := by
  intro c keyId
  rw [rollover, if_pos hday]
  unfold Ratelimit.used rlResetDay
  cases hb : s.rl.bucket keyId with
  | none => simp [hb]
  | some b =>
    have hmarked := h.marked keyId b hb
    have hlast := h.last
    have hreset : b.day ≠ utcMidnight s.today := by
      rw [System.today, utcMidnight_idem, ← System.today]
      omega
    dsimp only
    rw [hb, Option.map_some, Bucket.reset, if_pos hreset]
    cases c <;> rfl

theorem accounted_rollover {s : System} (h : Inv s) (hday : s.today ≠ s.lastRolloverDay) :
    Accounted (rollover s) ↔ ∀ c keyId, reservedOn s.reservations c keyId s.today = 0 := by
  have hused := used_rollover h hday
  have hsame : (rollover s).reservations = s.reservations ∧ (rollover s).today = s.today := by
    rw [rollover, if_pos hday]
    exact ⟨rfl, rfl⟩
  rw [accounted_iff, hsame.1, hsame.2]
  apply forall₂_congr
  intro c keyId
  rw [hused c keyId, eq_comm]

theorem accounted_tick {s : System} (hinv : Inv s) (h : Accounted s) (seconds : ℕ) :
    Accounted (rollover (s.advance seconds)) ↔ (s.advance seconds).today ≠ s.today ∨
      (s.advance seconds).today = s.lastRolloverDay ∨ s.rl.NothingUsed := by
  by_cases hlast : (s.advance seconds).today = s.lastRolloverDay
  · have hday : (s.advance seconds).today = s.today := by
      have hle := today_le_advance s seconds
      have hle' := hinv.last
      omega
    have hskip : rollover (s.advance seconds) = s.advance seconds := if_neg (not_not.mpr hlast)
    rw [hskip, accounted_advance hinv h]
    exact iff_of_true (Or.inl hday) (Or.inr (Or.inl hlast))
  · rw [accounted_rollover (hinv.advance seconds) hlast, or_iff_right hlast]
    by_cases hday : (s.advance seconds).today = s.today
    · rw [or_iff_right (not_not.mpr hday)]
      apply forall₂_congr
      intro c keyId
      rw [hday, accounted_iff.mp h c keyId]
      rfl
    · exact iff_of_true (hinv.reservedOn_newDay hday) (Or.inl hday)

theorem accounted_step {s : System} (e : Event) (hinv : Inv s) (h : Accounted s) :
    Accounted (step s e) ↔ StepOk s e := by
  have hadv := accounted_advance hinv h e.after
  unfold step StepOk
  cases e.call with
  | allow keyId granted => exact (accounted_touch keyId granted).trans hadv
  | remaining c keyId dailyQuota granted =>
    dsimp only [call]
    rw [remainingDailyLocal_fst]
    exact (accounted_touch keyId granted).trans hadv
  | tick => exact accounted_tick hinv h e.after
  | reserve c keyId dailyQuota tokens granted =>
    by_cases hbucket : HasBucket s.rl keyId granted
    · have hiff := accounted_reserve (s := s.advance e.after) hbucket c dailyQuota tokens
      exact (hiff.trans hadv).trans (and_iff_left (Or.inl hbucket)).symm
    · have hnone : reservedOn s.reservations c keyId (s.advance e.after).today = 0 := by
        by_cases hday : (s.advance e.after).today = s.today
        · have hempty : s.rl.bucket keyId = none := by
            by_contra hsome
            exact hbucket fun hnone => absurd hnone hsome
          rw [hday, ← accounted_iff.mp h, Ratelimit.used, hempty]
          rfl
        · exact hinv.reservedOn_newDay hday c keyId
      have hiff := accounted_reserve_lost (s := s.advance e.after) hbucket c dailyQuota tokens hnone
      dsimp only
      rw [hiff, hadv, or_iff_right hbucket]

/-- What remains of the quotas is right in every state of exactly such runs. -/
theorem remaining_run_iff (now : ℕ) (events : List Event) :
    Always step Accounted (start now) events ↔ RunOk step StepOk (start now) events := by
  have hinv : ∀ s e, Inv s → Accounted s → StepOk s e → Inv (step s e) :=
    fun _ e hi _ _ => hi.step e
  have hstep : ∀ s e, Inv s → Accounted s → (Accounted (step s e) ↔ StepOk s e) :=
    fun _ e hi h => accounted_step e hi h
  exact always_iff_runOk hinv hstep (inv_start now) (accounted_start now) events

/-- A key has used 60 tokens on one day when the next one begins. -/
def lateTick : List Event :=
  [⟨0, .reserve .daily 3 100 60 true⟩, ⟨86400, .remaining .daily 3 100 true⟩]

/-- A key has used 50 tokens on a day when the worker looks at it. -/
def forgottenTokens : List Event := [⟨86400, .reserve .daily 4 100 50 true⟩, ⟨30, .tick⟩]

/-- The tokens of the day before are counted, and those of the new day are forgotten. -/
theorem not_accounted_lateTick : ¬ Always step Accounted (start 0) lateTick ∧
    ¬ Always step Accounted (start 0) forgottenTokens := by
  constructor
  · intro h
    have hremaining := h.last .daily 3 100 (by decide)
    revert hremaining
    decide
  · intro h
    have hremaining := h.last .daily 4 100 (by decide)
    revert hremaining
    decide

end Aigate.DailyQuota
