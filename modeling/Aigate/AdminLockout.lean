import Mathlib.Data.Set.Basic
import Mathlib.Logic.Function.Basic
import Aigate.Text

/-!
# The lockout of the admin interface

Failed attempts are counted in 128 slots, which clients share by a hash of their address. A slot
keeps the address of the client that it counts for, cut at 31 bytes. A failure and a success look
at that address, and the check before the token does not.
-/
namespace Aigate.AdminLockout
open Text

/-- The limits, which are only ever set within these bounds. -/
structure Policy where
  maxFails : ℕ
  windowS : ℕ
  fails_bounds : 2 ≤ maxFails ∧ maxFails ≤ 1000
  window_bounds : 5 ≤ windowS ∧ windowS ≤ 3600

def defaultPolicy : Policy := ⟨10, 300, by decide, by decide⟩

/-- `admin_lockout_set_policy`: other values keep the policy. -/
def Policy.set (policy : Policy) (maxFails windowS : ℕ) : Policy :=
  if h : (2 ≤ maxFails ∧ maxFails ≤ 1000) ∧ 5 ≤ windowS ∧ windowS ≤ 3600 then
    ⟨maxFails, windowS, h.1, h.2⟩
  else policy

structure LockoutSlot where
  ip : Bytes
  fails : ℕ
  firstFail : ℤ
  inUse : Bool

abbrev Slots := Fin 128 → LockoutSlot

/-- The slots when the process starts. -/
def noSlots : Slots := fun _ => ⟨[], 0, 0, false⟩

/-- `lockout_slot_for`: FNV-1a. -/
def slotFor (ip : Bytes) : Fin 128 :=
  Fin.ofNat 128 (ip.foldl (fun h c => (h ^^^ c.toNat) * 16777619 % 2 ^ 32) 2166136261)

/-- An address as a slot keeps it. -/
def storedIp (ip : Bytes) : Bytes := ip.take 31

/-- `lockout_hit`. -/
def lockoutHit (policy : Policy) (slots : Slots) (ip : Bytes) (now : ℤ) : Bool :=
  let s := slots (slotFor ip)
  s.inUse && decide (policy.maxFails ≤ s.fails) && decide (now - s.firstFail < policy.windowS)

/-- The change of a slot by a failure. -/
def failSlot (policy : Policy) (ip : Bytes) (now : ℤ) (s : LockoutSlot) : LockoutSlot :=
  if s.inUse = false ∨ s.ip ≠ ip then ⟨storedIp ip, 1, now, true⟩
  else
    let s :=
      if policy.windowS ≤ now - s.firstFail then { s with fails := 0, firstFail := now } else s
    { s with fails := s.fails + 1 }

/-- `lockout_fail`. -/
def lockoutFail (policy : Policy) (slots : Slots) (ip : Bytes) (now : ℤ) : Slots :=
  Function.update slots (slotFor ip) (failSlot policy ip now (slots (slotFor ip)))

/-- `lockout_clear`. -/
def lockoutClear (slots : Slots) (ip : Bytes) : Slots :=
  let s := slots (slotFor ip)
  if s.inUse = true ∧ s.ip = ip then
    Function.update slots (slotFor ip) { s with inUse := false, fails := 0, firstFail := 0 }
  else slots

/-- An attempt of a client, with the right token or without. -/
structure Attempt where
  ip : Bytes
  now : ℤ
  authOk : Bool

inductive Answer where
  | lockedOut
  | authError
  | accepted
  deriving DecidableEq

/-- The gate of `admin_dispatch`. -/
def attempt (policy : Policy) (slots : Slots) (a : Attempt) : Slots × Answer :=
  if lockoutHit policy slots a.ip a.now then (slots, .lockedOut)
  else if a.authOk = false then (lockoutFail policy slots a.ip a.now, .authError)
  else (lockoutClear slots a.ip, .accepted)

def run (policy : Policy) (slots : Slots) (attempts : List Attempt) : Slots :=
  attempts.foldl (fun slots a => (attempt policy slots a).1) slots

/-- The failures of a client in its window, and when it began. -/
structure Window where
  fails : ℕ
  since : ℤ
  deriving DecidableEq

/-- The failures are enough, and the window is not over. -/
def Locked (policy : Policy) (now : ℤ) : Option Window → Prop
  | none => False
  | some w => policy.maxFails ≤ w.fails ∧ now - w.since < policy.windowS

instance (policy : Policy) (now : ℤ) (w : Option Window) : Decidable (Locked policy now w) := by
  unfold Locked
  cases w with
  | none => exact inferInstanceAs (Decidable False)
  | some w => exact inferInstanceAs (Decidable (_ ∧ _))

/-- A failure counts in the window that it falls into, or begins one. -/
def failed (policy : Policy) (now : ℤ) : Option Window → Window
  | none => ⟨1, now⟩
  | some w => if policy.windowS ≤ now - w.since then ⟨1, now⟩ else ⟨w.fails + 1, w.since⟩

/-- What an attempt of the client itself makes of its window. -/
def counted (policy : Policy) (w : Option Window) (a : Attempt) : Option Window :=
  if Locked policy a.now w then w
  else if a.authOk = false then some (failed policy a.now w)
  else none

/-- The window of a client, by its own attempts and no others. -/
def ownWindow (policy : Policy) (ip : Bytes) (attempts : List Attempt) : Option Window :=
  (attempts.filter fun a => a.ip = ip).foldl (counted policy) none

/-- An attempt is refused as locked out if and only if its own client is locked out. -/
def PerClient (policy : Policy) (attempts : List Attempt) : Prop :=
  ∀ before a after, attempts = before ++ a :: after →
    ((attempt policy (run policy noSlots before) a).2 = .lockedOut ↔
      Locked policy a.now (ownWindow policy a.ip before))

/-- The clock does not go back. -/
def Ordered (attempts : List Attempt) : Prop := attempts.Pairwise fun a b => a.now ≤ b.now

/-- Addresses that a slot keeps whole, no two of them in one slot. -/
structure Apart (ips : Set Bytes) : Prop where
  fits : ∀ ip ∈ ips, storedIp ip = ip
  slots : ∀ ip ∈ ips, ∀ ip' ∈ ips, slotFor ip = slotFor ip' → ip = ip'

/-- The slot of a client that has a window to itself. -/
def ownSlot (ip : Bytes) (w : Window) : LockoutSlot := ⟨ip, w.fails, w.since, true⟩

/-- The slot of a client holds its window. -/
def Holds (ip : Bytes) (s : LockoutSlot) : Option Window → Prop
  | none => s.inUse = false
  | some w => s = ownSlot ip w

theorem lockedOut_iff {policy : Policy} {slots : Slots} {a : Attempt} :
    (attempt policy slots a).2 = .lockedOut ↔ lockoutHit policy slots a.ip a.now = true := by
  unfold attempt
  split
  · rename_i hhit
    exact iff_of_true rfl hhit
  · rename_i hhit
    refine iff_of_false ?_ hhit
    split
    · nofun
    · nofun

theorem hit_iff {policy : Policy} {slots : Slots} {ip : Bytes} {w : Option Window}
    (h : Holds ip (slots (slotFor ip)) w) (now : ℤ) :
    lockoutHit policy slots ip now = true ↔ Locked policy now w := by
  cases w with
  | none =>
    have hunused : (slots (slotFor ip)).inUse = false := h
    simp [lockoutHit, hunused, Locked]
  | some w =>
    have hslot : slots (slotFor ip) = ownSlot ip w := h
    simp [lockoutHit, hslot, ownSlot, Locked]

theorem Holds.fail {policy : Policy} {ip : Bytes} (hfits : storedIp ip = ip) {s : LockoutSlot}
    {w : Option Window} (h : Holds ip s w) (now : ℤ) :
    Holds ip (failSlot policy ip now s) (some (failed policy now w)) := by
  cases w with
  | none =>
    have hunused : s.inUse = false := h
    simp only [Holds, failSlot, hunused, true_or, if_true, failed, hfits, ownSlot]
  | some w =>
    obtain rfl : s = ownSlot ip w := h
    have hsame : ¬((ownSlot ip w).inUse = false ∨ (ownSlot ip w).ip ≠ ip) := by simp [ownSlot]
    simp only [Holds, failSlot, if_neg hsame, failed]
    split
    · rw [if_pos (by assumption)]
      rfl
    · rw [if_neg (by assumption)]
      rfl

/-- The slot of the client after its own attempt. -/
theorem Holds.attempt {policy : Policy} {slots : Slots} {a : Attempt} (hfits : storedIp a.ip = a.ip)
    {w : Option Window} (h : Holds a.ip (slots (slotFor a.ip)) w) :
    Holds a.ip ((attempt policy slots a).1 (slotFor a.ip)) (counted policy w a) := by
  unfold AdminLockout.attempt counted
  by_cases hlocked : Locked policy a.now w
  · rw [if_pos ((hit_iff h a.now).mpr hlocked), if_pos hlocked]
    exact h
  · rw [if_neg fun hhit => hlocked ((hit_iff h a.now).mp hhit), if_neg hlocked]
    cases hauth : a.authOk with
    | false =>
      rw [if_pos rfl, if_pos rfl]
      simp only [lockoutFail, Function.update_self]
      exact h.fail hfits a.now
    | true =>
      rw [if_neg Bool.noConfusion, if_neg Bool.noConfusion]
      simp only [lockoutClear]
      cases w with
      | none =>
        have hunused : (slots (slotFor a.ip)).inUse = false := h
        rw [if_neg (by simp [hunused])]
        exact h
      | some w =>
        have hslot : slots (slotFor a.ip) = ownSlot a.ip w := h
        rw [hslot, if_pos ⟨rfl, rfl⟩, Function.update_self]
        rfl

/-- The slots of the other clients stay as they are. -/
theorem attempt_ne (policy : Policy) (slots : Slots) (a : Attempt) {i : Fin 128}
    (hi : i ≠ slotFor a.ip) : (attempt policy slots a).1 i = slots i := by
  unfold attempt
  split
  · rfl
  · split
    · exact Function.update_of_ne hi _ _
    · simp only [lockoutClear]
      split
      · exact Function.update_of_ne hi _ _
      · rfl

theorem ownWindow_concat (policy : Policy) (ip : Bytes) (attempts : List Attempt) (a : Attempt) :
    ownWindow policy ip (attempts ++ [a]) =
      if a.ip = ip then counted policy (ownWindow policy ip attempts) a
      else ownWindow policy ip attempts := by
  unfold ownWindow
  rw [List.filter_append, List.foldl_append]
  split
  · rename_i hip
    rw [List.filter_cons_of_pos (by simpa using hip)]
    rfl
  · rename_i hip
    rw [List.filter_cons_of_neg (by simpa using hip)]
    rfl

theorem run_concat (policy : Policy) (slots : Slots) (attempts : List Attempt) (a : Attempt) :
    run policy slots (attempts ++ [a]) = (attempt policy (run policy slots attempts) a).1 := by
  unfold run
  rw [List.foldl_append]
  rfl

/-- Clients with slots of their own are counted by their own attempts. -/
theorem holds_run {policy : Policy} {ips : Set Bytes} (h : Apart ips) {attempts : List Attempt}
    (hon : ∀ a ∈ attempts, a.ip ∈ ips) {ip : Bytes} (hip : ip ∈ ips) :
    Holds ip (run policy noSlots attempts (slotFor ip)) (ownWindow policy ip attempts) := by
  induction attempts using List.reverseRecOn with
  | nil => rfl
  | append_singleton attempts a ih =>
    have hbefore := ih fun b hb => hon b (List.mem_append_left _ hb)
    have ha : a.ip ∈ ips := hon a (List.mem_append_right _ (List.mem_singleton.mpr rfl))
    rw [run_concat, ownWindow_concat]
    by_cases hsame : a.ip = ip
    · subst hsame
      rw [if_pos rfl]
      exact hbefore.attempt (h.fits a.ip ha)
    · have hslot : slotFor ip ≠ slotFor a.ip := fun heq => hsame (h.slots _ ha _ hip heq.symm)
      rw [if_neg hsame, attempt_ne policy _ a hslot]
      exact hbefore

theorem perClient_of_apart {policy : Policy} {ips : Set Bytes} (h : Apart ips)
    {attempts : List Attempt} (hon : ∀ a ∈ attempts, a.ip ∈ ips) : PerClient policy attempts := by
  intro before a after heq
  subst heq
  have hbefore : ∀ b ∈ before, b.ip ∈ ips := fun b hb => hon b (List.mem_append_left _ hb)
  have ha : a.ip ∈ ips := hon a (List.mem_append_right _ List.mem_cons_self)
  rw [lockedOut_iff]
  exact hit_iff (holds_run h hbefore ha) a.now

/-- Failures of a client, all at once. -/
def failures (ip : Bytes) (k : ℕ) : List Attempt := List.replicate k ⟨ip, 0, false⟩

theorem failures_succ (ip : Bytes) (k : ℕ) :
    failures ip (k + 1) = failures ip k ++ [⟨ip, 0, false⟩] := List.replicate_succ'

/-- So many failures lock a client out. -/
theorem ownWindow_failures (policy : Policy) (ip : Bytes) {k : ℕ} (hk : k < policy.maxFails) :
    ownWindow policy ip (failures ip (k + 1)) = some ⟨k + 1, 0⟩ := by
  have hwindow : ¬(policy.windowS : ℤ) ≤ 0 - 0 := by
    have hbounds := policy.window_bounds
    omega
  induction k with
  | zero =>
    rw [failures_succ, ownWindow_concat, if_pos rfl]
    rfl
  | succ k ih =>
    have hunlocked : ¬Locked policy 0 (some ⟨k + 1, 0⟩) := fun h => absurd h.1 (not_le.mpr hk)
    rw [failures_succ, ownWindow_concat, if_pos rfl, ih (by omega), counted, if_neg hunlocked,
      if_pos rfl, failed, if_neg hwindow]

theorem locked_failures (policy : Policy) (ip : Bytes) :
    Locked policy 0 (ownWindow policy ip (failures ip policy.maxFails)) := by
  have hfails := policy.fails_bounds
  have hwindow := policy.window_bounds
  obtain ⟨k, hk⟩ : ∃ k, policy.maxFails = k + 1 := ⟨policy.maxFails - 1, by omega⟩
  rw [hk, ownWindow_failures policy ip (by omega)]
  exact ⟨hk.le, show (0 : ℤ) - 0 < policy.windowS by omega⟩

theorem ownWindow_failures_ne (policy : Policy) {ip ip' : Bytes} (h : ip ≠ ip') (k : ℕ) :
    ownWindow policy ip' (failures ip k) = none := by
  have hnone : (failures ip k).filter (fun a => decide (a.ip = ip')) = [] := by
    rw [List.filter_eq_nil_iff]
    intro a ha
    rw [List.eq_of_mem_replicate ha]
    simpa using h
  rw [ownWindow, hnone]
  rfl

/-- An address that is cut counts one failure over and over. -/
theorem slot_failures_cut {policy : Policy} {ip : Bytes} (hcut : storedIp ip ≠ ip) (k : ℕ) :
    run policy noSlots (failures ip (k + 1)) (slotFor ip) = ⟨storedIp ip, 1, 0, true⟩ := by
  have hfails := policy.fails_bounds
  have hnext : ∀ slots : Slots, lockoutHit policy slots ip 0 = false →
      ((slots (slotFor ip)).inUse = false ∨ (slots (slotFor ip)).ip ≠ ip) →
      (attempt policy slots ⟨ip, 0, false⟩).1 (slotFor ip) = ⟨storedIp ip, 1, 0, true⟩ := by
    intro slots hhit hother
    simp only [attempt, hhit, Bool.false_eq_true, if_false, if_true, lockoutFail,
      Function.update_self, failSlot]
    rw [if_pos hother]
  induction k with
  | zero => exact hnext noSlots rfl (Or.inl rfl)
  | succ k ih =>
    rw [failures_succ, run_concat]
    apply hnext
    · simp only [lockoutHit, ih]
      simp only [Bool.true_and, Bool.and_eq_false_iff, decide_eq_false_iff_not]
      left
      omega
    · rw [ih]
      exact Or.inr hcut

theorem not_perClient {policy : Policy} {ip : Bytes} (k : ℕ) {a : Attempt}
    (h : ¬((attempt policy (run policy noSlots (failures ip k)) a).2 = .lockedOut ↔
      Locked policy a.now (ownWindow policy a.ip (failures ip k)))) :
    ¬PerClient policy (failures ip k ++ [a]) :=
  fun hall => h (hall (failures ip k) a [] rfl)

theorem not_perClient_cut (policy : Policy) {ip : Bytes} (hcut : storedIp ip ≠ ip) :
    ¬PerClient policy (failures ip policy.maxFails ++ [⟨ip, 0, false⟩]) := by
  have hfails := policy.fails_bounds
  apply not_perClient
  intro h
  have hhit := lockedOut_iff.mp (h.mpr (locked_failures policy ip))
  obtain ⟨k, hk⟩ : ∃ k, policy.maxFails = k + 1 := ⟨policy.maxFails - 1, by omega⟩
  simp only [lockoutHit, hk, slot_failures_cut hcut k, Bool.true_and, Bool.and_eq_true,
    decide_eq_true_eq] at hhit
  omega

theorem not_perClient_shared (policy : Policy) {ip ip' : Bytes} (hfits : storedIp ip = ip)
    (hne : ip ≠ ip') (hslot : slotFor ip = slotFor ip') :
    ¬PerClient policy (failures ip policy.maxFails ++ [⟨ip', 0, false⟩]) := by
  have hapart : Apart {ip} := by
    refine ⟨?_, ?_⟩
    · rintro _ rfl
      exact hfits
    · rintro _ rfl _ rfl -
      rfl
  have hon : ∀ a ∈ failures ip policy.maxFails, a.ip ∈ ({ip} : Set Bytes) := fun a ha => by
    rw [List.eq_of_mem_replicate ha]
    rfl
  have hholds := @holds_run policy {ip} hapart _ hon ip rfl
  have hhit := (hit_iff hholds 0).mpr (locked_failures policy ip)
  apply not_perClient
  intro h
  have hlocked := h.mp (lockedOut_iff.mpr (by
    simpa only [lockoutHit, hslot] using hhit))
  rw [ownWindow_failures_ne policy hne] at hlocked
  exact hlocked

theorem ordered_failures (ip : Bytes) (k : ℕ) {a : Attempt} (ha : a.now = 0) :
    Ordered (failures ip k ++ [a]) := by
  have hzero : ∀ b ∈ failures ip k ++ [a], b.now = 0 := by
    intro b hb
    rcases List.mem_append.mp hb with hb | hb
    · rw [List.eq_of_mem_replicate hb]
    · rw [List.mem_singleton.mp hb, ha]
  apply List.pairwise_of_forall_mem_list
  intro b hb c hc
  rw [hzero b hb, hzero c hc]

/-- Exactly the clients with whole addresses and slots of their own are locked out by their own
attempts alone. -/
theorem perClient_iff (policy : Policy) (ips : Set Bytes) :
    (∀ attempts, Ordered attempts → (∀ a ∈ attempts, a.ip ∈ ips) → PerClient policy attempts) ↔
      Apart ips := by
  constructor
  · intro h
    have hon : ∀ ip ∈ ips, ∀ ip' ∈ ips, ∀ k, ∀ a ∈ failures ip k ++ [(⟨ip', 0, false⟩ : Attempt)],
        a.ip ∈ ips := by
      intro ip hip ip' hip' k a ha
      rcases List.mem_append.mp ha with ha | ha
      · rw [List.eq_of_mem_replicate ha]
        exact hip
      · rw [List.mem_singleton.mp ha]
        exact hip'
    have hfits : ∀ ip ∈ ips, storedIp ip = ip := by
      intro ip hip
      by_contra hcut
      exact not_perClient_cut policy hcut
        (h _ (ordered_failures ip _ rfl) (hon ip hip ip hip policy.maxFails))
    refine ⟨hfits, fun ip hip ip' hip' hslot => ?_⟩
    by_contra hne
    exact not_perClient_shared policy (hfits ip hip) hne hslot
      (h _ (ordered_failures ip _ rfl) (hon ip hip ip' hip' policy.maxFails))
  · intro h attempts _ hon
    exact perClient_of_apart h hon

/-- After ten failures of one client another one is locked out. -/
theorem not_perClient_neighbour : ¬PerClient defaultPolicy
    (failures (ascii "10.0.0.9") 10 ++ [⟨ascii "10.0.0.30", 0, false⟩]) := by
  apply not_perClient_shared defaultPolicy
  · decide +kernel
  · decide +kernel
  · decide +kernel

end Aigate.AdminLockout
