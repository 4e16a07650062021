import Mathlib.Data.List.Range
import Aigate.GuardedRuns

/-!
# The live events of the audit log

The last events stand in a ring, each with its number. The endpoint of the dashboard answers with
those behind the number that the client has from the last answer, and counts those that are no
longer in the ring. An answer without events has no number, and the next query starts afresh.
-/
namespace Aigate.AuditLive
open GuardedRuns

variable {α : Type*}

/-- `live_ring_cap`. -/
def liveRingCap : ℕ := 2048

/-- `audit_live_event_t`: the number of an event and its fields. -/
structure LiveEvent (α : Type*) where
  seqId : ℕ
  event : α
  deriving DecidableEq

structure AuditLogger (α : Type*) where
  liveRing : ℕ → LiveEvent α
  nextSeqId : ℕ

/-- `audit_logger_create`: the ring is zeroed. -/
def create (zero : α) : AuditLogger α := ⟨fun _ => ⟨0, zero⟩, 1⟩

/-- `audit_logger_record`, from the live ring on. -/
def AuditLogger.record (al : AuditLogger α) (ev : α) : AuditLogger α where
  liveRing := Function.update al.liveRing ((al.nextSeqId - 1) % liveRingCap) ⟨al.nextSeqId, ev⟩
  nextSeqId := al.nextSeqId + 1

def AuditLogger.totalPushed (al : AuditLogger α) : ℕ := al.nextSeqId - 1

def AuditLogger.oldestSeq (al : AuditLogger α) : ℕ :=
  if liveRingCap < al.totalPushed then al.totalPushed - liveRingCap + 1 else 1

/-- The number from which a query reads on, and how many events it has missed. -/
def AuditLogger.startSeq (al : AuditLogger α) (maxCount afterSeq : ℕ) : ℕ × ℕ :=
  if afterSeq = 0 then
    if maxCount < al.totalPushed then (max (al.totalPushed - maxCount + 1) al.oldestSeq, 0)
    else (al.oldestSeq, 0)
  else if afterSeq < al.oldestSeq - 1 then (al.oldestSeq, al.oldestSeq - 1 - afterSeq)
  else (afterSeq + 1, 0)

/-- The slots of so many numbers from a number on. -/
def AuditLogger.slots (al : AuditLogger α) (start count : ℕ) : List (LiveEvent α) :=
  (List.range' start count).map fun s => al.liveRing ((s - 1) % liveRingCap)

/-- `audit_logger_query_recent`. -/
def AuditLogger.queryRecent (al : AuditLogger α) (maxCount afterSeq : ℕ) :
    List (LiveEvent α) × ℕ :=
  if maxCount = 0 ∨ al.nextSeqId ≤ 1 then ([], 0)
  else
    let start := al.startSeq maxCount afterSeq
    (al.slots start.1 (min maxCount (al.totalPushed + 1 - start.1)), start.2)

/-- The answer of the endpoint. -/
structure Answer (α : Type*) where
  events : List (LiveEvent α)
  latestSeq : ℕ
  missedCount : ℕ

/-- The limit of a query, when it gives one. -/
def eventLimit : Option ℤ → ℕ
  | some val => if 0 < val then min val.toNat 200 else 50
  | none => 50

/-- `admin_audit_events_get`, with the numbers of the query. -/
def adminAuditEventsGet (al : AuditLogger α) (limit : Option ℤ) (afterSeq : ℕ) : Answer α :=
  let found := al.queryRecent (eventLimit limit) afterSeq
  { events := found.1
    latestSeq := (found.1.map LiveEvent.seqId).foldl max 0
    missedCount := found.2 }

/-! ### A client -/

inductive Op (α : Type*) where
  | record (ev : α)
  | poll (limit : Option ℤ)

/-- The log, all events that were recorded, the cursor of the client, how many events there were
at its first poll, and what it was told since: events, and numbers of missed ones. -/
structure World (α : Type*) where
  al : AuditLogger α
  recorded : List α
  cursor : ℕ
  first : Option ℕ
  delivered : List (LiveEvent α)
  missed : ℕ

def start (zero : α) : World α := ⟨create zero, [], 0, none, [], 0⟩

def step (w : World α) : Op α → World α
  | .record ev => { w with al := w.al.record ev, recorded := w.recorded ++ [ev] }
  | .poll limit =>
    let answer := adminAuditEventsGet w.al limit w.cursor
    match w.first with
    | none => { w with cursor := answer.latestSeq, first := some w.recorded.length }
    | some _ =>
      { w with
        cursor := answer.latestSeq
        delivered := w.delivered ++ answer.events
        missed := w.missed + answer.missedCount }

/-- The number at the first poll, and the numbers that were delivered since. -/
def numbers (w : World α) : List ℕ := w.first.getD 0 :: w.delivered.map LiveEvent.seqId

/-- The last event that the client was told of. -/
def heard (w : World α) : ℕ := (numbers w).getLastD 0

/-- What was delivered since the first poll are recorded events, in order and each once, and the
others up to the last of them are counted as missed. -/
structure Accounted (w : World α) : Prop where
  recorded : ∀ e ∈ w.delivered, w.recorded[e.seqId - 1]? = some e.event
  ordered : (numbers w).Pairwise (· < ·)
  counted : heard w = w.first.getD 0 + w.delivered.length + w.missed

/-- A poll after the first has a cursor, or else the events that do not fit in its answer are as
many as the client was told of. -/
def StepOk (w : World α) : Op α → Prop
  | .record _ => True
  | .poll limit =>
    w.first = none ∨ w.cursor ≠ 0 ∨ w.recorded.length - eventLimit limit = heard w

/-! ### The ring -/

/-- The ring holds the last events under their numbers. -/
structure Ring (al : AuditLogger α) (recorded : List α) : Prop where
  next : al.nextSeqId = recorded.length + 1
  slot : ∀ s, 1 ≤ s → s ≤ recorded.length → recorded.length < s + liveRingCap →
    (al.liveRing ((s - 1) % liveRingCap)).seqId = s ∧
      recorded[s - 1]? = some (al.liveRing ((s - 1) % liveRingCap)).event

theorem Ring.create (zero : α) : Ring (create zero) ([] : List α) where
  next := rfl
  slot := fun s hs hle => by
    rw [List.length_nil] at hle
    omega

theorem Ring.record {al : AuditLogger α} {recorded : List α} (h : Ring al recorded) (ev : α) :
    Ring (al.record ev) (recorded ++ [ev]) where
  next := by
    rw [List.length_append, List.length_singleton, ← h.next]
    rfl
  slot := by
    intro s hs hle hcap
    rw [List.length_append, List.length_singleton] at hle hcap
    have hnext : al.nextSeqId - 1 = recorded.length := by rw [h.next, Nat.add_sub_cancel]
    unfold AuditLogger.record
    rw [hnext]
    by_cases hlast : s = recorded.length + 1
    · subst hlast
      simp [h.next]
    · -- numbers less than a ring apart have different slots
      have hne : (s - 1) % liveRingCap ≠ recorded.length % liveRingCap := by
        unfold liveRingCap at hcap ⊢
        omega
      have hold := h.slot s hs (by omega) (by omega)
      simp only [Function.update_of_ne hne]
      rw [List.getElem?_append_left (by omega)]
      exact hold

theorem eventLimit_pos (limit : Option ℤ) : 1 ≤ eventLimit limit ∧ eventLimit limit ≤ 200 := by
  cases limit with
  | none => decide
  | some val =>
    unfold eventLimit
    dsimp only
    split <;> omega

section Queries
variable {al : AuditLogger α} {recorded : List α} (h : Ring al recorded)
include h

theorem Ring.totalPushed_eq : al.totalPushed = recorded.length := by
  rw [AuditLogger.totalPushed, h.next, Nat.add_sub_cancel]

theorem Ring.oldestSeq_eq : al.oldestSeq = recorded.length - liveRingCap + 1 := by
  rw [AuditLogger.oldestSeq, h.totalPushed_eq]
  split <;> omega

/-- Numbers that are in the ring are read with their events. -/
theorem Ring.slots_spec {first count : ℕ} (hfirst : 1 ≤ first)
    (hold : recorded.length < first + liveRingCap) (hlast : first + count ≤ recorded.length + 1) :
    (al.slots first count).map LiveEvent.seqId = List.range' first count ∧
      ∀ e ∈ al.slots first count, recorded[e.seqId - 1]? = some e.event := by
  have hslot : ∀ s ∈ List.range' first count,
      (al.liveRing ((s - 1) % liveRingCap)).seqId = s ∧
        recorded[s - 1]? = some (al.liveRing ((s - 1) % liveRingCap)).event := by
    intro s hs
    rw [List.mem_range'_1] at hs
    exact h.slot s (by omega) (by omega) (by omega)
  constructor
  · rw [AuditLogger.slots, List.map_map]
    exact (List.map_congr_left fun s hs => (hslot s hs).1).trans (List.map_id _)
  · intro e he
    obtain ⟨s, hs, rfl⟩ := List.mem_map.mp he
    obtain ⟨hseq, hevent⟩ := hslot s hs
    rw [hseq]
    exact hevent

/-- Without a cursor a query answers with the last events. -/
theorem Ring.startSeq_zero {maxCount : ℕ} (hmax : maxCount ≤ 200) :
    al.startSeq maxCount 0 = (recorded.length - maxCount + 1, 0) := by
  unfold AuditLogger.startSeq
  rw [if_pos rfl, h.totalPushed_eq, h.oldestSeq_eq]
  unfold liveRingCap
  split
  · rw [Nat.max_eq_left (by omega)]
  · rw [Prod.mk.injEq]
    exact ⟨by omega, rfl⟩

/-- With a cursor it goes on behind the cursor, and counts what is no longer there. -/
theorem Ring.startSeq_pos {maxCount cursor : ℕ} (hcursor : cursor ≠ 0) :
    (al.startSeq maxCount cursor).1 = cursor + (al.startSeq maxCount cursor).2 + 1 ∧
      recorded.length < (al.startSeq maxCount cursor).1 + liveRingCap ∧
        (cursor ≤ recorded.length → (al.startSeq maxCount cursor).1 ≤ recorded.length ∨
          (al.startSeq maxCount cursor).2 = 0) := by
  unfold AuditLogger.startSeq
  rw [if_neg hcursor, h.oldestSeq_eq]
  unfold liveRingCap
  split
  · dsimp only
    omega
  · dsimp only
    omega

theorem Ring.queryRecent_eq {maxCount cursor : ℕ} (hpos : 1 ≤ maxCount) (hmax : maxCount ≤ 200)
    (hzero : recorded.length = 0 → cursor = 0) :
    al.queryRecent maxCount cursor = (al.slots (al.startSeq maxCount cursor).1
      (min maxCount (recorded.length + 1 - (al.startSeq maxCount cursor).1)),
        (al.startSeq maxCount cursor).2) := by
  unfold AuditLogger.queryRecent
  split
  · have hempty : recorded.length = 0 := by
      have hnext := h.next
      omega
    rw [hzero hempty, h.startSeq_zero hmax, hempty]
    simp [AuditLogger.slots]
  · dsimp only
    rw [h.totalPushed_eq]

end Queries

theorem foldl_max_range' (m first count : ℕ) :
    (List.range' first count).foldl max m = if count = 0 then m else max m (first + count - 1) := by
  induction count generalizing m first with
  | zero => rfl
  | succ count ih =>
    rw [List.range'_succ, List.foldl_cons, ih, if_neg (Nat.succ_ne_zero _)]
    split <;> omega

/-- What a poll answers: numbers from one on, with their events, the last of them, and how many
were missed before. -/
structure Tells (recorded : List α) (answer : Answer α) (first count missed : ℕ) : Prop where
  numbers : answer.events.map LiveEvent.seqId = List.range' first count
  events : ∀ e ∈ answer.events, recorded[e.seqId - 1]? = some e.event
  latestSeq : answer.latestSeq = if count = 0 then 0 else first + count - 1
  missedCount : answer.missedCount = missed
  length : answer.events.length = count

theorem Ring.answer_tells {al : AuditLogger α} {recorded : List α} (h : Ring al recorded)
    {limit : Option ℤ} {cursor first missed : ℕ}
    (hstart : al.startSeq (eventLimit limit) cursor = (first, missed))
    (hzero : recorded.length = 0 → cursor = 0) (hfirst : 1 ≤ first)
    (hold : recorded.length < first + liveRingCap) (hlast : first ≤ recorded.length + 1) :
    Tells recorded (adminAuditEventsGet al limit cursor) first
      (min (eventLimit limit) (recorded.length + 1 - first)) missed := by
  have hlimit := eventLimit_pos limit
  have hquery := h.queryRecent_eq hlimit.1 hlimit.2 hzero
  rw [hstart] at hquery
  have hroom : first + min (eventLimit limit) (recorded.length + 1 - first) ≤
      recorded.length + 1 := by omega
  obtain ⟨hnumbers, hevents⟩ := h.slots_spec hfirst hold hroom
  have hanswer : (adminAuditEventsGet al limit cursor).events =
      al.slots first (min (eventLimit limit) (recorded.length + 1 - first)) :=
    congrArg Prod.fst hquery
  constructor
  · rw [hanswer, hnumbers]
  · rw [hanswer]
    exact hevents
  · have hlatest : (adminAuditEventsGet al limit cursor).latestSeq =
        ((adminAuditEventsGet al limit cursor).events.map LiveEvent.seqId).foldl max 0 := rfl
    rw [hlatest, hanswer, hnumbers, foldl_max_range', Nat.zero_max]
  · exact congrArg Prod.snd hquery
  · rw [hanswer, AuditLogger.slots, List.length_map, List.length_range']

/-! ### What a poll keeps -/

/-- The ring holds the last events, and a cursor is the number of the last event that the client
was told of. -/
structure Inv (w : World α) : Prop where
  ring : Ring w.al w.recorded
  heard_le : heard w ≤ w.recorded.length
  cursor : w.cursor ≠ 0 → w.first ≠ none ∧ w.cursor = heard w
  fresh : w.first = none → w.delivered = [] ∧ w.missed = 0

/-- The client after a poll that told it something. -/
def World.told (w : World α) (answer : Answer α) : World α :=
  { w with
    cursor := answer.latestSeq
    delivered := w.delivered ++ answer.events
    missed := w.missed + answer.missedCount }

theorem step_poll {w : World α} {n : ℕ} (hfirst : w.first = some n) (limit : Option ℤ) :
    step w (.poll limit) = w.told (adminAuditEventsGet w.al limit w.cursor) := by
  simp [step, hfirst, World.told]

theorem numbers_told {w : World α} {answer : Answer α} {first count missed : ℕ}
    (h : Tells w.recorded answer first count missed) :
    numbers (w.told answer) = numbers w ++ List.range' first count := by
  rw [numbers, World.told, List.map_append, h.numbers]
  rfl

theorem heard_told {w : World α} {answer : Answer α} {first count missed : ℕ}
    (h : Tells w.recorded answer first count missed) :
    heard (w.told answer) = if count = 0 then heard w else first + count - 1 := by
  rw [heard, numbers_told h]
  cases count with
  | zero => simp [heard]
  | succ count =>
    rw [List.range'_concat, ← List.append_assoc, List.getLastD_concat, if_neg (Nat.succ_ne_zero _)]
    omega

theorem le_heard {w : World α} (h : (numbers w).Pairwise (· < ·)) {n : ℕ} (hn : n ∈ numbers w) :
    n ≤ heard w := by
  obtain hnil | ⟨init, last, hlast⟩ := List.eq_nil_or_concat' (numbers w)
  · rw [hnil] at hn
    cases hn
  · have hheard : heard w = last := by rw [heard, hlast, List.getLastD_concat]
    rw [hlast] at h hn
    rw [hheard]
    rcases List.mem_append.mp hn with hinit | hn
    · exact (List.pairwise_append.mp h).2.2 n hinit last (List.mem_singleton_self _) |>.le
    · exact (List.mem_singleton.mp hn).le

/-- An answer continues the account exactly if it begins behind what the client was told of, with
as many events missed as there are between. -/
theorem accounted_told {w : World α} (hw : Accounted w) {answer : Answer α}
    {first count missed : ℕ} (h : Tells w.recorded answer first count missed) (hcount : count ≠ 0) :
    Accounted (w.told answer) ↔ first = heard w + missed + 1 := by
  have hnumbers := numbers_told h
  have hheard := heard_told h
  rw [if_neg hcount] at hheard
  have hlength : (w.told answer).delivered.length = w.delivered.length + count := by
    rw [World.told, List.length_append, h.length]
  have hmissed : (w.told answer).missed = w.missed + missed := by
    rw [World.told, h.missedCount]
  have hcounted := hw.counted
  constructor
  · intro hafter
    have hsum := hafter.counted
    rw [hheard, hlength, hmissed] at hsum
    have hsame : (w.told answer).first = w.first := rfl
    rw [hsame] at hsum
    omega
  · rintro rfl
    refine ⟨?_, ?_, ?_⟩
    · intro e he
      rcases List.mem_append.mp he with hold | hnew
      · exact hw.recorded e hold
      · exact h.events e hnew
    · rw [hnumbers]
      refine List.pairwise_append.mpr ⟨hw.ordered, List.pairwise_lt_range', ?_⟩
      intro a ha b hb
      have hle := le_heard hw.ordered ha
      rw [List.mem_range'_1] at hb
      omega
    · rw [hheard, hlength, hmissed]
      change _ = w.first.getD 0 + _ + _
      omega

theorem accounted_told_nothing {w : World α} (hw : Accounted w) {answer : Answer α} {first : ℕ}
    (h : Tells w.recorded answer first 0 0) : Accounted (w.told answer) := by
  have hevents : answer.events = [] := List.eq_nil_of_length_eq_zero h.length
  have hdelivered : w.delivered ++ answer.events = w.delivered := by
    rw [hevents, List.append_nil]
  have hmissed : w.missed + answer.missedCount = w.missed := by rw [h.missedCount, Nat.add_zero]
  unfold World.told
  rw [hdelivered, hmissed]
  exact ⟨hw.recorded, hw.ordered, hw.counted⟩

/-- A poll tells the numbers from one on that is in the ring or next, and only if there are
events it tells of missed ones. Without a cursor it tells the last events. -/
theorem Inv.tells {w : World α} (hi : Inv w) (limit : Option ℤ) :
    ∃ first missed, Tells w.recorded (adminAuditEventsGet w.al limit w.cursor) first
        (min (eventLimit limit) (w.recorded.length + 1 - first)) missed ∧
      1 ≤ first ∧ first ≤ w.recorded.length + 1 ∧
        (first ≤ w.recorded.length ∨ missed = 0) ∧
          (w.cursor ≠ 0 → first = heard w + missed + 1) ∧
            (w.cursor = 0 → first = w.recorded.length - eventLimit limit + 1 ∧ missed = 0) := by
  have hlimit := eventLimit_pos limit
  have hheard := hi.heard_le
  by_cases hzero : w.cursor = 0
  · have hstart := hi.ring.startSeq_zero hlimit.2
    have hold : w.recorded.length < w.recorded.length - eventLimit limit + 1 + liveRingCap := by
      unfold liveRingCap
      omega
    rw [hzero]
    exact ⟨_, _, hi.ring.answer_tells hstart (fun _ => rfl) (by omega) hold (by omega), by omega,
      by omega, Or.inr rfl, fun h => absurd rfl h, fun _ => ⟨rfl, rfl⟩⟩
  · obtain ⟨-, hcursor⟩ := hi.cursor hzero
    obtain ⟨hfirst, hold, hmissed⟩ := @Ring.startSeq_pos _ _ _ hi.ring (eventLimit limit) _ hzero
    have hreach := hmissed (by omega)
    cases hstart : w.al.startSeq (eventLimit limit) w.cursor with
    | mk first missed =>
      rw [hstart] at hfirst hold hreach
      dsimp only at hfirst hold hreach
      refine ⟨first, missed, hi.ring.answer_tells hstart (by omega) (by omega) hold (by omega),
        by omega, by omega, hreach, fun _ => ?_, fun h => absurd h hzero⟩
      rw [← hcursor]
      exact hfirst

theorem Inv.poll {w : World α} (hi : Inv w) (limit : Option ℤ) : Inv (step w (.poll limit)) := by
  obtain ⟨first, missed, htells, hpos, hlast, hreach, hafter, hfresh⟩ := hi.tells limit
  have hlimit := eventLimit_pos limit
  have hlatest := htells.latestSeq
  cases hfirst : w.first with
  | none =>
    have hcursor : w.cursor = 0 := by
      by_contra hne
      exact (hi.cursor hne).1 hfirst
    obtain ⟨rfl, rfl⟩ := hfresh hcursor
    have hstep : step w (.poll limit) = { w with
        cursor := (adminAuditEventsGet w.al limit w.cursor).latestSeq
        first := some w.recorded.length } := by simp [step, hfirst]
    have hheard : heard (step w (.poll limit)) = w.recorded.length := by
      rw [hstep]
      simp [heard, numbers, (hi.fresh hfirst).1]
    refine ⟨?_, ?_, ?_, ?_⟩
    · rw [hstep]
      exact hi.ring
    · rw [hheard, hstep]
    · rw [hheard, hstep]
      intro hne
      refine ⟨Option.some_ne_none _, ?_⟩
      dsimp only at hne ⊢
      rw [hlatest] at hne ⊢
      split at hne
      · exact absurd rfl hne
      · rename_i hcount
        rw [if_neg hcount]
        omega
    · rw [hstep]
      intro hnone
      cases hnone
  | some n =>
    rw [step_poll hfirst]
    have hheard := heard_told htells
    refine ⟨hi.ring, ?_, ?_, ?_⟩
    · rw [hheard]
      have hold := hi.heard_le
      change _ ≤ w.recorded.length
      split <;> omega
    · intro hcursor
      change (adminAuditEventsGet w.al limit w.cursor).latestSeq ≠ 0 at hcursor
      change w.first ≠ none ∧ (adminAuditEventsGet w.al limit w.cursor).latestSeq = _
      rw [hlatest] at hcursor ⊢
      rw [hheard]
      split at hcursor
      · exact absurd rfl hcursor
      · rename_i hcount
        rw [if_neg hcount, if_neg hcount, hfirst]
        exact ⟨Option.some_ne_none n, rfl⟩
    · intro hnone
      change w.first = none at hnone
      rw [hfirst] at hnone
      cases hnone

/-- After the first poll, an answer continues the account exactly if the step is allowed. -/
theorem accounted_poll {w : World α} (hi : Inv w) (hw : Accounted w) {n : ℕ}
    (hfirst : w.first = some n) (limit : Option ℤ) :
    Accounted (step w (.poll limit)) ↔ StepOk w (.poll limit) := by
  obtain ⟨first, missed, htells, hpos, hlast, hreach, hafter, hfresh⟩ := hi.tells limit
  have hlimit := eventLimit_pos limit
  have hheard := hi.heard_le
  rw [step_poll hfirst]
  unfold StepOk
  by_cases hcount : min (eventLimit limit) (w.recorded.length + 1 - first) = 0
  · -- nothing new: the account stays, and the client has heard of all events
    have hmissed : missed = 0 := by omega
    rw [hcount, hmissed] at htells
    refine iff_of_true (accounted_told_nothing hw htells) (Or.inr ?_)
    by_cases hzero : w.cursor = 0
    · have hfirst := (hfresh hzero).1
      exact Or.inr (by omega)
    · exact Or.inl hzero
  · rw [accounted_told hw htells hcount, hfirst]
    by_cases hzero : w.cursor = 0
    · obtain ⟨hstart, hmissed⟩ := hfresh hzero
      simp only [hzero, reduceCtorEq, ne_eq, not_true_eq_false, false_or]
      omega
    · exact iff_of_true (hafter hzero) (Or.inr (Or.inl hzero))

theorem accounted_first {w : World α} (hi : Inv w) (hfirst : w.first = none) (limit : Option ℤ) :
    Accounted (step w (.poll limit)) := by
  obtain ⟨hdelivered, hmissed⟩ := hi.fresh hfirst
  constructor <;> simp [step, hfirst, numbers, heard, hdelivered, hmissed]

theorem Inv.record {w : World α} (hi : Inv w) (ev : α) : Inv (AuditLive.step w (.record ev)) where
  ring := hi.ring.record ev
  heard_le := by
    have hle := hi.heard_le
    change heard w ≤ (w.recorded ++ [ev]).length
    rw [List.length_append]
    omega
  cursor := hi.cursor
  fresh := hi.fresh

theorem accounted_record {w : World α} (hw : Accounted w) (ev : α) :
    Accounted (step w (.record ev)) where
  recorded := by
    intro e he
    have hold := hw.recorded e he
    obtain ⟨hlt, -⟩ := List.getElem?_eq_some_iff.mp hold
    exact (List.getElem?_append_left hlt).trans hold
  ordered := hw.ordered
  counted := hw.counted

theorem Inv.step {w : World α} (hi : Inv w) (op : Op α) : Inv (step w op) := by
  cases op with
  | record ev => exact hi.record ev
  | poll limit => exact hi.poll limit

theorem accounted_step {w : World α} (hi : Inv w) (hw : Accounted w) (op : Op α) :
    Accounted (step w op) ↔ StepOk w op := by
  cases op with
  | record ev => exact iff_of_true (accounted_record hw ev) trivial
  | poll limit =>
    cases hfirst : w.first with
    | none => exact iff_of_true (accounted_first hi hfirst limit) (Or.inl hfirst)
    | some n => exact accounted_poll hi hw hfirst limit

/-- In exactly the runs of allowed polls every event behind the first poll is delivered once and
in order or counted as missed. -/
theorem events_accounted_iff (zero : α) (ops : List (Op α)) :
    Always step Accounted (start zero) ops ↔ RunOk step StepOk (start zero) ops := by
  have hinv : Inv (start zero) :=
    ⟨Ring.create zero, le_rfl, fun h => absurd rfl h, fun _ => ⟨rfl, rfl⟩⟩
  have hstart : Accounted (start zero) :=
    ⟨fun _ he => (nomatch he), List.pairwise_singleton _ _, rfl⟩
  have hkeep : ∀ (w : World α) (op : Op α), Inv w → Accounted w → StepOk w op → Inv (step w op) :=
    fun w op hi _ _ => hi.step op
  have hiff : ∀ (w : World α) (op : Op α), Inv w → Accounted w →
      (Accounted (step w op) ↔ StepOk w op) := fun w op hi hw => accounted_step hi hw op
  exact always_iff_runOk hkeep hiff hinv hstart ops

/-- One event, and three polls: the second finds nothing new, and the third starts afresh. -/
def idlePolls : List (Op ℕ) := [.record 7, .poll none, .poll none, .poll none]

/-- The event is delivered again. -/
theorem not_accounted_idlePolls : ¬Always step Accounted (start 0) idlePolls := by
  intro h
  have hnumbers : numbers (GuardedRuns.run step (start 0) idlePolls) = [1, 1] := by decide +kernel
  have hordered := h.last.ordered
  rw [hnumbers] at hordered
  exact absurd hordered (by decide)

end Aigate.AuditLive
