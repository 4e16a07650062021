import Aigate.GuardedRuns
import Aigate.UsageTable

/-!
# The days of the usage

A slot of the usage meter has one day for all that it counts. A request that finds a slot of an
earlier day gives it its own, and a row that is put back takes on the day of the slot that it
finds.
-/
namespace Aigate.UsageDays
open GuardedRuns UsageFlush ProbeTable
open UsageMeter (accCap merge)
open UsageTable hiding run RunOk StepOk

/-- The key, the model as a slot keeps it, and the day that a row counts for. -/
def dated (r : UsageRow) : (ℤ × Text.Bytes) × ℤ := ((r.keyId, r.modelName.take modelCap), r.day)

def total (weight : UsageRow → Counters) (rows : List UsageRow) : Counters :=
  (rows.map weight).sum

/-- What some rows count for one key and model on one day. -/
def dayTotal (date : (ℤ × Text.Bytes) × ℤ) (rows : List UsageRow) : Counters :=
  total (fun r => if dated r = date then r.counters else 0) rows

/-- What was recorded for a day has been handed to the store under that day, or will be. -/
def DaysKept (m : Meter) : Prop :=
  ∀ date, dayTotal date m.flushed + dayTotal date m.held + dayTotal date (entries m.accs) =
    dayTotal date m.recorded

/-- There is a slot for the row, and it is free or of the row's day. -/
def dayFits (accs : Accs) (r : UsageRow) : Bool :=
  match find UsageRow.pair (accHash r.pair) accs r.pair with
  | none => false
  | some i => (accs i).all fun a => decide (a.day = r.day)

/-- Each row of a batch finds such a slot when its turn comes. -/
def batchFits : Accs → List UsageRow → Bool
  | _, [] => true
  | accs, r :: rest =>
    dayFits accs r && (putSlot false accs r).all fun accs' => batchFits accs' rest

/-- A request and a batch find slots of their days, and a drain has a place for every row and a
store to flush it to. -/
def StepOk (m : Meter) : Event → Prop
  | .record q => dayFits m.accs q.row = true
  | .drain cap _ => cap ≤ 0 ∨ entries m.accs = [] ∨
    m.store = true ∧ ((entries m.accs).length : ℤ) ≤ cap
  | .unflush => batchFits m.accs m.held = true

theorem total_cons (weight : UsageRow → Counters) (r : UsageRow) (rows : List UsageRow) :
    total weight (r :: rows) = weight r + total weight rows := by
  simp only [total, List.map_cons, List.sum_cons]

theorem total_append (weight : UsageRow → Counters) (rows rows' : List UsageRow) :
    total weight (rows ++ rows') = total weight rows + total weight rows' := by
  simp only [total, List.map_append, List.sum_append]

theorem total_perm (weight : UsageRow → Counters) {rows rows' : List UsageRow}
    (h : rows.Perm rows') : total weight rows = total weight rows' := (h.map weight).sum_eq

theorem total_cleared (weight : UsageRow → Counters) :
    total weight (entries (fun _ => none : Accs)) = 0 := by
  rw [entries_cleared]
  rfl

theorem dated_storedRow (r : UsageRow) : dated (storedRow r) = dated r := by
  simp only [dated, storedRow, List.take_take, Nat.min_self]

theorem dated_merge {a r : UsageRow} (hpair : a.pair = r.pair) {day : ℤ} (hday : day = r.day) :
    dated (merge a r day) = dated r := by
  obtain ⟨hkey, hmodel⟩ := Prod.mk.inj hpair
  simp only [dated, merge, hkey, hmodel, hday]

/-- A row that finds a slot of its day is counted for that day. -/
theorem putSlot_dated (recording : Bool) {accs : Accs} {r : UsageRow}
    (h : dayFits accs r = true) : ∃ accs', putSlot recording accs r = some accs' ∧
      ∀ date, dayTotal date (entries accs') = dayTotal date (r :: entries accs) := by
  unfold dayFits at h
  cases hfind : find UsageRow.pair (accHash r.pair) accs r.pair with
  | none => simp [hfind] at h
  | some i =>
    simp only [hfind] at h
    cases hslot : accs i with
    | none =>
      refine ⟨Function.update accs i (some (storedRow r)), ?_, fun date => ?_⟩
      · unfold putSlot
        simp only [hfind, hslot, Option.map_some]
      · rw [dayTotal, total_perm _ (entries_insert hslot (storedRow r)), total_cons, dayTotal,
          total_cons, dated_storedRow]
        rfl
    | some a =>
      have hpair : a.pair = r.pair := by simpa [hslot, fits] using find_some hfind
      have hday : a.day = r.day := by simpa [hslot] using h
      have hdated : ∀ day, day = r.day → dated (merge a r day) = dated r := fun day hd =>
        dated_merge hpair hd
      have hown : dated a = dated r := by
        obtain ⟨hkey, hmodel⟩ := Prod.mk.inj hpair
        simp only [dated, hkey, hmodel, hday]
      have hnew : (if recording = true then r.day else a.day) = r.day := by
        rw [hday, ite_self]
      refine ⟨Function.update accs i (some (merge a r (if recording then r.day else a.day))), ?_,
        fun date => ?_⟩
      · unfold putSlot
        simp only [hfind, hslot, Option.map_some]
      · rw [dayTotal, total_perm _ (entries_update_some accs i _), dayTotal, total_cons, total_cons,
          total_perm _ (entries_take_out hslot), total_cons, hdated _ hnew, hown,
          UsageMeter.merge_counters]
        split_ifs
        · abel
        · abel

theorem DaysKept.record {m : Meter} (h : DaysKept m) {q : Request} (hok : StepOk m (.record q)) :
    DaysKept (umRecord m q) := by
  obtain ⟨accs', hput, htotal⟩ := putSlot_dated true hok
  have hrecord : umRecord m q = { m with accs := accs', recorded := q.row :: m.recorded } := by
    unfold umRecord
    rw [hput, Option.getD_some]
  intro date
  have hbefore := h date
  rw [hrecord, htotal, dayTotal, dayTotal, dayTotal, dayTotal, total_cons, total_cons]
  rw [dayTotal, dayTotal, dayTotal, dayTotal] at hbefore
  rw [← hbefore]
  abel

theorem umUnflush_dated (rows : List UsageRow) {accs : Accs} (h : batchFits accs rows = true)
    (date : (ℤ × Text.Bytes) × ℤ) : dayTotal date (entries (umUnflush accs rows).1) =
      dayTotal date rows + dayTotal date (entries accs) := by
  induction rows generalizing accs with
  | nil =>
    rw [umUnflush]
    exact (zero_add _).symm
  | cons r rest ih =>
    rw [batchFits, Bool.and_eq_true] at h
    obtain ⟨accs', hput, htotal⟩ := putSlot_dated false h.1
    have hrest : batchFits accs' rest = true := by simpa [hput] using h.2
    simp only [umUnflush, hput]
    rw [ih hrest, htotal, dayTotal, dayTotal, dayTotal, dayTotal, total_cons, total_cons]
    abel

theorem DaysKept.unflush {m : Meter} (h : DaysKept m) (hok : StepOk m .unflush) :
    DaysKept (step m .unflush) := by
  intro date
  have hbefore := h date
  have hback := umUnflush_dated m.held hok date
  have hnone : dayTotal date [] = 0 := rfl
  simp only [step]
  rw [hnone, add_zero, hback, ← add_assoc]
  exact hbefore

/-- A drain that has a place for every row, and a store, moves rows as they are. -/
theorem total_drain (weight : UsageRow → Counters) {m : Meter} {cap : ℤ} {flushOk : Bool}
    (hok : StepOk m (.drain cap flushOk)) :
    total weight (umDrain m cap flushOk).1.flushed + total weight (umDrain m cap flushOk).1.held +
        total weight (entries (umDrain m cap flushOk).1.accs) =
      total weight m.flushed + total weight m.held + total weight (entries m.accs) := by
  by_cases hpos : cap ≤ 0
  · rw [umDrain_none hpos]
  by_cases hempty : entries m.accs = []
  · have hcap : ((entries m.accs).length : ℤ) ≤ cap := by
      rw [hempty, List.length_nil]
      omega
    rw [umDrain_all hcap, if_pos (Or.inl hempty), total_cleared, hempty]
    rfl
  · obtain ⟨hstore, hcap⟩ := (hok.resolve_left hpos).resolve_left hempty
    rw [umDrain_all hcap, if_neg (by simp [hempty, hstore])]
    cases flushOk with
    | true =>
      rw [if_pos rfl, total_cleared, total_append]
      abel
    | false =>
      rw [if_neg Bool.false_ne_true, total_cleared, total_append]
      abel

theorem recorded_umDrain (m : Meter) (cap : ℤ) (flushOk : Bool) :
    (umDrain m cap flushOk).1.recorded = m.recorded := by
  unfold umDrain
  generalize drainSlots cap (List.finRange accCap) m.accs [] = d
  obtain ⟨accs, out, done⟩ := d
  cases done with
  | false => rfl
  | true =>
    dsimp only
    split_ifs
    · rfl
    · rfl
    · rfl

theorem DaysKept.step (m : Meter) (e : Event) (h : DaysKept m) (hok : StepOk m e) :
    DaysKept (step m e) := by
  cases e with
  | record q => exact h.record hok
  | drain cap flushOk =>
    intro date
    have hdrain := total_drain (fun r => if dated r = date then r.counters else 0) hok
    change dayTotal date (umDrain m cap flushOk).1.flushed + _ + _ =
      dayTotal date (umDrain m cap flushOk).1.recorded
    rw [recorded_umDrain]
    exact hdrain.trans (h date)
  | unflush => exact h.unflush hok

theorem daysKept_fresh (store : Bool) : DaysKept (Meter.fresh store) := by
  intro date
  have hempty : dayTotal date (entries (Meter.fresh store).accs) = 0 := total_cleared _
  rw [hempty]
  rfl

/-- Every such run hands over what it records under its day. -/
theorem daysKept_run (store : Bool) {events : List Event}
    (hok : RunOk step StepOk (Meter.fresh store) events) :
    Always step DaysKept (Meter.fresh store) events :=
  always_of_runOk DaysKept.step (daysKept_fresh store) hok

/-- A request of key 1 on a day. -/
def requestOn (day : ℤ) : Request := ⟨1, Text.ascii "gpt-4o", 200, 10, 5, 0, day⟩

/-- The first day is drained before the second begins. -/
def drainedBetween : List Event :=
  [.record (requestOn 0), .drain 4096 true, .record (requestOn 86400), .drain 4096 true]

/-- Both days are drained together. -/
def drainedAfter : List Event :=
  [.record (requestOn 0), .record (requestOn 86400), .drain 4096 true]

theorem daysKept_drainedBetween : Always step DaysKept (Meter.fresh true) drainedBetween := by
  have hdrain : ∀ m, m.store = true → ((entries m.accs).length : ℤ) ≤ 4096 →
      StepOk m (.drain 4096 true) := fun _ hstore hcap => Or.inr (Or.inr ⟨hstore, hcap⟩)
  exact daysKept_run true ⟨(show dayFits _ _ = true by decide +kernel),
    hdrain _ rfl (by decide +kernel), (show dayFits _ _ = true by decide +kernel),
    hdrain _ (by decide +kernel) (by decide +kernel), trivial⟩

/-- The request of the first day is handed over under the second. -/
theorem not_daysKept_drainedAfter :
    ¬Always step DaysKept (Meter.fresh true) drainedAfter := by
  intro h
  have hfirst := congrArg Prod.fst (h.last ((1, Text.ascii "gpt-4o"), 0))
  have hcounted : ∀ m, m = GuardedRuns.run step (Meter.fresh true) drainedAfter →
      (dayTotal ((1, Text.ascii "gpt-4o"), 0) m.flushed +
        dayTotal ((1, Text.ascii "gpt-4o"), 0) m.held +
        dayTotal ((1, Text.ascii "gpt-4o"), 0) (entries m.accs)).1 ≠
      (dayTotal ((1, Text.ascii "gpt-4o"), 0) m.recorded).1 := by
    rintro _ rfl
    decide +kernel
  exact hcounted _ rfl hfirst

end Aigate.UsageDays
