import Aigate.ProbeTable
import Aigate.UsageMeter

/-!
# The slots of the usage meter

The meter counts the requests of each key and model in a hash table of 4096 slots. A drain
copies the slots into an array of given capacity and clears each one it copies; a batch
whose flush fails is merged back. The last drains, when the meter is freed, have room for
256 rows.
-/
namespace Aigate.UsageTable
open Text UsageFlush ProbeTable
open UsageMeter (accCap merge HasRoom rowsTotal rowsTotal_cons rowsTotal_perm merge_pair
  merge_counters)

instance : NeZero accCap := ⟨by decide⟩

abbrev Accs := Table UsageRow accCap

/-- The bytes of a `long`, lowest first. -/
def longBytes (n : ℤ) : List ℕ := (List.range 8).map fun i => (n / 256 ^ i % 256).toNat

/-- `acc_hash`: FNV-1a over the key and the model. -/
def accHash (pair : ℤ × Bytes) : ℕ :=
  (longBytes pair.1 ++ pair.2.map Char.toNat).foldl
    (fun h b => (h ^^^ b) * 1099511628211 % 2 ^ 64) 1469598103934665603

/-- The length of a name that `char model[128]` holds. -/
def modelCap : ℕ := 127

def storedRow (r : UsageRow) : UsageRow := { r with modelName := r.modelName.take modelCap }

/-- Find the slot of a row or take a free one, whose copy of the name is cut. The day of a
found slot is the new one when a request is recorded, and stays when a row is put back. -/
@[irreducible] def putSlot (recording : Bool) (accs : Accs) (r : UsageRow) : Option Accs :=
  (find UsageRow.pair (accHash r.pair) accs r.pair).map fun i =>
    match accs i with
    | some a => Function.update accs i (some (merge a r (if recording then r.day else a.day)))
    | none => Function.update accs i (some (storedRow r))

/-- A recorded request. -/
structure Request where
  keyId : ℤ
  model : Bytes
  httpStatus : ℤ
  promptTokens : ℤ
  completionTokens : ℤ
  cachedPromptTokens : ℤ
  day : ℤ

def Request.row (q : Request) : UsageRow where
  keyId := q.keyId
  modelName := q.model
  day := q.day
  requests := 1
  promptTokens := q.promptTokens
  completionTokens := q.completionTokens
  errors := if 500 ≤ q.httpStatus then 1 else 0
  cachedPromptTokens := q.cachedPromptTokens
  counted := Int.one_pos

/-- The loop of `um_drain`, which gives up at the first row that its array has no place
for. -/
def drainSlots (cap : ℤ) : List (Fin accCap) → Accs → List UsageRow → Accs × List UsageRow × Bool
  | [], accs, out => (accs, out, true)
  | i :: rest, accs, out =>
    match accs i with
    | none => drainSlots cap rest accs out
    | some a =>
      if cap ≤ out.length then (accs, out, false)
      else drainSlots cap rest (Function.update accs i none) (out ++ [a])

/-- The slots, the batch of a failed flush, the rows of the successful flushes, and every
recorded request. A meter may run without a store. -/
structure Meter where
  store : Bool
  accs : Accs
  held : List UsageRow
  flushed : List UsageRow
  recorded : List UsageRow

/-- `usage_meter_new`. -/
def Meter.fresh (store : Bool) : Meter := ⟨store, fun _ => none, [], [], []⟩

/-- The accumulator part of `um_record_full`; a request that finds no slot is dropped. -/
def umRecord (m : Meter) (q : Request) : Meter :=
  { m with accs := (putSlot true m.accs q.row).getD m.accs, recorded := q.row :: m.recorded }

/-- `um_drain`: its code and the number of rows it reports. When it gives up it reports no
rows, and without a store it flushes none. -/
@[irreducible] def umDrain (m : Meter) (cap : ℤ) (flushOk : Bool) : Meter × ℤ × ℕ :=
  match drainSlots cap (List.finRange accCap) m.accs [] with
  | (accs, _, false) => ({ m with accs := accs }, -1, 0)
  | (accs, out, true) =>
    if out = [] ∨ m.store = false then ({ m with accs := accs }, 0, out.length)
    else if flushOk then ({ m with accs := accs, flushed := out ++ m.flushed }, 0, out.length)
    else ({ m with accs := accs, held := out ++ m.held }, -1, out.length)

/-- `um_unflush`: the rows are merged back in order, the first one without a slot ends it. -/
def umUnflush (accs : Accs) : List UsageRow → Accs × ℤ
  | [] => (accs, 0)
  | r :: rest =>
    match putSlot false accs r with
    | some accs' => umUnflush accs' rest
    | none => (accs, -1)

inductive Event where
  | record (q : Request)
  | drain (cap : ℤ) (flushOk : Bool)
  | unflush

def step (m : Meter) : Event → Meter
  | .record q => umRecord m q
  | .drain cap flushOk => (umDrain m cap flushOk).1
  | .unflush => { m with accs := (umUnflush m.accs m.held).1, held := [] }

def run (m : Meter) (events : List Event) : Meter := events.foldl step m

/-- The array of the last drains. -/
def finalCap : ℕ := 256

/-- The last drains: until one reports an error or no rows. -/
def finalDrain : ℕ → (ℕ → Bool) → Meter → Meter
  | 0, _, m => m
  | fuel + 1, flushOk, m =>
    let drained := umDrain m finalCap (flushOk 0)
    if drained.2.1 = 0 ∧ 0 < drained.2.2 then
      finalDrain fuel (fun k => flushOk (k + 1)) drained.1
    else drained.1

/-- `usage_meter_free`: what is left in the slots goes with the memory. Every drain but the
last clears a slot. -/
def usageMeterFree (m : Meter) (flushOk : ℕ → Bool) : Meter :=
  { finalDrain (accCap + 1) flushOk m with accs := fun _ => none, held := [] }

/-- For every key and model, what was flushed and what is in the meter add up to what was
recorded. -/
def Conserved (m : Meter) : Prop :=
  ∀ pair, rowsTotal pair m.flushed + rowsTotal pair m.held + rowsTotal pair (entries m.accs) =
    rowsTotal pair m.recorded

/-- A request whose name fits and for which there is room, a drain with a place for every
row and a store to flush it to, and a batch put back for which there is room. -/
def StepOk (m : Meter) : Event → Prop
  | .record q => q.model.length ≤ modelCap ∧ HasRoom (q.row :: entries m.accs)
  | .drain cap _ => cap ≤ 0 ∨ entries m.accs = [] ∨
    m.store = true ∧ ((entries m.accs).length : ℤ) ≤ cap
  | .unflush => HasRoom (m.held ++ entries m.accs)

def RunOk (m : Meter) : List Event → Prop
  | [] => True
  | e :: events => StepOk m e ∧ RunOk (step m e) events

/-- Nothing awaits a retry, and what is in the slots fits the last drain and is flushed. -/
def FreeOk (m : Meter) (flushOk : ℕ → Bool) : Prop :=
  m.held = [] ∧ (entries m.accs = [] ∨
    m.store = true ∧ (entries m.accs).length ≤ finalCap ∧ flushOk 0 = true)

theorem storedRow_eq {r : UsageRow} (h : r.modelName.length ≤ modelCap) : storedRow r = r := by
  unfold storedRow
  rw [List.take_of_length_le h]

/-- The entries are found where they are, and their names are whole. -/
structure Sound (accs : Accs) : Prop where
  placed : Placed UsageRow.pair accHash accs
  names : ∀ r ∈ entries accs, r.modelName.length ≤ modelCap

theorem Sound.empty : Sound (fun _ => none) where
  placed := Placed.empty _ _
  names := fun r hr => by simp [mem_entries] at hr

/-- A row for which there is room is counted. -/
theorem Sound.put {accs : Accs} (h : Sound accs) (recording : Bool) {r : UsageRow}
    (hname : r.modelName.length ≤ modelCap) (hroom : HasRoom (r :: entries accs)) :
    ∃ accs', putSlot recording accs r = some accs' ∧ Sound accs' ∧
      (∀ p ∈ (entries accs').map UsageRow.pair, p ∈ (r :: entries accs).map UsageRow.pair) ∧
      ∀ pair, rowsTotal pair (entries accs') = rowsTotal pair (r :: entries accs) := by
  obtain ⟨i, hfind⟩ := h.placed.find_isSome (accHash r.pair) hroom
  cases hslot : accs i with
  | none =>
    have hperm := entries_insert hslot r
    refine ⟨Function.update accs i (some r), ?_, ⟨?_, ?_⟩, ?_, fun pair => ?_⟩
    · unfold putSlot
      simp only [hfind, hslot, Option.map_some, storedRow_eq hname]
    · exact h.placed.insert hfind hslot
    · intro a ha
      rcases List.mem_cons.mp (hperm.mem_iff.mp ha) with rfl | ha
      · exact hname
      · exact h.names a ha
    · intro p hp
      exact (hperm.map UsageRow.pair).mem_iff.mp hp
    · exact rowsTotal_perm hperm pair
  | some a =>
    have hpair : a.pair = r.pair := by simpa [hslot, fits] using find_some hfind
    have hmem : a ∈ entries accs := mem_entries.mpr ⟨i, hslot⟩
    have hout := entries_take_out hslot
    have hin := entries_update_some accs i (merge a r (if recording then r.day else a.day))
    refine ⟨Function.update accs i (some (merge a r (if recording then r.day else a.day))), ?_,
      ⟨?_, ?_⟩, ?_, fun pair => ?_⟩
    · unfold putSlot
      simp only [hfind, hslot, Option.map_some]
    · exact h.placed.replace hslot (merge_pair a r _)
    · intro b hb
      rcases List.mem_cons.mp (hin.mem_iff.mp hb) with rfl | hb
      · exact h.names a hmem
      · exact h.names b (hout.mem_iff.mpr (List.mem_cons_of_mem _ hb))
    · intro p hp
      have hp' := (hin.map UsageRow.pair).mem_iff.mp hp
      rw [List.map_cons, merge_pair, ← List.map_cons (f := UsageRow.pair) (a := a)] at hp'
      exact List.mem_cons_of_mem _ ((hout.map UsageRow.pair).mem_iff.mpr hp')
    · rw [rowsTotal_perm hin, rowsTotal_cons, rowsTotal_cons, rowsTotal_perm hout, rowsTotal_cons,
        merge_pair, merge_counters, hpair]
      split_ifs
      · abel
      · abel

/-- A batch for which there is room is merged back whole. -/
theorem Sound.unflush {accs : Accs} (h : Sound accs) (rows : List UsageRow)
    (hnames : ∀ r ∈ rows, r.modelName.length ≤ modelCap) (hroom : HasRoom (rows ++ entries accs)) :
    (umUnflush accs rows).2 = 0 ∧ Sound (umUnflush accs rows).1 ∧
      ∀ pair, rowsTotal pair (entries (umUnflush accs rows).1) =
        rowsTotal pair rows + rowsTotal pair (entries accs) := by
  induction rows generalizing accs with
  | nil =>
    simp only [umUnflush]
    refine ⟨trivial, h, fun pair => ?_⟩
    rw [UsageMeter.rowsTotal_nil, zero_add]
  | cons r rest ih =>
    have hfirst : HasRoom (r :: entries accs) :=
      UsageMeter.hasRoom_of_subset (UsageMeter.cons_append_pairs r rest (entries accs)) hroom
    obtain ⟨accs', hput, h', hsub, htotal⟩ := h.put false (hnames r (List.mem_cons_self ..)) hfirst
    have hroom' : HasRoom (rest ++ entries accs') := by
      refine UsageMeter.hasRoom_of_subset (fun p hp => ?_) hroom
      rw [List.map_append, List.mem_append] at hp
      rw [List.cons_append, List.map_cons, List.mem_cons, List.map_append, List.mem_append]
      rcases hp with hp | hp
      · exact Or.inr (Or.inl hp)
      · rcases List.mem_cons.mp (hsub p hp) with rfl | hp
        · exact Or.inl rfl
        · exact Or.inr (Or.inr hp)
    obtain ⟨hcode, hsound, hrest⟩ :=
      ih h' (fun a ha => hnames a (List.mem_cons_of_mem _ ha)) hroom'
    simp only [umUnflush, hput]
    refine ⟨hcode, hsound, fun pair => ?_⟩
    rw [hrest, htotal, rowsTotal_cons, rowsTotal_cons]
    abel

/-- A drain with a place for every row clears the slots it visits. -/
theorem drainSlots_all {cap : ℤ} {slots : List (Fin accCap)} (hnd : slots.Nodup) (accs : Accs)
    (out : List UsageRow) (hcap : ((out ++ slots.filterMap accs).length : ℤ) ≤ cap) :
    drainSlots cap slots accs out =
      (fun i => if i ∈ slots then none else accs i, out ++ slots.filterMap accs, true) := by
  induction slots generalizing accs out with
  | nil => simp [drainSlots]
  | cons i rest ih =>
    obtain ⟨hi, hrest⟩ := List.nodup_cons.mp hnd
    cases hslot : accs i with
    | none =>
      rw [List.filterMap_cons_none hslot] at hcap ⊢
      simp only [drainSlots, hslot]
      rw [ih hrest accs out hcap]
      congr 1
      funext j
      by_cases hj : j = i
      · subst hj
        simp [hslot]
      · simp [hj]
    | some a =>
      have hsame : rest.filterMap (Function.update accs i none) = rest.filterMap accs :=
        List.filterMap_congr fun j hj =>
          Function.update_of_ne (fun he => hi (by rwa [he] at hj)) _ _
      rw [List.filterMap_cons_some hslot] at hcap ⊢
      have hroom : ¬cap ≤ out.length := by
        rw [List.length_append, List.length_cons] at hcap
        push_cast at hcap
        omega
      simp only [drainSlots, hslot, if_neg hroom]
      rw [ih hrest, hsame, List.append_assoc, List.singleton_append]
      · congr 1
        funext j
        by_cases hj : j = i
        · subst hj
          simp [hi]
        · simp [hj]
      · rwa [hsame, List.append_assoc, List.singleton_append]

/-- A drain without a single place changes nothing. -/
theorem drainSlots_none {cap : ℤ} (hcap : cap ≤ 0) (slots : List (Fin accCap)) (accs : Accs) :
    (drainSlots cap slots accs []).1 = accs ∧
      ((drainSlots cap slots accs []).2.2 = true → (drainSlots cap slots accs []).2.1 = []) := by
  induction slots with
  | nil => exact ⟨rfl, fun _ => rfl⟩
  | cons i rest ih =>
    cases hslot : accs i with
    | none =>
      simp only [drainSlots, hslot]
      exact ih
    | some a => simp [drainSlots, hslot, hcap]

/-- What a run of good steps keeps. -/
structure Good (m : Meter) : Prop where
  sound : Sound m.accs
  heldNames : ∀ r ∈ m.held, r.modelName.length ≤ modelCap
  conserved : Conserved m

theorem Good.fresh (store : Bool) : Good (Meter.fresh store) where
  sound := Sound.empty
  heldNames := fun r hr => by cases hr
  conserved := fun pair => by
    have hempty : entries (Meter.fresh store).accs = [] := entries_eq_nil.mpr fun _ => rfl
    rw [hempty]
    rfl

theorem Good.record {m : Meter} (h : Good m) {q : Request} (hok : StepOk m (.record q)) :
    Good (umRecord m q) := by
  obtain ⟨hname, hroom⟩ := hok
  obtain ⟨accs', hput, hsound, -, htotal⟩ := h.sound.put true (r := q.row) hname hroom
  have hrecord : umRecord m q = { m with accs := accs', recorded := q.row :: m.recorded } := by
    unfold umRecord
    rw [hput, Option.getD_some]
  rw [hrecord]
  refine ⟨hsound, h.heldNames, fun pair => ?_⟩
  have hbefore := h.conserved pair
  rw [htotal, rowsTotal_cons, rowsTotal_cons, ← hbefore]
  abel

/-- A drain that has a place for every row hands over what the slots held. -/
theorem umDrain_all {m : Meter} {cap : ℤ} (hcap : ((entries m.accs).length : ℤ) ≤ cap)
    (flushOk : Bool) : umDrain m cap flushOk =
      if entries m.accs = [] ∨ m.store = false then
        ({ m with accs := fun _ => none }, 0, (entries m.accs).length)
      else if flushOk then
        ({ m with accs := fun _ => none, flushed := entries m.accs ++ m.flushed }, 0,
          (entries m.accs).length)
      else
        ({ m with accs := fun _ => none, held := entries m.accs ++ m.held }, -1,
          (entries m.accs).length) := by
  have hentries : (List.finRange accCap).filterMap m.accs = entries m.accs := by
    unfold entries
    rfl
  have hfits : (([] ++ (List.finRange accCap).filterMap m.accs).length : ℤ) ≤ cap := by
    rw [List.nil_append, hentries]
    exact hcap
  have hall := drainSlots_all (List.nodup_finRange accCap) m.accs [] hfits
  have hcleared : (fun i => if i ∈ List.finRange accCap then none else m.accs i) =
      fun _ => none := by
    funext i
    rw [if_pos (List.mem_finRange i)]
  rw [hcleared, List.nil_append, hentries] at hall
  unfold umDrain
  rw [hall]

theorem umDrain_none {m : Meter} {cap : ℤ} (hcap : cap ≤ 0) (flushOk : Bool) :
    (umDrain m cap flushOk).1 = m := by
  obtain ⟨haccs, hout⟩ := drainSlots_none hcap (List.finRange accCap) m.accs
  unfold umDrain
  generalize drainSlots cap (List.finRange accCap) m.accs [] = d at haccs hout
  obtain ⟨accs, out, done⟩ := d
  dsimp only at haccs hout
  subst haccs
  cases done with
  | false => rfl
  | true =>
    obtain rfl := hout rfl
    rfl

theorem rowsTotal_append (pair : ℤ × Bytes) (rows rows' : List UsageRow) :
    rowsTotal pair (rows ++ rows') = rowsTotal pair rows + rowsTotal pair rows' := by
  simp [rowsTotal]

theorem entries_cleared : entries (fun _ => none : Accs) = [] := entries_eq_nil.mpr fun _ => rfl

theorem Good.drain {m : Meter} (h : Good m) {cap : ℤ} {flushOk : Bool}
    (hok : StepOk m (.drain cap flushOk)) : Good (umDrain m cap flushOk).1 := by
  by_cases hpos : cap ≤ 0
  · rw [umDrain_none hpos]
    exact h
  have hcap : ((entries m.accs).length : ℤ) ≤ cap := by
    rcases hok with hcap | hempty | ⟨-, hcap⟩
    · exact absurd hcap hpos
    · rw [hempty, List.length_nil]
      omega
    · exact hcap
  rw [umDrain_all hcap]
  by_cases hempty : entries m.accs = []
  · rw [if_pos (Or.inl hempty)]
    refine ⟨Sound.empty, h.heldNames, fun pair => ?_⟩
    rw [entries_cleared, ← hempty]
    exact h.conserved pair
  have hstore : m.store = true := by
    rcases hok with hcap | hempty' | ⟨hstore, -⟩
    · exact absurd hcap hpos
    · exact absurd hempty' hempty
    · exact hstore
  rw [if_neg (by simp [hempty, hstore])]
  cases flushOk with
  | true =>
    rw [if_pos rfl]
    refine ⟨Sound.empty, h.heldNames, fun pair => ?_⟩
    have hbefore := h.conserved pair
    dsimp only
    rw [entries_cleared, rowsTotal_append, UsageMeter.rowsTotal_nil, ← hbefore]
    abel
  | false =>
    rw [if_neg Bool.false_ne_true]
    refine ⟨Sound.empty, ?_, fun pair => ?_⟩
    · intro r hr
      rcases List.mem_append.mp hr with hr | hr
      · exact h.sound.names r hr
      · exact h.heldNames r hr
    · have hbefore := h.conserved pair
      dsimp only
      rw [entries_cleared, rowsTotal_append, UsageMeter.rowsTotal_nil, ← hbefore]
      abel

theorem Good.unflush {m : Meter} (h : Good m) (hok : StepOk m .unflush) :
    Good (step m .unflush) := by
  obtain ⟨-, hsound, htotal⟩ := h.sound.unflush m.held h.heldNames hok
  refine ⟨hsound, (fun r hr => by cases hr), fun pair => ?_⟩
  have hbefore := h.conserved pair
  simp only [step, UsageMeter.rowsTotal_nil, add_zero, htotal, ← hbefore]
  abel

theorem Good.step {m : Meter} (h : Good m) {e : Event} (hok : StepOk m e) : Good (step m e) := by
  cases e with
  | record q => exact h.record hok
  | drain cap flushOk => exact h.drain hok
  | unflush => exact h.unflush hok

theorem Good.run {m : Meter} (h : Good m) {events : List Event} (hok : RunOk m events) :
    Good (run m events) := by
  induction events generalizing m with
  | nil => exact h
  | cons e events ih => exact ih (h.step hok.1) hok.2

theorem finalDrain_empty {m : Meter} (hempty : entries m.accs = []) (fuel : ℕ)
    (flushOk : ℕ → Bool) : finalDrain fuel flushOk m = m := by
  have haccs : m.accs = fun _ => none := funext (entries_eq_nil.mp hempty)
  cases fuel with
  | zero => rfl
  | succ fuel =>
    have hcap : ((entries m.accs).length : ℤ) ≤ finalCap := by
      rw [hempty, List.length_nil]
      omega
    have hdrained := umDrain_all hcap (flushOk 0)
    rw [if_pos (Or.inl hempty), ← haccs, hempty, List.length_nil] at hdrained
    simp only [finalDrain, hdrained, Nat.lt_irrefl, and_false, if_false]

/-- The last drains flush what the slots held. -/
theorem Good.free {m : Meter} (h : Good m) {flushOk : ℕ → Bool} (hok : FreeOk m flushOk) :
    Conserved (usageMeterFree m flushOk) := by
  obtain ⟨hheld, hslots⟩ := hok
  intro pair
  have hbefore := h.conserved pair
  by_cases hempty : entries m.accs = []
  · rw [hheld, hempty] at hbefore
    unfold usageMeterFree
    rw [finalDrain_empty hempty, entries_cleared]
    exact hbefore
  · obtain ⟨hstore, hlen, hflush⟩ := hslots.resolve_left hempty
    have hcap : ((entries m.accs).length : ℤ) ≤ finalCap := by exact_mod_cast hlen
    have hdrained := umDrain_all hcap (flushOk 0)
    rw [if_neg (by simp [hempty, hstore]), if_pos hflush] at hdrained
    have hcount : 0 < (entries m.accs).length := List.length_pos_of_ne_nil hempty
    have hfinal : finalDrain (accCap + 1) flushOk m =
        { m with accs := fun _ => none, flushed := entries m.accs ++ m.flushed } := by
      simp only [finalDrain, hdrained, hcount, and_self, if_true]
      exact finalDrain_empty entries_cleared _ _
    unfold usageMeterFree
    simp only [hfinal, entries_cleared, UsageMeter.rowsTotal_nil, add_zero, rowsTotal_append]
    rw [hheld, UsageMeter.rowsTotal_nil, add_zero, add_comm] at hbefore
    exact hbefore

/-- Every good run keeps the totals, and so does the end of the meter after it. -/
theorem usage_conserved (store : Bool) {events : List Event}
    (hok : RunOk (Meter.fresh store) events) :
    Conserved (run (Meter.fresh store) events) ∧
      ∀ flushOk, FreeOk (run (Meter.fresh store) events) flushOk →
        Conserved (usageMeterFree (run (Meter.fresh store) events) flushOk) :=
  have h := (Good.fresh store).run hok
  ⟨h.conserved, fun _ hfree => h.free hfree⟩

theorem step_store (m : Meter) (e : Event) : (step m e).store = m.store := by
  cases e with
  | record q => rfl
  | drain cap flushOk =>
    change (umDrain m cap flushOk).1.store = m.store
    unfold umDrain
    generalize drainSlots cap (List.finRange accCap) m.accs [] = d
    obtain ⟨accs, out, done⟩ := d
    cases done with
    | false => rfl
    | true =>
      dsimp only
      split_ifs
      · rfl
      · rfl
      · rfl
  | unflush => rfl

theorem run_store (m : Meter) (events : List Event) : (run m events).store = m.store := by
  induction events generalizing m with
  | nil => rfl
  | cons e events ih => exact (ih (step m e)).trans (step_store m e)

/-- A request of key `k`. -/
def requestOf (k : ℤ) : Request := ⟨k, ascii "gpt-4o", 200, 10, 5, 0, 0⟩

/-- A failed flush whose row is put back. -/
def sampleEvents : List Event := [.record (requestOf 1), .drain 1 false, .unflush]

theorem usage_conserved_sample :
    Conserved (run (Meter.fresh true) sampleEvents) ∧
      Conserved (usageMeterFree (run (Meter.fresh true) sampleEvents) fun _ => true) := by
  have hok : RunOk (Meter.fresh true) sampleEvents :=
    ⟨⟨by decide +kernel, by decide +kernel⟩, Or.inr (Or.inr ⟨rfl, by decide +kernel⟩),
      (show HasRoom _ by decide +kernel), trivial⟩
  have hheld : (run (Meter.fresh true) sampleEvents).held = [] := by
    simp only [run, sampleEvents, List.foldl_cons, List.foldl_nil, step]
  have hfree : FreeOk (run (Meter.fresh true) sampleEvents) fun _ => true :=
    ⟨hheld, Or.inr ⟨run_store _ _, by decide +kernel, rfl⟩⟩
  exact ⟨(usage_conserved true hok).1, (usage_conserved true hok).2 _ hfree⟩

/-- Whatever a drain does, a row is either copied or still in its slot. -/
theorem drainSlots_perm (cap : ℤ) (slots : List (Fin accCap)) (accs : Accs)
    (out : List UsageRow) :
    ((drainSlots cap slots accs out).2.1 ++ entries (drainSlots cap slots accs out).1).Perm
      (out ++ entries accs) := by
  induction slots generalizing accs out with
  | nil => exact List.Perm.refl _
  | cons i rest ih =>
    cases hslot : accs i with
    | none =>
      simp only [drainSlots, hslot]
      exact ih accs out
    | some a =>
      simp only [drainSlots, hslot]
      split
      · exact List.Perm.refl _
      · refine (ih _ _).trans ?_
        rw [List.append_assoc, List.singleton_append]
        exact (entries_take_out hslot).symm.append_left out

/-- A drain copies as many rows as there is place for; it gives up with all places used. -/
theorem drainSlots_length {cap : ℤ} (slots : List (Fin accCap)) (accs : Accs)
    (out : List UsageRow) (hout : (out.length : ℤ) ≤ cap) :
    ((drainSlots cap slots accs out).2.1.length : ℤ) ≤ cap ∧
      ((drainSlots cap slots accs out).2.2 = false →
        ((drainSlots cap slots accs out).2.1.length : ℤ) = cap) := by
  induction slots generalizing accs out with
  | nil => exact ⟨hout, fun h => by cases h⟩
  | cons i rest ih =>
    cases hslot : accs i with
    | none =>
      simp only [drainSlots, hslot]
      exact ih accs out hout
    | some a =>
      simp only [drainSlots, hslot]
      split
      · exact ⟨hout, fun _ => le_antisymm hout ‹_›⟩
      · refine ih _ _ ?_
        rw [List.length_append, List.length_singleton]
        push_cast
        omega

/-- A drain that does not give up clears the slots that it visits, and fills none. -/
theorem drainSlots_cleared {cap : ℤ} (slots : List (Fin accCap)) (accs : Accs)
    (out : List UsageRow) (hdone : (drainSlots cap slots accs out).2.2 = true) (j : Fin accCap)
    (hj : j ∈ slots ∨ accs j = none) : (drainSlots cap slots accs out).1 j = none := by
  induction slots generalizing accs out with
  | nil => exact hj.resolve_left (List.not_mem_nil)
  | cons i rest ih =>
    cases hslot : accs i with
    | none =>
      simp only [drainSlots, hslot] at hdone ⊢
      refine ih accs out hdone ?_
      rcases hj with hj | hj
      · rcases List.mem_cons.mp hj with rfl | hj
        · exact Or.inr hslot
        · exact Or.inl hj
      · exact Or.inr hj
    | some a =>
      simp only [drainSlots, hslot] at hdone ⊢
      split at hdone
      · cases hdone
      · rw [if_neg ‹_›]
        refine ih _ _ hdone ?_
        by_cases hi : j = i
        · subst hi
          exact Or.inr (Function.update_self ..)
        · rw [Function.update_of_ne hi]
          exact hj.imp_left fun h => (List.mem_cons.mp h).resolve_left hi

/-- Without a place for every row a drain gives up, with rows in its array. -/
theorem drainSlots_short {accs : Accs} {cap : ℤ} (hpos : 0 < cap)
    (hshort : cap < (entries accs).length) :
    (drainSlots cap (List.finRange accCap) accs []).2.2 = false ∧
      (drainSlots cap (List.finRange accCap) accs []).2.1 ≠ [] := by
  have hperm := drainSlots_perm cap (List.finRange accCap) accs []
  have hlength := drainSlots_length (List.finRange accCap) accs []
    (by rw [List.length_nil]; omega : ((([] : List UsageRow)).length : ℤ) ≤ cap)
  have hcleared := @drainSlots_cleared cap (List.finRange accCap) accs []
  generalize drainSlots cap (List.finRange accCap) accs [] = d at hperm hlength hcleared
  obtain ⟨accs', out, done⟩ := d
  dsimp only at hperm hlength hcleared
  have hcount := hperm.length_eq
  rw [List.nil_append, List.length_append] at hcount
  cases done with
  | true =>
    have hempty : entries accs' = [] :=
      entries_eq_nil.mpr fun j => hcleared rfl j (Or.inl (List.mem_finRange j))
    rw [hempty, List.length_nil] at hcount
    omega
  | false =>
    refine ⟨rfl, ?_⟩
    rintro rfl
    have := hlength.2 rfl
    rw [List.length_nil] at this
    omega

theorem rowsTotal_requests_nonneg (pair : ℤ × Bytes) (rows : List UsageRow) :
    0 ≤ (rowsTotal pair rows).1 := by
  induction rows with
  | nil => exact le_rfl
  | cons r rest ih =>
    rw [rowsTotal_cons, Prod.fst_add]
    split_ifs
    · exact add_nonneg r.counted.le ih
    · exact add_nonneg le_rfl ih

/-- A row counts at least one request. -/
theorem rowsTotal_ne_zero {r : UsageRow} {rows : List UsageRow} (h : r ∈ rows) :
    rowsTotal r.pair rows ≠ 0 := by
  intro hzero
  have hperm := rowsTotal_perm (List.perm_cons_erase h) r.pair
  rw [hzero, rowsTotal_cons, if_pos rfl] at hperm
  have hfirst := congrArg Prod.fst hperm
  rw [Prod.fst_add] at hfirst
  have hrow : (r.counters).1 = r.requests := rfl
  have hcounted := r.counted
  have hnonneg := rowsTotal_requests_nonneg r.pair (rows.erase r)
  have hz : (0 : Counters).1 = 0 := rfl
  omega

/-- A drain that gives up with rows in its array has lost them. -/
theorem umDrain_loses {m : Meter} {cap : ℤ} (hpos : 0 < cap)
    (hshort : cap < (entries m.accs).length) (flushOk : Bool) (h : Conserved m) :
    ¬Conserved (umDrain m cap flushOk).1 := by
  obtain ⟨hdone, hrows⟩ := drainSlots_short hpos hshort
  have hperm := drainSlots_perm cap (List.finRange accCap) m.accs []
  intro hafter
  unfold umDrain at hafter
  generalize drainSlots cap (List.finRange accCap) m.accs [] = d at hdone hrows hperm hafter
  obtain ⟨accs', out, done⟩ := d
  dsimp only at hdone hrows hperm
  subst hdone
  obtain ⟨r, hr⟩ := List.exists_mem_of_ne_nil out hrows
  have hbefore := h r.pair
  have hthen := hafter r.pair
  dsimp only at hthen
  rw [← hthen, ← List.nil_append (entries m.accs), ← rowsTotal_perm hperm, rowsTotal_append]
    at hbefore
  exact rowsTotal_ne_zero hr (by simpa using hbefore)

/-- The last drain loses more than 256 rows. -/
theorem usageMeterFree_loses {m : Meter} (hmany : finalCap < (entries m.accs).length)
    (flushOk : ℕ → Bool) (h : Conserved m) : ¬Conserved (usageMeterFree m flushOk) := by
  have hpos : (0 : ℤ) < finalCap := by decide
  obtain ⟨hdone, -⟩ := drainSlots_short hpos (by exact_mod_cast hmany)
  have hdrained : umDrain m finalCap (flushOk 0) =
      ({ m with accs := (drainSlots finalCap (List.finRange accCap) m.accs []).1 }, -1, 0) := by
    unfold umDrain
    generalize drainSlots finalCap (List.finRange accCap) m.accs [] = d at hdone
    obtain ⟨accs', out, done⟩ := d
    dsimp only at hdone
    subst hdone
    rfl
  have hfinal : finalDrain (accCap + 1) flushOk m =
      { m with accs := (drainSlots finalCap (List.finRange accCap) m.accs []).1 } := by
    rw [finalDrain, hdrained]
    exact if_neg fun h => absurd h.1 (show ¬(-1 : ℤ) = 0 by decide)
  intro hafter
  obtain ⟨r, hr⟩ := List.exists_mem_of_length_pos (by omega : 0 < (entries m.accs).length)
  have hbefore := h r.pair
  have hthen := hafter r.pair
  unfold usageMeterFree at hthen
  rw [hfinal] at hthen
  dsimp only at hthen
  rw [entries_cleared, UsageMeter.rowsTotal_nil, add_zero, add_zero] at hthen
  rw [← hthen, add_assoc, ← rowsTotal_append] at hbefore
  exact rowsTotal_ne_zero (List.mem_append_right m.held hr) (by simpa using hbefore)

/-- A drain with one place loses the second key's requests, or the first's. -/
theorem usage_not_conserved :
    ¬Conserved (run (Meter.fresh true) [.record (requestOf 1), .record (requestOf 2),
      .drain 1 true]) := by
  have hok : RunOk (Meter.fresh true) [.record (requestOf 1), .record (requestOf 2)] :=
    ⟨⟨by decide +kernel, by decide +kernel⟩, ⟨by decide +kernel, by decide +kernel⟩, trivial⟩
  have hgood := (Good.fresh true).run hok
  have hshort : 1 < (entries
      (run (Meter.fresh true) [.record (requestOf 1), .record (requestOf 2)]).accs).length := by
    decide +kernel
  simp only [run, List.foldl_cons, List.foldl_nil, step] at hgood hshort ⊢
  exact umDrain_loses (by decide) (by exact_mod_cast hshort) true hgood.conserved

end Aigate.UsageTable
