import Aigate.UsageFlush

/-!
# The flush worker of the usage meter

The meter keeps one slot for each key and model. The worker drains all slots into a
batch, flushes it, and merges the rows back when the flush fails; requests recorded in
the meantime may have taken slots.
-/
namespace Aigate.UsageMeter
open Text Transaction UsageFlush

/-- `UM_ACC_CAP`. -/
def accCap : ℕ := 4096

/-- A slot after a row of the same key and model is added to it. -/
def merge (a r : UsageRow) (day : ℤ) : UsageRow where
  keyId := a.keyId
  modelName := a.modelName
  day := day
  requests := a.requests + r.requests
  promptTokens := a.promptTokens + r.promptTokens
  completionTokens := a.completionTokens + r.completionTokens
  errors := a.errors + r.errors
  cachedPromptTokens := a.cachedPromptTokens + r.cachedPromptTokens
  counted := by
    have := a.counted
    have := r.counted
    omega

/-- Find the slot of a row or take a free one. The day of a found slot is the new one when
a request is recorded, and stays when a row is put back. -/
def putRow (recording : Bool) : ℕ → List UsageRow → UsageRow → Option (List UsageRow)
  | 0, [], _ => none
  | _ + 1, [], r => some [r]
  | free, a :: rest, r =>
    if a.pair = r.pair then some (merge a r (if recording then r.day else a.day) :: rest)
    else (putRow recording (free - 1) rest r).map (a :: ·)

/-- `um_unflush`: the rows are merged back in order, the first one without a slot ends it. -/
def umUnflush (slots : List UsageRow) : List UsageRow → List UsageRow × ℤ
  | [] => (slots, 0)
  | r :: rest =>
    match putRow false accCap slots r with
    | some slots' => umUnflush slots' rest
    | none => (slots, -1)

/-- The slots, the store behind the flush connection, and every recorded request. -/
structure Meter where
  slots : List UsageRow
  session : Session UsageDaily
  recorded : List UsageRow

/-- The accumulator part of `um_record_full`; a request that finds no slot is dropped. -/
def umRecord (m : Meter) (r : UsageRow) : Meter :=
  { m with slots := (putRow true accCap m.slots r).getD m.slots, recorded := r :: m.recorded }

/-- One round of the worker: drain, flush, and put back after a failure. The batch has the
slots in the order of the hash table, and `arrived` are the requests recorded while the
flush runs. -/
def flushRound (m : Meter) (batch : List UsageRow) (o : FlushOutcomes)
    (arrived : List UsageRow) : Meter :=
  let result := pqFlushUsage m.session batch o
  let m' := arrived.foldl umRecord { m with slots := [], session := result.1 }
  if result.2 = 0 then m' else { m' with slots := (umUnflush m'.slots batch).1 }

inductive Action where
  | record (r : UsageRow)
  | flush (batch : List UsageRow) (o : FlushOutcomes) (arrived : List UsageRow)

def step (m : Meter) : Action → Meter
  | .record r => umRecord m r
  | .flush batch o arrived => flushRound m batch o arrived

def run (m : Meter) (actions : List Action) : Meter := actions.foldl step m

/-- The rows have room in the slots: not too many keys and models. -/
def HasRoom (rows : List UsageRow) : Prop :=
  (rows.map UsageRow.pair).toFinset.card ≤ accCap

instance (rows : List UsageRow) : Decidable (HasRoom rows) := Nat.decLe _ _

/-- A request for which there is room, or a flush of what the slots hold that fails
harmlessly and has room for what it puts back. -/
def HarmlessStep (m : Meter) : Action → Prop
  | .record r => HasRoom (r :: m.slots)
  | .flush batch o arrived =>
    batch.Perm m.slots ∧ Harmless m.session batch o ∧ HasRoom (arrived ++ m.slots)

/-- Every step of a run is harmless in the state it starts from. -/
def HarmlessRun (m : Meter) : List Action → Prop
  | [] => True
  | a :: rest => HarmlessStep m a ∧ HarmlessRun (step m a) rest

/-- What some rows count for one key and model. -/
def rowsTotal (pair : ℤ × Bytes) (rows : List UsageRow) : Counters :=
  (rows.map fun r => if r.pair = pair then r.counters else 0).sum

/-- What the table holds for one key and model, over all days. -/
def storedTotal (pair : ℤ × Bytes) (t : UsageDaily) : Counters :=
  (t.map fun e => if e.1 = pair then e.2.2 else 0).sum

@[simp] theorem merge_pair (a r : UsageRow) (day : ℤ) : (merge a r day).pair = a.pair := rfl

@[simp] theorem merge_counters (a r : UsageRow) (day : ℤ) :
    (merge a r day).counters = a.counters + r.counters := rfl

@[simp] theorem rowsTotal_nil (pair : ℤ × Bytes) : rowsTotal pair [] = 0 := rfl

theorem rowsTotal_cons (pair : ℤ × Bytes) (r : UsageRow) (rows : List UsageRow) :
    rowsTotal pair (r :: rows) = (if r.pair = pair then r.counters else 0) + rowsTotal pair rows := by
  simp [rowsTotal]

theorem rowsTotal_perm {rows rows' : List UsageRow} (h : rows.Perm rows') (pair : ℤ × Bytes) :
    rowsTotal pair rows = rowsTotal pair rows' :=
  (h.map _).sum_eq

theorem putRow_cons (recording : Bool) (free : ℕ) (a r : UsageRow) (rest : List UsageRow) :
    putRow recording free (a :: rest) r =
      if a.pair = r.pair then some (merge a r (if recording then r.day else a.day) :: rest)
      else (putRow recording (free - 1) rest r).map (a :: ·) := by
  cases free <;> rfl

/-- A row finds its own slot, or a free one. -/
theorem putRow_room (recording : Bool) {free : ℕ} {slots : List UsageRow} {r : UsageRow}
    (h : r.pair ∈ slots.map UsageRow.pair ∨ slots.length < free) :
    ∃ slots', putRow recording free slots r = some slots' ∧
      slots'.map UsageRow.pair = if r.pair ∈ slots.map UsageRow.pair then
        slots.map UsageRow.pair else slots.map UsageRow.pair ++ [r.pair] := by
  induction slots generalizing free with
  | nil =>
    obtain ⟨n, rfl⟩ : ∃ n, free = n + 1 := ⟨free - 1, by simp at h; omega⟩
    exact ⟨[r], rfl, rfl⟩
  | cons a rest ih =>
    rw [putRow_cons]
    by_cases hp : a.pair = r.pair
    · rw [if_pos hp]
      exact ⟨_, rfl, by simp [hp]⟩
    · have hrest : r.pair ∈ rest.map UsageRow.pair ∨ rest.length < free - 1 := by
        simp only [List.map_cons, List.mem_cons, List.length_cons, Ne.symm hp, false_or] at h
        exact h.imp_right (by omega)
      obtain ⟨slots', hput, hpairs⟩ := ih hrest
      refine ⟨a :: slots', by simp [hp, hput], ?_⟩
      simp only [List.map_cons, hpairs, List.mem_cons, Ne.symm hp, false_or]
      split_ifs <;> rfl

/-- A row that finds a slot adds its counters to the slots. -/
theorem putRow_total {recording : Bool} {free : ℕ} {slots slots' : List UsageRow} {r : UsageRow}
    (h : putRow recording free slots r = some slots') (pair : ℤ × Bytes) :
    rowsTotal pair slots' = (if r.pair = pair then r.counters else 0) + rowsTotal pair slots := by
  induction slots generalizing free slots' with
  | nil =>
    cases free with
    | zero => simp [putRow] at h
    | succ n =>
      simp only [putRow, Option.some.injEq] at h
      rw [← h, rowsTotal_cons]
  | cons a rest ih =>
    rw [putRow_cons] at h
    by_cases hp : a.pair = r.pair
    · rw [if_pos hp, Option.some.injEq] at h
      rw [← h, rowsTotal_cons, rowsTotal_cons pair a, merge_pair, merge_counters, ← hp]
      split_ifs
      · abel
      · rw [zero_add, zero_add]
    · rw [if_neg hp, Option.map_eq_some_iff] at h
      obtain ⟨rest', hrest, rfl⟩ := h
      rw [rowsTotal_cons, ih hrest, rowsTotal_cons pair a]
      abel

/-- A table of slots whose keys and models differ holds no more rows than it has pairs. -/
theorem slots_length_lt {slots : List UsageRow} {r : UsageRow}
    (hnd : (slots.map UsageRow.pair).Nodup) (hroom : HasRoom (r :: slots)) :
    r.pair ∈ slots.map UsageRow.pair ∨ slots.length < accCap := by
  by_cases h : r.pair ∈ slots.map UsageRow.pair
  · exact Or.inl h
  · right
    have hcard : (slots.map UsageRow.pair).toFinset.card = slots.length := by
      rw [List.toFinset_card_of_nodup hnd, List.length_map]
    have hroom' : ((r :: slots).map UsageRow.pair).toFinset.card ≤ accCap := hroom
    rw [List.map_cons, List.toFinset_cons, Finset.card_insert_of_notMem (by simpa using h),
      hcard] at hroom'
    omega

theorem hasRoom_of_subset {rows rows' : List UsageRow}
    (h : ∀ p ∈ rows.map UsageRow.pair, p ∈ rows'.map UsageRow.pair) (hroom : HasRoom rows') :
    HasRoom rows :=
  (Finset.card_le_card fun p hp => List.mem_toFinset.mpr
    (h p (List.mem_toFinset.mp hp))).trans hroom

theorem cons_append_pairs (r : UsageRow) (rows slots : List UsageRow) :
    ∀ p ∈ (r :: slots).map UsageRow.pair, p ∈ (r :: rows ++ slots).map UsageRow.pair := by
  intro p hp
  rw [List.map_cons, List.mem_cons] at hp
  rw [List.map_append, List.mem_append, List.map_cons, List.mem_cons]
  exact hp.imp Or.inl id

/-- Putting a row where there is room: it is counted, and the slots stay apart. -/
theorem putRow_hasRoom (recording : Bool) {slots : List UsageRow} {r : UsageRow}
    (hnd : (slots.map UsageRow.pair).Nodup) (hroom : HasRoom (r :: slots)) :
    ∃ slots', putRow recording accCap slots r = some slots' ∧
      (slots'.map UsageRow.pair).Nodup ∧
      (∀ p ∈ slots'.map UsageRow.pair, p = r.pair ∨ p ∈ slots.map UsageRow.pair) ∧
      ∀ pair, rowsTotal pair slots' =
        (if r.pair = pair then r.counters else 0) + rowsTotal pair slots := by
  obtain ⟨slots', hput, hpairs⟩ := putRow_room recording (slots_length_lt hnd hroom)
  refine ⟨slots', hput, ?_, ?_, putRow_total hput⟩ <;> rw [hpairs] <;> split_ifs with hmem
  · exact hnd
  · exact hnd.append (List.nodup_singleton _) (by simpa using hmem)
  · exact fun p hp => Or.inr hp
  · intro p hp
    rw [List.mem_append, List.mem_singleton] at hp
    exact hp.symm

/-- `um_unflush` gives every row back when there is room. -/
theorem umUnflush_hasRoom (rows : List UsageRow) {slots : List UsageRow}
    (hnd : (slots.map UsageRow.pair).Nodup)
    (hroom : HasRoom (rows ++ slots)) :
    (umUnflush slots rows).2 = 0 ∧ ((umUnflush slots rows).1.map UsageRow.pair).Nodup ∧
      ∀ pair, rowsTotal pair (umUnflush slots rows).1 =
        rowsTotal pair rows + rowsTotal pair slots := by
  induction rows generalizing slots with
  | nil => exact ⟨rfl, hnd, fun pair => by simp [umUnflush]⟩
  | cons r rest ih =>
    obtain ⟨slots', hput, hnd', hsub, htotal⟩ := putRow_hasRoom false hnd
      (hasRoom_of_subset (cons_append_pairs r rest slots) hroom)
    have hroom' : HasRoom (rest ++ slots') := by
      refine hasRoom_of_subset (fun p hp => ?_) hroom
      rw [List.map_append, List.mem_append] at hp ⊢
      rcases hp with hp | hp
      · exact Or.inl (List.mem_cons_of_mem _ hp)
      · rcases hsub p hp with rfl | hp
        · exact Or.inl (List.mem_cons_self ..)
        · exact Or.inr hp
    simp only [umUnflush, hput]
    refine ⟨(ih hnd' hroom').1, (ih hnd' hroom').2.1, fun pair => ?_⟩
    rw [(ih hnd' hroom').2.2, htotal, rowsTotal_cons]
    abel

/-- Requests that are recorded where there is room are counted in the slots. -/
theorem record_hasRoom (m : Meter) (rows : List UsageRow)
    (hnd : (m.slots.map UsageRow.pair).Nodup) (hroom : HasRoom (rows ++ m.slots)) :
    ((rows.foldl umRecord m).slots.map UsageRow.pair).Nodup ∧
      (rows.foldl umRecord m).session = m.session ∧
      (∀ p ∈ (rows.foldl umRecord m).slots.map UsageRow.pair,
        p ∈ (rows ++ m.slots).map UsageRow.pair) ∧
      ∀ pair, rowsTotal pair (rows.foldl umRecord m).slots =
          rowsTotal pair rows + rowsTotal pair m.slots ∧
        rowsTotal pair (rows.foldl umRecord m).recorded =
          rowsTotal pair rows + rowsTotal pair m.recorded := by
  induction rows generalizing m with
  | nil => exact ⟨hnd, rfl, fun p hp => hp, fun pair => by simp⟩
  | cons r rest ih =>
    obtain ⟨slots', hput, hnd', hsub, htotal⟩ := putRow_hasRoom true hnd
      (hasRoom_of_subset (cons_append_pairs r rest m.slots) hroom)
    have hslots : (umRecord m r).slots = slots' := by simp [umRecord, hput]
    have hmono : ∀ p ∈ (rest ++ slots').map UsageRow.pair,
        p ∈ (r :: rest ++ m.slots).map UsageRow.pair := by
      intro p hp
      rw [List.map_append, List.mem_append] at hp ⊢
      rcases hp with hp | hp
      · exact Or.inl (List.mem_cons_of_mem _ hp)
      · rcases hsub p hp with rfl | hp
        · exact Or.inl (List.mem_cons_self ..)
        · exact Or.inr hp
    have ihm := ih (umRecord m r) (by rwa [hslots])
      (by rw [hslots]; exact hasRoom_of_subset hmono hroom)
    rw [hslots] at ihm
    rw [List.foldl_cons]
    refine ⟨ihm.1, ihm.2.1, fun p hp => hmono p (ihm.2.2.1 p hp), fun pair => ?_⟩
    have hrec : (umRecord m r).recorded = r :: m.recorded := rfl
    rw [(ihm.2.2.2 pair).1, (ihm.2.2.2 pair).2, htotal, hrec, rowsTotal_cons, rowsTotal_cons]
    exact ⟨by abel, by abel⟩

theorem upsert_total (t : UsageDaily) (r : UsageRow) (pair : ℤ × Bytes) :
    storedTotal pair (upsert t r) =
      storedTotal pair t + if r.pair = pair then r.counters else 0 := by
  induction t with
  | nil => simp [upsert, storedTotal]
  | cons e rest ih =>
    obtain ⟨p, day, c⟩ := e
    simp only [storedTotal] at ih
    simp only [storedTotal, upsert]
    by_cases h : p = r.pair ∧ day = r.day
    · rw [if_pos h, List.map_cons, List.sum_cons, List.map_cons, List.sum_cons, h.1]
      split_ifs
      · exact add_right_comm _ _ _
      · rw [add_zero]
    · rw [if_neg h, List.map_cons, List.sum_cons, ih, List.map_cons, List.sum_cons, add_assoc]

theorem insert_total (t : UsageDaily) (rows : List UsageRow) (pair : ℤ × Bytes) :
    storedTotal pair (usageDaily.insert rows t) = storedTotal pair t + rowsTotal pair rows := by
  induction rows generalizing t with
  | nil => simp [usageDaily]
  | cons r rest ih =>
    have hcons : usageDaily.insert (r :: rest) t = usageDaily.insert rest (upsert t r) := rfl
    rw [hcons, ih, upsert_total, rowsTotal_cons, add_assoc]

/-- What is stored and what is in the slots add up to what was there at the start and what
was recorded since. -/
structure Balanced (t₀ : UsageDaily) (m : Meter) : Prop where
  atRest : m.session.AtRest
  apart : (m.slots.map UsageRow.pair).Nodup
  total : ∀ pair, storedTotal pair m.session.durable + rowsTotal pair m.slots =
    storedTotal pair t₀ + rowsTotal pair m.recorded

theorem balanced_record {t₀ : UsageDaily} {m : Meter} (h : Balanced t₀ m) (rows : List UsageRow)
    (hroom : HasRoom (rows ++ m.slots)) : Balanced t₀ (rows.foldl umRecord m) := by
  obtain ⟨hnd, hsession, -, htotal⟩ := record_hasRoom m rows h.apart hroom
  refine ⟨by rw [hsession]; exact h.atRest, hnd, fun pair => ?_⟩
  rw [hsession, (htotal pair).1, (htotal pair).2, add_left_comm, h.total, add_left_comm]

/-- A harmless round loses nothing and doubles nothing. -/
theorem balanced_flush {t₀ : UsageDaily} {m : Meter} (h : Balanced t₀ m)
    {batch arrived : List UsageRow} {o : FlushOutcomes}
    (hs : HarmlessStep m (.flush batch o arrived)) : Balanced t₀ (flushRound m batch o arrived) := by
  obtain ⟨hperm, hharm, hroom⟩ := hs
  obtain ⟨hok, hfail⟩ := (flushRows_exactlyOnce usageDaily h.atRest batch o).mpr hharm
  have hrest := flushRows_atRest usageDaily h.atRest batch o
  obtain ⟨hnd, hsession, hsub, htotal⟩ := record_hasRoom
    { m with slots := [], session := (pqFlushUsage m.session batch o).1 } arrived List.nodup_nil
    (hasRoom_of_subset (fun p hp => by
      rw [List.append_nil] at hp
      rw [List.map_append]
      exact List.mem_append_left _ hp) hroom)
  have hbatch := fun pair => rowsTotal_perm hperm pair
  unfold flushRound
  rcases flushRows_code usageDaily m.session batch o with hrc | hrc
  · have hrc' : (pqFlushUsage m.session batch o).2 = 0 := hrc
    have hdur : (pqFlushUsage m.session batch o).1.durable =
      usageDaily.insert batch m.session.durable := hok hrc
    simp only [hrc', if_true]
    refine ⟨by rw [hsession]; exact hrest, hnd, fun pair => ?_⟩
    rw [hsession, (htotal pair).1, (htotal pair).2]
    simp only [hdur, insert_total, hbatch, rowsTotal_nil, add_zero, h.total]
    abel
  · have hrc' : (pqFlushUsage m.session batch o).2 ≠ 0 := by
      intro h0
      exact absurd (h0.symm.trans hrc) (by decide)
    have hdur : (pqFlushUsage m.session batch o).1.durable = m.session.durable := hfail hrc
    have hback := umUnflush_hasRoom batch hnd (hasRoom_of_subset (fun p hp => by
      rw [List.map_append, List.mem_append] at hp ⊢
      rcases hp with hp | hp
      · exact Or.inr ((hperm.map _).mem_iff.mp hp)
      · exact Or.inl (by simpa using hsub p hp)) hroom)
    simp only [hrc', if_false]
    refine ⟨by rw [hsession]; exact hrest, hback.2.1, fun pair => ?_⟩
    rw [hback.2.2, hsession, (htotal pair).1, (htotal pair).2]
    simp only [hdur, hbatch, rowsTotal_nil, add_zero]
    rw [← add_assoc, h.total]
    abel

/-- Every harmless run keeps the balance. -/
theorem balanced_run {t₀ : UsageDaily} {m : Meter} (h : Balanced t₀ m) {actions : List Action}
    (hrun : HarmlessRun m actions) : Balanced t₀ (run m actions) := by
  induction actions generalizing m with
  | nil => exact h
  | cons a rest ih =>
    obtain ⟨hstep, hrest⟩ := hrun
    refine ih ?_ hrest
    cases a with
    | record r => exact balanced_record h [r] hstep
    | flush batch o arrived => exact balanced_flush h hstep

/-- A meter without recorded requests on a connection to the store. -/
def fresh (s : Session UsageDaily) : Meter where
  slots := []
  session := s
  recorded := []

/-- A request of key 7. -/
def sampleRow : UsageRow where
  keyId := 7
  modelName := ascii "gpt-4o"
  day := 20000
  requests := 1
  promptTokens := 12
  completionTokens := 30
  errors := 0
  cachedPromptTokens := 0
  counted := by decide

/-- Every statement succeeds. -/
def allDone : FlushOutcomes where
  reconnect := true
  begin := .done
  chunk _ := .done
  rollback := .done
  commit := .done

/-- An empty store behind a live connection. -/
def emptyStore : Session UsageDaily := ⟨[], .idle⟩

end Aigate.UsageMeter
