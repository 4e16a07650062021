import Aigate.GuardedRuns
import Aigate.ModelRouter

/-!
# Requests in flight

Each endpoint that is called has a slot with a counter. `model_router_acquire_target` counts a
request, unless the target has all the requests that it may have, and
`model_router_release_target` counts it down and then writes a zero if nothing was left. Both
are made of atomic steps, and steps of other requests come in between.
-/
namespace Aigate.InFlight
open Text GuardedRuns ModelRouter

/-- `MR_MAX_CONCURRENT_TARGETS`. -/
def mrMaxConcurrentTargets : ℕ := 256

/-- A slot in use. Slots are taken in order and never given back. -/
structure TargetSlot where
  endpoint : Bytes
  inFlight : ℤ
  deriving DecidableEq

def slotIndex (slots : List TargetSlot) (endpoint : Bytes) : Option ℕ :=
  slots.findIdx? fun slot => slot.endpoint = endpoint

/-- The second half, with its second look for the slot, is one section under the lock. -/
def findOrCreateSlot (slots : List TargetSlot) (endpoint : Bytes) :
    List TargetSlot × Option ℕ :=
  if endpoint = [] then (slots, none)
  else
    match slotIndex slots endpoint with
    | some i => (slots, some i)
    | none =>
      if slots.length < mrMaxConcurrentTargets then
        (slots ++ [⟨endpoint, 0⟩], some slots.length)
      else (slots, none)

def loadSlot (slots : List TargetSlot) (i : ℕ) : ℤ := (slots[i]?.map TargetSlot.inFlight).getD 0

def storeSlot (slots : List TargetSlot) (i : ℕ) (v : ℤ) : List TargetSlot :=
  slots.modify i fun slot => { slot with inFlight := v }

/-- How far a request has come with a target: `acquire` looks for the slot, loads the counter,
and has `cur` for the compare and exchange; it has refused the target. Or the request holds the
target; `release` has counted down and goes on to write a zero. -/
inductive Phase where
  | entering
  | loading (i : ℕ)
  | trying (i : ℕ) (cur : ℤ)
  | refused
  | holding
  | clamping (i : ℕ)
  | done
  deriving DecidableEq

structure Request where
  target : Target
  phase : Phase
  deriving DecidableEq

/-- The next atomic step of a request. A weak compare and exchange may fail for no reason. -/
def advance (slots : List TargetSlot) (t : Target) (spurious : Bool) :
    Phase → List TargetSlot × Phase
  | .entering =>
    match findOrCreateSlot slots t.endpoint with
    | (slots', none) => (slots', .holding)
    | (slots', some i) => (slots', .loading i)
  | .loading i => (slots, .trying i (loadSlot slots i))
  | .trying i cur =>
    if 0 < t.maxConcurrent ∧ t.maxConcurrent ≤ cur then (slots, .refused)
    else if loadSlot slots i = cur ∧ spurious = false then (storeSlot slots i (cur + 1), .holding)
    else (slots, .trying i (loadSlot slots i))
  | .holding =>
    if t.endpoint = [] then (slots, .done)
    else
      match slotIndex slots t.endpoint with
      | none => (slots, .done)
      | some i =>
        (storeSlot slots i (loadSlot slots i - 1),
          if loadSlot slots i ≤ 1 then .clamping i else .done)
  | .clamping i => (storeSlot slots i 0, .done)
  | .refused => (slots, .refused)
  | .done => (slots, .done)

structure System where
  slots : List TargetSlot
  requests : List Request
  deriving DecidableEq

inductive Event where
  | request (t : Target)
  | advance (k : ℕ) (spurious : Bool)

def step (s : System) : Event → System
  | .request t => { s with requests := s.requests ++ [⟨t, .entering⟩] }
  | .advance k spurious =>
    match s.requests[k]? with
    | none => s
    | some r =>
      ⟨(advance s.slots r.target spurious r.phase).1,
        s.requests.set k ⟨r.target, (advance s.slots r.target spurious r.phase).2⟩⟩

def start : System := ⟨[], []⟩

/-- The counter of an endpoint. -/
def counter (slots : List TargetSlot) (endpoint : Bytes) : ℤ :=
  match slots.find? fun slot => slot.endpoint = endpoint with
  | none => 0
  | some slot => slot.inFlight

/-- The request has acquired the endpoint and not released it. -/
def Request.holds (endpoint : Bytes) (r : Request) : Bool :=
  decide (r.phase = .holding) && decide (r.target.endpoint = endpoint)

/-- The counters are right, and within the limit of the requests that are counted. -/
structure Counted (s : System) : Prop where
  counter_eq : ∀ e, counter s.slots e = s.requests.countP (Request.holds e)
  nonneg : ∀ e, 0 ≤ counter s.slots e
  le_max : ∀ e m, 0 < m →
    (∀ r ∈ s.requests, r.holds e → 0 < r.target.maxConcurrent ∧ r.target.maxConcurrent ≤ m) →
    counter s.slots e ≤ m

/-- A request enters with an endpoint that has a slot or gets one, and a zero is written only
when nobody holds the endpoint. -/
def StepOk (s : System) : Event → Prop
  | .request _ => True
  | .advance k _ => ∀ r, s.requests[k]? = some r →
    (r.phase = .entering → (findOrCreateSlot s.slots r.target.endpoint).2 ≠ none) ∧
    (∀ i, r.phase = .clamping i → s.requests.countP (Request.holds r.target.endpoint) = 0)

/-- The slot at an index is that of an endpoint. -/
def At (slots : List TargetSlot) (i : ℕ) (endpoint : Bytes) : Prop :=
  slots[i]?.map TargetSlot.endpoint = some endpoint

theorem at_of_slotIndex {slots : List TargetSlot} {endpoint : Bytes} {i : ℕ}
    (h : slotIndex slots endpoint = some i) : At slots i endpoint := by
  obtain ⟨hi, hslot, -⟩ := List.findIdx?_eq_some_iff_getElem.mp h
  rw [At, List.getElem?_eq_getElem hi, Option.map_some, of_decide_eq_true hslot]

theorem not_mem_of_slotIndex {slots : List TargetSlot} {endpoint : Bytes}
    (h : slotIndex slots endpoint = none) : ∀ slot ∈ slots, slot.endpoint ≠ endpoint := by
  intro slot hslot
  have hnone := List.findIdx?_eq_none_iff.mp h slot hslot
  simpa using hnone

theorem counter_eq_zero {slots : List TargetSlot} {endpoint : Bytes}
    (h : ∀ slot ∈ slots, slot.endpoint ≠ endpoint) : counter slots endpoint = 0 := by
  have hnone : (slots.find? fun slot => slot.endpoint = endpoint) = none := by
    apply List.find?_eq_none.mpr
    intro slot hslot
    simpa using h slot hslot
  rw [counter, hnone]

theorem counter_cons (slot : TargetSlot) (slots : List TargetSlot) (endpoint : Bytes) :
    counter (slot :: slots) endpoint =
      if slot.endpoint = endpoint then slot.inFlight else counter slots endpoint := by
  rw [counter, List.find?_cons]
  by_cases h : slot.endpoint = endpoint
  · simp [h]
  · simp [h, counter]

theorem counter_append_new (slots : List TargetSlot) (new endpoint : Bytes) :
    counter (slots ++ [⟨new, 0⟩]) endpoint = counter slots endpoint := by
  induction slots with
  | nil =>
    rw [List.nil_append, counter_cons]
    split <;> rfl
  | cons slot slots ih => rw [List.cons_append, counter_cons, counter_cons, ih]

theorem counter_of_at {slots : List TargetSlot} (h : (slots.map TargetSlot.endpoint).Nodup) {i : ℕ}
    {endpoint : Bytes} (hat : At slots i endpoint) : counter slots endpoint = loadSlot slots i := by
  induction slots generalizing i with
  | nil => cases hat
  | cons slot slots ih =>
    rw [List.map_cons, List.nodup_cons] at h
    rw [counter_cons]
    cases i with
    | zero =>
      obtain rfl := Option.some.inj hat
      rw [if_pos rfl]
      rfl
    | succ i =>
      have hat' : At slots i endpoint := hat
      have hne : slot.endpoint ≠ endpoint := by
        rintro rfl
        obtain ⟨other, hother, heq⟩ := Option.map_eq_some_iff.mp hat'
        exact h.1 (List.mem_map.mpr ⟨other, List.mem_of_getElem? hother, heq⟩)
      rw [if_neg hne, ih h.2 hat']
      rfl

theorem counter_storeSlot {slots : List TargetSlot} (h : (slots.map TargetSlot.endpoint).Nodup)
    {i : ℕ} {endpoint : Bytes} (hat : At slots i endpoint) (v : ℤ) (e : Bytes) :
    counter (storeSlot slots i v) e = if e = endpoint then v else counter slots e := by
  induction slots generalizing i with
  | nil => cases hat
  | cons slot slots ih =>
    rw [List.map_cons, List.nodup_cons] at h
    cases i with
    | zero =>
      obtain rfl := Option.some.inj hat
      rw [storeSlot, List.modify_zero_cons, counter_cons, counter_cons]
      by_cases he : e = slot.endpoint
      · rw [if_pos he, if_pos he.symm]
      · rw [if_neg he, if_neg (Ne.symm he), if_neg (Ne.symm he)]
    | succ i =>
      have hat' : At slots i endpoint := hat
      have hne : slot.endpoint ≠ endpoint := by
        rintro rfl
        obtain ⟨other, hother, heq⟩ := Option.map_eq_some_iff.mp hat'
        exact h.1 (List.mem_map.mpr ⟨other, List.mem_of_getElem? hother, heq⟩)
      rw [storeSlot, List.modify_succ_cons, counter_cons, counter_cons]
      by_cases he : slot.endpoint = e
      · rw [if_pos he, if_pos he, if_neg (he ▸ hne)]
      · rw [if_neg he, if_neg he]
        exact ih h.2 hat'

@[simp] theorem map_endpoint_storeSlot (slots : List TargetSlot) (i : ℕ) (v : ℤ) :
    (storeSlot slots i v).map TargetSlot.endpoint = slots.map TargetSlot.endpoint := by
  induction slots generalizing i with
  | nil => cases i <;> rfl
  | cons slot slots ih =>
    cases i with
    | zero => rfl
    | succ i =>
      rw [storeSlot, List.modify_succ_cons, List.map_cons, List.map_cons]
      exact congrArg (slot.endpoint :: ·) (ih i)

/-- What a slot stands for depends on the endpoints alone. -/
theorem at_iff (slots : List TargetSlot) (i : ℕ) (endpoint : Bytes) :
    At slots i endpoint ↔ (slots.map TargetSlot.endpoint)[i]? = some endpoint := by
  rw [List.getElem?_map, At]

theorem findOrCreateSlot_endpoints (slots : List TargetSlot) (endpoint : Bytes) :
    ∃ more, (findOrCreateSlot slots endpoint).1.map TargetSlot.endpoint =
      slots.map TargetSlot.endpoint ++ more := by
  unfold findOrCreateSlot
  split
  · exact ⟨[], by simp⟩
  · cases slotIndex slots endpoint with
    | some i => exact ⟨[], by simp⟩
    | none =>
      dsimp only
      split
      · exact ⟨[endpoint], by simp⟩
      · exact ⟨[], by simp⟩

/-- The slots have different endpoints, none of them empty. -/
structure SlotsOk (slots : List TargetSlot) : Prop where
  nodup : (slots.map TargetSlot.endpoint).Nodup
  named : ∀ slot ∈ slots, slot.endpoint ≠ []

theorem SlotsOk.storeSlot {slots : List TargetSlot} (h : SlotsOk slots) (i : ℕ) (v : ℤ) :
    SlotsOk (storeSlot slots i v) := by
  have hsame := map_endpoint_storeSlot slots i v
  refine ⟨by rw [hsame]; exact h.nodup, fun slot hslot => ?_⟩
  have hmem : slot.endpoint ∈ slots.map TargetSlot.endpoint :=
    hsame ▸ List.mem_map_of_mem hslot
  obtain ⟨other, hother, heq⟩ := List.mem_map.mp hmem
  exact heq ▸ h.named other hother

theorem SlotsOk.findOrCreateSlot {slots : List TargetSlot} (h : SlotsOk slots) (endpoint : Bytes) :
    SlotsOk (findOrCreateSlot slots endpoint).1 := by
  unfold InFlight.findOrCreateSlot
  split
  · exact h
  · rename_i hne
    cases hfind : slotIndex slots endpoint with
    | some i => exact h
    | none =>
      dsimp only
      split
      · have hnew := not_mem_of_slotIndex hfind
        constructor
        · rw [List.map_append, List.nodup_append]
          refine ⟨h.nodup, List.nodup_singleton _, fun a ha b hb => ?_⟩
          obtain ⟨slot, hslot, rfl⟩ := List.mem_map.mp ha
          rw [List.map_singleton, List.mem_singleton] at hb
          exact hb ▸ hnew slot hslot
        · intro slot hslot
          rcases List.mem_append.mp hslot with hold | hlast
          · exact h.named slot hold
          · rw [List.mem_singleton.mp hlast]
            exact hne
      · exact h

theorem SlotsOk.advance {slots : List TargetSlot} (h : SlotsOk slots) (t : Target)
    (spurious : Bool) (phase : Phase) : SlotsOk (advance slots t spurious phase).1 := by
  cases phase with
  | entering =>
    have hnext := h.findOrCreateSlot t.endpoint
    rw [InFlight.advance]
    cases hfind : InFlight.findOrCreateSlot slots t.endpoint with
    | mk slots' i =>
      rw [hfind] at hnext
      cases i <;> exact hnext
  | trying i cur =>
    rw [InFlight.advance]
    split
    · exact h
    · split
      · exact h.storeSlot i (cur + 1)
      · exact h
  | holding =>
    rw [InFlight.advance]
    split
    · exact h
    · cases slotIndex slots t.endpoint with
      | none => exact h
      | some i => exact h.storeSlot i _
  | clamping i => exact h.storeSlot i 0
  | _ => exact h

/-- A slot stays where it is. -/
theorem at_advance {slots : List TargetSlot} (t : Target) (spurious : Bool) (phase : Phase) {i : ℕ}
    {endpoint : Bytes} (h : At slots i endpoint) :
    At (advance slots t spurious phase).1 i endpoint := by
  have hstore : ∀ j v, At (storeSlot slots j v) i endpoint := by
    intro j v
    rw [at_iff, map_endpoint_storeSlot]
    exact (at_iff _ _ _).mp h
  cases phase with
  | entering =>
    obtain ⟨more, hmore⟩ := findOrCreateSlot_endpoints slots t.endpoint
    have hat : At (findOrCreateSlot slots t.endpoint).1 i endpoint := by
      rw [at_iff] at h ⊢
      obtain ⟨hi, -⟩ := List.getElem?_eq_some_iff.mp h
      rw [hmore, List.getElem?_append_left hi, h]
    rw [InFlight.advance]
    cases hfind : findOrCreateSlot slots t.endpoint with
    | mk slots' j =>
      rw [hfind] at hat
      cases j <;> exact hat
  | trying j cur =>
    rw [InFlight.advance]
    split
    · exact h
    · split
      · exact hstore j (cur + 1)
      · exact h
  | holding =>
    rw [InFlight.advance]
    split
    · exact h
    · cases slotIndex slots t.endpoint with
      | none => exact h
      | some j => exact hstore j _
  | clamping j => exact hstore j 0
  | _ => exact h

/-- The slot that a request works on. -/
def Phase.slot : Phase → Option ℕ
  | .loading i => some i
  | .trying i _ => some i
  | .clamping i => some i
  | _ => none

theorem findOrCreateSlot_at {slots slots' : List TargetSlot} {endpoint : Bytes} {i : ℕ}
    (h : findOrCreateSlot slots endpoint = (slots', some i)) : At slots' i endpoint := by
  unfold findOrCreateSlot at h
  split at h
  · cases h
  · cases hfind : slotIndex slots endpoint with
    | some j =>
      rw [hfind] at h
      cases h
      exact at_of_slotIndex hfind
    | none =>
      rw [hfind] at h
      dsimp only at h
      split at h
      · cases h
        simp [At]
      · cases h

/-- A request works on the slot of its endpoint. -/
theorem advance_slot {slots : List TargetSlot} {t : Target} {spurious : Bool} {phase : Phase}
    (h : ∀ i, phase.slot = some i → At slots i t.endpoint) {i : ℕ}
    (hi : (advance slots t spurious phase).2.slot = some i) :
    At (advance slots t spurious phase).1 i t.endpoint := by
  cases phase with
  | entering =>
    rw [InFlight.advance] at hi ⊢
    cases hfind : findOrCreateSlot slots t.endpoint with
    | mk slots' j =>
      rw [hfind] at hi
      cases j with
      | none => cases hi
      | some j =>
        cases hi
        exact findOrCreateSlot_at hfind
  | loading j =>
    cases hi
    exact h _ rfl
  | trying j cur =>
    have hnext := at_advance t spurious (.trying j cur) (h j rfl)
    have hij : i = j := by
      rw [InFlight.advance] at hi
      split at hi
      · cases hi
      · split at hi <;> cases hi
        rfl
    exact hij ▸ hnext
  | holding =>
    rw [InFlight.advance] at hi ⊢
    split at hi
    · cases hi
    · rename_i hne
      rw [if_neg hne]
      cases hfind : slotIndex slots t.endpoint with
      | none =>
        rw [hfind] at hi
        cases hi
      | some j =>
        rw [hfind] at hi
        dsimp only at hi ⊢
        split at hi
        · cases hi
          rw [at_iff, map_endpoint_storeSlot]
          exact (at_iff _ _ _).mp (at_of_slotIndex hfind)
        · cases hi
  | clamping j => cases hi
  | refused => cases hi
  | done => cases hi

/-- Of the requests that hold an endpoint, no more were let in under a limit than the limit. -/
def Limited (requests : List Request) : Prop :=
  ∀ e m, 0 < m → (requests.countP fun r =>
    r.holds e && decide (0 < r.target.maxConcurrent ∧ r.target.maxConcurrent ≤ m) : ℤ) ≤ m

structure Inv (s : System) : Prop where
  slots : SlotsOk s.slots
  placed : ∀ r ∈ s.requests, ∀ i, r.phase.slot = some i → At s.slots i r.target.endpoint
  limited : Limited s.requests

theorem inv_start : Inv start :=
  ⟨⟨List.nodup_nil, fun _ h => absurd h List.not_mem_nil⟩, fun _ h => absurd h List.not_mem_nil,
    fun _ _ hm => le_of_lt hm⟩

/-- The limit follows from the counts. -/
theorem counted_of_eq {s : System} (h : Limited s.requests)
    (heq : ∀ e, counter s.slots e = s.requests.countP (Request.holds e)) : Counted s := by
  refine ⟨heq, fun e => ?_, fun e m hm hall => ?_⟩
  · rw [heq]
    exact Int.natCast_nonneg _
  · have hsame : (s.requests.countP fun r => r.holds e &&
        decide (0 < r.target.maxConcurrent ∧ r.target.maxConcurrent ≤ m)) =
        s.requests.countP (Request.holds e) := by
      apply List.countP_congr
      intro r hr
      constructor
      · intro hboth
        exact (Bool.and_eq_true_iff.mp hboth).1
      · intro hholds
        exact Bool.and_eq_true_iff.mpr ⟨hholds, decide_eq_true (hall r hr hholds)⟩
    rw [heq, ← hsame]
    exact h e m hm

/-- The requests that hold an endpoint, when one of them goes on. -/
theorem Counted.holders_set {s : System} (h : Counted s) {k : ℕ} {t : Target} {phase : Phase}
    (hk : s.requests[k]? = some ⟨t, phase⟩) (next : Phase) (e : Bytes) :
    ((s.requests.set k ⟨t, next⟩).countP (Request.holds e) : ℤ) = counter s.slots e +
      (if next = .holding ∧ t.endpoint = e then 1 else 0) -
      (if phase = .holding ∧ t.endpoint = e then 1 else 0) := by
  have hadd := countP_set_add (Request.holds e) hk ⟨t, next⟩
  rw [h.counter_eq e]
  simp only [Request.holds, Bool.and_eq_true, decide_eq_true_eq] at hadd
  have hadd' : ((s.requests.set k ⟨t, next⟩).countP (Request.holds e) : ℤ) +
      (if phase = .holding ∧ t.endpoint = e then 1 else 0) =
      s.requests.countP (Request.holds e) +
      (if next = .holding ∧ t.endpoint = e then 1 else 0) := by exact_mod_cast hadd
  omega

/-- The counters are those of the requests after a request has gone on. -/
def Agrees (s : System) (k : ℕ) (t : Target) (next : List TargetSlot × Phase) : Prop :=
  ∀ e, counter next.1 e = ((s.requests.set k ⟨t, next.2⟩).countP (Request.holds e) : ℤ)

theorem Counted.agrees_still {s : System} (h : Counted s) {k : ℕ} {t : Target} {phase : Phase}
    (hk : s.requests[k]? = some ⟨t, phase⟩) {next : List TargetSlot × Phase}
    (hphase : phase ≠ .holding) (hnext : next.2 ≠ .holding)
    (hslots : ∀ e, counter next.1 e = counter s.slots e) : Agrees s k t next := by
  intro e
  rw [h.holders_set hk, hslots, if_neg (fun hn => hnext hn.1), if_neg (fun hp => hphase hp.1)]
  omega

theorem counter_findOrCreateSlot (slots : List TargetSlot) (endpoint e : Bytes) :
    counter (findOrCreateSlot slots endpoint).1 e = counter slots e := by
  unfold findOrCreateSlot
  split
  · rfl
  · cases slotIndex slots endpoint with
    | some i => rfl
    | none =>
      dsimp only
      split
      · exact counter_append_new slots endpoint e
      · rfl

/-- A request that gets no slot holds its endpoint uncounted. -/
theorem Counted.agrees_entering {s : System} (h : Counted s) {k : ℕ} {t : Target}
    (hk : s.requests[k]? = some ⟨t, .entering⟩) (spurious : Bool) :
    Agrees s k t (advance s.slots t spurious .entering) ↔
      (findOrCreateSlot s.slots t.endpoint).2 ≠ none := by
  have hslots := counter_findOrCreateSlot s.slots t.endpoint
  rw [InFlight.advance]
  cases hfind : findOrCreateSlot s.slots t.endpoint with
  | mk slots' i =>
    rw [hfind] at hslots
    cases i with
    | none =>
      refine iff_of_false (fun hagrees => ?_) (fun hne => hne rfl)
      have hcount := hagrees t.endpoint
      rw [h.holders_set hk, hslots, if_pos ⟨rfl, rfl⟩, if_neg (by simp)] at hcount
      omega
    | some i => exact iff_of_true (h.agrees_still hk (by simp) (by simp) hslots) (by simp)

theorem Counted.agrees_trying {s : System} (h : Counted s) (hi : SlotsOk s.slots) {k i : ℕ}
    {cur : ℤ} {t : Target} (hk : s.requests[k]? = some ⟨t, .trying i cur⟩)
    (hat : At s.slots i t.endpoint) (spurious : Bool) :
    Agrees s k t (advance s.slots t spurious (.trying i cur)) := by
  rw [InFlight.advance]
  split
  · exact h.agrees_still hk (by simp) (by simp) (fun _ => rfl)
  · split
    · rename_i hsame
      intro e
      have hcount := h.holders_set hk .holding e
      have hvalue := counter_storeSlot hi.nodup hat (cur + 1) e
      have hload : counter s.slots t.endpoint = cur :=
        (counter_of_at hi.nodup hat).trans hsame.1
      by_cases he : e = t.endpoint
      · simp only [he, true_and, reduceCtorEq, false_and, if_true, if_false] at hcount hvalue ⊢
        omega
      · simp only [he, Ne.symm he, and_false, if_false] at hcount hvalue
        dsimp only
        omega
    · exact h.agrees_still hk (by simp) (by simp) (fun _ => rfl)

theorem Counted.agrees_holding {s : System} (h : Counted s) (hi : SlotsOk s.slots) {k : ℕ}
    {t : Target} (hk : s.requests[k]? = some ⟨t, .holding⟩) (spurious : Bool) :
    Agrees s k t (advance s.slots t spurious .holding) := by
  -- the request is counted, so its endpoint has a slot
  have hpos : counter s.slots t.endpoint ≠ 0 := by
    have hcounted : 0 < s.requests.countP (Request.holds t.endpoint) :=
      List.countP_pos_iff.mpr ⟨_, List.mem_of_getElem? hk, by simp [Request.holds]⟩
    rw [h.counter_eq]
    omega
  have hne : t.endpoint ≠ [] := by
    intro hempty
    exact hpos (counter_eq_zero fun slot hslot => hempty ▸ hi.named slot hslot)
  rw [InFlight.advance, if_neg hne]
  cases hfind : slotIndex s.slots t.endpoint with
  | none => exact absurd (counter_eq_zero (not_mem_of_slotIndex hfind)) hpos
  | some i =>
    have hat := at_of_slotIndex hfind
    have hnext : (if loadSlot s.slots i ≤ 1 then Phase.clamping i else .done) ≠ .holding := by
      split <;> simp
    intro e
    have hcount := h.holders_set hk (if loadSlot s.slots i ≤ 1 then .clamping i else .done) e
    have hvalue := counter_storeSlot hi.nodup hat (loadSlot s.slots i - 1) e
    have hload := counter_of_at hi.nodup hat
    by_cases he : e = t.endpoint
    · simp only [he, hnext, true_and, false_and, if_true, if_false] at hcount hvalue ⊢
      omega
    · simp only [he, Ne.symm he, and_false, if_false] at hcount hvalue
      dsimp only
      omega

/-- The zero is right when nobody holds the endpoint. -/
theorem Counted.agrees_clamping {s : System} (h : Counted s) (hi : SlotsOk s.slots) {k i : ℕ}
    {t : Target} (hk : s.requests[k]? = some ⟨t, .clamping i⟩) (hat : At s.slots i t.endpoint)
    (spurious : Bool) : Agrees s k t (advance s.slots t spurious (.clamping i)) ↔
      s.requests.countP (Request.holds t.endpoint) = 0 := by
  have hcount : ∀ e, ((s.requests.set k ⟨t, .done⟩).countP (Request.holds e) : ℤ) =
      s.requests.countP (Request.holds e) := by
    intro e
    rw [h.holders_set hk, h.counter_eq, if_neg (by simp), if_neg (by simp)]
    omega
  rw [InFlight.advance]
  constructor
  · intro hagrees
    have hzero := hagrees t.endpoint
    rw [counter_storeSlot hi.nodup hat, if_pos rfl, hcount] at hzero
    omega
  · intro hzero e
    dsimp only
    rw [counter_storeSlot hi.nodup hat, hcount]
    by_cases he : e = t.endpoint
    · rw [if_pos he, he, hzero]
      rfl
    · rw [if_neg he, h.counter_eq]

theorem Counted.agrees_iff {s : System} (h : Counted s) (hi : Inv s) {k : ℕ} {t : Target}
    {phase : Phase} (hk : s.requests[k]? = some ⟨t, phase⟩) (spurious : Bool) :
    Agrees s k t (advance s.slots t spurious phase) ↔
      (phase = .entering → (findOrCreateSlot s.slots t.endpoint).2 ≠ none) ∧
      (∀ i, phase = .clamping i → s.requests.countP (Request.holds t.endpoint) = 0) := by
  have hplaced := hi.placed _ (List.mem_of_getElem? hk)
  cases phase with
  | entering => simpa using h.agrees_entering hk spurious
  | loading i => simpa using h.agrees_still hk (by simp) (by simp [InFlight.advance]) (fun _ => rfl)
  | trying i cur => simpa using h.agrees_trying hi.slots hk (hplaced i rfl) spurious
  | holding => simpa using h.agrees_holding hi.slots hk spurious
  | clamping i => simpa using h.agrees_clamping hi.slots hk (hplaced i rfl) spurious
  | refused => simpa using h.agrees_still hk (by simp) (by simp [InFlight.advance]) (fun _ => rfl)
  | done => simpa using h.agrees_still hk (by simp) (by simp [InFlight.advance]) (fun _ => rfl)

/-- A request that comes to hold its endpoint was let in below its own limit. -/
theorem Limited.set {s : System} (h : Counted s) (hl : Limited s.requests) {k : ℕ} {t : Target}
    {phase next : Phase} (hk : s.requests[k]? = some ⟨t, phase⟩)
    (hnext : next = .holding → 0 < t.maxConcurrent →
      counter s.slots t.endpoint < t.maxConcurrent) :
    Limited (s.requests.set k ⟨t, next⟩) := by
  intro e m hm
  have hbefore := hl e m hm
  have hadd := countP_set_add (fun r : Request => r.holds e &&
    decide (0 < r.target.maxConcurrent ∧ r.target.maxConcurrent ≤ m)) hk ⟨t, next⟩
  by_cases hnew : (Request.holds e ⟨t, next⟩ &&
      decide (0 < t.maxConcurrent ∧ t.maxConcurrent ≤ m)) = true
  · simp only [Request.holds, Bool.and_eq_true, decide_eq_true_eq] at hnew
    obtain ⟨⟨hholding, hendpoint⟩, hpos, hmax⟩ := hnew
    have hbelow := hnext hholding hpos
    rw [hendpoint, h.counter_eq] at hbelow
    have hle : (s.requests.countP fun r => r.holds e &&
        decide (0 < r.target.maxConcurrent ∧ r.target.maxConcurrent ≤ m)) ≤
        s.requests.countP (Request.holds e) := by
      apply List.countP_mono_left
      intro r _ hr
      exact (Bool.and_eq_true_iff.mp hr).1
    split at hadd <;> split at hadd <;> omega
  · rw [if_neg hnew] at hadd
    omega

theorem Inv.advance {s : System} (hi : Inv s) (h : Counted s) {k : ℕ} {t : Target} {phase : Phase}
    (hk : s.requests[k]? = some ⟨t, phase⟩) (spurious : Bool)
    (hok : phase = .entering → (findOrCreateSlot s.slots t.endpoint).2 ≠ none) :
    Inv ⟨(advance s.slots t spurious phase).1,
      s.requests.set k ⟨t, (InFlight.advance s.slots t spurious phase).2⟩⟩ := by
  have hplaced := hi.placed _ (List.mem_of_getElem? hk)
  refine ⟨hi.slots.advance t spurious phase, fun r hr i hslot => ?_, ?_⟩
  · rcases List.mem_or_eq_of_mem_set hr with hold | rfl
    · exact at_advance t spurious phase (hi.placed r hold i hslot)
    · exact advance_slot hplaced hslot
  · apply hi.limited.set h hk
    intro hholding hpos
    cases phase with
    | entering =>
      rw [InFlight.advance] at hholding
      cases hfind : findOrCreateSlot s.slots t.endpoint with
      | mk slots' i =>
        rw [hfind] at hholding hok
        cases i with
        | none => exact absurd rfl (hok rfl)
        | some i => cases hholding
    | trying i cur =>
      rw [InFlight.advance] at hholding
      split at hholding
      · cases hholding
      · rename_i hroom
        split at hholding
        · rename_i hsame
          rw [counter_of_at hi.slots.nodup (hplaced i rfl), hsame.1]
          omega
        · cases hholding
    | holding =>
      rw [InFlight.advance] at hholding
      split at hholding
      · cases hholding
      · cases hfind : slotIndex s.slots t.endpoint with
        | none =>
          rw [hfind] at hholding
          cases hholding
        | some i =>
          rw [hfind] at hholding
          dsimp only at hholding
          split at hholding <;> cases hholding
    | loading i => cases hholding
    | clamping i => cases hholding
    | refused => cases hholding
    | done => cases hholding

/-- A request that comes holds nothing yet. -/
theorem Inv.append {s : System} (hi : Inv s) (t : Target) {phase : Phase} (hslot : phase.slot = none)
    (hphase : phase ≠ .holding) : Inv ⟨s.slots, s.requests ++ [⟨t, phase⟩]⟩ := by
  refine ⟨hi.slots, fun r hr i hi' => ?_, fun e m hm => ?_⟩
  · rcases List.mem_append.mp hr with hold | hnew
    · exact hi.placed r hold i hi'
    · rw [List.mem_singleton.mp hnew, hslot] at hi'
      cases hi'
  · rw [List.countP_append]
    simpa [Request.holds, hphase] using hi.limited e m hm

theorem Counted.append {s : System} (h : Counted s) (hi : Inv s) (t : Target) {phase : Phase}
    (hslot : phase.slot = none) (hphase : phase ≠ .holding) :
    Counted ⟨s.slots, s.requests ++ [⟨t, phase⟩]⟩ := by
  apply counted_of_eq (hi.append t hslot hphase).limited
  intro e
  rw [List.countP_append, h.counter_eq e]
  simp [Request.holds, hphase]

theorem Inv.step {s : System} (hi : Inv s) (h : Counted s) {e : Event} (hok : StepOk s e) :
    Inv (step s e) := by
  cases e with
  | request t => exact hi.append t rfl (by simp)
  | advance k spurious =>
    rw [InFlight.step]
    cases hk : s.requests[k]? with
    | none => exact hi
    | some r => exact hi.advance h hk spurious (hok r hk).1

theorem Counted.step {s : System} (h : Counted s) (hi : Inv s) (e : Event) :
    Counted (step s e) ↔ StepOk s e := by
  cases e with
  | request t => exact iff_of_true (h.append hi t rfl (by simp)) trivial
  | advance k spurious =>
    constructor
    · intro hnext r hk
      have heq := hnext.counter_eq
      rw [InFlight.step, hk] at heq
      exact (h.agrees_iff hi hk spurious).mp heq
    · intro hok
      apply counted_of_eq (hi.step h hok).limited
      rw [InFlight.step]
      cases hk : s.requests[k]? with
      | none => exact h.counter_eq
      | some r => exact (h.agrees_iff hi hk spurious).mpr (hok r hk)

theorem counted_start : Counted start :=
  counted_of_eq inv_start.limited fun _ => rfl

/-- The counters are right in every state of a run exactly if every request that enters gets a
slot and no zero is written while somebody holds the endpoint. -/
theorem counted_run_iff (events : List Event) :
    Always step Counted start events ↔ RunOk step StepOk start events :=
  always_iff_runOk (fun _ _ hi h hok => hi.step h hok) (fun _ e hi h => h.step hi e) inv_start
    counted_start events

/-- A target that may have one request. -/
def single : Target := ⟨ascii "openai", ascii "https://api.openai.com/v1", 1, 0, 1, by decide +kernel⟩

/-- Between the two steps of a release another request acquires the target. -/
def raced : List Event :=
  [.request single, .advance 0 false, .advance 0 false, .advance 0 false, .advance 0 false,
    .request single, .advance 1 false, .advance 1 false, .advance 1 false, .advance 0 false]

/-- The second request holds the target, and the counter is 0. -/
theorem not_counted_raced : ¬ Always step Counted start raced := by
  intro h
  have heq := h.last.counter_eq (ascii "https://api.openai.com/v1")
  revert heq
  decide +kernel

end Aigate.InFlight
