import Mathlib.Order.Lattice.Nat
import Mathlib.Logic.Function.Basic
import Aigate.GuardedRuns

/-!
# Read-through caches

A store holds a row for each key, or none. A cache in front of it keeps rows that were read,
and may keep keys that have none. A lookup finds the key in the cache, or reads the store and
puts what it has read into the cache. An update writes the store and then removes the key from
the cache. All of these are separate steps, and steps of other lookups and updates come in
between; the cache may forget a key at any time.

Every row carries the number of the write that made it. What a lookup returns is fresh if it is
not older than the updates that were over when the lookup began. It is, unless a lookup puts a
row into the cache after the removal that belongs to a later write.
-/
namespace Aigate.ReadThrough
open GuardedRuns

variable {K R V : Type*}

/-- What is done with a row that was read. -/
inductive Load where
  | keep
  | pass
  | fail
  deriving DecidableEq

/-- The policy of a cache: what it does with a row under the circumstances `V`, and whether it
keeps the keys that have none. -/
structure Policy (R V : Type*) where
  load : V → R → Load
  marksAbsent : Bool

structure Stamped (R : Type*) where
  version : ℕ
  row : Option R

inductive Phase (R : Type*) where
  | find
  | findAbsent
  | read
  | put (s : Stamped R)
  | done (answer : Option (Stamped R))

/-- A lookup, with the newest write that was removed from the cache when it began. -/
structure Lookup (K R : Type*) where
  key : K
  since : ℕ
  phase : Phase R

inductive UpdatePhase where
  | written
  | rowRemoved
  | completed

structure Update (K : Type*) where
  key : K
  version : ℕ
  phase : UpdatePhase

/-- The store with the rows of all its writes, the two tables of the cache, and for each table
and for both the newest write whose removal is over. -/
structure Cache (K R : Type*) where
  history : K → ℕ → Option R
  version : K → ℕ
  rows : K → Option (Stamped R)
  absent : K → Option (Stamped R)
  rowsFloor : K → ℕ
  absentFloor : K → ℕ
  floor : K → ℕ
  lookups : List (Lookup K R)
  updates : List (Update K)

inductive Event (K R V : Type*) where
  | lookup (k : K)
  | advance (i : ℕ) (error : Bool) (v : V)
  | write (k : K) (row : Option R)
  | invalidate (j : ℕ)
  | forgetRow (k : K)
  | forgetAbsent (k : K)

/-- The store as it is. -/
def Cache.current (c : Cache K R) (k : K) : Stamped R := ⟨c.version k, c.history k (c.version k)⟩

/-- The next step of a lookup, apart from its put. -/
def lookupNext (p : Policy R V) (c : Cache K R) (k : K) (error : Bool) (v : V) : Phase R → Phase R
  | .find =>
    match c.rows k with
    | some s => .done (some s)
    | none => .findAbsent
  | .findAbsent =>
    match c.absent k with
    | some s => if p.marksAbsent then .done (some s) else .read
    | none => .read
  | .read =>
    if error then .done none
    else
      match (c.current k).row with
      | none => if p.marksAbsent then .put (c.current k) else .done (some (c.current k))
      | some row =>
        match p.load v row with
        | .keep => .put (c.current k)
        | .pass => .done (some (c.current k))
        | .fail => .done none
  | .put s => .done (some s)
  | .done answer => .done answer

/-- A row goes into one table, a missing one into the other. -/
def putRow [DecidableEq K] (c : Cache K R) (k : K) (s : Stamped R) : Cache K R :=
  match s.row with
  | some _ => { c with rows := Function.update c.rows k (some s) }
  | none => { c with absent := Function.update c.absent k (some s) }

def putPhase [DecidableEq K] (c : Cache K R) (k : K) : Phase R → Cache K R
  | .put s => putRow c k s
  | _ => c

def Cache.setLookup (c : Cache K R) (i : ℕ) (l : Lookup K R) : Cache K R :=
  { c with lookups := c.lookups.set i l }

def advance [DecidableEq K] (p : Policy R V) (c : Cache K R) (i : ℕ) (error : Bool) (v : V) :
    Cache K R :=
  match c.lookups[i]? with
  | none => c
  | some l =>
    (putPhase c l.key l.phase).setLookup i
      { l with phase := lookupNext p c l.key error v l.phase }

def write [DecidableEq K] (c : Cache K R) (k : K) (row : Option R) : Cache K R :=
  { c with
    history := Function.update c.history k (Function.update (c.history k) (c.version k + 1) row)
    version := Function.update c.version k (c.version k + 1)
    updates := c.updates ++ [⟨k, c.version k + 1, .written⟩] }

def raise [DecidableEq K] (f : K → ℕ) (k : K) (n : ℕ) : K → ℕ :=
  Function.update f k (max (f k) n)

/-- A removal takes the row first; with no marks it is over then. -/
def removeRow [DecidableEq K] (p : Policy R V) (c : Cache K R) (j : ℕ) (u : Update K) :
    Cache K R :=
  { c with
    rows := Function.update c.rows u.key none
    rowsFloor := raise c.rowsFloor u.key u.version
    floor := if p.marksAbsent then c.floor else raise c.floor u.key u.version
    updates := c.updates.set j { u with phase := if p.marksAbsent then .rowRemoved else .completed } }

def removeAbsent [DecidableEq K] (c : Cache K R) (j : ℕ) (u : Update K) : Cache K R :=
  { c with
    absent := Function.update c.absent u.key none
    absentFloor := raise c.absentFloor u.key u.version
    floor := raise c.floor u.key u.version
    updates := c.updates.set j { u with phase := .completed } }

def invalidate [DecidableEq K] (p : Policy R V) (c : Cache K R) (j : ℕ) : Cache K R :=
  match c.updates[j]? with
  | none => c
  | some u =>
    match u.phase with
    | .written => removeRow p c j u
    | .rowRemoved => removeAbsent c j u
    | .completed => c

def step [DecidableEq K] (p : Policy R V) (c : Cache K R) : Event K R V → Cache K R
  | .lookup k => { c with lookups := c.lookups ++ [⟨k, c.floor k, .find⟩] }
  | .advance i error v => advance p c i error v
  | .write k row => write c k row
  | .invalidate j => invalidate p c j
  | .forgetRow k => { c with rows := Function.update c.rows k none }
  | .forgetAbsent k => { c with absent := Function.update c.absent k none }

/-- An empty cache in front of a store. -/
def start (store : K → Option R) : Cache K R :=
  ⟨fun k _ => store k, fun _ => 0, fun _ => none, fun _ => none, fun _ => 0, fun _ => 0, fun _ => 0,
    [], []⟩

/-- A row of a write of the key that is not older than a given one. -/
def FreshRow (c : Cache K R) (k : K) (since : ℕ) (s : Stamped R) : Prop :=
  since ≤ s.version ∧ s.version ≤ c.version k ∧ s.row = c.history k s.version

/-- What lookups have returned is not older than the updates that were over when they began. -/
def Fresh (c : Cache K R) : Prop :=
  ∀ l ∈ c.lookups, ∀ s, l.phase = .done (some s) → FreshRow c l.key l.since s

/-- What is put into a table is not older than the writes that were removed from it. -/
def StepOk (c : Cache K R) : Event K R V → Prop
  | .advance i _ _ => ∀ l, c.lookups[i]? = some l → ∀ s, l.phase = .put s →
    if s.row.isSome then c.rowsFloor l.key ≤ s.version else c.absentFloor l.key ≤ s.version
  | _ => True

/-- The row that a lookup has in hand. -/
def Phase.answer : Phase R → Option (Stamped R)
  | .put s => some s
  | .done answer => answer
  | _ => none

def TableFresh (c : Cache K R) (table : K → Option (Stamped R)) (tableFloor : K → ℕ) : Prop :=
  ∀ k s, table k = some s → FreshRow c k (tableFloor k) s

/-- The tables are not older than their floors, and lookups have nothing in hand that is older
than the updates that were over when they began. -/
structure Inv (p : Policy R V) (c : Cache K R) : Prop where
  rows : TableFresh c c.rows c.rowsFloor
  absent : TableFresh c c.absent c.absentFloor
  floor_rows : ∀ k, c.floor k ≤ c.rowsFloor k
  floor_absent : p.marksAbsent → ∀ k, c.floor k ≤ c.absentFloor k
  rows_le : ∀ k, c.rowsFloor k ≤ c.version k
  absent_le : ∀ k, c.absentFloor k ≤ c.version k
  updates : ∀ u ∈ c.updates, u.version ≤ c.version u.key
  removed : ∀ u ∈ c.updates, u.phase = .rowRemoved → u.version ≤ c.rowsFloor u.key
  since : ∀ l ∈ c.lookups, l.since ≤ c.floor l.key
  found : ∀ l ∈ c.lookups, ∀ s, l.phase.answer = some s → FreshRow c l.key l.since s

theorem Inv.fresh {p : Policy R V} {c : Cache K R} (h : Inv p c) : Fresh c := by
  intro l hl s hs
  exact h.found l hl s (by rw [hs]; rfl)

theorem inv_start (p : Policy R V) (store : K → Option R) : Inv p (start store) where
  rows := fun _ _ h => by cases h
  absent := fun _ _ h => by cases h
  floor_rows := fun _ => le_refl _
  floor_absent := fun _ _ => le_refl _
  rows_le := fun _ => le_refl _
  absent_le := fun _ => le_refl _
  updates := fun _ h => by cases h
  removed := fun _ h => by cases h
  since := fun _ h => by cases h
  found := fun _ h => by cases h

theorem FreshRow.anti {c : Cache K R} {k : K} {m n : ℕ} {s : Stamped R} (h : FreshRow c k n s)
    (hmn : m ≤ n) : FreshRow c k m s := ⟨hmn.trans h.1, h.2⟩

theorem freshRow_current (c : Cache K R) (k : K) {n : ℕ} (h : n ≤ c.version k) :
    FreshRow c k n (c.current k) := ⟨h, le_refl _, rfl⟩

/-- A lookup takes in hand what is fresh. -/
theorem Inv.lookupNext {p : Policy R V} {c : Cache K R} (h : Inv p c) {l : Lookup K R}
    (hl : l ∈ c.lookups) (error : Bool) (v : V) {s : Stamped R}
    (hs : (lookupNext p c l.key error v l.phase).answer = some s) : FreshRow c l.key l.since s := by
  have hsince := h.since l hl
  have hfound := h.found l hl
  have hcurrent : FreshRow c l.key l.since (c.current l.key) :=
    freshRow_current c l.key ((hsince.trans (h.floor_rows l.key)).trans (h.rows_le l.key))
  cases hphase : l.phase with
  | find =>
    rw [hphase, ReadThrough.lookupNext] at hs
    cases hrow : c.rows l.key with
    | none =>
      rw [hrow] at hs
      cases hs
    | some s' =>
      rw [hrow] at hs
      obtain rfl := Option.some.inj hs
      exact (h.rows l.key _ hrow).anti (hsince.trans (h.floor_rows l.key))
  | findAbsent =>
    rw [hphase, ReadThrough.lookupNext] at hs
    cases hmark : c.absent l.key with
    | none =>
      rw [hmark] at hs
      cases hs
    | some s' =>
      rw [hmark] at hs
      dsimp only at hs
      split at hs
      · rename_i hmarks
        obtain rfl := Option.some.inj hs
        exact (h.absent l.key _ hmark).anti (hsince.trans (h.floor_absent hmarks l.key))
      · cases hs
  | read =>
    rw [hphase, ReadThrough.lookupNext] at hs
    split at hs
    · cases hs
    · cases hrow : (c.current l.key).row with
      | none =>
        rw [hrow] at hs
        dsimp only at hs
        split at hs <;> exact Option.some.inj hs ▸ hcurrent
      | some row =>
        rw [hrow] at hs
        dsimp only at hs
        cases hload : p.load v row with
        | keep => rw [hload] at hs; exact Option.some.inj hs ▸ hcurrent
        | pass => rw [hload] at hs; exact Option.some.inj hs ▸ hcurrent
        | fail => rw [hload] at hs; cases hs
  | put s' =>
    rw [hphase] at hs
    exact hfound s (by rw [hphase]; exact hs)
  | done answer =>
    rw [hphase] at hs
    exact hfound s (by rw [hphase]; exact hs)

theorem Inv.setLookup {p : Policy R V} {c : Cache K R} (h : Inv p c) (i : ℕ) {l : Lookup K R}
    (hsince : l.since ≤ c.floor l.key)
    (hfound : ∀ s, l.phase.answer = some s → FreshRow c l.key l.since s) :
    Inv p (c.setLookup i l) := by
  refine { h with since := fun l' hl' => ?_, found := fun l' hl' => ?_ }
  · rcases List.mem_or_eq_of_mem_set hl' with hold | rfl
    · exact h.since l' hold
    · exact hsince
  · rcases List.mem_or_eq_of_mem_set hl' with hold | rfl
    · exact h.found l' hold
    · exact hfound

variable [DecidableEq K]

/-- A table with a new row, or with one row less. -/
theorem TableFresh.update {c : Cache K R} {table : K → Option (Stamped R)} {tableFloor : K → ℕ}
    (h : TableFresh c table tableFloor) (k : K) {entry : Option (Stamped R)}
    (hentry : ∀ s, entry = some s → FreshRow c k (tableFloor k) s) :
    TableFresh c (Function.update table k entry) tableFloor := by
  intro k' s hs
  by_cases hk : k' = k
  · subst hk
    rw [Function.update_self] at hs
    exact hentry s hs
  · rw [Function.update_of_ne hk] at hs
    exact h k' s hs

theorem floor_putPhase (c : Cache K R) (k : K) (phase : Phase R) :
    (putPhase c k phase).floor = c.floor := by
  cases phase with
  | put s => rw [putPhase, putRow]; split <;> rfl
  | _ => rfl

theorem freshRow_putPhase {c : Cache K R} {k : K} {phase : Phase R} {k' : K} {n : ℕ}
    {s : Stamped R} : FreshRow (putPhase c k phase) k' n s ↔ FreshRow c k' n s := by
  cases phase with
  | put s' =>
    rw [putPhase, putRow]
    split <;> exact Iff.rfl
  | _ => exact Iff.rfl

/-- What is put is fresh for its table. -/
theorem Inv.putPhase {p : Policy R V} {c : Cache K R} (h : Inv p c) {i : ℕ} {error : Bool} {v : V}
    (hok : StepOk c (.advance i error v)) {l : Lookup K R} (hi : c.lookups[i]? = some l) :
    Inv p (putPhase c l.key l.phase) := by
  have hl := List.mem_of_getElem? hi
  cases hphase : l.phase with
  | put s =>
    have hfresh : FreshRow c l.key l.since s := h.found l hl s (by rw [hphase]; rfl)
    have hfloor := hok l hi s hphase
    rw [ReadThrough.putPhase, putRow]
    cases hrow : s.row with
    | some row =>
      rw [hrow] at hfloor
      have hrows : TableFresh c (Function.update c.rows l.key (some s)) c.rowsFloor := by
        apply h.rows.update
        rintro _ ⟨⟩
        exact ⟨hfloor, hfresh.2⟩
      exact { h with rows := hrows }
    | none =>
      rw [hrow] at hfloor
      have habsent : TableFresh c (Function.update c.absent l.key (some s)) c.absentFloor := by
        apply h.absent.update
        rintro _ ⟨⟩
        exact ⟨hfloor, hfresh.2⟩
      exact { h with absent := habsent }
  | _ => exact h

theorem Inv.advance {p : Policy R V} {c : Cache K R} (h : Inv p c) {i : ℕ} {error : Bool} {v : V}
    (hok : StepOk c (.advance i error v)) : Inv p (advance p c i error v) := by
  unfold ReadThrough.advance
  cases hi : c.lookups[i]? with
  | none => exact h
  | some l =>
    have hl := List.mem_of_getElem? hi
    apply (h.putPhase hok hi).setLookup i
    · rw [floor_putPhase]
      exact h.since l hl
    · intro s hs
      rw [freshRow_putPhase]
      exact h.lookupNext hl error v hs

/-- The rows of earlier writes stay what they were. -/
theorem FreshRow.write {c : Cache K R} {k : K} {n : ℕ} {s : Stamped R} (h : FreshRow c k n s)
    (k' : K) (row : Option R) : FreshRow (write c k' row) k n s := by
  obtain ⟨hn, hle, hrow⟩ := h
  by_cases hk : k = k'
  · subst hk
    refine ⟨hn, ?_, ?_⟩
    · simp only [ReadThrough.write, Function.update_self]
      omega
    · simp only [ReadThrough.write, Function.update_self]
      rw [Function.update_of_ne (by omega), hrow]
  · refine ⟨hn, ?_, ?_⟩
    · simpa [ReadThrough.write, hk] using hle
    · simpa [ReadThrough.write, hk] using hrow

theorem version_le_write (c : Cache K R) (k' : K) (row : Option R) (k : K) :
    c.version k ≤ (write c k' row).version k := by
  by_cases hk : k = k'
  · subst hk
    simp [ReadThrough.write]
  · simp [ReadThrough.write, hk]

theorem Inv.write {p : Policy R V} {c : Cache K R} (h : Inv p c) (k : K) (row : Option R) :
    Inv p (write c k row) where
  rows := fun k' s hs => (h.rows k' s hs).write k row
  absent := fun k' s hs => (h.absent k' s hs).write k row
  floor_rows := h.floor_rows
  floor_absent := h.floor_absent
  rows_le := fun k' => (h.rows_le k').trans (version_le_write c k row k')
  absent_le := fun k' => (h.absent_le k').trans (version_le_write c k row k')
  updates := fun u hu => by
    rcases List.mem_append.mp hu with hold | hnew
    · exact (h.updates u hold).trans (version_le_write c k row u.key)
    · rw [List.mem_singleton.mp hnew]
      simp [ReadThrough.write]
  removed := fun u hu hphase => by
    rcases List.mem_append.mp hu with hold | hnew
    · exact h.removed u hold hphase
    · rw [List.mem_singleton.mp hnew] at hphase
      cases hphase
  since := h.since
  found := fun l hl s hs => (h.found l hl s hs).write k row

theorem le_raise (f : K → ℕ) (k : K) (n : ℕ) (k' : K) : f k' ≤ raise f k n k' := by
  by_cases hk : k' = k
  · subst hk
    simp [raise]
  · simp [raise, hk]

theorem raise_le {f g : K → ℕ} (hfg : ∀ k, f k ≤ g k) {k : K} {n : ℕ} (hn : n ≤ g k) (k' : K) :
    raise f k n k' ≤ g k' := by
  by_cases hk : k' = k
  · subst hk
    simpa [raise] using ⟨hfg k', hn⟩
  · simpa [raise, hk] using hfg k'

theorem self_le_raise (f : K → ℕ) (k : K) (n : ℕ) : n ≤ raise f k n k := by
  simp [raise]

/-- A table from which a key was removed. -/
theorem TableFresh.remove {c : Cache K R} {table : K → Option (Stamped R)} {tableFloor : K → ℕ}
    (h : TableFresh c table tableFloor) (k : K) (n : ℕ) :
    TableFresh c (Function.update table k none) (raise tableFloor k n) := by
  intro k' s hs
  by_cases hk : k' = k
  · subst hk
    rw [Function.update_self] at hs
    cases hs
  · rw [Function.update_of_ne hk] at hs
    rw [raise, Function.update_of_ne hk]
    exact h k' s hs

theorem Inv.removeRow {p : Policy R V} {c : Cache K R} (h : Inv p c) {j : ℕ} {u : Update K}
    (hu : u ∈ c.updates) : Inv p (removeRow p c j u) := by
  have hversion := h.updates u hu
  have hrows : ∀ k, c.floor k ≤ raise c.rowsFloor u.key u.version k :=
    fun k => (h.floor_rows k).trans (le_raise _ _ _ k)
  refine { h with
    rows := h.rows.remove u.key u.version
    rows_le := raise_le h.rows_le hversion
    floor_rows := ?_, floor_absent := ?_, updates := ?_, removed := ?_, since := ?_ }
  · rw [ReadThrough.removeRow]
    split
    · exact hrows
    · exact raise_le hrows (self_le_raise _ _ _)
  · intro hmarks
    rw [ReadThrough.removeRow, if_pos hmarks]
    exact h.floor_absent hmarks
  · intro u' hu'
    rcases List.mem_or_eq_of_mem_set hu' with hold | rfl
    · exact h.updates u' hold
    · exact hversion
  · intro u' hu' hphase
    rcases List.mem_or_eq_of_mem_set hu' with hold | rfl
    · exact (h.removed u' hold hphase).trans (le_raise _ _ _ _)
    · exact self_le_raise _ _ _
  · intro l hl
    rw [ReadThrough.removeRow]
    split
    · exact h.since l hl
    · exact (h.since l hl).trans (le_raise _ _ _ _)

theorem Inv.removeAbsent {p : Policy R V} {c : Cache K R} (h : Inv p c) {j : ℕ} {u : Update K}
    (hu : u ∈ c.updates) (hphase : u.phase = .rowRemoved) : Inv p (removeAbsent c j u) := by
  have hversion := h.updates u hu
  have hremoved := h.removed u hu hphase
  have habsent : ∀ k, p.marksAbsent → c.floor k ≤ raise c.absentFloor u.key u.version k :=
    fun k hmarks => (h.floor_absent hmarks k).trans (le_raise _ _ _ k)
  refine { h with
    absent := h.absent.remove u.key u.version
    absent_le := raise_le h.absent_le hversion
    floor_rows := raise_le h.floor_rows hremoved
    floor_absent := fun hmarks => raise_le (fun k => habsent k hmarks) (self_le_raise _ _ _)
    updates := ?_, removed := ?_, since := ?_ }
  · intro u' hu'
    rcases List.mem_or_eq_of_mem_set hu' with hold | rfl
    · exact h.updates u' hold
    · exact hversion
  · intro u' hu' hphase'
    rcases List.mem_or_eq_of_mem_set hu' with hold | rfl
    · exact h.removed u' hold hphase'
    · cases hphase'
  · intro l hl
    exact (h.since l hl).trans (le_raise _ _ _ _)

theorem Inv.invalidate {p : Policy R V} {c : Cache K R} (h : Inv p c) (j : ℕ) :
    Inv p (invalidate p c j) := by
  unfold ReadThrough.invalidate
  cases hj : c.updates[j]? with
  | none => exact h
  | some u =>
    have hu := List.mem_of_getElem? hj
    dsimp only
    split
    · exact h.removeRow hu
    · rename_i hphase
      exact h.removeAbsent hu hphase
    · exact h

theorem Inv.step {p : Policy R V} {c : Cache K R} (h : Inv p c) {e : Event K R V}
    (hok : StepOk c e) : Inv p (step p c e) := by
  cases e with
  | lookup k =>
    refine { h with since := fun l hl => ?_, found := fun l hl => ?_ }
    · rcases List.mem_append.mp hl with hold | hnew
      · exact h.since l hold
      · rw [List.mem_singleton.mp hnew]
        exact le_refl (c.floor k)
    · rcases List.mem_append.mp hl with hold | hnew
      · exact h.found l hold
      · rw [List.mem_singleton.mp hnew]
        intro s hs
        cases hs
  | advance i error v => exact h.advance hok
  | write k row => exact h.write k row
  | invalidate j => exact h.invalidate j
  | forgetRow k => exact { h with rows := h.rows.update k fun _ hs => nomatch hs }
  | forgetAbsent k => exact { h with absent := h.absent.update k fun _ hs => nomatch hs }

end Aigate.ReadThrough
