import Aigate.Transaction

/-!
# Updates of keyed rows

Rows of a table that are told apart by a key. A sequence of updates, at most one for each
row and each by the key of its row, is the same as rewriting every row in place. Outside a
transaction a sweep over the rows stops at the first failure and keeps what it did.
-/
namespace Aigate.KeyedRows
open Transaction

variable {α κ : Type*} [DecidableEq κ] (key : α → κ)

/-- `UPDATE ... WHERE key = k`. -/
def putAt (k : κ) (f : α → α) (rows : List α) : List α :=
  rows.map fun a => if key a = k then f a else a

/-- The updates that a rewriting of the rows issues, in the order of the rows. -/
def updates (g : ℕ → α → Option (α → α)) (start : ℕ) : List α → List (List α → List α)
  | [] => []
  | a :: rest =>
    match g start a with
    | some f => putAt key (key a) f :: updates g (start + 1) rest
    | none => updates g (start + 1) rest

/-- A row after its rewriting. -/
def applied (f : Option (α → α)) (a : α) : α := f.elim a fun f => f a

/-- The rows after the rewriting. -/
def rewritten (g : ℕ → α → Option (α → α)) (start : ℕ) : List α → List α
  | [] => []
  | a :: rest => applied (g start a) a :: rewritten g (start + 1) rest

theorem putAt_of_notMem {k : κ} (f : α → α) {rows : List α} (h : k ∉ rows.map key) :
    putAt key k f rows = rows := by
  unfold putAt
  refine (List.map_congr_left fun a ha => ?_).trans rows.map_id'
  rw [if_neg]
  intro hk
  exact h (hk ▸ List.mem_map_of_mem ha)

theorem putAt_append (k : κ) (f : α → α) (rows rows' : List α) :
    putAt key k f (rows ++ rows') = putAt key k f rows ++ putAt key k f rows' :=
  List.map_append

theorem map_key_putAt (k : κ) {f : α → α} (hf : ∀ a, key (f a) = key a) (rows : List α) :
    (putAt key k f rows).map key = rows.map key := by
  unfold putAt
  rw [List.map_map]
  refine List.map_congr_left fun a _ => ?_
  simp only [Function.comp_apply]
  split_ifs
  · exact hf a
  · rfl

theorem putAt_middle {f : α → α} {a : α} {front back : List α}
    (hnd : ((front ++ a :: back).map key).Nodup) :
    putAt key (key a) f (front ++ a :: back) = front ++ f a :: back := by
  rw [List.map_append, List.map_cons] at hnd
  have hfront : key a ∉ front.map key := fun hmem =>
    List.disjoint_of_nodup_append hnd hmem (List.mem_cons_self ..)
  have hback : key a ∉ back.map key := (List.nodup_cons.mp hnd.of_append_right).1
  have hcons : putAt key (key a) f (a :: back) = f a :: putAt key (key a) f back := by
    simp [putAt]
  rw [putAt_append, putAt_of_notMem key f hfront, hcons, putAt_of_notMem key f hback]

/-- Updating the rows one by one rewrites them, and leaves the rows before them alone. -/
theorem foldl_updates {g : ℕ → α → Option (α → α)}
    (hg : ∀ i a f, g i a = some f → ∀ b, key (f b) = key b)
    (start : ℕ) (front rows : List α) (hnd : ((front ++ rows).map key).Nodup) :
    (updates key g start rows).foldl (fun w f => f w) (front ++ rows) =
      front ++ rewritten g start rows := by
  induction rows generalizing front start with
  | nil => rfl
  | cons a rest ih =>
    have happend (b : α) : front ++ b :: rest = (front ++ [b]) ++ rest := by simp
    cases hga : g start a with
    | none =>
      rw [updates, rewritten, hga, happend a]
      rw [ih (start + 1) (front ++ [a]) (by rwa [← happend])]
      simp [applied]
    | some f =>
      have hnd' : (((front ++ [f a]) ++ rest).map key).Nodup := by
        rw [← happend, List.map_append, List.map_cons, hg start a f hga a]
        rwa [List.map_append, List.map_cons] at hnd
      rw [updates, rewritten, hga]
      simp only [List.foldl_cons, putAt_middle key hnd]
      rw [happend, ih (start + 1) (front ++ [f a]) hnd']
      simp [applied]

/-- A relation between the rows before and after, row by row. -/
theorem forall₂_rewritten {R : α → α → Prop} (g : ℕ → α → Option (α → α)) (start : ℕ)
    (rows : List α) : List.Forall₂ R rows (rewritten g start rows) ↔
      ∀ i (h : i < rows.length), R rows[i] (applied (g (start + i) rows[i]) rows[i]) := by
  induction rows generalizing start with
  | nil => simp [rewritten]
  | cons a rest ih =>
    rw [rewritten, List.forall₂_cons, ih]
    constructor
    · rintro ⟨h0, hrest⟩ i hi
      cases i with
      | zero => exact h0
      | succ i =>
        have := hrest i (by simpa using hi)
        rwa [show start + 1 + i = start + (i + 1) by omega] at this
    · intro h
      refine ⟨h 0 (by simp), fun i hi => ?_⟩
      have := h (i + 1) (by simpa using hi)
      rwa [show start + (i + 1) = start + 1 + i by omega] at this

/-- What a sweep makes of a row: it cannot be handled, needs no update, or is updated. -/
inductive Step (α : Type*) where
  | stuck
  | skip
  | write (f : α → α)

/-- Updates of the given rows of a table, one statement each, up to the first failure. -/
def sweep (g : ℕ → α → Step α) (o : ℕ → Outcome) (start : ℕ) : List α → List α → List α × Bool
  | [], table => (table, true)
  | a :: rest, table =>
    match g start a, o start with
    | .stuck, _ => (table, false)
    | .skip, _ => sweep g o (start + 1) rest table
    | .write f, .done => sweep g o (start + 1) rest (putAt key (key a) f table)
    | .write f, .lost true => (putAt key (key a) f table, false)
    | .write _, _ => (table, false)

/-- The swept rows, and whether the sweep came to their end. -/
def swept (g : ℕ → α → Step α) (o : ℕ → Outcome) (start : ℕ) : List α → List α × Bool
  | [] => ([], true)
  | a :: rest =>
    match g start a, o start with
    | .stuck, _ => (a :: rest, false)
    | .skip, _ => (a :: (swept g o (start + 1) rest).1, (swept g o (start + 1) rest).2)
    | .write f, .done => (f a :: (swept g o (start + 1) rest).1, (swept g o (start + 1) rest).2)
    | .write f, .lost true => (f a :: rest, false)
    | .write _, _ => (a :: rest, false)

/-- A row that the sweep gets past. -/
def Passes (s : Step α) (o : Outcome) : Prop :=
  match s with
  | .stuck => False
  | .skip => True
  | .write _ => o = .done

/-- The sweep gets past every row. -/
def Completes (g : ℕ → α → Step α) (o : ℕ → Outcome) (start : ℕ) (rows : List α) : Prop :=
  ∀ j (h : j < rows.length), Passes (g (start + j) rows[j]) (o (start + j))

/-- No update that the sweep carries out changes its row. -/
def Unchanged (g : ℕ → α → Step α) (o : ℕ → Outcome) (start : ℕ) (rows : List α) : Prop :=
  ∀ j (h : j < rows.length),
    (∀ i (hi : i < j), Passes (g (start + i) rows[i]) (o (start + i))) →
      ∀ f, g (start + j) rows[j] = .write f →
        (o (start + j) = .done ∨ o (start + j) = .lost true) → f rows[j] = rows[j]

/-- A sweep over consecutive rows of a table changes these rows only. -/
theorem sweep_eq {g : ℕ → α → Step α} (hg : ∀ i a f, g i a = .write f → ∀ b, key (f b) = key b)
    (o : ℕ → Outcome) (start : ℕ) (front rows back : List α)
    (hnd : ((front ++ (rows ++ back)).map key).Nodup) :
    sweep key g o start rows (front ++ (rows ++ back)) =
      (front ++ ((swept g o start rows).1 ++ back), (swept g o start rows).2) := by
  induction rows generalizing front start with
  | nil => rfl
  | cons a rest ih =>
    have happend (b : α) (l : List α) : front ++ (b :: l) = (front ++ [b]) ++ l := by simp
    rw [List.cons_append] at hnd ⊢
    cases hga : g start a with
    | stuck => simp [sweep, swept, hga]
    | skip =>
      simp only [sweep, swept, hga]
      rw [happend, ih (start + 1) (front ++ [a]) (by rwa [← happend])]
      simp
    | write f =>
      have hput := putAt_middle key (f := f) hnd
      have hnd' : ((front ++ [f a] ++ (rest ++ back)).map key).Nodup := by
        rw [← happend, List.map_append, List.map_cons, hg start a f hga a]
        rwa [List.map_append, List.map_cons] at hnd
      cases ho : o start with
      | done =>
        simp only [sweep, swept, hga, ho, hput]
        rw [happend, ih (start + 1) (front ++ [f a]) hnd']
        simp
      | refused => simp [sweep, swept, hga, ho]
      | lost executed => cases executed <;> simp [sweep, swept, hga, ho, hput]

theorem completes_cons {g : ℕ → α → Step α} {o : ℕ → Outcome} {start : ℕ} {a : α}
    {rest : List α} : Completes g o start (a :: rest) ↔
      Passes (g start a) (o start) ∧ Completes g o (start + 1) rest := by
  unfold Completes
  constructor
  · intro h
    refine ⟨h 0 (by simp), fun j hj => ?_⟩
    have := h (j + 1) (by simpa using hj)
    rwa [show start + (j + 1) = start + 1 + j by omega] at this
  · rintro ⟨h0, hrest⟩ j hj
    cases j with
    | zero => exact h0
    | succ j =>
      have := hrest j (by simpa using hj)
      rwa [show start + 1 + j = start + (j + 1) by omega] at this

theorem unchanged_cons {g : ℕ → α → Step α} {o : ℕ → Outcome} {start : ℕ} {a : α}
    {rest : List α} : Unchanged g o start (a :: rest) ↔
      (∀ f, g start a = .write f → (o start = .done ∨ o start = .lost true) → f a = a) ∧
        (Passes (g start a) (o start) → Unchanged g o (start + 1) rest) := by
  unfold Unchanged
  constructor
  · intro h
    refine ⟨h 0 (by simp) (by simp), fun h0 j hj hpre f hf hdone => ?_⟩
    refine h (j + 1) (by simpa using hj) (fun i hi => ?_) f
      (by rwa [show start + (j + 1) = start + 1 + j by omega])
      (by rwa [show start + (j + 1) = start + 1 + j by omega])
    cases i with
    | zero => exact h0
    | succ i =>
      have := hpre i (by omega)
      rwa [show start + 1 + i = start + (i + 1) by omega] at this
  · rintro ⟨h0, hrest⟩ j hj hpre f hf hdone
    cases j with
    | zero => exact h0 f hf hdone
    | succ j =>
      have hshift : start + (j + 1) = start + 1 + j := by omega
      rw [hshift] at hf hdone
      refine hrest (hpre 0 (by omega)) j (by simpa using hj) (fun i hi => ?_) f hf hdone
      have := hpre (i + 1) (by omega)
      rwa [show start + (i + 1) = start + 1 + i by omega] at this

theorem swept_completes (g : ℕ → α → Step α) (o : ℕ → Outcome) (start : ℕ) (rows : List α) :
    (swept g o start rows).2 = true ↔ Completes g o start rows := by
  induction rows generalizing start with
  | nil => simp [swept, Completes]
  | cons a rest ih =>
    rw [completes_cons]
    cases hga : g start a with
    | stuck => simp [swept, hga, Passes]
    | skip => simp [swept, hga, Passes, ih]
    | write f =>
      cases ho : o start with
      | done => simp [swept, hga, ho, Passes, ih]
      | refused => simp [swept, hga, ho, Passes]
      | lost executed => cases executed <;> simp [swept, hga, ho, Passes]

theorem swept_eq_self (g : ℕ → α → Step α) (o : ℕ → Outcome) (start : ℕ) (rows : List α) :
    (swept g o start rows).1 = rows ↔ Unchanged g o start rows := by
  induction rows generalizing start with
  | nil => simp [swept, Unchanged]
  | cons a rest ih =>
    rw [unchanged_cons]
    cases hga : g start a with
    | stuck => simp [swept, hga, Passes]
    | skip => simp [swept, hga, Passes, ih]
    | write f =>
      cases ho : o start with
      | done => simp [swept, hga, ho, Passes, ih]
      | refused => simp [swept, hga, ho, Passes]
      | lost executed => cases executed <;> simp [swept, hga, ho, Passes]

/-- After a complete sweep every row that is written is as it was meant to be. -/
theorem forall₂_swept {R : α → α → Prop} {g : ℕ → α → Step α} {o : ℕ → Outcome} {start : ℕ}
    {rows : List α} (h : Completes g o start rows)
    (hskip : ∀ i, ∀ a ∈ rows, g i a = .skip → R a a)
    (hwrite : ∀ i, ∀ a ∈ rows, ∀ f, g i a = .write f → R a (f a)) :
    List.Forall₂ R rows (swept g o start rows).1 := by
  induction rows generalizing start with
  | nil => exact List.Forall₂.nil
  | cons a rest ih =>
    obtain ⟨h0, hrest⟩ := completes_cons.mp h
    have ih' := ih hrest (fun i b hb => hskip i b (List.mem_cons_of_mem _ hb))
      fun i b hb => hwrite i b (List.mem_cons_of_mem _ hb)
    cases hga : g start a with
    | stuck => simp [hga, Passes] at h0
    | skip =>
      simp only [swept, hga]
      exact List.Forall₂.cons (hskip start a (List.mem_cons_self ..) hga) ih'
    | write f =>
      rw [hga] at h0
      have ho : o start = .done := h0
      simp only [swept, hga, ho]
      exact List.Forall₂.cons (hwrite start a (List.mem_cons_self ..) f hga) ih'

end Aigate.KeyedRows
