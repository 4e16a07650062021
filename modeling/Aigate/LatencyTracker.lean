import Aigate.CandidateOrder
import Aigate.SlidingWindow

/-!
# The latency tracker

A table of entries, one for a model and an endpoint, with the last latencies of the pair and the
numbers of its requests and hedges. An entry stores as much of the two names as it has room for,
and is looked up by the names as they are.
-/
namespace Aigate.LatencyTracker
open Text ModelRouter SlidingWindow

/-- `LATENCY_TRACKER_WINDOW_SZ` and `LATENCY_TRACKER_MAX_ENTRIES`. -/
def windowSz : ℕ := 64

def maxEntries : ℕ := 512

/-- A model and an endpoint. -/
structure Pair where
  model : Bytes
  endpoint : Bytes
  deriving DecidableEq

/-- What an entry has room for. -/
def Pair.stored (p : Pair) : Pair := ⟨p.model.take 63, p.endpoint.take 255⟩

/-- The names fit in an entry. -/
def Pair.Fits (p : Pair) : Prop := p.model.length ≤ 63 ∧ p.endpoint.length ≤ 255

/-- `latency_entry_t`, without the average that moves with each latency. -/
structure LatencyEntry where
  pair : Pair
  samplesMs : ℕ → ℕ
  head : ℕ
  count : ℕ
  cachedP95Ms : ℕ
  totalRequests : ℕ
  hedgedRequests : ℕ

abbrev Table := List LatencyEntry

/-- A new entry. -/
def newEntry (p : Pair) : LatencyEntry where
  pair := p.stored
  samplesMs _ := 0
  head := 0
  count := 0
  cachedP95Ms := 1000
  totalRequests := 0
  hedgedRequests := 0

/-- The first entry with these names. -/
def find (t : Table) (p : Pair) : Option LatencyEntry := t.find? fun e => e.pair = p

/-- The first entry that a condition holds of is changed. -/
def modifyFirst {α : Type*} (p : α → Bool) (f : α → α) : List α → List α
  | [] => []
  | x :: xs => if p x then f x :: xs else x :: modifyFirst p f xs

/-- The entry that `get_or_create_entry` returns, if any: there is none when the pair has no entry
and the table is full. -/
def reached (t : Table) (p : Pair) : Option LatencyEntry :=
  (find t p).or (if maxEntries ≤ t.length then none else some (newEntry p))

/-- `get_or_create_entry`, and what is done with the entry. -/
def touch (t : Table) (p : Pair) (f : LatencyEntry → LatencyEntry) : Table :=
  match find t p with
  | some _ => modifyFirst (fun e => e.pair = p) f t
  | none => if maxEntries ≤ t.length then t else t ++ [f (newEntry p)]

/-- `calc_p95`. The rank is taken in floating point, which for up to 64 samples is exact. -/
def calcP95 (samples : List ℕ) : ℕ :=
  if samples = [] then 1000
  else (sortBy (fun x y => decide (x < y)) samples).getD (samples.length * 95 / 100) 1000

/-- A latency in milliseconds, as 32 bits hold it. -/
def latencyMs (latencyNs : ℕ) : ℕ := max 1 (latencyNs / 1000000 % 2 ^ 32)

/-- The samples that are counted. -/
def LatencyEntry.samples (e : LatencyEntry) : List ℕ := (List.range e.count).map e.samplesMs

/-- A latency is put in the ring; the head counts in 32 bits. -/
def LatencyEntry.sampled (e : LatencyEntry) (ms : ℕ) : LatencyEntry :=
  let e :=
    { e with
      samplesMs := Function.update e.samplesMs (e.head % windowSz) ms
      head := (e.head + 1) % 2 ^ 32
      count := if e.count < windowSz then e.count + 1 else e.count }
  { e with cachedP95Ms := calcP95 e.samples }

/-- `latency_tracker_record`. -/
def record (t : Table) (p : Pair) (latencyNs : ℕ) : Table :=
  touch t p (·.sampled (latencyMs latencyNs))

/-- `latency_tracker_get_p95_ms`. -/
def getP95Ms (t : Table) (p : Pair) : ℕ := (find t p).elim 1000 LatencyEntry.cachedP95Ms

/-- The entry for the requests of a model. -/
def anyEndpoint (model : Bytes) : Pair := ⟨model, ascii "*"⟩

/-- `latency_tracker_record_request`. -/
def recordRequest (t : Table) (model : Bytes) : Table :=
  touch t (anyEndpoint model) fun e => { e with totalRequests := e.totalRequests + 1 }

/-- `latency_tracker_record_hedge`. -/
def recordHedge (t : Table) (model : Bytes) : Table :=
  touch t (anyEndpoint model) fun e => { e with hedgedRequests := e.hedgedRequests + 1 }

/-- `latency_tracker_hedge_admitted`: an entry is made where there is none. -/
def hedgeAdmitted (t : Table) (model : Bytes) (budgetPct : ℤ) : Table × Bool :=
  if budgetPct ≤ 0 then (t, false)
  else
    (touch t (anyEndpoint model) id, (reached t (anyEndpoint model)).any fun e =>
      decide ((e.hedgedRequests * 100 / (e.totalRequests + 1) : ℕ) ≤ budgetPct))

/-! ### The entry of a pair -/

section First
variable {α : Type*} {p q : α → Bool} {f : α → α}

theorem find?_modifyFirst_self (hp : ∀ x, p x = true → p (f x) = true) (xs : List α) :
    (modifyFirst p f xs).find? p = (xs.find? p).map f := by
  induction xs with
  | nil => rfl
  | cons x xs ih =>
    unfold modifyFirst
    by_cases hx : p x = true
    · rw [if_pos hx, List.find?_cons_of_pos (hp x hx), List.find?_cons_of_pos hx]
      rfl
    · rw [if_neg hx, List.find?_cons_of_neg hx, List.find?_cons_of_neg hx, ih]

theorem find?_modifyFirst_of_ne (hq : ∀ x, p x = true → q x = false ∧ q (f x) = false)
    (xs : List α) : (modifyFirst p f xs).find? q = xs.find? q := by
  induction xs with
  | nil => rfl
  | cons x xs ih =>
    unfold modifyFirst
    by_cases hx : p x = true
    · obtain ⟨hqx, hqf⟩ := hq x hx
      rw [if_pos hx, List.find?_cons_of_neg (by simp [hqf]), List.find?_cons_of_neg (by simp [hqx])]
    · rw [if_neg hx, List.find?_cons, List.find?_cons, ih]

end First

/-- A change of an entry leaves its names. -/
def KeepsPair (f : LatencyEntry → LatencyEntry) : Prop := ∀ e, (f e).pair = e.pair

theorem Pair.Fits.stored {p : Pair} (h : p.Fits) : p.stored = p := by
  unfold Pair.stored
  rw [List.take_of_length_le h.1, List.take_of_length_le h.2]

theorem Pair.stored_fits (p : Pair) : p.stored.Fits :=
  ⟨List.length_take_le _ _, List.length_take_le _ _⟩

theorem find_append (t : Table) (e : LatencyEntry) (q : Pair) :
    find (t ++ [e]) q = (find t q).or (if e.pair = q then some e else none) := by
  rw [find, List.find?_append, List.find?_singleton]
  simp [find]

/-- A pair with room for its names has the entry that it was given. -/
theorem find_touch_self {t : Table} {p : Pair} {f : LatencyEntry → LatencyEntry} (hf : KeepsPair f)
    (hfits : p.Fits) (hroom : find t p ≠ none ∨ t.length < maxEntries) :
    find (touch t p f) p = some (f ((find t p).getD (newEntry p))) := by
  unfold touch
  cases hfind : find t p with
  | some e =>
    have hmod : find (modifyFirst (fun e => e.pair = p) f t) p = (find t p).map f :=
      find?_modifyFirst_self (fun x hx => by simpa [hf x] using hx) t
    dsimp only
    rw [hmod, hfind]
    rfl
  | none =>
    have hlt : t.length < maxEntries := hroom.resolve_left fun h => h hfind
    have hpair : (f (newEntry p)).pair = p := (hf _).trans hfits.stored
    dsimp only
    rw [if_neg (by omega), find_append, hfind, Option.none_or, if_pos hpair]
    rfl

/-- An entry is made for the pair. -/
def Made (t : Table) (p : Pair) : Prop := find t p = none ∧ t.length < maxEntries

instance (t : Table) (p : Pair) : Decidable (Made t p) := inferInstanceAs (Decidable (_ ∧ _))

/-- Another pair keeps its entry, and has a new one only if its names are those that the new
entry stores. -/
theorem find_touch_of_ne {t : Table} {p q : Pair} {f : LatencyEntry → LatencyEntry}
    (hf : KeepsPair f) (hne : q ≠ p) : find (touch t p f) q =
      (find t q).or (if Made t p ∧ p.stored = q then some (f (newEntry p)) else none) := by
  unfold touch
  cases hfind : find t p with
  | some e =>
    have hmod : find (modifyFirst (fun e => e.pair = p) f t) q = find t q := by
      refine find?_modifyFirst_of_ne (fun x hx => ?_) t
      have hx : x.pair = p := by simpa using hx
      simp [hf x, hx, Ne.symm hne]
    have hold : ¬(Made t p ∧ p.stored = q) := fun h => by
      rw [h.1.1] at hfind
      cases hfind
    dsimp only
    rw [hmod, if_neg hold, Option.or_none]
  | none =>
    have hpair : (f (newEntry p)).pair = p.stored := hf _
    dsimp only
    by_cases hfull : maxEntries ≤ t.length
    · rw [if_pos hfull, if_neg fun h => absurd h.1.2 (Nat.not_lt.mpr hfull), Option.or_none]
    · have hmade : Made t p := ⟨hfind, Nat.lt_of_not_le hfull⟩
      rw [if_neg hfull, find_append, hpair]
      simp [hmade]

/-- The names of all entries fit. -/
def AllFit (t : Table) : Prop := ∀ e ∈ t, e.pair.Fits

theorem mem_modifyFirst {α : Type*} {p : α → Bool} {f : α → α} {y : α} {xs : List α}
    (h : y ∈ modifyFirst p f xs) : y ∈ xs ∨ ∃ x ∈ xs, y = f x := by
  induction xs with
  | nil => cases h
  | cons x xs ih =>
    unfold modifyFirst at h
    split at h
    · rcases List.mem_cons.mp h with rfl | h
      · exact Or.inr ⟨x, List.mem_cons_self, rfl⟩
      · exact Or.inl (List.mem_cons_of_mem _ h)
    · rcases List.mem_cons.mp h with rfl | h
      · exact Or.inl List.mem_cons_self
      · rcases ih h with hmem | ⟨z, hz, rfl⟩
        · exact Or.inl (List.mem_cons_of_mem _ hmem)
        · exact Or.inr ⟨z, List.mem_cons_of_mem _ hz, rfl⟩

/-- An entry of the table after a change was there before, or is changed, or is made. -/
theorem mem_touch {t : Table} {p : Pair} {f : LatencyEntry → LatencyEntry} {e : LatencyEntry}
    (he : e ∈ touch t p f) : e ∈ t ∨ (∃ x ∈ t, e = f x) ∨ e = f (newEntry p) := by
  unfold touch at he
  split at he
  · rcases mem_modifyFirst he with hmem | hchanged
    · exact Or.inl hmem
    · exact Or.inr (Or.inl hchanged)
  · split at he
    · exact Or.inl he
    · rcases List.mem_append.mp he with hmem | hmem
      · exact Or.inl hmem
      · exact Or.inr (Or.inr (List.mem_singleton.mp hmem))

theorem AllFit.touch {t : Table} (h : AllFit t) (p : Pair) {f : LatencyEntry → LatencyEntry}
    (hf : KeepsPair f) : AllFit (touch t p f) := by
  intro e he
  rcases mem_touch he with hmem | ⟨x, hx, rfl⟩ | rfl
  · exact h e hmem
  · rw [hf x]
    exact h x hx
  · rw [hf]
    exact p.stored_fits

theorem AllFit.find_none {t : Table} (h : AllFit t) {p : Pair} (hp : ¬p.Fits) :
    find t p = none := by
  rw [find, List.find?_eq_none]
  intro e he hpair
  have hpair : e.pair = p := by simpa using hpair
  exact hp (hpair ▸ h e he)

/-- What every entry keeps through a change, and a pair without an entry has, each pair keeps. -/
theorem elim_touch {β : Type*} {t : Table} (hfit : AllFit t) {p : Pair}
    {f : LatencyEntry → LatencyEntry} (hf : KeepsPair f) {g : LatencyEntry → β} {d : β}
    (hg : ∀ e, g (f e) = g e) (hnew : g (newEntry p) = d) (q : Pair) :
    (find (touch t p f) q).elim d g = (find t q).elim d g := by
  by_cases hqp : q = p
  · subst hqp
    by_cases hfits : q.Fits
    · by_cases hroom : find t q ≠ none ∨ t.length < maxEntries
      · rw [find_touch_self hf hfits hroom, Option.elim_some, hg]
        cases find t q with
        | some e => rfl
        | none => exact hnew
      · obtain ⟨hnone, hfull⟩ := not_or.mp hroom
        have hsame : touch t q f = t := by
          rw [touch, not_not.mp hnone]
          exact if_pos (Nat.le_of_not_lt hfull)
        rw [hsame]
    · rw [(hfit.touch q hf).find_none hfits, hfit.find_none hfits]
  · rw [find_touch_of_ne hf hqp]
    cases find t q with
    | some e => rfl
    | none =>
      rw [Option.none_or]
      split
      · exact (hg _).trans hnew
      · rfl

theorem find_touch_ne_none {t : Table} {p q : Pair} {f : LatencyEntry → LatencyEntry}
    (hf : KeepsPair f) (h : find t q ≠ none) : find (touch t p f) q ≠ none := by
  obtain ⟨e, he⟩ := Option.ne_none_iff_exists'.mp h
  by_cases hqp : q = p
  · subst hqp
    have hmod : find (modifyFirst (fun e => e.pair = q) f t) q = (find t q).map f :=
      find?_modifyFirst_self (fun x hx => by simpa [hf x] using hx) t
    rw [touch, he]
    dsimp only
    rw [hmod, he]
    exact Option.some_ne_none _
  · rw [find_touch_of_ne hf hqp, he, Option.some_or]
    exact Option.some_ne_none _

end Aigate.LatencyTracker
