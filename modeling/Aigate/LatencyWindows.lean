import Mathlib.Data.List.Sort
import Aigate.GuardedRuns
import Aigate.LatencyTracker

/-!
# The latencies of a pair

The tracker reports for a pair the order statistic of its last samples, as many as the window has
room for. The pair must fit in an entry, and there must be an entry for it or room for one.
-/
namespace Aigate.LatencyWindows
open Text ModelRouter CandidateOrder SlidingWindow GuardedRuns LatencyTracker

/-- The order statistic of 95 of 100, counted from zero. -/
def p95Of (samples : List ℕ) : ℕ :=
  (samples.mergeSort (· ≤ ·)).getD (samples.length * 95 / 100) 1000

/-- What happens to the table. -/
inductive Event where
  | sample (p : Pair) (latencyNs : ℕ)
  | request (model : Bytes)
  | hedge (model : Bytes)
  | admission (model : Bytes) (budgetPct : ℤ)

/-- The table, and all samples that were recorded, the newest first. -/
structure Tracked where
  table : Table
  log : List (Pair × ℕ)

def step (s : Tracked) : Event → Tracked
  | .sample p latencyNs =>
    { table := record s.table p latencyNs, log := (p, latencyMs latencyNs) :: s.log }
  | .request model => { s with table := recordRequest s.table model }
  | .hedge model => { s with table := recordHedge s.table model }
  | .admission model budgetPct => { s with table := (hedgeAdmitted s.table model budgetPct).1 }

def start : Tracked := ⟨[], []⟩

/-- The samples of a pair, the newest first. -/
def samplesOf (log : List (Pair × ℕ)) (p : Pair) : List ℕ :=
  (log.filter fun s => s.1 = p).map Prod.snd

/-- What is reported for a pair depends on its own last samples and on nothing else. -/
def Reported (s : Tracked) : Prop :=
  ∀ p, getP95Ms s.table p = p95Of ((samplesOf s.log p).take windowSz)

/-- The names of the pair fit, and it has an entry or there is room for one. -/
def StepOk (s : Tracked) : Event → Prop
  | .sample p _ => p.Fits ∧ (find s.table p ≠ none ∨ s.table.length < maxEntries)
  | _ => True

theorem p95Of_nil : p95Of [] = 1000 := by simp [p95Of]

/-- The order of the samples does not matter, nor which sort it is. -/
theorem calcP95_eq {samples samples' : List ℕ} (h : samples.Perm samples') :
    calcP95 samples = p95Of samples' := by
  unfold calcP95 p95Of
  split
  · rename_i hnil
    rw [hnil] at h
    rw [← h.nil_eq]
    simp
  · have hsort : (sortBy (fun x y => decide (x < y)) samples).Pairwise (· ≤ ·) := by
      apply sortBy_pairwise
      · intro x y
        simp
      · exact Nat.le_total
      · exact fun _ _ _ => Nat.le_trans
    have hperm : (sortBy (fun x y => decide (x < y)) samples).Perm
        (samples'.mergeSort (· ≤ ·)) :=
      (sortBy_perm _ _).trans (h.trans (List.mergeSort_perm _ _).symm)
    rw [hperm.eq_of_pairwise' hsort (List.pairwise_mergeSort' _ _), h.length_eq]

/-- The ring of an entry. -/
def ring (e : LatencyEntry) : RingSlots ℕ := ⟨e.samplesMs, e.head % windowSz, e.count⟩

/-- An entry has the last of the samples, and their statistic. -/
structure Holds (e : LatencyEntry) (samples : List ℕ) : Prop where
  keeps : Keeps windowSz (ring e) samples
  cached : e.cachedP95Ms = p95Of (samples.take windowSz)

theorem holds_newEntry (p : Pair) : Holds (newEntry p) [] where
  keeps := keeps_nil _ rfl rfl
  cached := by rw [List.take_nil, p95Of_nil]; rfl

theorem ring_sampled (e : LatencyEntry) (ms : ℕ) :
    ring (e.sampled ms) = (ring e).record windowSz ms := by
  have hhead : (e.head + 1) % 2 ^ 32 % windowSz = (e.head % windowSz + 1) % windowSz := by
    unfold windowSz
    omega
  unfold ring LatencyEntry.sampled RingSlots.record
  rw [hhead]

theorem Holds.sampled {e : LatencyEntry} {samples : List ℕ} (h : Holds e samples) (ms : ℕ) :
    Holds (e.sampled ms) (ms :: samples) := by
  have hkeeps : Keeps windowSz (ring (e.sampled ms)) (ms :: samples) := by
    rw [ring_sampled]
    exact h.keeps.record ms
  refine ⟨hkeeps, ?_⟩
  have hcached : (e.sampled ms).cachedP95Ms = calcP95 (ring (e.sampled ms)).read := rfl
  rw [hcached]
  exact calcP95_eq (hkeeps.read_perm (by decide))

/-- What the first entry of a pair holds; there is none only for a pair without samples. -/
def PairHolds (t : Table) (p : Pair) (samples : List ℕ) : Prop :=
  match find t p with
  | some e => Holds e samples
  | none => samples = []

theorem pairHolds_some {t : Table} {p : Pair} {samples : List ℕ} {e : LatencyEntry}
    (h : find t p = some e) : PairHolds t p samples ↔ Holds e samples := by
  rw [PairHolds, h]

theorem pairHolds_none {t : Table} {p : Pair} {samples : List ℕ} (h : find t p = none) :
    PairHolds t p samples ↔ samples = [] := by
  rw [PairHolds, h]

theorem PairHolds.reported {t : Table} {p : Pair} {samples : List ℕ} (h : PairHolds t p samples) :
    getP95Ms t p = p95Of (samples.take windowSz) := by
  unfold getP95Ms
  cases hfind : find t p with
  | some e => exact ((pairHolds_some hfind).mp h).cached
  | none =>
    rw [(pairHolds_none hfind).mp h, List.take_nil, p95Of_nil]
    rfl

/-- The entry of the pair, or a new one. -/
theorem PairHolds.getD {t : Table} {p : Pair} {samples : List ℕ} (h : PairHolds t p samples) :
    Holds ((find t p).getD (newEntry p)) samples := by
  cases hfind : find t p with
  | some e => exact (pairHolds_some hfind).mp h
  | none =>
    rw [(pairHolds_none hfind).mp h]
    exact holds_newEntry p

/-- Another pair has what it had, whatever is done with an entry, as long as a new entry that it
finds holds nothing. -/
theorem PairHolds.touch_of_ne {t : Table} {p q : Pair} {samples : List ℕ}
    {f : LatencyEntry → LatencyEntry} (hf : KeepsPair f) (hne : q ≠ p) (h : PairHolds t q samples)
    (hnew : p.stored = q → Holds (f (newEntry p)) []) : PairHolds (touch t p f) q samples := by
  have hfind := find_touch_of_ne (t := t) hf hne
  cases hold : find t q with
  | some e =>
    rw [hold, Option.some_or] at hfind
    exact (pairHolds_some hfind).mpr ((pairHolds_some hold).mp h)
  | none =>
    rw [hold, Option.none_or] at hfind
    obtain rfl := (pairHolds_none hold).mp h
    split at hfind
    · rename_i hmade
      exact (pairHolds_some hfind).mpr (hnew hmade.2)
    · exact (pairHolds_none hfind).mpr rfl

/-- A change of the counters. -/
structure KeepsSamples (f : LatencyEntry → LatencyEntry) : Prop where
  pair : KeepsPair f
  holds : ∀ e samples, Holds e samples → Holds (f e) samples

theorem PairHolds.touch {t : Table} (hfit : AllFit t) (p : Pair) {f : LatencyEntry → LatencyEntry}
    (hf : KeepsSamples f) {q : Pair} {samples : List ℕ} (h : PairHolds t q samples) :
    PairHolds (touch t p f) q samples := by
  by_cases hqp : q = p
  · subst hqp
    by_cases hroom : q.Fits ∧ (find t q ≠ none ∨ t.length < maxEntries)
    · have hfind := find_touch_self hf.pair hroom.1 hroom.2
      exact (pairHolds_some hfind).mpr (hf.holds _ _ h.getD)
    · by_cases hfits : q.Fits
      · have hnone : find t q = none ∧ ¬t.length < maxEntries := by
          rw [not_and, not_or, not_not] at hroom
          exact hroom hfits
        have hsame : LatencyTracker.touch t q f = t := by
          rw [LatencyTracker.touch, hnone.1]
          exact if_pos (Nat.le_of_not_lt hnone.2)
        rw [hsame]
        exact h
      · -- the entry that is made is not found again
        have hafter := (hfit.touch q hf.pair).find_none hfits
        rw [pairHolds_none hafter]
        exact (pairHolds_none (hfit.find_none hfits)).mp h
  · exact h.touch_of_ne hf.pair hqp fun _ => hf.holds _ _ (holds_newEntry p)

/-- The names of the entries fit, and the first entry of each pair holds its samples. -/
structure Inv (s : Tracked) : Prop where
  fit : AllFit s.table
  holds : ∀ p, PairHolds s.table p (samplesOf s.log p)

theorem Inv.reported {s : Tracked} (h : Inv s) : Reported s := fun p => (h.holds p).reported

theorem Inv.touch {s : Tracked} (h : Inv s) (p : Pair) {f : LatencyEntry → LatencyEntry}
    (hf : KeepsSamples f) : Inv { s with table := LatencyTracker.touch s.table p f } where
  fit := h.fit.touch p hf.pair
  holds := fun q => (h.holds q).touch h.fit p hf

theorem keepsPair_sampled (ms : ℕ) : KeepsPair (·.sampled ms) := fun _ => rfl

theorem Inv.sample {s : Tracked} (h : Inv s) {p : Pair} {latencyNs : ℕ}
    (hok : StepOk s (.sample p latencyNs)) : Inv (step s (.sample p latencyNs)) where
  fit := h.fit.touch p (keepsPair_sampled _)
  holds := by
    intro q
    change PairHolds (LatencyTracker.touch s.table p (·.sampled (latencyMs latencyNs))) q
      (samplesOf ((p, latencyMs latencyNs) :: s.log) q)
    by_cases hqp : q = p
    · subst hqp
      have hfind := find_touch_self (keepsPair_sampled (latencyMs latencyNs)) hok.1 hok.2
      have hlog : samplesOf ((q, latencyMs latencyNs) :: s.log) q =
          latencyMs latencyNs :: samplesOf s.log q := by simp [samplesOf]
      rw [hlog]
      exact (pairHolds_some hfind).mpr ((h.holds q).getD.sampled _)
    · have hlog : samplesOf ((p, latencyMs latencyNs) :: s.log) q = samplesOf s.log q := by
        simp [samplesOf, Ne.symm hqp]
      rw [hlog]
      refine (h.holds q).touch_of_ne (keepsPair_sampled _) hqp fun hstored => ?_
      rw [hok.1.stored] at hstored
      exact absurd hstored.symm hqp

theorem Inv.step (s : Tracked) (e : Event) (h : Inv s) (hok : StepOk s e) :
    Inv (LatencyWindows.step s e) := by
  have hcount : ∀ f : LatencyEntry → LatencyEntry, (∀ e, (f e).pair = e.pair) →
      (∀ e, ring (f e) = ring e) → (∀ e, (f e).cachedP95Ms = e.cachedP95Ms) → KeepsSamples f := by
    intro f hpair hring hcached
    refine ⟨hpair, fun e samples he => ⟨?_, (hcached e).trans he.cached⟩⟩
    rw [hring]
    exact he.keeps
  cases e with
  | sample p latencyNs => exact h.sample hok
  | request model =>
    exact h.touch (anyEndpoint model) (hcount _ (fun _ => rfl) (fun _ => rfl) fun _ => rfl)
  | hedge model =>
    exact h.touch (anyEndpoint model) (hcount _ (fun _ => rfl) (fun _ => rfl) fun _ => rfl)
  | admission model budgetPct =>
    change Inv { s with table := (hedgeAdmitted s.table model budgetPct).1 }
    unfold hedgeAdmitted
    split
    · exact h
    · exact h.touch (anyEndpoint model) (hcount id (fun _ => rfl) (fun _ => rfl) fun _ => rfl)

/-- In every run whose samples are of pairs that fit and have an entry, or room for one, the
tracker reports for each pair the statistic of its own last samples. -/
theorem reported_run {events : List Event} (hok : RunOk step StepOk start events) :
    Always step Reported start events := by
  have hstart : Inv start := ⟨fun _ he => (nomatch he), fun _ => rfl⟩
  have halways := always_of_runOk Inv.step hstart hok
  exact fun n => (halways n).reported

def samplePair : Pair := ⟨ascii "gpt-4o", ascii "https://a"⟩

def shortNames : List Event := [.sample samplePair 7000000, .admission samplePair.model 15,
  .sample samplePair 5000000]

theorem reported_shortNames : Always step Reported start shortNames := by
  refine reported_run ⟨⟨?_, Or.inr (by decide)⟩, trivial, ⟨?_, Or.inr (by decide +kernel)⟩, trivial⟩
  · exact ⟨by decide +kernel, by decide +kernel⟩
  · exact ⟨by decide +kernel, by decide +kernel⟩

/-- A model with a name of 64 characters. -/
def longPair : Pair := ⟨List.replicate 64 'm', ascii "https://a"⟩

/-- The entry that was made for the pair is not found again. -/
theorem not_reported_longPair : ¬Always step Reported start [.sample longPair 5000000] := by
  intro h
  have hreported := h.last longPair
  have hp95 : getP95Ms (GuardedRuns.run step start [.sample longPair 5000000]).table longPair =
      1000 := by decide +kernel
  have hlog : samplesOf (GuardedRuns.run step start [.sample longPair 5000000]).log longPair =
      [5] := by decide +kernel
  rw [hp95, hlog] at hreported
  exact absurd hreported (by simp [p95Of, windowSz])

end Aigate.LatencyWindows
