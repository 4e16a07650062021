import Aigate.AtomicCounters
import Aigate.Text

/-!
# The histogram of the time to first token

A recording finds or makes the entry of its provider under the mutex of the table, and
increments the counters of the entry after it has left the mutex, one by one. A rendering holds
the mutex and loads the counters one by one. Here every increment and every load is a step.
-/
namespace Aigate.TtftHistogram
open GuardedRuns AtomicCounters Text

def ttftMaxProviders : ℕ := 16

def ttftNumBuckets : ℕ := 9

/-- `TTFT_BUCKETS_NS`. -/
def ttftBucketsNs (b : ℕ) : UInt64 :=
  [50000000, 100000000, 250000000, 500000000, 1000000000, 2500000000, 5000000000, 10000000000,
    30000000000].getD b 0

structure ProviderTtft where
  provider : Bytes
  buckets : ℕ → ℕ
  count : ℕ
  sumNs : Int64

inductive Counter where
  | bucket (b : ℕ)
  | count
  | sumNs
  deriving DecidableEq, Repr

/-- The counters that one recording increments, in their order. -/
def increments (ttftNs : UInt64) : List Counter :=
  ((List.range ttftNumBuckets).filter fun b => ttftNs ≤ ttftBucketsNs b).map .bucket ++
    [.count, .sumNs]

def ProviderTtft.add (e : ProviderTtft) (ttftNs : UInt64) : Counter → ProviderTtft
  | .bucket b => { e with buckets := Function.update e.buckets b (e.buckets b + 1) }
  | .count => { e with count := e.count + 1 }
  | .sumNs => { e with sumNs := e.sumNs + ttftNs.toInt64 }

/-- The slots, of which one without an entry is not in use. -/
abbrev Table := ℕ → Option ProviderTtft

/-- What a recording puts in a slot: the name as far as it fits in 32 bytes, and zeros. -/
def ProviderTtft.init (p : Bytes) : ProviderTtft := ⟨p.take 31, fun _ => 0, 0, 0⟩

def findEntry (t : Table) (p : Bytes) : Option ℕ :=
  (List.range ttftMaxProviders).find? fun i => (t i).any fun e => e.provider = p

def freeSlot (t : Table) : Option ℕ :=
  (List.range ttftMaxProviders).find? fun i => (t i).isNone

/-- The slot of a provider, found or made. There is none when the table is full. -/
def findOrMake (t : Table) (p : Bytes) : Table × Option ℕ :=
  match findEntry t p with
  | some i => (t, some i)
  | none =>
    match freeSlot t with
    | some i => (Function.update t i (some (.init p)), some i)
    | none => (t, none)

def providerName : Option Bytes → Bytes
  | some (c :: cs) => c :: cs
  | _ => ascii "unknown"

/-- A call of `metrics_record_upstream_ttft` that has left the mutex, and how many increments
it has made. -/
structure Recording where
  provider : Bytes
  ttftNs : UInt64
  entry : Option ℕ
  done : ℕ

def Recording.job (r : Recording) : Job (ℕ × Counter) where
  program :=
    match r.entry with
    | some i => (increments r.ttftNs).map (Prod.mk i)
    | none => []
  done := r.done

def Recording.tick (r : Recording) : Recording := { r with done := r.done + 1 }

/-- The lines of a provider. -/
structure Histogram where
  provider : Bytes
  buckets : List ℕ
  inf : ℕ
  sumNs : Int64
  count : ℕ
  deriving DecidableEq

/-- Where the rendering is: it looks for a count that is not 0, it is before a slot, or it has
loaded the count, the sum and some of the buckets of a slot. -/
inductive Reader where
  | checking (i : ℕ)
  | slot (i : ℕ)
  | sum (i count : ℕ)
  | bucket (i count : ℕ) (sumNs : Int64) (got : List ℕ)

def hasCount (t : Table) (i : ℕ) : Bool := (t i).any fun e => 0 < e.count

/-- The next round of a loop over the slots. -/
def nextSlot (round : ℕ → Reader) (i : ℕ) : Option Reader :=
  if i + 1 < ttftMaxProviders then some (round (i + 1)) else none

/-- One load of the rendering, and what it prints after it. -/
def load (t : Table) (out : List Histogram) : Reader → Option Reader × List Histogram
  | .checking i => (if hasCount t i then some (.slot 0) else nextSlot .checking i, out)
  | .slot i =>
    match t i with
    | none => (nextSlot .slot i, out)
    | some e => (if e.count = 0 then nextSlot .slot i else some (.sum i e.count), out)
  | .sum i count =>
    match t i with
    | none => (nextSlot .slot i, out)
    | some e => (some (.bucket i count e.sumNs []), out)
  | .bucket i count sumNs got =>
    match t i with
    | none => (nextSlot .slot i, out)
    | some e =>
      let values := got ++ [e.buckets got.length]
      if values.length < ttftNumBuckets then (some (.bucket i count sumNs values), out)
      else (nextSlot .slot i, out ++ [⟨e.provider, values, count, sumNs, count⟩])

/-- The table, the calls so far, the rendering that holds the mutex, and what the last one has
printed. It is quiet when no recording was under way as it took the mutex and none has begun
since. -/
structure State where
  table : Table
  recordings : List Recording
  reader : Option Reader
  out : List Histogram
  quiet : Bool

def State.start : State := ⟨fun _ => none, [], none, [], false⟩

def State.jobs (s : State) : List (Job (ℕ × Counter)) := s.recordings.map Recording.job

/-- A recording takes the mutex and leaves it, one of them makes its next increment, a rendering
takes the mutex, it makes its next load, or it finds its buffer full. -/
inductive Event where
  | record (provider : Option Bytes) (ttftNs : UInt64)
  | tick (i : ℕ)
  | lock
  | load
  | full

def State.step (s : State) : Event → State
  | .record provider ttftNs =>
    if s.reader.isSome then s
    else
      let p := providerName provider
      let (t, entry) := findOrMake s.table p
      { s with
        table := t
        recordings := s.recordings ++ [⟨p, ttftNs, entry, 0⟩]
        quiet := false }
  | .tick i =>
    match s.recordings[i]? with
    | none => s
    | some r =>
      match r.job.next with
      | none => s
      | some (j, c) =>
        { s with
          table := Function.update s.table j ((s.table j).map fun e => e.add r.ttftNs c)
          recordings := s.recordings.set i r.tick }
  | .lock =>
    if s.reader.isSome then s
    else
      { s with
        reader := some (.checking 0)
        out := []
        quiet := s.recordings.all fun r => r.job.finished }
  | .load =>
    match s.reader with
    | none => s
    | some reader =>
      let (reader, out) := TtftHistogram.load s.table s.out reader
      { s with reader, out }
  | .full =>
    match s.reader with
    | none => s
    | some (.checking _) => s
    | some _ => { s with reader := none, out := [], quiet := false }

/-- The values do not fall, and none is more than the count. -/
def Coherent (values : List ℕ) (count : ℕ) : Prop :=
  values.Pairwise (· ≤ ·) ∧ ∀ v ∈ values, v ≤ count

instance (values : List ℕ) (count : ℕ) : Decidable (Coherent values count) :=
  inferInstanceAs (Decidable (_ ∧ _))

/-- The number of calls for a provider. -/
def State.recorded (s : State) (p : Bytes) : ℕ := s.recordings.countP fun r => r.provider = p

/-- The count lines of a provider. -/
def counts (out : List Histogram) (p : Bytes) : List ℕ :=
  (out.filter fun h => h.provider = p).map Histogram.count

/-- What is printed of a provider is a histogram, and a rendering that met no recording has
counted those of every provider. -/
structure Good (s : State) : Prop where
  coherent : ∀ h ∈ s.out, Coherent h.buckets h.inf ∧ h.inf = h.count
  complete : s.reader = none → s.quiet → ∀ p,
    counts s.out p = if s.recorded p = 0 then [] else [s.recorded p]

/-- The counter is a bucket that the rendering has not loaded, of a slot whose count it has. -/
def awaits : Option Reader → ℕ × Counter → Bool
  | some (.sum i _), (j, .bucket _) => i = j
  | some (.bucket i _ _ got), (j, .bucket b) => i = j ∧ got.length ≤ b
  | _, _ => false

/-- The slot whose count the rendering loads next. -/
def countNext : Option Reader → Option ℕ
  | some (.slot i) => some i
  | _ => none

/-- The recording is not between its first bucket of the slot and the count. -/
def Recording.Settled (r : Recording) (i : ℕ) : Prop :=
  (∃ b < ttftNumBuckets, (i, Counter.bucket b) ∈ r.job.passed) → (i, .count) ∈ r.job.passed

instance (r : Recording) (i : ℕ) : Decidable (r.Settled i) := inferInstanceAs (Decidable (_ → _))

/-- A recording has a name of up to 31 bytes, and an entry or a free slot for it; it increments
no bucket that is to be compared with a count loaded before; and when the rendering loads the
count of a slot, no recording is between its first bucket and the count. -/
def StepOk (s : State) : Event → Prop
  | .record provider _ =>
    s.reader = none → (providerName provider).length ≤ 31 ∧
      ((findEntry s.table (providerName provider)).isSome ∨ (freeSlot s.table).isSome)
  | .tick i => ∀ r ∈ s.recordings[i]?, ∀ a ∈ r.job.next, ¬awaits s.reader a
  | .lock => True
  | .load => ∀ i ∈ countNext s.reader, hasCount s.table i → ∀ r ∈ s.recordings, r.Settled i
  | .full => True

instance (s : State) : ∀ e, Decidable (StepOk s e)
  | .record _ _ => inferInstanceAs (Decidable (_ → _))
  | .tick i => inferInstanceAs (Decidable (∀ r ∈ s.recordings[i]?, ∀ a ∈ r.job.next, _))
  | .lock => instDecidableTrue
  | .load => inferInstanceAs (Decidable (∀ i ∈ countNext s.reader, _ → ∀ r ∈ s.recordings, _))
  | .full => instDecidableTrue

/-! The increments of one recording. -/

theorem mem_increments_bucket {ttftNs : UInt64} {b : ℕ} :
    .bucket b ∈ increments ttftNs ↔ b < ttftNumBuckets ∧ ttftNs ≤ ttftBucketsNs b := by
  simp [increments]

theorem count_mem_increments (ttftNs : UInt64) : .count ∈ increments ttftNs := by
  simp [increments]

theorem increments_nodup (ttftNs : UInt64) : (increments ttftNs).Nodup := by
  have hbuckets : (((List.range ttftNumBuckets).filter fun b =>
      ttftNs ≤ ttftBucketsNs b).map Counter.bucket).Nodup := by
    apply (List.nodup_range.filter _).map
    intro b b' h
    cases h
    rfl
  rw [increments, List.nodup_append]
  refine ⟨hbuckets, by decide, ?_⟩
  intro c hc c' hc'
  obtain ⟨b, -, rfl⟩ := List.mem_map.mp hc
  rintro rfl
  simp at hc'

theorem ttftBucketsNs_mono : ∀ b' < ttftNumBuckets, ∀ b ≤ b', ttftBucketsNs b ≤ ttftBucketsNs b' := by
  decide

section recording
variable {r : Recording} {i : ℕ} {c : Counter}

theorem Recording.mem_program : (i, c) ∈ r.job.program ↔ r.entry = some i ∧ c ∈ increments r.ttftNs := by
  unfold Recording.job
  cases r.entry with
  | none => simp
  | some j => simp [eq_comm, and_comm]

theorem Recording.program_nodup : r.job.program.Nodup := by
  unfold Recording.job
  cases r.entry with
  | none => exact List.nodup_nil
  | some j => exact (increments_nodup _).map (Prod.mk_right_injective j)

theorem Recording.mem_of_passed (h : (i, c) ∈ r.job.passed) :
    r.entry = some i ∧ c ∈ increments r.ttftNs :=
  mem_program.mp (List.mem_of_mem_take h)

/-- A recording that has passed the count has passed all its buckets. -/
theorem Recording.bucket_passed {b : ℕ} (hcount : (i, .count) ∈ r.job.passed)
    (hb : b < ttftNumBuckets) (hle : r.ttftNs ≤ ttftBucketsNs b) :
    (i, .bucket b) ∈ r.job.passed := by
  obtain ⟨hentry, -⟩ := mem_of_passed hcount
  have hprogram : r.job.program = (((List.range ttftNumBuckets).filter fun b =>
      r.ttftNs ≤ ttftBucketsNs b).map Counter.bucket).map (Prod.mk i) ++
        (i, .count) :: [(i, .sumNs)] := by
    simp [Recording.job, hentry, increments]
  refine Job.passed_before hprogram program_nodup hcount ?_
  simpa using ⟨hb, hle⟩

end recording

/-! The counters of an entry are the increments that the recordings have made. -/

/-- The entry of a slot counts the jobs that have passed its buckets and its count. -/
structure ProviderTtft.Tallies (e : ProviderTtft) (jobs : List (Job (ℕ × Counter))) (i : ℕ) :
    Prop where
  buckets : ∀ b, e.buckets b = passedBy jobs (i, .bucket b)
  count : e.count = passedBy jobs (i, .count)

/-- Each recording has the entry of its provider, and no provider has two. -/
structure Books (table : Table) (recordings : List Recording) : Prop where
  slots : ∀ i e, table i = some e → i < ttftMaxProviders
  tallies : ∀ i e, table i = some e → e.Tallies (recordings.map Recording.job) i
  stored : ∀ r ∈ recordings, ∃ i e,
    r.entry = some i ∧ table i = some e ∧ e.provider = r.provider
  unique : ∀ i j e e', table i = some e → table j = some e' → e.provider = e'.provider → i = j

theorem findEntry_eq_some {t : Table} {p : Bytes} {i : ℕ} (h : findEntry t p = some i) :
    ∃ e, t i = some e ∧ e.provider = p := by
  have hp := List.find?_some h
  simpa only [Option.any_eq_true, decide_eq_true_eq] using hp

theorem findEntry_eq_none {t : Table} {p : Bytes} (h : findEntry t p = none) {i : ℕ}
    (hi : i < ttftMaxProviders) {e : ProviderTtft} (he : t i = some e) : e.provider ≠ p := by
  have hnone := List.find?_eq_none.mp h i (List.mem_range.mpr hi)
  simpa [he] using hnone

theorem freeSlot_eq_some {t : Table} {i : ℕ} (h : freeSlot t = some i) :
    i < ttftMaxProviders ∧ t i = none := by
  have hmem := List.mem_of_find?_eq_some h
  have hnone := List.find?_some h
  exact ⟨List.mem_range.mp hmem, by simpa using hnone⟩

section books
variable {table : Table} {recordings : List Recording} (h : Books table recordings)
include h

/-- No recording has passed a counter of a slot that is not in use. -/
theorem Books.passedBy_free {i : ℕ} (hfree : table i = none) (c : Counter) :
    passedBy (recordings.map Recording.job) (i, c) = 0 := by
  rw [passedBy, List.countP_eq_zero]
  intro t ht
  obtain ⟨r, hr, rfl⟩ := List.mem_map.mp ht
  obtain ⟨j, e, hentry, hj, -⟩ := h.stored r hr
  simp only [decide_eq_true_eq]
  intro hpassed
  rw [(Recording.mem_of_passed hpassed).1] at hentry
  cases hentry
  rw [hfree] at hj
  cases hj

/-- A recording begins, with its entry in the table. -/
theorem Books.append {p : Bytes} {i : ℕ} {e : ProviderTtft} (ttftNs : UInt64)
    (hentry : table i = some e) (hp : e.provider = p) :
    Books table (recordings ++ [⟨p, ttftNs, some i, 0⟩]) where
  slots := h.slots
  tallies := by
    intro j e' hj
    have hsame : ∀ c, passedBy ((recordings ++ [(⟨p, ttftNs, some i, 0⟩ : Recording)]).map Recording.job) c =
        passedBy (recordings.map Recording.job) c := by
      intro c
      rw [List.map_append]
      exact passedBy_append _ _ c
    obtain ⟨hbuckets, hcount⟩ := h.tallies j e' hj
    exact ⟨fun b => (hbuckets b).trans (hsame _).symm, hcount.trans (hsame _).symm⟩
  stored := by
    intro r hr
    rcases List.mem_append.mp hr with hr | hr
    · exact h.stored r hr
    · obtain rfl := List.mem_singleton.mp hr
      exact ⟨i, e, rfl, hentry, hp⟩
  unique := h.unique

/-- A free slot becomes the entry of a provider that has none. -/
theorem Books.make {p : Bytes} {i : ℕ} (hlen : p.length ≤ 31) (hi : i < ttftMaxProviders)
    (hfree : table i = none) (hnew : ∀ j e, table j = some e → e.provider ≠ p) :
    Books (Function.update table i (some (.init p))) recordings := by
  have hname : (ProviderTtft.init p).provider = p := List.take_of_length_le hlen
  -- an entry of the new table is the new one or an old one
  have hcases : ∀ j e, Function.update table i (some (ProviderTtft.init p)) j = some e →
      j = i ∧ e = .init p ∨ j ≠ i ∧ table j = some e := by
    intro j e hj
    by_cases hji : j = i
    · subst hji
      rw [Function.update_self, Option.some.injEq] at hj
      exact .inl ⟨rfl, hj.symm⟩
    · rw [Function.update_of_ne hji] at hj
      exact .inr ⟨hji, hj⟩
  refine ⟨?_, ?_, ?_, ?_⟩
  · intro j e hj
    obtain ⟨rfl, -⟩ | ⟨-, hj⟩ := hcases j e hj
    · exact hi
    · exact h.slots j e hj
  · intro j e hj
    obtain ⟨rfl, rfl⟩ | ⟨-, hj⟩ := hcases j e hj
    · exact ⟨fun b => (h.passedBy_free hfree _).symm, (h.passedBy_free hfree _).symm⟩
    · exact h.tallies j e hj
  · intro r hr
    obtain ⟨j, e, hentry, htable, hp⟩ := h.stored r hr
    have hji : j ≠ i := by
      rintro rfl
      rw [hfree] at htable
      cases htable
    exact ⟨j, e, hentry, by rwa [Function.update_of_ne hji], hp⟩
  · intro j k e e' hj hk heq
    obtain ⟨rfl, rfl⟩ | ⟨-, hold⟩ := hcases j e hj
    · obtain ⟨rfl, -⟩ | ⟨-, hold'⟩ := hcases k e' hk
      · rfl
      · exact absurd (heq.symm.trans hname) (hnew k e' hold')
    · obtain ⟨rfl, rfl⟩ | ⟨-, hold'⟩ := hcases k e' hk
      · exact absurd (heq.trans hname) (hnew j e hold)
      · exact h.unique j k e e' hold hold' heq

/-- A call with a name that fits and room in the table. -/
theorem Books.findOrMake {p : Bytes} (ttftNs : UInt64) (hlen : p.length ≤ 31)
    (hroom : (findEntry table p).isSome ∨ (freeSlot table).isSome) :
    Books (findOrMake table p).1
      (recordings ++ [⟨p, ttftNs, (findOrMake table p).2, 0⟩]) := by
  unfold TtftHistogram.findOrMake
  cases hfind : findEntry table p with
  | some i =>
    obtain ⟨e, he, hp⟩ := findEntry_eq_some hfind
    exact h.append ttftNs he hp
  | none =>
    rw [hfind] at hroom
    obtain ⟨i, hfree⟩ := Option.isSome_iff_exists.mp (hroom.resolve_left (by simp))
    rw [hfree]
    obtain ⟨hi, hnone⟩ := freeSlot_eq_some hfree
    have hmade := h.make hlen hi hnone fun j e hj => findEntry_eq_none hfind (h.slots j e hj) hj
    exact hmade.append ttftNs (Function.update_self _ _ _) (List.take_of_length_le hlen)

/-- One increment. -/
theorem Books.tick {i : ℕ} {r : Recording} (hr : recordings[i]? = some r) {j : ℕ} {c : Counter}
    (hnext : r.job.next = some (j, c)) :
    Books (Function.update table j ((table j).map fun e => e.add r.ttftNs c))
      (recordings.set i r.tick) := by
  have hjobs : (recordings.set i r.tick).map Recording.job =
      (recordings.map Recording.job).set i r.job.tick := List.map_set
  have hjob : (recordings.map Recording.job)[i]? = some r.job := by
    rw [List.getElem?_map, hr]
    rfl
  have hcount := passedBy_tick hjob Recording.program_nodup hnext
  have hcases : ∀ k e, Function.update table j ((table j).map fun e => e.add r.ttftNs c) k =
      some e → ∃ old, table k = some old ∧ e = if k = j then old.add r.ttftNs c else old := by
    intro k e hk
    by_cases hkj : k = j
    · subst hkj
      rw [Function.update_self] at hk
      obtain ⟨old, hold, rfl⟩ := Option.map_eq_some_iff.mp hk
      exact ⟨old, hold, (if_pos rfl).symm⟩
    · rw [Function.update_of_ne hkj] at hk
      exact ⟨e, hk, (if_neg hkj).symm⟩
  have hprovider : ∀ (e : ProviderTtft) k,
      (if k = j then e.add r.ttftNs c else e).provider = e.provider := by
    intro e k
    split
    · cases c <;> rfl
    · rfl
  refine ⟨?_, ?_, ?_, ?_⟩
  · intro k e hk
    obtain ⟨old, hold, -⟩ := hcases k e hk
    exact h.slots k old hold
  · intro k e hk
    obtain ⟨old, hold, rfl⟩ := hcases k e hk
    obtain ⟨hbuckets, holdCount⟩ := h.tallies k old hold
    rw [hjobs]
    by_cases hkj : k = j
    · subst hkj
      rw [if_pos rfl]
      refine ⟨fun b => ?_, ?_⟩
      · rw [hcount, ← hbuckets b]
        cases c with
        | bucket b' =>
          by_cases hb : b = b'
          · simp [ProviderTtft.add, hb]
          · simp [ProviderTtft.add, hb]
        | count => simp [ProviderTtft.add]
        | sumNs => simp [ProviderTtft.add]
      · rw [hcount, ← holdCount]
        cases c <;> simp [ProviderTtft.add]
    · rw [if_neg hkj]
      refine ⟨fun b => ?_, ?_⟩
      · rw [hcount, hbuckets b, if_neg (by simp [hkj]), Nat.add_zero]
      · rw [hcount, holdCount, if_neg (by simp [hkj]), Nat.add_zero]
  · intro r' hr'
    have hold : ∃ r₀ ∈ recordings, r₀.entry = r'.entry ∧ r₀.provider = r'.provider := by
      rcases List.mem_or_eq_of_mem_set hr' with hmem | rfl
      · exact ⟨r', hmem, rfl, rfl⟩
      · exact ⟨r, List.mem_of_getElem? hr, rfl, rfl⟩
    obtain ⟨r₀, hr₀, hentry, hp⟩ := hold
    obtain ⟨k, e, hk, htable, hname⟩ := h.stored r₀ hr₀
    refine ⟨k, if k = j then e.add r.ttftNs c else e, hentry.symm.trans hk, ?_,
      (hprovider e k).trans (hname.trans hp)⟩
    by_cases hkj : k = j
    · subst hkj
      rw [Function.update_self, htable, if_pos rfl]
      rfl
    · rw [Function.update_of_ne hkj, if_neg hkj, htable]
  · intro k l e e' hk hl heq
    obtain ⟨old, hold, rfl⟩ := hcases k e hk
    obtain ⟨old', hold', rfl⟩ := hcases l e' hl
    rw [hprovider, hprovider] at heq
    exact h.unique k l old old' hold hold' heq

/-- A slot that every recording is settled on holds a histogram. -/
theorem Books.coherent {i : ℕ} {e : ProviderTtft} (hi : table i = some e)
    (hsettled : ∀ r ∈ recordings, r.Settled i) :
    Coherent ((List.range ttftNumBuckets).map e.buckets) e.count := by
  obtain ⟨hbuckets, hcount⟩ := h.tallies i e hi
  have hpassed : ∀ b < ttftNumBuckets, ∀ t ∈ recordings.map Recording.job,
      (i, .bucket b) ∈ t.passed → (i, .count) ∈ t.passed := by
    intro b hb t ht hbucket
    obtain ⟨r, hr, rfl⟩ := List.mem_map.mp ht
    exact hsettled r hr ⟨b, hb, hbucket⟩
  constructor
  · rw [List.pairwise_map]
    refine List.pairwise_lt_range.imp_of_mem ?_
    intro b b' hb hb' hlt
    rw [List.mem_range] at hb hb'
    rw [hbuckets b, hbuckets b']
    apply passedBy_le
    intro t ht hbucket
    have hdone := hpassed b hb t ht hbucket
    obtain ⟨r, -, rfl⟩ := List.mem_map.mp ht
    have hle : r.ttftNs ≤ ttftBucketsNs b :=
      (mem_increments_bucket.mp (Recording.mem_of_passed hbucket).2).2
    exact Recording.bucket_passed hdone hb' (UInt64.le_trans hle (ttftBucketsNs_mono b' hb' b hlt.le))
  · intro v hv
    obtain ⟨b, hb, rfl⟩ := List.mem_map.mp hv
    rw [hbuckets b, hcount]
    exact passedBy_le (hpassed b (List.mem_range.mp hb))

end books

/-! What the rendering has loaded, with what it has still to load, is a histogram. -/

/-- The values of a slot that are loaded, followed by those that the entry has now. -/
def Loading (t : Table) (i count : ℕ) (got : List ℕ) : Prop :=
  ∀ e, t i = some e → Coherent
    (got ++ (List.range' got.length (ttftNumBuckets - got.length)).map e.buckets) count

def Sound (t : Table) : Option Reader → Prop
  | some (.sum i count) => Loading t i count []
  | some (.bucket i count _ got) => got.length < ttftNumBuckets ∧ Loading t i count got
  | _ => True

def Printed (out : List Histogram) : Prop :=
  ∀ h ∈ out, Coherent h.buckets h.inf ∧ h.inf = h.count

section sound
variable {t : Table}

theorem Loading.tick {i count : ℕ} {got : List ℕ} (h : Loading t i count got) {j : ℕ}
    {c : Counter} (ttftNs : UInt64) (hc : ∀ b, c = .bucket b → i = j → b < got.length) :
    Loading (Function.update t j ((t j).map fun e => e.add ttftNs c)) i count got := by
  intro e he
  by_cases hij : i = j
  · subst hij
    rw [Function.update_self] at he
    obtain ⟨old, hold, rfl⟩ := Option.map_eq_some_iff.mp he
    have hsame : (List.range' got.length (ttftNumBuckets - got.length)).map
        (old.add ttftNs c).buckets =
          (List.range' got.length (ttftNumBuckets - got.length)).map old.buckets := by
      apply List.map_congr_left
      intro b hb
      have hle : got.length ≤ b := (List.mem_range'_1.mp hb).1
      cases c with
      | bucket b' =>
        have hne : b ≠ b' := ne_of_gt (Nat.lt_of_lt_of_le (hc b' rfl rfl) hle)
        simp [ProviderTtft.add, hne]
      | count => rfl
      | sumNs => rfl
    rw [hsame]
    exact h old hold
  · rw [Function.update_of_ne hij] at he
    exact h e he

theorem Sound.tick {reader : Option Reader} (h : Sound t reader) {j : ℕ} {c : Counter}
    (ttftNs : UInt64) (hc : ¬awaits reader (j, c)) :
    Sound (Function.update t j ((t j).map fun e => e.add ttftNs c)) reader := by
  match reader with
  | none => trivial
  | some (.checking _) => trivial
  | some (.slot _) => trivial
  | some (.sum i count) =>
    refine Loading.tick h ttftNs fun b hb hij => ?_
    subst hb
    exact absurd (by simpa [awaits] using hij) hc
  | some (.bucket i count sumNs got) =>
    refine ⟨h.1, Loading.tick h.2 ttftNs fun b hb hij => ?_⟩
    subst hb
    by_contra hle
    exact hc (by simpa [awaits] using ⟨hij, Nat.le_of_not_lt hle⟩)

theorem sound_nextSlot (round : ℕ → Reader) (hround : ∀ i, Sound t (some (round i))) (i : ℕ) :
    Sound t (nextSlot round i) := by
  unfold nextSlot
  split
  · exact hround _
  · trivial

/-- The bucket that comes next is loaded. -/
theorem Loading.next {i count : ℕ} {got : List ℕ} (h : Loading t i count got)
    (hlt : got.length < ttftNumBuckets) {e : ProviderTtft} (he : t i = some e) :
    Loading t i count (got ++ [e.buckets got.length]) := by
  intro e' he'
  obtain rfl := Option.some.inj (he.symm.trans he')
  have hrest : ttftNumBuckets - got.length = ttftNumBuckets - (got.length + 1) + 1 := by omega
  have hall := h e he
  rw [hrest, List.range'_succ] at hall
  simpa using hall

section load
variable {i : ℕ} {e : ProviderTtft} (out : List Histogram)

theorem load_slot_zero (he : t i = some e) (hzero : e.count = 0) :
    load t out (.slot i) = (nextSlot .slot i, out) := by
  simp [load, he, hzero]

theorem load_slot (he : t i = some e) (hcount : e.count ≠ 0) :
    load t out (.slot i) = (some (.sum i e.count), out) := by
  simp [load, he, hcount]

theorem load_sum (he : t i = some e) (count : ℕ) :
    load t out (.sum i count) = (some (.bucket i count e.sumNs []), out) := by
  simp [load, he]

theorem load_bucket (he : t i = some e) (count : ℕ) (sumNs : Int64) {got : List ℕ}
    (hmore : got.length + 1 < ttftNumBuckets) :
    load t out (.bucket i count sumNs got) =
      (some (.bucket i count sumNs (got ++ [e.buckets got.length])), out) := by
  simp [load, he, hmore]

theorem load_last (he : t i = some e) (count : ℕ) (sumNs : Int64) {got : List ℕ}
    (hlast : ttftNumBuckets ≤ got.length + 1) :
    load t out (.bucket i count sumNs got) =
      (nextSlot .slot i,
        out ++ [⟨e.provider, got ++ [e.buckets got.length], count, sumNs, count⟩]) := by
  simp [load, he, hlast]

end load

/-- A load keeps what is printed a histogram, if every recording is settled on a slot whose
count it loads. -/
theorem Sound.load {recordings : List Recording} (hbooks : Books t recordings) {reader : Reader}
    (h : Sound t (some reader)) {out : List Histogram} (hout : Printed out)
    (hok : ∀ i, reader = .slot i → hasCount t i → ∀ r ∈ recordings, r.Settled i) :
    Sound t (load t out reader).1 ∧ Printed (load t out reader).2 := by
  have hslot : ∀ i, Sound t (nextSlot .slot i) := sound_nextSlot _ fun _ => trivial
  have hchecking : ∀ i, Sound t (nextSlot .checking i) := sound_nextSlot _ fun _ => trivial
  cases reader with
  | checking i =>
    refine ⟨?_, hout⟩
    rw [TtftHistogram.load]
    by_cases hcount : hasCount t i
    · rw [if_pos hcount]
      trivial
    · rw [if_neg hcount]
      exact hchecking i
  | slot i =>
    cases he : t i with
    | none => simpa [TtftHistogram.load, he] using ⟨hslot i, hout⟩
    | some e =>
      by_cases hzero : e.count = 0
      · rw [load_slot_zero out he hzero]
        exact ⟨hslot i, hout⟩
      · rw [load_slot out he hzero]
        refine ⟨?_, hout⟩
        have hcount : hasCount t i := by simpa [hasCount, he] using Nat.pos_of_ne_zero hzero
        have hall := hbooks.coherent he (hok i rfl hcount)
        intro e' he'
        obtain rfl := Option.some.inj (he.symm.trans he')
        simpa [List.range_eq_range'] using hall
  | sum i count =>
    cases he : t i with
    | none => simpa [TtftHistogram.load, he] using ⟨hslot i, hout⟩
    | some e =>
      rw [load_sum out he]
      exact ⟨⟨by decide, h⟩, hout⟩
  | bucket i count sumNs got =>
    cases he : t i with
    | none => simpa [TtftHistogram.load, he] using ⟨hslot i, hout⟩
    | some e =>
      have hnext : Loading t i count (got ++ [e.buckets got.length]) := Loading.next h.2 h.1 he
      by_cases hmore : got.length + 1 < ttftNumBuckets
      · rw [load_bucket out he count sumNs hmore]
        exact ⟨⟨by simpa using hmore, hnext⟩, hout⟩
      · rw [load_last out he count sumNs (Nat.le_of_not_lt hmore)]
        refine ⟨hslot i, ?_⟩
        intro x hx
        rcases List.mem_append.mp hx with hx | hx
        · exact hout x hx
        · obtain rfl := List.mem_singleton.mp hx
          have hall := hnext e he
          rw [List.length_append, List.length_singleton,
            Nat.sub_eq_zero_of_le (Nat.le_of_not_lt hmore)] at hall
          exact ⟨by simpa using hall, rfl⟩

end sound

/-! What a rendering shows that meets no increment. -/

/-- The providers of the first slots that have a count, and the counts. -/
def shown (t : Table) (n : ℕ) : List (Bytes × ℕ) :=
  (List.range n).filterMap fun i => (t i).bind fun e =>
    if e.count = 0 then none else some (e.provider, e.count)

def summary (out : List Histogram) : List (Bytes × ℕ) := out.map fun h => (h.provider, h.count)

/-- The slots that the rendering has left are shown, and the count that it has loaded is the one
in the table. -/
def Shows (t : Table) (out : List Histogram) : Option Reader → Prop
  | none => summary out = shown t ttftMaxProviders
  | some (.checking i) => i < ttftMaxProviders ∧ out = [] ∧ shown t i = []
  | some (.slot i) => i < ttftMaxProviders ∧ summary out = shown t i
  | some (.sum i count) => i < ttftMaxProviders ∧ summary out = shown t i ∧
      count ≠ 0 ∧ ∃ e, t i = some e ∧ e.count = count
  | some (.bucket i count _ _) => i < ttftMaxProviders ∧ summary out = shown t i ∧
      count ≠ 0 ∧ ∃ e, t i = some e ∧ e.count = count

section shown
variable {t : Table} {out : List Histogram} {i : ℕ} {e : ProviderTtft}

theorem shown_succ (n : ℕ) : shown t (n + 1) = shown t n ++
    ((t n).bind fun e => if e.count = 0 then none else some (e.provider, e.count)).toList := by
  rw [shown, List.range_succ, List.filterMap_append]
  rfl

theorem shown_succ_none (h : t i = none) : shown t (i + 1) = shown t i := by
  simp [shown_succ, h]

theorem shown_succ_zero (h : t i = some e) (hzero : e.count = 0) :
    shown t (i + 1) = shown t i := by
  simp [shown_succ, h, hzero]

theorem shown_succ_some (h : t i = some e) (hcount : e.count ≠ 0) :
    shown t (i + 1) = shown t i ++ [(e.provider, e.count)] := by
  simp [shown_succ, h, hcount]

theorem shows_nextSlot (hi : i < ttftMaxProviders) (h : summary out = shown t (i + 1)) :
    Shows t out (nextSlot .slot i) := by
  unfold nextSlot
  split
  · exact ⟨by assumption, h⟩
  · have hlast : i + 1 = ttftMaxProviders := by omega
    rwa [hlast] at h

theorem shows_nextSlot_checking (hi : i < ttftMaxProviders) (h : shown t (i + 1) = []) :
    Shows t [] (nextSlot .checking i) := by
  unfold nextSlot
  split
  · exact ⟨by assumption, rfl, h⟩
  · have hlast : i + 1 = ttftMaxProviders := by omega
    rw [hlast] at h
    exact h.symm

theorem Shows.load {reader : Reader} (h : Shows t out (some reader)) :
    Shows t (load t out reader).2 (load t out reader).1 := by
  cases reader with
  | checking i =>
    obtain ⟨hi, rfl, hshown⟩ := h
    rw [TtftHistogram.load]
    by_cases hcount : hasCount t i
    · rw [if_pos hcount]
      exact ⟨by decide, rfl⟩
    · rw [if_neg hcount]
      refine shows_nextSlot_checking hi ?_
      cases he : t i with
      | none => rw [shown_succ_none he, hshown]
      | some e =>
        have hzero : e.count = 0 := by simpa [hasCount, he] using hcount
        rw [shown_succ_zero he hzero, hshown]
  | slot i =>
    obtain ⟨hi, hshown⟩ := h
    cases he : t i with
    | none =>
      simpa [TtftHistogram.load, he] using shows_nextSlot hi (hshown.trans (shown_succ_none he).symm)
    | some e =>
      by_cases hzero : e.count = 0
      · rw [load_slot_zero out he hzero]
        exact shows_nextSlot hi (hshown.trans (shown_succ_zero he hzero).symm)
      · rw [load_slot out he hzero]
        exact ⟨hi, hshown, hzero, e, he, rfl⟩
  | sum i count =>
    obtain ⟨hi, hshown, hcount, e, he, hloaded⟩ := h
    rw [load_sum out he]
    exact ⟨hi, hshown, hcount, e, he, hloaded⟩
  | bucket i count sumNs got =>
    obtain ⟨hi, hshown, hcount, e, he, rfl⟩ := h
    by_cases hmore : got.length + 1 < ttftNumBuckets
    · rw [load_bucket out he e.count sumNs hmore]
      exact ⟨hi, hshown, hcount, e, he, rfl⟩
    · rw [load_last out he e.count sumNs (Nat.le_of_not_lt hmore)]
      refine shows_nextSlot hi ?_
      rw [shown_succ_some he hcount, ← hshown]
      simp [summary]

/-- The count lines of a provider, as far as the slots are shown. -/
theorem shown_filter_nil {p : Bytes} (h : ∀ i e, t i = some e → e.provider = p → e.count = 0)
    (n : ℕ) : (shown t n).filter (fun x => x.1 = p) = [] := by
  induction n with
  | zero => rfl
  | succ n ih =>
    cases he : t n with
    | none => rw [shown_succ_none he, ih]
    | some e =>
      by_cases hzero : e.count = 0
      · rw [shown_succ_zero he hzero, ih]
      · have hp : e.provider ≠ p := fun hp => hzero (h n e he hp)
        rw [shown_succ_some he hzero, List.filter_append, ih]
        simp [hp]

theorem shown_filter (he : t i = some e) (hcount : e.count ≠ 0)
    (hunique : ∀ j e', t j = some e' → e'.provider = e.provider → j = i) (n : ℕ) :
    (shown t n).filter (fun x => x.1 = e.provider) =
      if i < n then [(e.provider, e.count)] else [] := by
  induction n with
  | zero => rfl
  | succ n ih =>
    by_cases hn : n = i
    · subst hn
      rw [if_neg (Nat.lt_irrefl n)] at ih
      rw [shown_succ_some he hcount, List.filter_append, ih, if_pos (Nat.lt_succ_self n)]
      simp
    · have hlt : (i < n + 1) = (i < n) := by
        rw [Nat.lt_succ_iff_lt_or_eq]
        simp [Ne.symm hn]
      simp only [hlt]
      rw [← ih]
      cases he' : t n with
      | none => rw [shown_succ_none he']
      | some e' =>
        by_cases hzero : e'.count = 0
        · rw [shown_succ_zero he' hzero]
        · have hp : e'.provider ≠ e.provider := fun hp => hn (hunique n e' he' hp)
          rw [shown_succ_some he' hzero, List.filter_append]
          simp [hp]

theorem counts_eq (out : List Histogram) (p : Bytes) :
    counts out p = ((summary out).filter fun x => x.1 = p).map Prod.snd := by
  simp [counts, summary, List.filter_map, Function.comp_def]

end shown

section quiet
variable {table : Table} {recordings : List Recording} (h : Books table recordings)
include h

/-- When all recordings have finished, an entry counts those for its provider. -/
theorem Books.count_finished (hdone : ∀ r ∈ recordings, r.job.finished) {i : ℕ}
    {e : ProviderTtft} (he : table i = some e) :
    e.count = recordings.countP fun r => r.provider = e.provider := by
  have hjobs : ∀ t ∈ recordings.map Recording.job, t.finished := by
    intro t ht
    obtain ⟨r, hr, rfl⟩ := List.mem_map.mp ht
    exact hdone r hr
  rw [(h.tallies i e he).count, passedBy_finished hjobs, List.countP_map]
  apply List.countP_congr
  intro r hr
  obtain ⟨j, e', hentry, he', hp⟩ := h.stored r hr
  simp only [Function.comp_apply, decide_eq_true_eq, Recording.mem_program, hentry,
    Option.some.injEq, count_mem_increments, and_true]
  constructor
  · rintro rfl
    obtain rfl := Option.some.inj (he.symm.trans he')
    exact hp.symm
  · intro hname
    exact h.unique j i e' e he' he (hp.trans hname)

/-- The count lines after a rendering of all slots. -/
theorem Books.counts_shown (hdone : ∀ r ∈ recordings, r.job.finished) {out : List Histogram}
    (hout : summary out = shown table ttftMaxProviders) (p : Bytes) :
    counts out p =
      if (recordings.countP fun r => r.provider = p) = 0 then []
      else [recordings.countP fun r => r.provider = p] := by
  rw [counts_eq, hout]
  by_cases hzero : (recordings.countP fun r => r.provider = p) = 0
  · rw [if_pos hzero, shown_filter_nil, List.map_nil]
    rintro i e he rfl
    rw [h.count_finished hdone he, hzero]
  · rw [if_neg hzero]
    obtain ⟨r, hr, hname⟩ := List.countP_pos_iff.mp (Nat.pos_of_ne_zero hzero)
    obtain ⟨i, e, -, he, hp⟩ := h.stored r hr
    obtain rfl : e.provider = p := hp.trans (of_decide_eq_true hname)
    have hcount := h.count_finished hdone he
    rw [shown_filter he (by rwa [hcount]) fun j e' he' hp' => h.unique j i e' e he' he hp',
      if_pos (h.slots i e he), List.map_singleton, hcount]

end quiet

/-! Every step keeps this. -/

structure Inv (s : State) : Prop where
  books : Books s.table s.recordings
  sound : Sound s.table s.reader
  printed : Printed s.out
  quiet : s.quiet → (∀ r ∈ s.recordings, r.job.finished) ∧ Shows s.table s.out s.reader

theorem Inv.start : Inv State.start where
  books := by
    refine ⟨?_, ?_, ?_, ?_⟩ <;> simp [State.start]
  sound := trivial
  printed := by simp [Printed, State.start]
  quiet := by simp [State.start]

theorem Inv.good {s : State} (h : Inv s) : Good s where
  coherent := h.printed
  complete := by
    intro hreader hquiet p
    obtain ⟨hdone, hshows⟩ := h.quiet hquiet
    rw [hreader] at hshows
    exact h.books.counts_shown hdone hshows p

section step
variable {s : State} (h : Inv s)
include h

theorem Inv.record {provider : Option Bytes} {ttftNs : UInt64}
    (hok : StepOk s (.record provider ttftNs)) : Inv (s.step (.record provider ttftNs)) := by
  rw [State.step]
  cases hreader : s.reader with
  | some reader => exact h
  | none =>
    obtain ⟨hlen, hroom⟩ := hok hreader
    refine ⟨h.books.findOrMake ttftNs hlen hroom, ?_, h.printed, ?_⟩
    · simp [Sound]
    · simp

theorem Inv.tick {i : ℕ} (hok : StepOk s (.tick i)) : Inv (s.step (.tick i)) := by
  rw [State.step]
  cases hr : s.recordings[i]? with
  | none => exact h
  | some r =>
    cases hnext : r.job.next with
    | none => simpa [hnext] using h
    | some a =>
      obtain ⟨j, c⟩ := a
      have hawaits : ¬awaits s.reader (j, c) := hok r hr (j, c) hnext
      simp only [hnext]
      refine ⟨h.books.tick hr hnext, h.sound.tick r.ttftNs hawaits, h.printed, ?_⟩
      intro hquiet
      have hdone := (h.quiet hquiet).1 r (List.mem_of_getElem? hr)
      rw [Job.next_eq_none.mpr hdone] at hnext
      cases hnext

theorem Inv.lock : Inv (s.step .lock) := by
  rw [State.step]
  cases hreader : s.reader with
  | some reader => exact h
  | none =>
    refine ⟨h.books, trivial, by simp [Printed], ?_⟩
    intro hquiet
    refine ⟨?_, by decide, rfl, rfl⟩
    simpa using hquiet

theorem Inv.load (hok : StepOk s .load) : Inv (s.step .load) := by
  rw [State.step]
  cases hreader : s.reader with
  | none => exact h
  | some reader =>
    have hsound := h.sound
    rw [hreader] at hsound
    have hsettled : ∀ i, reader = .slot i → hasCount s.table i → ∀ r ∈ s.recordings, r.Settled i := by
      rintro i rfl
      exact hok i (hreader ▸ rfl)
    obtain ⟨hnext, hprinted⟩ := hsound.load h.books h.printed hsettled
    refine ⟨h.books, hnext, hprinted, ?_⟩
    intro hquiet
    obtain ⟨hdone, hshows⟩ := h.quiet hquiet
    rw [hreader] at hshows
    exact ⟨hdone, hshows.load⟩

theorem Inv.full : Inv (s.step .full) := by
  rw [State.step]
  split
  · exact h
  · exact h
  · exact ⟨h.books, trivial, by simp [Printed], by simp⟩

theorem Inv.step {e : Event} (hok : StepOk s e) : Inv (s.step e) := by
  cases e with
  | record provider ttftNs => exact h.record hok
  | tick i => exact h.tick hok
  | lock => exact h.lock
  | load => exact h.load hok
  | full => exact h.full

end step

/-- In a run whose steps meet the condition, every histogram that is printed is one, and a
rendering that no recording overlaps counts the recordings of each provider. -/
theorem renderings_coherent {events : List Event}
    (h : RunOk State.step StepOk State.start events) :
    Always State.step Good State.start events := by
  have hinv : Always State.step Inv State.start events :=
    always_of_runOk (fun _ _ hs hok => hs.step hok) Inv.start h
  exact fun n => (hinv n).good

/-- A recording over 30 seconds is rendered as it finishes, another one after it. -/
theorem renderings_coherent_slow : Good (run State.step State.start
    [.record (some ['x']) 40000000000, .tick 0, .lock, .load, .load, .tick 0, .load]) :=
  (renderings_coherent (by decide)).last

/-- A recording of 1 ns begins after another one, and makes its first increment when the
rendering has loaded the count. -/
def overlapping : List Event :=
  .record (some ['x']) 1 :: List.replicate 11 (.tick 0) ++
    [.record (some ['x']) 1, .lock, .load, .load, .tick 1] ++ List.replicate 25 .load

theorem renderings_incoherent :
    (run State.step State.start overlapping).out = [⟨['x'], [2, 1, 1, 1, 1, 1, 1, 1, 1], 1, 1, 1⟩] ∧
      ¬∀ events, Always State.step Good State.start events := by
  have hout : (run State.step State.start overlapping).out =
      [⟨['x'], [2, 1, 1, 1, 1, 1, 1, 1, 1], 1, 1, 1⟩] := by decide
  refine ⟨hout, fun hall => ?_⟩
  have hgood := (hall overlapping).last.coherent
  rw [hout] at hgood
  exact absurd (hgood _ List.mem_cons_self).1 (by decide)

end Aigate.TtftHistogram
