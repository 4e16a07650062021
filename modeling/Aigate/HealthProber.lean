import Aigate.GuardedRuns
import Aigate.KeyStore
import Aigate.Pipelines
import Aigate.ProviderAdmin

/-!
# The health of a provider

The prober keeps a table with an entry for each provider. A probe of all providers works through
a list that it has read before, a test of one provider reads that one; they and the changes of
the stored providers come in any order. A result is put in the first entry with the id or with
the name, a mark for a provider that is not probed in the entry with the id.
-/
namespace Aigate.HealthProber
open Text AdminRequests ProviderAdmin KeyStore Pipelines GuardedRuns

def maxTrackedProviders : ℕ := 128

inductive HealthStatus where
  | unknown
  | healthy
  | degraded
  | down
  | paused
  deriving DecidableEq, Repr

/-- The counters are machine integers with a sign. -/
structure ProviderHealth where
  id : ℤ
  providerName : Field 63
  endpoint : Field 511
  providerType : Field 31
  status : HealthStatus
  latencyMs : ℤ
  lastHttpStatus : ℤ
  lastCheckTs : ℤ
  consecutiveFailures : Int32
  consecutiveSuccesses : Int32
  lastError : Field 255
  deriving DecidableEq

/-- What `memset` leaves, and `calloc`. -/
def ProviderHealth.zero : ProviderHealth :=
  ⟨0, noText 63, noText 511, noText 31, .unknown, 0, 0, 0, 0, 0, noText 255⟩

/-- What is computed from one result and the counters before it. -/
structure Verdict where
  status : HealthStatus
  failures : Int32
  successes : Int32
  error : Bytes

def serverError (failures : Int32) : HealthStatus := if 2 ≤ failures then .down else .degraded

def judge (failures successes : Int32) (httpStatus latencyMs probeRc : ℤ) : Verdict :=
  if probeRc = 0 then
    if 200 ≤ httpStatus ∧ httpStatus < 400 then
      if 2000 ≤ latencyMs then
        ⟨.degraded, 0, successes + 1, ascii "High latency: " ++ intText latencyMs ++ ascii "ms"⟩
      else ⟨.healthy, 0, successes + 1, []⟩
    else if httpStatus = 401 ∨ httpStatus = 403 then
      ⟨.down, failures + 1, 0, ascii "HTTP " ++ intText httpStatus ++ ascii ": Invalid API key"⟩
    else if httpStatus = 429 then ⟨.degraded, failures + 1, 0, ascii "HTTP 429: Rate limited"⟩
    else
      ⟨serverError (failures + 1), failures + 1, 0,
        ascii "HTTP " ++ intText httpStatus ++
          (if 2 ≤ failures + 1 then ascii ": Server error" else ascii ": Transient error")⟩
  else if probeRc = -110 then
    ⟨serverError (failures + 1), failures + 1, 0, ascii "Connection timed out"⟩
  else
    ⟨serverError (failures + 1), failures + 1, 0,
      ascii "Transport unreachable (rc=" ++ intText probeRc ++ ascii ")"⟩

abbrev Table := List ProviderHealth

/-- The entry that was found is changed, else a new one; `full` is for a table without room. -/
def upsert (table : Table) (found : Option ℕ) (full : Table)
    (change : ProviderHealth → ProviderHealth) : Table :=
  match found with
  | some i => table.modify i change
  | none => if table.length < maxTrackedProviders then table ++ [change .zero] else full

/-- What a result changes in an entry. -/
def ProviderHealth.result (p : ProviderRec) (httpStatus latencyMs probeRc now : ℤ)
    (ph : ProviderHealth) : ProviderHealth :=
  let verdict :=
    judge ph.consecutiveFailures ph.consecutiveSuccesses httpStatus latencyMs probeRc
  { id := p.id
    providerName := p.name
    endpoint := p.endpoint
    providerType := p.providerType
    status := verdict.status
    latencyMs := latencyMs
    lastHttpStatus := httpStatus
    lastCheckTs := now
    consecutiveFailures := verdict.failures
    consecutiveSuccesses := verdict.successes
    lastError := copyField 255 verdict.error }

/-- What a mark changes in an entry. -/
def ProviderHealth.mark (p : ProviderRec) (status : HealthStatus) (error : String) (now : ℤ)
    (ph : ProviderHealth) : ProviderHealth :=
  { ph with
    id := p.id
    providerName := p.name
    endpoint := p.endpoint
    providerType := p.providerType
    status := status
    lastCheckTs := now
    lastError := copyField 255 (ascii error) }

/-- The entry has the id of the provider or its name. -/
def holdsResult (p : ProviderRec) (ph : ProviderHealth) : Bool :=
  0 < p.id ∧ ph.id = p.id ∨ ph.providerName = p.name

/-- `health_prober_record_result`: a full table gives its first entry. -/
def recordResult (table : Table) (p : ProviderRec) (httpStatus latencyMs probeRc now : ℤ) :
    Table :=
  let change := ProviderHealth.result p httpStatus latencyMs probeRc now
  upsert table (table.findIdx? (holdsResult p)) (table.modify 0 change) change

/-- The two branches of `health_prober_probe_all` that probe nothing. -/
def markProvider (table : Table) (p : ProviderRec) (status : HealthStatus) (error : String)
    (now : ℤ) : Table :=
  upsert table (table.findIdx? fun ph : ProviderHealth => ph.id = p.id) table (.mark p status error now)

structure ProbePlan where
  url : Bytes
  authHeader : Bytes
  bearer : Bool
  extraHeader : Bytes

def planFor (endpoint : Bytes) : Adapter → ProbePlan
  | .anthropic =>
    { url :=
        if (ascii "/v1").isSuffixOf endpoint then endpoint ++ ascii "/models"
        else if (ascii "/v1/").isSuffixOf endpoint then endpoint ++ ascii "models"
        else endpoint ++ ascii "/v1/models"
      authHeader := ascii "x-api-key"
      bearer := false
      extraHeader := ascii "anthropic-version" }
  | .gemini => ⟨endpoint ++ ascii "/v1beta/models", ascii "x-goog-api-key", false, []⟩
  | .openai => ⟨endpoint ++ ascii "/models", ascii "Authorization", true, []⟩

/-- `provider_probe_plan`. -/
def providerProbePlan (providerType endpoint : Bytes) : Option ProbePlan :=
  if endpoint = [] then none
  else
    ((providerFind providerType).map (planFor endpoint)).filter fun plan => plan.url.length < 1024

/-- What is found out for a provider: it is disabled, no probe is known for its type, or there
is a result. -/
inductive Outcome where
  | paused
  | unsupported
  | result (httpStatus latencyMs probeRc : ℤ)
  deriving DecidableEq, Repr

/-- Whether the reference to the key can be resolved, what `upstream_probe` returns, and the
time. -/
structure Reply where
  keyResolves : Bool
  httpStatus : ℤ
  latencyNs : ℕ
  probeRc : ℤ
  now : ℤ

/-- A running call, with the records that it has read and not yet handled. -/
structure Call where
  isTest : Bool
  left : List ProviderRec

/-- A test looks at no switch, and ends without a result when it cannot probe. -/
def outcome (isTest : Bool) (p : ProviderRec) (reply : Reply) : Option Outcome :=
  if !isTest && !p.enabled then some .paused
  else
    match providerProbePlan p.providerType.1 p.endpoint.1 with
    | none => if isTest then none else some .unsupported
    | some _ =>
      if reply.keyResolves then
        some (.result reply.httpStatus (reply.latencyNs / 1000000 : ℕ) reply.probeRc)
      else if isTest then none
      else some (.result 401 0 (-502))

def put (table : Table) (p : ProviderRec) (now : ℤ) : Outcome → Table
  | .paused => markProvider table p .paused "Provider disabled" now
  | .unsupported => markProvider table p .down "Probe unsupported for type" now
  | .result httpStatus latencyMs probeRc => recordResult table p httpStatus latencyMs probeRc now

/-- The stored providers, the table, the running calls, and what was ever found out for each id,
the latest first. -/
structure State where
  store : Store
  table : Table
  calls : List Call
  history : ℤ → List Outcome

/-- No provider has been stored. -/
def start : State := ⟨⟨[], fun _ => none, 0⟩, [], [], fun _ => []⟩

/-- No handler renames a provider; that is a change of the stored row. -/
inductive Event where
  | create (p : ProviderRec)
  | update (p : ProviderRec) (mask : List ProviderColumn)
  | rename (id : ℕ) (name : Field 63)
  | delete (id : ℕ)
  | probeAll
  | test (id : ℤ)
  | advance (i : ℕ) (reply : Reply)

def deleteProvider (st : Store) (id : ℕ) : Store :=
  { st with providers := st.providers.filter fun row => row.id ≠ id }

/-- A name that another row has is refused. -/
def renameProvider (st : Store) (id : ℕ) (name : Field 63) : Store :=
  if st.providers.any fun row => row.id ≠ id ∧ row.name = name then st
  else
    { st with
      providers := st.providers.map fun row => if row.id = id then { row with name := name } else row }

def State.advance (s : State) (i : ℕ) (reply : Reply) : State :=
  match s.calls[i]? with
  | none => s
  | some c =>
    match c.left with
    | [] => s
    | p :: left =>
      let calls := s.calls.set i { c with left := left }
      match outcome c.isTest p reply with
      | none => { s with calls := calls }
      | some o =>
        { s with
          table := put s.table p reply.now o
          calls := calls
          history := Function.update s.history p.id (o :: s.history p.id) }

def State.step (s : State) : Event → State
  | .create p => { s with store := ((createProvider s.store p).map Prod.fst).getD s.store }
  | .update p mask => { s with store := (updateProvider s.store p mask).getD s.store }
  | .rename id name => { s with store := renameProvider s.store id name }
  | .delete id => { s with store := deleteProvider s.store id }
  | .probeAll =>
    { s with calls := s.calls ++ [⟨false, s.store.providers.take maxTrackedProviders⟩] }
  | .test id => { s with calls := s.calls ++ [⟨true, (getProvider s.store id).toList⟩] }
  | .advance i reply => s.advance i reply

/-! What a provider's own results say. -/

def Outcome.isResult : Outcome → Bool
  | .result _ _ _ => true
  | _ => false

def Outcome.succeeds : Outcome → Bool
  | .result httpStatus _ probeRc => probeRc = 0 ∧ 200 ≤ httpStatus ∧ httpStatus < 400
  | _ => false

/-- The results from the latest one on that are all of the kind. -/
def streak (kind : Outcome → Bool) (history : List Outcome) : ℕ :=
  ((history.filter Outcome.isResult).takeWhile kind).length

def failures : List Outcome → ℕ := streak fun o => !o.succeeds

def successes : List Outcome → ℕ := streak Outcome.succeeds

def statusOf : List Outcome → HealthStatus
  | [] => .unknown
  | .paused :: _ => .paused
  | .unsupported :: _ => .down
  | .result httpStatus latencyMs probeRc :: before =>
    (judge (.ofNat (failures before)) (.ofNat (successes before)) httpStatus latencyMs
      probeRc).status

/-- The key was refused. -/
def Outcome.authFails : Outcome → Bool
  | .result httpStatus _ probeRc => probeRc = 0 ∧ (httpStatus = 401 ∨ httpStatus = 403)
  | _ => false

/-- The entry says what these results say. -/
structure Own (ph : ProviderHealth) (history : List Outcome) : Prop where
  failures : ph.consecutiveFailures = .ofNat (failures history)
  successes : ph.consecutiveSuccesses = .ofNat (successes history)
  status : ph.status = statusOf history
  down : ∀ o before, history = o :: before → o.isResult → o.authFails = false →
    ph.status = .down → 2 ≤ HealthProber.failures history

/-- Every entry says what the provider's own results say. -/
def Good (s : State) : Prop := ∀ ph ∈ s.table, Own ph (s.history ph.id)

/-- The entry for a result is the provider's own, or there is none and room for it. -/
def Fits (table : Table) (p : ProviderRec) : Prop :=
  match table.findIdx? (holdsResult p) with
  | some i => ∀ ph ∈ table[i]?, ph.id = p.id
  | none => table.length < maxTrackedProviders

instance (table : Table) (p : ProviderRec) : Decidable (Fits table p) :=
  match h : table.findIdx? (holdsResult p) with
  | some i => decidable_of_iff (∀ ph ∈ table[i]?, ph.id = p.id) (by rw [Fits, h])
  | none => decidable_of_iff (table.length < maxTrackedProviders) (by rw [Fits, h])

/-- Whenever a result is recorded, it fits. -/
def StepOk (s : State) : Event → Prop
  | .advance i reply => ∀ c ∈ s.calls[i]?, ∀ p ∈ c.left.head?, ∀ o ∈ outcome c.isTest p reply,
      o.isResult → Fits s.table p
  | _ => True

instance (s : State) : ∀ e, Decidable (StepOk s e)
  | .create _ => instDecidableTrue
  | .update _ _ => instDecidableTrue
  | .rename _ _ => instDecidableTrue
  | .delete _ => instDecidableTrue
  | .probeAll => instDecidableTrue
  | .test _ => instDecidableTrue
  | .advance i reply => inferInstanceAs (Decidable (∀ c ∈ s.calls[i]?, ∀ p ∈ c.left.head?,
      ∀ o ∈ outcome c.isTest p reply, _ → _))

/-! One result, and one mark. -/

theorem streak_mark {kind : Outcome → Bool} {o : Outcome} (ho : o.isResult = false)
    (history : List Outcome) : streak kind (o :: history) = streak kind history := by
  simp [streak, ho]

theorem streak_result (kind : Outcome → Bool) {o : Outcome} (ho : o.isResult)
    (history : List Outcome) :
    streak kind (o :: history) = if kind o then streak kind history + 1 else 0 := by
  by_cases hkind : kind o
  · simp [streak, ho, hkind]
  · simp [streak, ho, hkind]

theorem two_le_of_ofNat {n : ℕ} (h : (2 : Int32) ≤ .ofNat n) : 2 ≤ n := by
  match n with
  | 0 => exact absurd h (by decide)
  | 1 => exact absurd h (by decide)
  | n + 2 => omega

theorem serverError_eq_down {f : Int32} (h : serverError f = .down) : 2 ≤ f := by
  unfold serverError at h
  split at h
  · assumption
  · cases h

section judge
variable {f s : Int32} {httpStatus latencyMs probeRc : ℤ}

theorem succeeds_iff : (Outcome.result httpStatus latencyMs probeRc).succeeds = true ↔
    probeRc = 0 ∧ 200 ≤ httpStatus ∧ httpStatus < 400 := decide_eq_true_iff

theorem judge_succeeds (h : (Outcome.result httpStatus latencyMs probeRc).succeeds = true) :
    (judge f s httpStatus latencyMs probeRc).status ≠ .down ∧
      (judge f s httpStatus latencyMs probeRc).failures = 0 ∧
      (judge f s httpStatus latencyMs probeRc).successes = s + 1 := by
  obtain ⟨hrc, hok⟩ := succeeds_iff.mp h
  rw [judge, if_pos hrc, if_pos hok]
  split
  · exact ⟨HealthStatus.noConfusion, rfl, rfl⟩
  · exact ⟨HealthStatus.noConfusion, rfl, rfl⟩

theorem judge_fails (h : (Outcome.result httpStatus latencyMs probeRc).succeeds = false) :
    (judge f s httpStatus latencyMs probeRc).failures = f + 1 ∧
      (judge f s httpStatus latencyMs probeRc).successes = 0 := by
  have hnot : ¬(probeRc = 0 ∧ 200 ≤ httpStatus ∧ httpStatus < 400) := by
    rw [← succeeds_iff, h]
    decide
  unfold judge
  by_cases hrc : probeRc = 0
  · rw [if_pos hrc, if_neg fun hok => hnot ⟨hrc, hok⟩]
    split_ifs <;> exact ⟨rfl, rfl⟩
  · rw [if_neg hrc]
    split_ifs <;> exact ⟨rfl, rfl⟩

/-- Without a refusal of the key it takes two failures. -/
theorem judge_down (hauth : (Outcome.result httpStatus latencyMs probeRc).authFails = false)
    (hdown : (judge f s httpStatus latencyMs probeRc).status = .down) :
    (Outcome.result httpStatus latencyMs probeRc).succeeds = false ∧ 2 ≤ f + 1 := by
  have hfails : (Outcome.result httpStatus latencyMs probeRc).succeeds = false := by
    by_contra hsucceeds
    exact (judge_succeeds (Bool.eq_true_of_not_eq_false hsucceeds)).1 hdown
  refine ⟨hfails, ?_⟩
  have hnot : ¬(probeRc = 0 ∧ 200 ≤ httpStatus ∧ httpStatus < 400) := by
    rw [← succeeds_iff, hfails]
    decide
  have hkey : ¬(probeRc = 0 ∧ (httpStatus = 401 ∨ httpStatus = 403)) := of_decide_eq_false hauth
  unfold judge at hdown
  by_cases hrc : probeRc = 0
  · rw [if_pos hrc, if_neg fun hok => hnot ⟨hrc, hok⟩, if_neg fun h => hkey ⟨hrc, h⟩] at hdown
    by_cases hlimited : httpStatus = 429
    · rw [if_pos hlimited] at hdown
      cases hdown
    · rw [if_neg hlimited] at hdown
      exact serverError_eq_down hdown
  · rw [if_neg hrc] at hdown
    split at hdown
    · exact serverError_eq_down hdown
    · exact serverError_eq_down hdown

end judge

section own
variable {ph : ProviderHealth} {history : List Outcome}
  (hf : ph.consecutiveFailures = .ofNat (failures history))
  (hs : ph.consecutiveSuccesses = .ofNat (successes history))
include hf hs

/-- A result of the provider is put in an entry with its counters. -/
theorem own_result (p : ProviderRec) (httpStatus latencyMs probeRc now : ℤ) :
    Own (ph.result p httpStatus latencyMs probeRc now)
      (.result httpStatus latencyMs probeRc :: history) where
  failures := by
    rw [failures, streak_result _ rfl]
    cases ho : (Outcome.result httpStatus latencyMs probeRc).succeeds with
    | true => exact (judge_succeeds ho).2.1
    | false =>
      refine (judge_fails ho).1.trans ?_
      rw [hf]
      simp [failures]
  successes := by
    rw [successes, streak_result _ rfl]
    cases ho : (Outcome.result httpStatus latencyMs probeRc).succeeds with
    | true =>
      refine (judge_succeeds ho).2.2.trans ?_
      rw [hs]
      simp [successes]
    | false => exact (judge_fails ho).2
  status := by
    rw [ProviderHealth.result, hf, hs]
    rfl
  down := by
    intro o before heq _ hauth hdown
    obtain ⟨rfl, rfl⟩ := List.cons.inj heq
    obtain ⟨hfails, htwo⟩ := judge_down hauth hdown
    rw [failures, streak_result _ rfl, hfails]
    rw [hf] at htwo
    apply two_le_of_ofNat
    simpa [failures] using htwo

theorem own_paused (p : ProviderRec) (error : String) (now : ℤ) :
    Own (ph.mark p .paused error now) (.paused :: history) where
  failures := by rwa [failures, streak_mark rfl]
  successes := by rwa [successes, streak_mark rfl]
  status := rfl
  down := by
    intro o before heq hresult
    obtain ⟨rfl, -⟩ := List.cons.inj heq
    cases hresult

theorem own_unsupported (p : ProviderRec) (error : String) (now : ℤ) :
    Own (ph.mark p .down error now) (.unsupported :: history) where
  failures := by rwa [failures, streak_mark rfl]
  successes := by rwa [successes, streak_mark rfl]
  status := rfl
  down := by
    intro o before heq hresult
    obtain ⟨rfl, -⟩ := List.cons.inj heq
    cases hresult

end own

/-! The table and what was found out. -/

/-- No id has two entries, each entry is its provider's own, and an id without an entry has no
streak. -/
structure Books (table : Table) (history : ℤ → List Outcome) : Prop where
  nodup : (table.map ProviderHealth.id).Nodup
  own : ∀ ph ∈ table, Own ph (history ph.id)
  absent : ∀ id, id ∉ table.map ProviderHealth.id →
    failures (history id) = 0 ∧ successes (history id) = 0

theorem map_id_modify {table : Table} {i : ℕ} {ph : ProviderHealth} (hi : table[i]? = some ph)
    {change : ProviderHealth → ProviderHealth} (hid : (change ph).id = ph.id) :
    (table.modify i change).map ProviderHealth.id = table.map ProviderHealth.id := by
  apply List.ext_getElem?
  intro j
  simp only [List.getElem?_map, List.getElem?_modify]
  by_cases hij : i = j
  · subst hij
    simp [hi, hid]
  · simp [hij]

/-- Each entry of the changed table is the changed one, or one of another id. -/
theorem mem_modify {table : Table} (hnodup : (table.map ProviderHealth.id).Nodup) {i : ℕ}
    {ph : ProviderHealth} (hi : table[i]? = some ph) {change : ProviderHealth → ProviderHealth}
    {x : ProviderHealth} (hx : x ∈ table.modify i change) :
    x = change ph ∨ x ∈ table ∧ x.id ≠ ph.id := by
  obtain ⟨j, hj⟩ := List.mem_iff_getElem?.mp hx
  rw [List.getElem?_modify] at hj
  by_cases hij : i = j
  · subst hij
    have hnew : change ph = x := by simpa [hi] using hj
    exact .inl hnew.symm
  · have hj' : table[j]? = some x := by simpa [hij] using hj
    refine .inr ⟨List.mem_of_getElem? hj', fun heq => hij ?_⟩
    have hlt : i < (table.map ProviderHealth.id).length := by
      rw [List.length_map]
      exact (List.getElem?_eq_some_iff.mp hi).1
    rw [← List.getElem?_inj hlt hnodup, List.getElem?_map, List.getElem?_map, hi, hj',
      Option.map_some, Option.map_some, heq]

section books
variable {table : Table} {history : ℤ → List Outcome} (h : Books table history)
include h

theorem Books.modify {i : ℕ} {ph : ProviderHealth} (hi : table[i]? = some ph)
    {change : ProviderHealth → ProviderHealth} (hid : (change ph).id = ph.id) {o : Outcome}
    (hown : Own (change ph) (o :: history ph.id)) :
    Books (table.modify i change) (Function.update history ph.id (o :: history ph.id)) where
  nodup := by
    rw [map_id_modify hi hid]
    exact h.nodup
  own := by
    intro x hx
    rcases mem_modify h.nodup hi hx with rfl | ⟨hx, hne⟩
    · rw [hid, Function.update_self]
      exact hown
    · rw [Function.update_of_ne hne]
      exact h.own x hx
  absent := by
    intro id hnot
    rw [map_id_modify hi hid] at hnot
    have hne : id ≠ ph.id := by
      rintro rfl
      exact hnot (List.mem_map_of_mem (List.mem_of_getElem? hi))
    rw [Function.update_of_ne hne]
    exact h.absent id hnot

/-- An id gets its entry. -/
theorem Books.append {ph : ProviderHealth} (hnew : ph.id ∉ table.map ProviderHealth.id)
    {o : Outcome} (hown : Own ph (o :: history ph.id)) :
    Books (table ++ [ph]) (Function.update history ph.id (o :: history ph.id)) where
  nodup := by
    rw [List.map_append, List.map_singleton, List.nodup_append]
    refine ⟨h.nodup, List.nodup_singleton _, ?_⟩
    intro a ha b hb
    rw [List.mem_singleton.mp hb]
    rintro rfl
    exact hnew ha
  own := by
    intro x hx
    rcases List.mem_append.mp hx with hx | hx
    · have hne : x.id ≠ ph.id := by
        intro heq
        exact hnew (heq ▸ List.mem_map_of_mem hx)
      rw [Function.update_of_ne hne]
      exact h.own x hx
    · rw [List.mem_singleton.mp hx, Function.update_self]
      exact hown
  absent := by
    intro id hnot
    rw [List.map_append, List.mem_append, not_or, List.map_singleton, List.mem_singleton] at hnot
    rw [Function.update_of_ne hnot.2]
    exact h.absent id hnot.1

/-- A mark for which a full table has no entry. -/
theorem Books.skip {id : ℤ} (hnew : id ∉ table.map ProviderHealth.id) {o : Outcome}
    (ho : o.isResult = false) : Books table (Function.update history id (o :: history id)) where
  nodup := h.nodup
  own := by
    intro x hx
    have hne : x.id ≠ id := by
      rintro rfl
      exact hnew (List.mem_map_of_mem hx)
    rw [Function.update_of_ne hne]
    exact h.own x hx
  absent := by
    intro id' hnot
    by_cases heq : id' = id
    · subst heq
      rw [Function.update_self, failures, successes, streak_mark ho, streak_mark ho]
      exact h.absent id' hnot
    · rw [Function.update_of_ne heq]
      exact h.absent id' hnot

/-- A new entry begins with the counters of an id that has none. -/
theorem Books.zero_counters {id : ℤ} (hnew : id ∉ table.map ProviderHealth.id) :
    ProviderHealth.zero.consecutiveFailures = .ofNat (failures (history id)) ∧
      ProviderHealth.zero.consecutiveSuccesses = .ofNat (successes (history id)) := by
  obtain ⟨hf, hs⟩ := h.absent id hnew
  rw [hf, hs]
  exact ⟨rfl, rfl⟩

/-- The entry of an id is changed, or made, with an outcome. -/
theorem Books.upsert {id : ℤ} {o : Outcome} {found : Option ℕ} {full : Table}
    {change : ProviderHealth → ProviderHealth}
    (hsome : ∀ i, found = some i → ∃ ph, table[i]? = some ph ∧ ph.id = id)
    (hnone : found = none → id ∉ table.map ProviderHealth.id)
    (hroom : found = none → table.length < maxTrackedProviders ∨ o.isResult = false ∧ full = table)
    (hid : ∀ ph, (change ph).id = id)
    (hown : ∀ ph : ProviderHealth, ph.consecutiveFailures = .ofNat (failures (history id)) →
      ph.consecutiveSuccesses = .ofNat (successes (history id)) →
        Own (change ph) (o :: history id)) :
    Books (upsert table found full change) (Function.update history id (o :: history id)) := by
  unfold HealthProber.upsert
  cases hfound : found with
  | some i =>
    obtain ⟨ph, hi, rfl⟩ := hsome i hfound
    have hph := h.own ph (List.mem_of_getElem? hi)
    exact h.modify hi (hid ph) (hown ph hph.failures hph.successes)
  | none =>
    have hnew := hnone hfound
    dsimp only
    split
    · obtain ⟨hf, hs⟩ := h.zero_counters hnew
      have hzero : (change .zero).id = id := hid .zero
      subst hzero
      exact h.append hnew (hown .zero hf hs)
    · next hfull =>
      obtain ⟨ho, rfl⟩ := (hroom hfound).resolve_left hfull
      exact h.skip hnew ho

/-- A mark goes to the provider's own entry. -/
theorem Books.markProvider {o : Outcome} (ho : o.isResult = false) {status : HealthStatus}
    (p : ProviderRec) (error : String) (now : ℤ)
    (hown : ∀ ph : ProviderHealth, ph.consecutiveFailures = .ofNat (failures (history p.id)) →
      ph.consecutiveSuccesses = .ofNat (successes (history p.id)) →
        Own (ph.mark p status error now) (o :: history p.id)) :
    Books (markProvider table p status error now)
      (Function.update history p.id (o :: history p.id)) := by
  apply h.upsert
  · intro i hfound
    obtain ⟨hi, hid, -⟩ := List.findIdx?_eq_some_iff_getElem.mp hfound
    exact ⟨table[i], List.getElem?_eq_getElem hi, of_decide_eq_true hid⟩
  · intro hfound hmem
    obtain ⟨ph, hph, hid⟩ := List.mem_map.mp hmem
    have hnot := List.findIdx?_eq_none_iff.mp hfound ph hph
    exact of_decide_eq_false hnot hid
  · exact fun _ => .inr ⟨ho, rfl⟩
  · exact fun _ => rfl
  · exact hown

/-- A result that fits goes to the provider's own entry. -/
theorem Books.recordResult {p : ProviderRec} (hp : 0 < p.id) (hfits : Fits table p)
    (httpStatus latencyMs probeRc now : ℤ) :
    Books (recordResult table p httpStatus latencyMs probeRc now)
      (Function.update history p.id (.result httpStatus latencyMs probeRc :: history p.id)) := by
  unfold Fits at hfits
  apply h.upsert
  · intro i hfound
    rw [hfound] at hfits
    obtain ⟨hi, -, -⟩ := List.findIdx?_eq_some_iff_getElem.mp hfound
    have hentry : table[i]? = some table[i] := List.getElem?_eq_getElem hi
    exact ⟨table[i], hentry, hfits _ hentry⟩
  · intro hfound hmem
    obtain ⟨ph, hph, hid⟩ := List.mem_map.mp hmem
    have hnot := List.findIdx?_eq_none_iff.mp hfound ph hph
    exact of_decide_eq_false hnot (.inl ⟨by exact_mod_cast hp, hid⟩)
  · intro hfound
    rw [hfound] at hfits
    exact .inl hfits
  · exact fun _ => rfl
  · exact fun ph hf hs => own_result hf hs p httpStatus latencyMs probeRc now

theorem Books.put {p : ProviderRec} (hp : 0 < p.id) {o : Outcome}
    (hfits : o.isResult → Fits table p) (now : ℤ) :
    Books (put table p now o) (Function.update history p.id (o :: history p.id)) := by
  cases o with
  | paused => exact h.markProvider rfl p _ now fun _ hf hs => own_paused hf hs p _ now
  | unsupported => exact h.markProvider rfl p _ now fun _ hf hs => own_unsupported hf hs p _ now
  | result httpStatus latencyMs probeRc =>
    exact h.recordResult hp (hfits rfl) httpStatus latencyMs probeRc now

end books

/-! Every step keeps this. -/

/-- The ids of stored records, and of those that a call has read, are positive. -/
structure Inv (s : State) : Prop where
  books : Books s.table s.history
  stored : ∀ p ∈ s.store.providers, 0 < p.id
  read : ∀ c ∈ s.calls, ∀ p ∈ c.left, 0 < p.id

theorem Inv.start : Inv start where
  books := ⟨List.nodup_nil, by simp [HealthProber.start], fun _ _ => ⟨rfl, rfl⟩⟩
  stored := by simp [HealthProber.start]
  read := by simp [HealthProber.start]

theorem write_id (p : ProviderRec) (mask : List ProviderColumn) (row : ProviderRec) :
    (mask.foldl (ProviderColumn.write p) row).id = row.id := by
  induction mask generalizing row with
  | nil => rfl
  | cons c mask ih =>
    rw [List.foldl_cons, ih]
    cases c <;> rfl

section step
variable {s : State} (h : Inv s)
include h

theorem Inv.ofStore {st : Store} (hst : ∀ p ∈ st.providers, 0 < p.id) :
    Inv { s with store := st } := ⟨h.books, hst, h.read⟩

theorem Inv.ofCall {c : Call} (hc : ∀ p ∈ c.left, p ∈ s.store.providers) :
    Inv { s with calls := s.calls ++ [c] } where
  books := h.books
  stored := h.stored
  read := by
    intro c' hc' p hp
    rcases List.mem_append.mp hc' with hold | hnew
    · exact h.read c' hold p hp
    · rw [List.mem_singleton.mp hnew] at hp
      exact h.stored p (hc p hp)

theorem Inv.create (p : ProviderRec) : Inv (s.step (.create p)) := by
  apply h.ofStore
  unfold createProvider
  split
  · exact h.stored
  · intro row hrow
    rcases List.mem_append.mp hrow with hold | hnew
    · exact h.stored row hold
    · rw [List.mem_singleton.mp hnew]
      exact Nat.succ_pos _

theorem Inv.update (p : ProviderRec) (mask : List ProviderColumn) :
    Inv (s.step (.update p mask)) := by
  apply h.ofStore
  unfold updateProvider
  split
  · exact h.stored
  · intro row hrow
    obtain ⟨old, hold, rfl⟩ := List.mem_map.mp hrow
    split
    · rw [write_id]
      exact h.stored old hold
    · exact h.stored old hold

theorem Inv.rename (id : ℕ) (name : Field 63) : Inv (s.step (.rename id name)) := by
  apply h.ofStore
  unfold renameProvider
  split
  · exact h.stored
  · intro row hrow
    obtain ⟨old, hold, rfl⟩ := List.mem_map.mp hrow
    split
    · exact h.stored old hold
    · exact h.stored old hold

theorem Inv.delete (id : ℕ) : Inv (s.step (.delete id)) := by
  apply h.ofStore
  intro row hrow
  exact h.stored row (List.mem_of_mem_filter hrow)

theorem Inv.test (id : ℤ) : Inv (s.step (.test id)) := by
  apply h.ofCall
  intro p hp
  exact List.mem_of_find?_eq_some (Option.mem_toList.mp hp)

theorem Inv.advance {i : ℕ} {reply : Reply} (hok : StepOk s (.advance i reply)) :
    Inv (s.step (.advance i reply)) := by
  rw [State.step]
  unfold State.advance
  cases hc : s.calls[i]? with
  | none => exact h
  | some c =>
    cases hleft : c.left with
    | nil => simpa [hleft] using h
    | cons p left =>
      have hread := h.read c (List.mem_of_getElem? hc)
      rw [hleft] at hread
      have hcalls : ∀ c' ∈ s.calls.set i { c with left := left }, ∀ q ∈ c'.left, 0 < q.id := by
        intro c' hc' q hq
        rcases List.mem_or_eq_of_mem_set hc' with hold | rfl
        · exact h.read c' hold q hq
        · exact hread q (List.mem_cons_of_mem _ hq)
      simp only [hleft]
      cases ho : outcome c.isTest p reply with
      | none => exact ⟨h.books, h.stored, hcalls⟩
      | some o =>
        have hfits : o.isResult → Fits s.table p :=
          hok c hc p (by simp [hleft]) o ho
        exact ⟨h.books.put (hread p List.mem_cons_self) hfits reply.now, h.stored, hcalls⟩

theorem Inv.step {e : Event} (hok : StepOk s e) : Inv (s.step e) := by
  cases e with
  | create p => exact h.create p
  | update p mask => exact h.update p mask
  | rename id name => exact h.rename id name
  | delete id => exact h.delete id
  | probeAll => exact h.ofCall fun p hp => List.mem_of_mem_take hp
  | test id => exact h.test id
  | advance i reply => exact h.advance hok

end step

/-- In a run in which every result that is recorded fits, every entry says what the provider's
own results say. -/
theorem health_own {events : List Event} (h : RunOk State.step StepOk start events) :
    Always State.step Good start events := by
  have hinv : Always State.step Inv start events :=
    always_of_runOk (fun _ _ hs hok => hs.step hok) Inv.start h
  exact fun n => (hinv n).books.own

/-- An enabled provider without a key. -/
def sample (name : Bytes) : ProviderRec :=
  ⟨0, copyField 63 name, openai, copyField 511 ['h'], noText 1023, [], true⟩

def answer (httpStatus : ℤ) : Reply := ⟨true, httpStatus, 0, 0, 0⟩

/-- A provider fails, gets another name, and is well again when it is tested. -/
theorem health_own_renamed :
    Good (run State.step start
      [.create (sample ['x']), .probeAll, .advance 0 (answer 500), .rename 1 (copyField 63 ['y']),
        .test 1, .advance 1 (answer 200)]) :=
  (health_own (by decide +kernel)).last

/-- A provider fails once and is deleted, and another one gets its name and fails once. -/
def reusedName : List Event :=
  [.create (sample ['x']), .probeAll, .advance 0 (answer 500), .delete 1,
    .create (sample ['x']), .probeAll, .advance 1 (answer 500)]

theorem health_not_own :
    ((run State.step start reusedName).table.map fun ph =>
        (ph.id, ph.status, ph.consecutiveFailures)) = [(2, .down, 2)] ∧
      (run State.step start reusedName).history 2 = [.result 500 0 0] ∧
      ¬∀ events, Always State.step Good start events := by
  have htable : ((run State.step start reusedName).table.map fun ph =>
      (ph.id, ph.status, ph.consecutiveFailures)) = [(2, .down, 2)] := by decide +kernel
  have hhistory : (run State.step start reusedName).history 2 = [.result 500 0 0] := by
    decide +kernel
  refine ⟨htable, hhistory, fun hall => ?_⟩
  have hgood := (hall reusedName).last
  have hmem : ((2 : ℤ), HealthStatus.down, (2 : Int32)) ∈
      (run State.step start reusedName).table.map fun ph =>
        (ph.id, ph.status, ph.consecutiveFailures) := by
    rw [htable]
    exact List.mem_cons_self
  obtain ⟨ph, hph, heq⟩ := List.mem_map.mp hmem
  simp only [Prod.mk.injEq] at heq
  have hown := (hgood ph hph).failures
  rw [heq.1, heq.2.2, hhistory] at hown
  exact absurd hown (by decide)

end Aigate.HealthProber
