import Aigate.CircuitBreakerOps

/-!
# Which entry an operation reaches

An entry stays where it was made, in the chain of its bucket: later ones are put in front of it.
It is found again under the names that it stores, which are cut at 127 and 511 bytes.
-/
namespace Aigate.CircuitBreakerIdentity
open Text CircuitBreaker CircuitBreakerOps

/-- What is done to a breaker. -/
inductive Act where
  | op (o : Op)
  | override (p : Pair) (newState : CbState)
  | avgTtft (p : Pair)
  | configure (model : Bytes) (l : SlaLimits)

def Act.pair : Act → Option Pair
  | .op o => some o.pair
  | .override p _ => some p
  | .avgTtft p => some p
  | .configure _ _ => none

def step (cb : Breaker) : ℤ × Act → Breaker
  | (now, .op o) => CircuitBreaker.step cb (now, o)
  | (now, .override p newState) => cbOverrideState cb now p newState
  | (_, .avgTtft _) => cb
  | (_, .configure model l) => cbConfigureSla cb model l

def run (cb : Breaker) (events : List (ℤ × Act)) : Breaker := events.foldl step cb

/-- How many entries are behind the first one of a pair. -/
def behind (p : Pair) : List CbEntry → Option ℕ
  | [] => none
  | e :: es => if e.pair = p then some es.length else behind p es

/-- Where an entry is: its bucket, and the number of entries behind it. -/
abbrev Place := Fin 64 × ℕ

/-- The entry that a lookup of the pair finds. -/
def found (cb : Breaker) (p : Pair) : Option Place :=
  (behind p (cb.buckets (hashKey p))).map fun k => (hashKey p, k)

/-- The entry that `get_or_create_entry_locked` returns. -/
def foundOrMade (cb : Breaker) (p : Pair) : Place :=
  (found cb p).getD (hashKey p, (cb.buckets (hashKey p)).length)

/-- The entry that an operation works on, if it works on one. -/
def reached (cb : Breaker) : Act → Option Place
  | .op (.allow p) => some (foundOrMade cb p)
  | .op (.success p) => found cb p
  | .op (.failure p httpStatus) =>
    if countsAsFailure httpStatus then some (foundOrMade cb p) else none
  | .op (.slaSample p _) =>
    (cb.slaConfigs.find? fun cfg => cfg.model = p.model).map fun _ => foundOrMade cb p
  | .op (.query p) => found cb p
  | .override p _ => some (foundOrMade cb p)
  | .avgTtft p => found cb p
  | .configure _ _ => none

def failureOf (p : Pair) : Act → Bool
  | .op (.failure q httpStatus) => decide (q = p) && countsAsFailure httpStatus
  | _ => false

/-- A success or an operator ends a run of failures. -/
def endsFailures (p : Pair) : Act → Bool
  | .op (.success q) => decide (q = p)
  | .override q _ => decide (q = p)
  | _ => false

/-- Failures of a pair, as many as trip it, with whatever else between them. -/
structure Streak (threshold : ℕ) (p : Pair) (events : List (ℤ × Act)) : Prop where
  enough : threshold ≤ events.countP fun event => failureOf p event.2
  unbroken : ∀ event ∈ events, endsFailures p event.2 = false
  last : ∃ event, events.getLast? = some event ∧ failureOf p event.2 = true

/-- The entries of a run are those of the pairs. -/
structure Identified (cb : Breaker) (events : List (ℤ × Act)) : Prop where
  /-- What an operation on a pair has reached is found by every later one. -/
  same : ∀ before event between after p place, events = before ++ event :: between ++ after →
    event.2.pair = some p → reached (run cb before) event.2 = some place →
    found (run cb (before ++ event :: between)) p = some place
  /-- Operations on two pairs do not reach one entry. -/
  apart : ∀ before event after before' event' after' p q place,
    events = before ++ event :: after → events = before' ++ event' :: after' →
    event.2.pair = some p → event'.2.pair = some q → p ≠ q →
    reached (run cb before) event.2 = some place →
    reached (run cb before') event'.2 ≠ some place
  /-- Consecutive failures open the entry of their pair. -/
  trips : ∀ before streak after p, events = before ++ streak ++ after →
    Streak cb.failureThreshold p streak →
    ∃ e, findEntry (run cb (before ++ streak)) p = some e ∧ e.state = .opened
  /-- A failure leaves the entries of the other pairs alone. -/
  spares : ∀ before event after p q, events = before ++ event :: after → q ≠ p →
    failureOf p event.2 = true →
    findEntry (run cb (before ++ [event])) q = findEntry (run cb before) q

/-- Runs of a new breaker on some pairs. -/
def OnPairs (pairs : Set Pair) (events : List (ℤ × Act)) : Prop :=
  ∀ event ∈ events, ∀ p, event.2.pair = some p → p ∈ pairs

theorem behind_eq_none {p : Pair} {es : List CbEntry} :
    behind p es = none ↔ es.find? (fun e => e.pair = p) = none := by
  induction es with
  | nil => simp [behind]
  | cons e es ih =>
    by_cases he : e.pair = p
    · simp [behind, he]
    · simp [behind, he, ih]

theorem behind_lt {p : Pair} {es : List CbEntry} {k : ℕ} (h : behind p es = some k) :
    k < es.length := by
  induction es with
  | nil => cases h
  | cons e es ih =>
    rw [behind] at h
    split at h
    · obtain rfl := Option.some.inj h
      exact Nat.lt_succ_self _
    · exact (ih h).trans (Nat.lt_succ_self _)

/-- The entry at a place has one pair of names. -/
theorem behind_inj {p q : Pair} {es : List CbEntry} {k : ℕ} (hp : behind p es = some k)
    (hq : behind q es = some k) : p = q := by
  induction es with
  | nil => cases hp
  | cons e es ih =>
    rw [behind] at hp hq
    by_cases hep : e.pair = p
    · rw [if_pos hep, Option.some.injEq] at hp
      by_cases heq : e.pair = q
      · exact hep.symm.trans heq
      · rw [if_neg heq] at hq
        exact absurd hp (behind_lt hq).ne'
    · rw [if_neg hep] at hp
      by_cases heq : e.pair = q
      · rw [if_pos heq, Option.some.injEq] at hq
        exact absurd hq (behind_lt hp).ne'
      · rw [if_neg heq] at hq
        exact ih hp hq

theorem behind_changeFirst (p q : Pair) {f : CbEntry → CbEntry} (hf : KeepsPair f)
    (es : List CbEntry) : behind q (changeFirst p f es) = behind q es := by
  have hlength : ∀ es, (changeFirst p f es).length = es.length := by
    intro es
    induction es with
    | nil => rfl
    | cons e es ih =>
      rw [changeFirst]
      split
      · rfl
      · rw [List.length_cons, List.length_cons, ih]
  induction es with
  | nil => rfl
  | cons e es ih =>
    rw [changeFirst]
    split
    · simp only [behind, hf e]
    · simp only [behind, hlength, ih]

theorem found_inj {cb : Breaker} {p q : Pair} {place : Place} (hp : found cb p = some place)
    (hq : found cb q = some place) : p = q := by
  obtain ⟨k, hk, rfl⟩ := Option.map_eq_some_iff.mp hp
  obtain ⟨k', hk', heq⟩ := Option.map_eq_some_iff.mp hq
  obtain ⟨hhash, rfl⟩ := Prod.mk.inj heq
  rw [hhash] at hk'
  exact behind_inj hk hk'

theorem found_eq_none {cb : Breaker} {p : Pair} : found cb p = none ↔ findEntry cb p = none := by
  rw [found, Option.map_eq_none_iff, behind_eq_none]
  rfl

theorem found_onEntry (cb : Breaker) (p q : Pair) {f : CbEntry → CbEntry} (hf : KeepsPair f) :
    found (onEntry cb p f) q = found cb q := by
  simp only [found, onEntry]
  by_cases hb : hashKey q = hashKey p
  · rw [hb, Function.update_self, behind_changeFirst p q hf]
  · rw [Function.update_of_ne hb]

/-- An entry that is made stays where it is put. -/
theorem found_onEntryOrNew_self (cb : Breaker) {p : Pair} (hp : Fits p) {f : CbEntry → CbEntry}
    (hf : KeepsPair f) : found (onEntryOrNew cb p f) p = some (foundOrMade cb p) := by
  unfold onEntryOrNew foundOrMade
  cases hfind : findEntry cb p with
  | some e =>
    have hsome : found cb p ≠ none := fun hnone => by
      rw [found_eq_none.mp hnone] at hfind
      cases hfind
    obtain ⟨place, hplace⟩ := Option.ne_none_iff_exists'.mp hsome
    dsimp only
    rw [found_onEntry cb p p hf, hplace]
    rfl
  | none =>
    have hnew : (f (newEntry p)).pair = p := (hf _).trans hp
    rw [found_eq_none.mpr hfind]
    simp only [found, Function.update_self, behind, if_pos hnew]
    rfl

theorem found_onEntryOrNew_ne (cb : Breaker) {p q : Pair} (hp : Fits p) (hpq : p ≠ q)
    {f : CbEntry → CbEntry} (hf : KeepsPair f) : found (onEntryOrNew cb p f) q = found cb q := by
  unfold onEntryOrNew
  cases hfind : findEntry cb p with
  | some e => exact found_onEntry cb p q hf
  | none =>
    have hmade : (f (newEntry p)).pair = p := (hf _).trans hp
    have hnew : (f (newEntry p)).pair ≠ q := fun h => hpq (hmade.symm.trans h)
    simp only [found]
    by_cases hb : hashKey q = hashKey p
    · rw [hb, Function.update_self, behind, if_neg hnew]
    · rw [Function.update_of_ne hb]

/-- What an operation does: it looks an entry up and changes it, it makes it if there is none, or
it leaves all entries as they are. -/
inductive Does (cb : Breaker) (event : ℤ × Act) : Prop where
  | looksUp (p : Pair) (f : CbEntry → CbEntry) (pair : event.2.pair = some p) (keeps : KeepsPair f)
      (next : step cb event = onEntry cb p f) (reaches : reached cb event.2 = found cb p)
  | makes (p : Pair) (f : CbEntry → CbEntry) (pair : event.2.pair = some p) (keeps : KeepsPair f)
      (next : step cb event = onEntryOrNew cb p f)
      (reaches : reached cb event.2 = some (foundOrMade cb p))
  | leaves (buckets : (step cb event).buckets = cb.buckets)
      (reaches : reached cb event.2 = none ∨ ∃ p, event.2.pair = some p ∧
        reached cb event.2 = found cb p)

theorem step_does (cb : Breaker) (event : ℤ × Act) : Does cb event := by
  obtain ⟨now, act⟩ := event
  cases act with
  | op o =>
    cases o with
    | allow p => exact .makes p _ rfl (allowEntry_pair now) rfl rfl
    | success p => exact .looksUp p _ rfl successEntry_pair rfl rfl
    | failure p httpStatus =>
      by_cases hcounts : countsAsFailure httpStatus = true
      · exact .makes p _ rfl (failureEntry_pair cb.failureThreshold cb.cooloffSec now)
          (if_pos hcounts) (if_pos hcounts)
      · have hstep : step cb (now, .op (.failure p httpStatus)) = cb := if_neg hcounts
        exact .leaves (congrArg Breaker.buckets hstep) (Or.inl (if_neg hcounts))
    | slaSample p s =>
      cases hcfg : cb.slaConfigs.find? fun cfg => cfg.model = p.model with
      | none =>
        refine .leaves ?_ (Or.inl ?_)
        · simp only [step, CircuitBreaker.step, cbRecordSlaSample, hcfg]
        · simp only [reached, hcfg, Option.map_none]
      | some cfg =>
        refine .makes p _ rfl (slaSampleEntry_pair cfg now s) ?_ ?_
        · simp only [step, CircuitBreaker.step, cbRecordSlaSample, hcfg]
        · simp only [reached, hcfg, Option.map_some]
    | query p => exact .looksUp p _ rfl (updateStateOnTime_pair now) rfl rfl
  | override p newState =>
    exact .makes p _ rfl (overrideEntry_pair cb.cooloffSec now newState) rfl rfl
  | avgTtft p => exact .leaves rfl (Or.inr ⟨p, rfl, rfl⟩)
  | configure model l =>
    refine .leaves ?_ (Or.inl rfl)
    simp only [step, cbConfigureSla]
    split
    · rfl
    · rfl

/-- Pairs whose names fit are kept apart. -/
theorem findEntry_step_ne (cb : Breaker) {event : ℤ × Act}
    (hfits : ∀ p, event.2.pair = some p → Fits p) {q : Pair} (hq : event.2.pair ≠ some q) :
    findEntry (step cb event) q = findEntry cb q := by
  cases step_does cb event with
  | looksUp p f pair keeps next reaches =>
    have hpq : p ≠ q := fun h => hq (h ▸ pair)
    rw [next, findEntry_onEntry_ne cb hpq keeps]
  | makes p f pair keeps next reaches =>
    have hpq : p ≠ q := fun h => hq (h ▸ pair)
    have hstored : storedPair p ≠ q := fun h => hpq ((hfits p pair).symm.trans h)
    rw [next, findEntry_onEntryOrNew_ne cb hpq hstored keeps]
  | leaves buckets reaches => rw [findEntry, findEntry, buckets]

/-- What a lookup finds it finds ever after. -/
theorem found_step {cb : Breaker} {event : ℤ × Act} (hfits : ∀ p, event.2.pair = some p → Fits p)
    {q : Pair} {place : Place} (h : found cb q = some place) :
    found (step cb event) q = some place := by
  cases step_does cb event with
  | looksUp p f pair keeps next reaches => rw [next, found_onEntry cb p q keeps, h]
  | makes p f pair keeps next reaches =>
    rw [next]
    by_cases hpq : p = q
    · subst hpq
      rw [found_onEntryOrNew_self cb (hfits p pair) keeps, foundOrMade, h, Option.getD_some]
    · rw [found_onEntryOrNew_ne cb (hfits p pair) hpq keeps, h]
  | leaves buckets reaches => rw [found, buckets, ← found, h]

/-- What an operation has reached is found next. -/
theorem found_step_reached {cb : Breaker} {event : ℤ × Act} {p : Pair} (hp : Fits p)
    (hpair : event.2.pair = some p) {place : Place} (h : reached cb event.2 = some place) :
    found (step cb event) p = some place := by
  have hsame : ∀ q, event.2.pair = some q → q = p := fun q hq =>
    Option.some.inj (hq.symm.trans hpair)
  cases step_does cb event with
  | looksUp q f pair keeps next reaches =>
    obtain rfl := hsame q pair
    rw [next, found_onEntry cb q q keeps, ← reaches, h]
  | makes q f pair keeps next reaches =>
    obtain rfl := hsame q pair
    rw [next, found_onEntryOrNew_self cb hp keeps, ← reaches, h]
  | leaves buckets reaches =>
    rcases reaches with hnone | ⟨q, hq, hfound⟩
    · rw [hnone] at h
      cases h
    · obtain rfl := hsame q hq
      rw [found, buckets, ← found, ← hfound, h]

/-- The entry has failed so often, or is open, or half open. -/
def Near (k : ℕ) (e : CbEntry) : Prop :=
  e.state = .opened ∨ e.state = .halfOpen ∨ k ≤ e.consecutiveFailures

theorem Near.updateStateOnTime {k : ℕ} {e : CbEntry} (h : Near k e) (now : ℤ) :
    Near k (updateStateOnTime now e) := by
  unfold CircuitBreaker.updateStateOnTime
  split
  · exact Or.inr (Or.inl rfl)
  · exact h

theorem Near.allow {k : ℕ} {e : CbEntry} (h : Near k e) (now : ℤ) :
    Near k (allowEntry now e).1 := by
  have hnow := h.updateStateOnTime now
  unfold allowEntry allowNow
  split
  · exact hnow
  · exact hnow
  · split
    · exact hnow
    · exact hnow
  · exact hnow

theorem Near.judgeSla {k : ℕ} {e : CbEntry} (h : Near k e) (cfg : ModelSlaCfg) :
    Near k (judgeSla cfg e) := by
  unfold CircuitBreaker.judgeSla
  split
  · rename_i hstate
    have hcount : k ≤ e.consecutiveFailures := by simpa [Near, hstate] using h
    split
    · exact Or.inr (Or.inr hcount)
    · exact h
  · rename_i hstate
    have hcount : k ≤ e.consecutiveFailures := by simpa [Near, hstate] using h
    split
    · exact Or.inr (Or.inr hcount)
    · exact h
  · exact h

theorem Near.slaSample {k : ℕ} {e : CbEntry} (h : Near k e) (cfg : ModelSlaCfg) (now : ℤ)
    (s : SlaSample) : Near k (slaSampleEntry cfg now s e) := by
  have hadd : Near k (addSample cfg s (CircuitBreaker.updateStateOnTime now e)) :=
    h.updateStateOnTime now
  exact hadd.judgeSla cfg

/-- After one more failure the entry is open, or they are not enough. -/
theorem Near.failureNow {k : ℕ} {e : CbEntry} (h : Near k e) (threshold cooloffSec : ℕ) (now : ℤ) :
    (failureNow threshold cooloffSec now e).state = .opened ∨
      k + 1 ≤ (failureNow threshold cooloffSec now e).consecutiveFailures ∧
        (failureNow threshold cooloffSec now e).consecutiveFailures < threshold := by
  unfold CircuitBreaker.failureNow
  split
  · exact Or.inl rfl
  · rename_i hopen
    exact Or.inl hopen
  · rename_i hhalf hopen
    have hcount : k ≤ e.consecutiveFailures := by
      rcases h with h | h | h
      · exact absurd h hopen
      · exact absurd h hhalf
      · exact h
    dsimp only
    split
    · exact Or.inl rfl
    · rename_i hfew
      exact Or.inr ⟨Nat.succ_le_succ hcount, not_le.mp hfew⟩

theorem Near.failure {k : ℕ} {e : CbEntry} (h : Near k e) (threshold cooloffSec : ℕ) (now : ℤ) :
    (failureEntry threshold cooloffSec now e).state = .opened ∨
      k + 1 ≤ (failureEntry threshold cooloffSec now e).consecutiveFailures ∧
        (failureEntry threshold cooloffSec now e).consecutiveFailures < threshold :=
  (h.updateStateOnTime now).failureNow threshold cooloffSec now

theorem failureThreshold_step (cb : Breaker) (event : ℤ × Act) :
    (step cb event).failureThreshold = cb.failureThreshold := by
  have hmake : ∀ p f, (onEntryOrNew cb p f).failureThreshold = cb.failureThreshold := by
    intro p f
    unfold onEntryOrNew
    split
    · rfl
    · rfl
  obtain ⟨now, act⟩ := event
  cases act with
  | op o =>
    cases o with
    | allow p => exact hmake p _
    | success p => rfl
    | failure p httpStatus =>
      simp only [step, CircuitBreaker.step, cbRecordFailure]
      split
      · exact hmake p _
      · rfl
    | slaSample p s =>
      simp only [step, CircuitBreaker.step, cbRecordSlaSample]
      split
      · rfl
      · exact hmake p _
    | query p => rfl
  | override p newState => exact hmake p _
  | avgTtft p => rfl
  | configure model l =>
    simp only [step, cbConfigureSla]
    split
    · rfl
    · rfl

theorem failureThreshold_run (cb : Breaker) (events : List (ℤ × Act)) :
    (run cb events).failureThreshold = cb.failureThreshold := by
  induction events generalizing cb with
  | nil => rfl
  | cons event events ih => exact (ih (step cb event)).trans (failureThreshold_step cb event)

theorem entryOrNew_onEntry (cb : Breaker) (p : Pair) {f : CbEntry → CbEntry} (hf : KeepsPair f) :
    entryOrNew (onEntry cb p f) p = f (entryOrNew cb p) ∨
      entryOrNew (onEntry cb p f) p = entryOrNew cb p := by
  unfold entryOrNew
  rw [findEntry_onEntry cb p hf]
  cases findEntry cb p with
  | none => exact Or.inr rfl
  | some e => exact Or.inl rfl

/-- Only a success or an operator takes failures back. -/
theorem near_step {cb : Breaker} {p : Pair} (hp : Fits p) {event : ℤ × Act}
    (hfits : ∀ q, event.2.pair = some q → Fits q) (hunbroken : endsFailures p event.2 = false)
    {k : ℕ} (h : Near k (entryOrNew cb p)) : Near k (entryOrNew (step cb event) p) := by
  by_cases hpair : event.2.pair = some p
  · obtain ⟨now, act⟩ := event
    cases act with
    | op o =>
      obtain rfl : o.pair = p := Option.some.inj hpair
      cases o with
      | allow q =>
        have hstep := entryOrNew_onEntryOrNew cb hp (allowEntry_pair now)
        exact hstep ▸ h.allow now
      | success q => simp [endsFailures, Op.pair] at hunbroken
      | failure q httpStatus =>
        by_cases hcounts : countsAsFailure httpStatus = true
        · have hstep : step cb (now, .op (.failure q httpStatus)) =
              onEntryOrNew cb q (failureEntry cb.failureThreshold cb.cooloffSec now) :=
            if_pos hcounts
          rw [hstep]
          have hentry := entryOrNew_onEntryOrNew cb hp
            (failureEntry_pair cb.failureThreshold cb.cooloffSec now)
          simp only [Op.pair] at hentry h ⊢
          rw [hentry]
          rcases h.failure cb.failureThreshold cb.cooloffSec now with hopen | ⟨hcount, -⟩
          · exact Or.inl hopen
          · exact Or.inr (Or.inr (by omega))
        · have hstep : step cb (now, .op (.failure q httpStatus)) = cb := if_neg hcounts
          rw [hstep]
          exact h
      | slaSample q s =>
        simp only [step, CircuitBreaker.step, cbRecordSlaSample, Op.pair]
        split
        · exact h
        · rename_i cfg _
          have hstep := entryOrNew_onEntryOrNew cb hp (slaSampleEntry_pair cfg now s)
          exact hstep ▸ h.slaSample cfg now s
      | query q =>
        rcases entryOrNew_onEntry cb q (updateStateOnTime_pair now) with hstep | hstep
        · exact hstep ▸ h.updateStateOnTime now
        · exact hstep ▸ h
    | override q newState =>
      obtain rfl : q = p := Option.some.inj hpair
      simp [endsFailures] at hunbroken
    | avgTtft q => exact h
    | configure model l => cases hpair
  · rw [entryOrNew, findEntry_step_ne cb hfits hpair]
    exact h

theorem run_append (cb : Breaker) (events events' : List (ℤ × Act)) :
    run cb (events ++ events') = run (run cb events) events' := List.foldl_append

theorem found_run {cb : Breaker} {events : List (ℤ × Act)}
    (hfits : ∀ event ∈ events, ∀ p, event.2.pair = some p → Fits p) {q : Pair} {place : Place}
    (h : found cb q = some place) : found (run cb events) q = some place := by
  induction events generalizing cb with
  | nil => exact h
  | cons event events ih =>
    have hnext := found_step (hfits event List.mem_cons_self) h
    exact ih (fun e he => hfits e (List.mem_cons_of_mem event he)) hnext

theorem pair_of_failureOf {p : Pair} {act : Act} (h : failureOf p act = true) :
    act.pair = some p := by
  unfold failureOf at h
  split at h
  · rw [Bool.and_eq_true, decide_eq_true_eq] at h
    exact congrArg some h.1
  · cases h

/-- A counted failure of a pair finds its entry and counts. -/
theorem findEntry_failure {cb : Breaker} {p : Pair} (hp : Fits p) {event : ℤ × Act}
    (hfailure : failureOf p event.2 = true) : findEntry (step cb event) p =
      some (failureEntry cb.failureThreshold cb.cooloffSec event.1 (entryOrNew cb p)) := by
  obtain ⟨now, act⟩ := event
  unfold failureOf at hfailure
  split at hfailure
  · rename_i q httpStatus hact
    obtain rfl : act = _ := hact
    rw [Bool.and_eq_true, decide_eq_true_eq] at hfailure
    obtain ⟨rfl, hcounts⟩ := hfailure
    have hstep : step cb (now, .op (.failure q httpStatus)) =
        onEntryOrNew cb q (failureEntry cb.failureThreshold cb.cooloffSec now) := if_pos hcounts
    rw [hstep]
    exact findEntry_onEntryOrNew cb hp (failureEntry_pair cb.failureThreshold cb.cooloffSec now)
  · cases hfailure

/-- The failures of a run without success count. -/
theorem near_run {cb : Breaker} {p : Pair} (hp : Fits p) {events : List (ℤ × Act)}
    (hfits : ∀ event ∈ events, ∀ q, event.2.pair = some q → Fits q)
    (hunbroken : ∀ event ∈ events, endsFailures p event.2 = false) {k : ℕ}
    (h : Near k (entryOrNew cb p)) :
    Near (k + events.countP fun event => failureOf p event.2) (entryOrNew (run cb events) p) := by
  induction events generalizing cb k with
  | nil => exact h
  | cons event events ih =>
    have hfits' := fun e he => hfits e (List.mem_cons_of_mem event he)
    have hunbroken' := fun e he => hunbroken e (List.mem_cons_of_mem event he)
    by_cases hfailure : failureOf p event.2 = true
    · have hnext : Near (k + 1) (entryOrNew (step cb event) p) := by
        rw [entryOrNew, findEntry_failure hp hfailure, Option.getD_some]
        rcases h.failure cb.failureThreshold cb.cooloffSec event.1 with hopen | ⟨hcount, -⟩
        · exact Or.inl hopen
        · exact Or.inr (Or.inr hcount)
      have hrun := ih hfits' hunbroken' hnext
      have hcount : (event :: events).countP (fun event => failureOf p event.2) =
          events.countP (fun event => failureOf p event.2) + 1 := List.countP_cons_of_pos hfailure
      rw [hcount, Nat.add_comm _ 1, ← Nat.add_assoc]
      exact hrun
    · have hnext := near_step hp (hfits event List.mem_cons_self)
        (hunbroken event List.mem_cons_self) h
      have hcount : (event :: events).countP (fun event => failureOf p event.2) =
          events.countP fun event => failureOf p event.2 := List.countP_cons_of_neg hfailure
      rw [hcount]
      exact ih hfits' hunbroken' hnext

theorem opened_of_streak {cb : Breaker} {p : Pair} (hp : Fits p) {streak : List (ℤ × Act)}
    (hfits : ∀ event ∈ streak, ∀ q, event.2.pair = some q → Fits q)
    (h : Streak cb.failureThreshold p streak) :
    ∃ e, findEntry (run cb streak) p = some e ∧ e.state = .opened := by
  obtain ⟨henough, hunbroken, event, hlast, hfailure⟩ := h
  obtain ⟨init, rfl⟩ : ∃ init, streak = init ++ [event] := by
    obtain ⟨init, hinit⟩ := List.getLast?_eq_some_iff.mp hlast
    exact ⟨init, hinit⟩
  have hmem : ∀ e ∈ init, e ∈ init ++ [event] := fun e he => List.mem_append_left _ he
  have hnear := near_run hp (fun e he => hfits e (hmem e he)) (fun e he => hunbroken e (hmem e he))
    (show Near 0 (entryOrNew cb p) from Or.inr (Or.inr (Nat.zero_le _)))
  refine ⟨failureEntry cb.failureThreshold (run cb init).cooloffSec event.1
    (entryOrNew (run cb init) p), ?_, ?_⟩
  · rw [run_append, ← failureThreshold_run cb init]
    exact findEntry_failure hp hfailure
  · rw [List.countP_append, List.countP_singleton, if_pos hfailure] at henough
    rcases hnear.failure cb.failureThreshold (run cb init).cooloffSec event.1 with hopen | hfew
    · exact hopen
    · omega

/-- Every run on pairs whose names fit keeps their entries apart. -/
theorem identified_of_fits {pairs : Set Pair} (hpairs : ∀ p ∈ pairs, Fits p) (cb : Breaker)
    {events : List (ℤ × Act)} (hon : OnPairs pairs events) : Identified cb events := by
  have hfits : ∀ event ∈ events, ∀ p, event.2.pair = some p → Fits p := fun event he p hp =>
    hpairs p (hon event he p hp)
  have hkept : ∀ before event rest p place, events = before ++ event :: rest →
      event.2.pair = some p → reached (run cb before) event.2 = some place →
      ∀ between, (∀ e ∈ between, e ∈ rest) →
        found (run cb (before ++ event :: between)) p = some place := by
    intro before event rest p place heq hpair hreached between hbetween
    subst heq
    have hp := hfits event (by simp) p hpair
    have hnext := found_step_reached hp hpair hreached
    have hrun := @found_run _ between (fun e he => hfits e (by simp [hbetween e he])) p place hnext
    rw [run_append]
    exact hrun
  refine ⟨?_, ?_, ?_, ?_⟩
  · intro before event between after p place heq hpair hreached
    rw [List.append_assoc, List.cons_append] at heq
    exact hkept before event _ p place heq hpair hreached between
      fun e he => List.mem_append_left _ he
  · intro before event after before' event' after' p q place heq heq' hpair hpair' hpq hreached
      hreached'
    have hfound := hkept before event after p place heq hpair hreached after fun e he => he
    have hfound' := hkept before' event' after' q place heq' hpair' hreached' after' fun e he => he
    rw [← heq] at hfound
    rw [← heq'] at hfound'
    exact hpq (found_inj hfound hfound')
  · intro before streak after p heq hstreak
    obtain ⟨event, hlast, hfailure⟩ := hstreak.last
    have hmem : event ∈ events := by
      rw [heq]
      exact List.mem_append_left _ (List.mem_append_right _ (List.mem_of_getLast? hlast))
    have hp : Fits p := hfits event hmem p (pair_of_failureOf hfailure)
    rw [run_append]
    refine opened_of_streak hp (fun e he => hfits e ?_) ?_
    · rw [heq]
      exact List.mem_append_left _ (List.mem_append_right _ he)
    · rw [failureThreshold_run]
      exact hstreak
  · intro before event after p q heq hqp hfailure
    have hpair := pair_of_failureOf hfailure
    rw [run_append]
    apply findEntry_step_ne
    · intro r hr
      exact hfits event (by simp [heq]) r hr
    · rw [hpair]
      exact fun h => hqp (Option.some.inj h).symm

/-- A pair whose names are cut does not find the entry that was made for it. -/
theorem findEntry_onEntryOrNew_cut (cb : Breaker) {p : Pair} (hp : ¬Fits p)
    (hnew : findEntry cb p = none) {f : CbEntry → CbEntry} (hf : KeepsPair f) :
    findEntry (onEntryOrNew cb p f) p = none := by
  have hmade : (f (newEntry p)).pair ≠ p := by
    rw [hf]
    exact hp
  unfold onEntryOrNew
  rw [hnew]
  simp only [findEntry, Function.update_self]
  rw [List.find?_cons_of_neg (by simpa using hmade)]
  exact hnew

theorem not_identified {p : Pair} (hp : ¬Fits p) (cb : Breaker) (hnew : findEntry cb p = none)
    (now : ℤ) : ¬Identified cb [(now, .op (.allow p))] := by
  intro h
  have hfound := h.same [] (now, .op (.allow p)) [] [] p _ rfl rfl rfl
  have hnone : found (step cb (now, .op (.allow p))) p = none := by
    rw [found_eq_none]
    exact findEntry_onEntryOrNew_cut cb hp hnew (allowEntry_pair now)
  rw [show run cb ([] ++ (now, .op (.allow p)) :: []) = step cb (now, .op (.allow p)) from rfl,
    hnone] at hfound
  cases hfound

/-- Exactly the pairs whose names fit keep their entries to themselves in every run. -/
theorem identified_iff (pairs : Set Pair) :
    (∀ (failureThreshold cooloffSec : ℕ) (h : 0 < failureThreshold) (events : List (ℤ × Act)),
      OnPairs pairs events →
        Identified (Breaker.create failureThreshold cooloffSec [] h) events) ↔
      ∀ p ∈ pairs, Fits p := by
  constructor
  · intro h p hmem
    by_contra hp
    have hon : OnPairs pairs [(0, .op (.allow p))] := by
      intro event he q hq
      obtain rfl := List.mem_singleton.mp he
      obtain rfl := Option.some.inj hq
      exact hmem
    exact not_identified hp (Breaker.create 3 30 [] (by decide)) rfl 0 (h 3 30 (by decide) _ hon)
  · intro hpairs failureThreshold cooloffSec h events hon
    exact identified_of_fits hpairs _ hon

/-- A model name of 128 letters. -/
def longPair : Pair := ⟨List.replicate 128 'm', ascii "https://a"⟩

def threeFailures : List (ℤ × Act) :=
  [(0, .op (.failure longPair 500)), (1, .op (.failure longPair 500)),
    (2, .op (.failure longPair 500))]

/-- Three failures leave three entries, and none of them is open. -/
theorem not_identified_longPair :
    ¬Identified (Breaker.create 3 30 [] (by decide)) threeFailures := by
  intro h
  have hstreak : Streak 3 longPair threeFailures :=
    ⟨by decide +kernel, by decide +kernel, _, rfl, by decide +kernel⟩
  obtain ⟨e, he, -⟩ := h.trips [] threeFailures [] longPair rfl hstreak
  have hnone : (findEntry (run (Breaker.create 3 30 [] (by decide)) ([] ++ threeFailures))
      longPair).isSome = false := by decide +kernel
  rw [he] at hnone
  cases hnone

end Aigate.CircuitBreakerIdentity
