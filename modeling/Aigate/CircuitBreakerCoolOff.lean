import Aigate.CircuitBreaker

/-!
# The cool-off of the local circuit breaker

An entry that opens stays open until its deadline, whatever arrives meanwhile, except a
late success: it clears the deadline of the open entry, so that the next request probes at
once.
-/
namespace Aigate.CircuitBreakerCoolOff
open CircuitBreaker

/-- The entry that was made for a pair, under the names that it stores. -/
def madeFor (cb : Breaker) (p : Pair) : Option CbEntry :=
  (cb.buckets (hashKey p)).find? fun e => e.pair = storedPair p

def IsOpen (cb : Breaker) (p : Pair) : Prop := ∃ e, madeFor cb p = some e ∧ e.state = .opened

/-- A step opens the entry of a pair, which was not open, or whose cool-off was over when
another failure arrived. -/
def Opens (cb : Breaker) (event : ℤ × Op) (p : Pair) : Prop :=
  IsOpen (step cb event) p ∧ (¬IsOpen cb p ∨ ∃ httpStatus e, event.2 = .failure p httpStatus ∧
    countsAsFailure httpStatus = true ∧ madeFor cb p = some e ∧ e.openUntil ≤ event.1)

/-- No request for the pair is allowed within the cool-off of an opening. -/
def CoolOffRespected (p : Pair) (cb : Breaker) (events : List (ℤ × Op)) : Prop :=
  ∀ before event between s after,
    events = before ++ event :: between ++ (s, .allow p) :: after →
    Opens (run cb before) event p → s < event.1 + cb.cooloffSec →
    (cbAllowRequest (run cb (before ++ event :: between)) s p).2 = false

/-- The names of the pair fit an entry, those of other pairs do not become its own when they
are cut, and a success does not arrive while the entry is open and cooling off. -/
structure StepOk (p : Pair) (cb : Breaker) (event : ℤ × Op) : Prop where
  fits : event.2.pair = p → Fits p
  apart : event.2.pair ≠ p → storedPair event.2.pair ≠ p
  success : event.2 = .success p → ∀ e, findEntry cb p = some e → e.state = .opened →
    e.openUntil ≤ event.1

def RunOk (p : Pair) (cb : Breaker) : List (ℤ × Op) → Prop
  | [] => True
  | event :: events => StepOk p cb event ∧ RunOk p (step cb event) events

/-- The clock does not go back. -/
def Monotone (events : List (ℤ × Op)) : Prop := events.Pairwise fun a b => a.1 ≤ b.1

instance (events : List (ℤ × Op)) : Decidable (Monotone events) :=
  inferInstanceAs (Decidable (List.Pairwise _ _))

/-- The entry is open with this deadline. -/
def Cooling (cb : Breaker) (p : Pair) (deadline : ℤ) : Prop :=
  ∃ e, findEntry cb p = some e ∧ e.state = .opened ∧ e.openUntil = deadline

theorem madeFor_eq {p : Pair} (hp : Fits p) (cb : Breaker) : madeFor cb p = findEntry cb p := by
  unfold madeFor findEntry
  rw [hp]

theorem updateStateOnTime_cooling {now : ℤ} {e : CbEntry} (h : now < e.openUntil) :
    updateStateOnTime now e = e := if_neg fun hexpired => not_lt.mpr hexpired.2 h

theorem updateStateOnTime_opened {now : ℤ} {e : CbEntry}
    (h : (updateStateOnTime now e).state = .opened) :
    e.state = .opened ∧ now < e.openUntil ∧ updateStateOnTime now e = e := by
  by_cases hexpired : e.state = .opened ∧ e.openUntil ≤ now
  · rw [updateStateOnTime, if_pos hexpired] at h
    cases h
  · have hsame : updateStateOnTime now e = e := if_neg hexpired
    rw [hsame] at h
    exact ⟨h, not_le.mp fun hle => hexpired ⟨h, hle⟩, hsame⟩

theorem allowEntry_state {now : ℤ} {e : CbEntry} :
    (allowEntry now e).1.state = (updateStateOnTime now e).state := by
  unfold allowEntry allowNow
  split
  · rfl
  · rfl
  · split
    · rfl
    · rfl
  · rfl

theorem allowEntry_cooling {now : ℤ} {e : CbEntry} (hopen : e.state = .opened)
    (h : now < e.openUntil) : allowEntry now e = (e, false) := by
  rw [allowEntry, updateStateOnTime_cooling h]
  simp only [allowNow, hopen]

theorem failureEntry_cooling {threshold cooloffSec : ℕ} {now : ℤ} {e : CbEntry}
    (hopen : e.state = .opened) (h : now < e.openUntil) :
    failureEntry threshold cooloffSec now e = e := by
  rw [failureEntry, updateStateOnTime_cooling h]
  simp only [failureNow, hopen]

theorem slaSampleEntry_cooling {cfg : ModelSlaCfg} {now : ℤ} {s : SlaSample} {e : CbEntry}
    (hopen : e.state = .opened) (h : now < e.openUntil) :
    (slaSampleEntry cfg now s e).state = .opened ∧
      (slaSampleEntry cfg now s e).openUntil = e.openUntil := by
  have hadd : (addSample cfg s e).state = .opened := hopen
  rw [slaSampleEntry, updateStateOnTime_cooling h]
  simp only [judgeSla, hadd]
  exact ⟨trivial, rfl⟩

/-- A latency sample opens nothing. -/
theorem slaSampleEntry_opened {cfg : ModelSlaCfg} {now : ℤ} {s : SlaSample} {e : CbEntry}
    (h : (slaSampleEntry cfg now s e).state = .opened) : e.state = .opened := by
  have hadd : (addSample cfg s (updateStateOnTime now e)).state =
    (updateStateOnTime now e).state := rfl
  have hjudge : ∀ u, (judgeSla cfg u).state = .opened → u.state = .opened := by
    intro u hu
    unfold judgeSla at hu
    split at hu
    · split at hu
      · cases hu
      · exact hu
    · split at hu
      · cases hu
      · exact hu
    · exact hu
  exact (updateStateOnTime_opened (hadd ▸ hjudge _ h)).1

/-- A failure that leaves the entry open has opened it now, or found it cooling off. -/
theorem failureEntry_opened {threshold cooloffSec : ℕ} {now : ℤ} {e : CbEntry}
    (h : (failureEntry threshold cooloffSec now e).state = .opened) :
    (failureEntry threshold cooloffSec now e).openUntil = now + cooloffSec ∨
      e.state = .opened ∧ now < e.openUntil := by
  cases hstate : (updateStateOnTime now e).state with
  | opened =>
    obtain ⟨hopen, hlt, -⟩ := updateStateOnTime_opened hstate
    exact Or.inr ⟨hopen, hlt⟩
  | halfOpen =>
    left
    simp only [failureEntry, failureNow, hstate]
    rfl
  | closed =>
    left
    simp only [failureEntry, failureNow, hstate] at h ⊢
    split at h
    · rw [if_pos ‹_›]
      rfl
    · cases h
  | slaDegraded =>
    left
    simp only [failureEntry, failureNow, hstate] at h ⊢
    split at h
    · rw [if_pos ‹_›]
      rfl
    · cases h

theorem step_cooloffSec (cb : Breaker) (event : ℤ × Op) :
    (step cb event).cooloffSec = cb.cooloffSec := by
  have hnew : ∀ p f, (onEntryOrNew cb p f).cooloffSec = cb.cooloffSec := by
    intro p f
    unfold onEntryOrNew
    split
    · rfl
    · rfl
  obtain ⟨now, op⟩ := event
  cases op with
  | allow p => exact hnew p _
  | success p => rfl
  | failure p httpStatus =>
    simp only [step, cbRecordFailure]
    split
    · exact hnew p _
    · rfl
  | slaSample p s =>
    simp only [step, cbRecordSlaSample]
    split
    · rfl
    · exact hnew p _
  | query p => rfl

theorem run_cooloffSec (cb : Breaker) (events : List (ℤ × Op)) :
    (run cb events).cooloffSec = cb.cooloffSec := by
  induction events generalizing cb with
  | nil => rfl
  | cons event events ih => exact (ih (step cb event)).trans (step_cooloffSec cb event)

/-- An operation on another pair leaves the entry alone. -/
theorem findEntry_step_ne {cb : Breaker} {p : Pair} {event : ℤ × Op} (hne : event.2.pair ≠ p)
    (hok : StepOk p cb event) : findEntry (step cb event) p = findEntry cb p := by
  obtain ⟨now, op⟩ := event
  have hstored := hok.apart hne
  cases op with
  | allow q => exact findEntry_onEntryOrNew_ne cb hne hstored (allowEntry_pair now)
  | success q => exact findEntry_onEntry_ne cb hne successEntry_pair
  | failure q httpStatus =>
    simp only [step, cbRecordFailure]
    split
    · exact findEntry_onEntryOrNew_ne cb hne hstored (failureEntry_pair _ _ now)
    · rfl
  | slaSample q s =>
    simp only [step, cbRecordSlaSample]
    split
    · rfl
    · exact findEntry_onEntryOrNew_ne cb hne hstored (slaSampleEntry_pair _ now s)
  | query q => exact findEntry_onEntry_ne cb hne (updateStateOnTime_pair now)

theorem entryOrNew_of_some {cb : Breaker} {p : Pair} {e : CbEntry}
    (h : findEntry cb p = some e) : entryOrNew cb p = e := by
  rw [entryOrNew, h, Option.getD_some]

/-- An entry that cools off goes on doing so. -/
theorem Cooling.step {cb : Breaker} {p : Pair} {deadline : ℤ} (h : Cooling cb p deadline)
    {event : ℤ × Op} (hok : StepOk p cb event) (hlt : event.1 < deadline) :
    Cooling (step cb event) p deadline := by
  by_cases hne : event.2.pair = p
  · obtain ⟨now, op⟩ := event
    obtain ⟨e, he, hopen, hdeadline⟩ := h
    have hfits := hok.fits hne
    have hcool : now < e.openUntil := hdeadline ▸ hlt
    have hentry := entryOrNew_of_some he
    cases op with
    | allow q =>
      obtain rfl : q = p := hne
      refine ⟨e, ?_, hopen, hdeadline⟩
      refine (findEntry_onEntryOrNew cb hfits (allowEntry_pair now)).trans ?_
      rw [hentry, allowEntry_cooling hopen hcool]
    | success q =>
      obtain rfl : q = p := hne
      exact absurd (hok.success rfl e he hopen) (not_le.mpr hcool)
    | failure q httpStatus =>
      obtain rfl : q = p := hne
      simp only [CircuitBreaker.step, cbRecordFailure]
      split
      · refine ⟨e, ?_, hopen, hdeadline⟩
        rw [findEntry_onEntryOrNew cb hfits (failureEntry_pair _ _ now), hentry,
          failureEntry_cooling hopen hcool]
      · exact ⟨e, he, hopen, hdeadline⟩
    | slaSample q s =>
      obtain rfl : q = p := hne
      simp only [CircuitBreaker.step, cbRecordSlaSample]
      split
      · exact ⟨e, he, hopen, hdeadline⟩
      · rename_i cfg _
        obtain ⟨hstate, huntil⟩ := @slaSampleEntry_cooling cfg _ s _ hopen hcool
        refine ⟨slaSampleEntry cfg now s e, ?_, hstate, huntil.trans hdeadline⟩
        rw [findEntry_onEntryOrNew cb hfits (slaSampleEntry_pair _ now s), hentry]
    | query q =>
      obtain rfl : q = p := hne
      refine ⟨e, ?_, hopen, hdeadline⟩
      refine (findEntry_onEntry cb q (updateStateOnTime_pair now)).trans ?_
      rw [he, Option.map_some, updateStateOnTime_cooling hcool]
  · obtain ⟨e, he, hrest⟩ := h
    exact ⟨e, (findEntry_step_ne hne hok).trans he, hrest⟩

theorem Cooling.run {cb : Breaker} {p : Pair} {deadline : ℤ} (h : Cooling cb p deadline)
    {events : List (ℤ × Op)} (hok : RunOk p cb events) (hlt : ∀ event ∈ events, event.1 < deadline) :
    Cooling (run cb events) p deadline := by
  induction events generalizing cb with
  | nil => exact h
  | cons event events ih =>
    exact ih (h.step hok.1 (hlt event (List.mem_cons_self ..))) hok.2
      fun e he => hlt e (List.mem_cons_of_mem _ he)

/-- The deadline of an entry that opens is the cool-off from now. -/
theorem Opens.cooling {cb : Breaker} {event : ℤ × Op} {p : Pair} (h : Opens cb event p)
    (hp : Fits p) (hok : StepOk p cb event) :
    Cooling (CircuitBreaker.step cb event) p (event.1 + cb.cooloffSec) := by
  obtain ⟨⟨e', he', hopen'⟩, hbefore⟩ := h
  rw [madeFor_eq hp] at he'
  have hclosed : ∀ e, findEntry cb p = some e → e.state = .opened → event.1 < e.openUntil →
      False := by
    intro e he hopen hlt
    rcases hbefore with hnot | ⟨_, f, -, -, hf, hexpired⟩
    · exact hnot ⟨e, by rw [madeFor_eq hp]; exact he, hopen⟩
    · rw [madeFor_eq hp, he] at hf
      obtain rfl := Option.some.inj hf
      exact absurd hexpired (not_le.mpr hlt)
  have hopened : event.2.pair ≠ p ∨ (∀ httpStatus, countsAsFailure httpStatus = true →
      event.2 ≠ .failure p httpStatus) → ∀ e, findEntry cb p = some e → e.state ≠ .opened := by
    rintro hother e he hopen
    rcases hbefore with hnot | ⟨httpStatus, f, hop, hcounts, -, -⟩
    · exact hnot ⟨e, by rw [madeFor_eq hp]; exact he, hopen⟩
    · rcases hother with hother | hother
      · rw [hop] at hother
        exact hother rfl
      · exact hother httpStatus hcounts hop
  have hnew : ∀ e, entryOrNew cb p = e → e.state = .opened → findEntry cb p = some e := by
    rintro e rfl hopen
    unfold entryOrNew at hopen ⊢
    cases hfind : findEntry cb p with
    | some f => rfl
    | none =>
      rw [hfind] at hopen
      cases hopen
  by_cases hne : event.2.pair = p
  · obtain ⟨now, op⟩ := event
    cases op with
    | allow q =>
      obtain rfl : q = p := hne
      rw [show step cb (now, .allow q) = onEntryOrNew cb q (fun e => (allowEntry now e).1) from rfl,
        findEntry_onEntryOrNew cb hp (allowEntry_pair now)] at he'
      obtain rfl := Option.some.inj he'
      rw [allowEntry_state] at hopen'
      obtain ⟨hopen, -, -⟩ := updateStateOnTime_opened hopen'
      exact absurd hopen (hopened (Or.inr fun _ _ h => by cases h) _ (hnew _ rfl hopen))
    | success q =>
      obtain rfl : q = p := hne
      rw [show step cb (now, .success q) = onEntry cb q successEntry from rfl,
        findEntry_onEntry cb q successEntry_pair] at he'
      obtain ⟨e, he, rfl⟩ := Option.map_eq_some_iff.mp he'
      have hopen : e.state = .opened := by
        simp only [successEntry] at hopen'
        split at hopen'
        · cases hopen'
        · exact hopen'
      exact absurd hopen (hopened (Or.inr fun _ _ h => by cases h) e he)
    | failure q httpStatus =>
      obtain rfl : q = p := hne
      simp only [step, cbRecordFailure] at he' ⊢
      split at he'
      · rw [if_pos ‹_›]
        rw [findEntry_onEntryOrNew cb hp (failureEntry_pair _ _ now)] at he'
        obtain rfl := Option.some.inj he'
        rcases failureEntry_opened hopen' with huntil | ⟨hopen, hlt⟩
        · exact ⟨_, findEntry_onEntryOrNew cb hp (failureEntry_pair _ _ now), hopen', huntil⟩
        · exact absurd hlt fun hlt => hclosed _ (hnew _ rfl hopen) hopen hlt
      · rename_i hclient
        refine absurd hopen' (hopened (Or.inr fun status hcounts h => ?_) e' he')
        cases h
        exact hclient hcounts
    | slaSample q s =>
      obtain rfl : q = p := hne
      simp only [step, cbRecordSlaSample] at he'
      split at he'
      · exact absurd hopen' (hopened (Or.inr fun _ _ h => by cases h) e' he')
      · rw [findEntry_onEntryOrNew cb hp (slaSampleEntry_pair _ now s)] at he'
        obtain rfl := Option.some.inj he'
        have hopen := slaSampleEntry_opened hopen'
        exact absurd hopen (hopened (Or.inr fun _ _ h => by cases h) _ (hnew _ rfl hopen))
    | query q =>
      obtain rfl : q = p := hne
      rw [show step cb (now, .query q) = onEntry cb q (updateStateOnTime now) from rfl,
        findEntry_onEntry cb q (updateStateOnTime_pair now)] at he'
      obtain ⟨e, he, rfl⟩ := Option.map_eq_some_iff.mp he'
      obtain ⟨hopen, -, -⟩ := updateStateOnTime_opened hopen'
      exact absurd hopen (hopened (Or.inr fun _ _ h => by cases h) e he)
  · rw [findEntry_step_ne hne hok] at he'
    exact absurd hopen' (hopened (Or.inl hne) e' he')

theorem runOk_append {p : Pair} {cb : Breaker} (es fs : List (ℤ × Op)) :
    RunOk p cb (es ++ fs) ↔ RunOk p cb es ∧ RunOk p (run cb es) fs := by
  induction es generalizing cb with
  | nil => exact ⟨fun h => ⟨trivial, h⟩, fun h => h.2⟩
  | cons e es ih =>
    have hrun : run cb (e :: es) = run (step cb e) es := rfl
    rw [List.cons_append, RunOk, RunOk, ih, hrun, and_assoc]

theorem run_append (cb : Breaker) (es fs : List (ℤ × Op)) :
    run cb (es ++ fs) = run (run cb es) fs := List.foldl_append

/-- In a run without late successes no request is allowed during a cool-off. -/
theorem coolOff_respected (p : Pair) (cb : Breaker) {events : List (ℤ × Op)}
    (hclock : Monotone events) (hok : RunOk p cb events) : CoolOffRespected p cb events := by
  rintro before event between s after rfl hopens hlt
  rw [List.append_assoc, runOk_append] at hok
  obtain ⟨-, hok⟩ := hok
  rw [List.cons_append] at hok
  obtain ⟨hevent, hrest⟩ := hok
  rw [runOk_append] at hrest
  obtain ⟨hbetween, hallow, -⟩ := hrest
  have hp : Fits p := hallow.fits rfl
  have hcool := hopens.cooling hp hevent
  rw [run_cooloffSec] at hcool
  have hearlier : ∀ e ∈ between, e.1 < event.1 + cb.cooloffSec := by
    intro e he
    have hpair := (List.pairwise_append.mp hclock).2.2 e
      (List.mem_append_right _ (List.mem_cons_of_mem _ he)) (s, .allow p) (List.mem_cons_self ..)
    exact lt_of_le_of_lt hpair hlt
  obtain ⟨e, he, hopen, hdeadline⟩ := hcool.run hbetween hearlier
  have hrun : run cb (before ++ event :: between) =
      run (step (run cb before) event) between := run_append cb before (event :: between)
  rw [hrun, cbAllowRequest]
  dsimp only
  rw [entryOrNew_of_some he, allowEntry_cooling hopen (hdeadline ▸ hlt)]

/-- A pair with short names. -/
def samplePair : Pair := ⟨Text.ascii "gpt-4o", Text.ascii "https://a"⟩

/-- One failure opens for thirty seconds. -/
def sampleBreaker : Breaker := Breaker.create 1 30 [] (by decide)

theorem coolOff_respected_sample : CoolOffRespected samplePair sampleBreaker
    [(10, .failure samplePair 503), (11, .failure samplePair 503), (39, .allow samplePair)] :=
  coolOff_respected samplePair sampleBreaker (by decide)
    ⟨⟨fun _ => by decide +kernel, fun h => absurd rfl h, fun h => by cases h⟩,
      ⟨fun _ => by decide +kernel, fun h => absurd rfl h, fun h => by cases h⟩,
      ⟨fun _ => by decide +kernel, fun h => absurd rfl h, fun h => by cases h⟩, trivial⟩

/-- A success that arrives one second after the opening ends the cool-off. -/
theorem coolOff_not_respected : ¬CoolOffRespected samplePair sampleBreaker
    [(10, .failure samplePair 503), (11, .success samplePair), (12, .allow samplePair)] := by
  intro hrespected
  have hopens : Opens sampleBreaker (10, .failure samplePair 503) samplePair := by
    have hfits : Fits samplePair := by decide +kernel
    refine ⟨⟨failureEntry 1 30 10 (newEntry samplePair), ?_, rfl⟩, Or.inl ?_⟩
    · rw [madeFor_eq hfits]
      exact findEntry_onEntryOrNew sampleBreaker hfits (failureEntry_pair 1 30 10)
    · rintro ⟨e, he, -⟩
      cases he
  have hdenied := hrespected [] (10, .failure samplePair 503) [(11, .success samplePair)] 12 []
    rfl hopens (by decide)
  have hallowed : (cbAllowRequest (run sampleBreaker
      ([] ++ (10, .failure samplePair 503) :: [(11, .success samplePair)])) 12 samplePair).2 =
      true := by decide +kernel
  rw [hallowed] at hdenied
  cases hdenied

end Aigate.CircuitBreakerCoolOff
