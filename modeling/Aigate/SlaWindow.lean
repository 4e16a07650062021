import Mathlib.Algebra.BigOperators.Group.List.Basic
import Aigate.CircuitBreakerOps
import Aigate.GuardedRuns
import Aigate.SlidingWindow

/-!
# The samples of a breaker entry

An entry judges its latencies by the samples since it was last reset: when it was made, when it
recovered, or when an operator closed it. An operator who closes it forgets the head of the ring,
and a window that is set while the ring is in use does not fit the samples in it.
-/
namespace Aigate.SlaWindow
open CircuitBreaker CircuitBreakerOps GuardedRuns SlidingWindow

/-- What happens to an entry, or to the limits of its model. -/
inductive Event where
  | sample (now : ℤ) (s : SlaSample)
  | configure (l : SlaLimits)
  | override (now : ℤ) (newState : CbState)
  | failure (now : ℤ)
  | success
  | allow (now : ℤ)
  | query (now : ℤ)

/-- An entry, the limits of its model, and the samples since its last reset, the newest first. -/
structure Watched where
  entry : CbEntry
  cfg : ModelSlaCfg
  recorded : List SlaSample

/-- A sample ends the degradation, and the entry starts anew. -/
def recovers (cfg : ModelSlaCfg) (now : ℤ) (s : SlaSample) (e : CbEntry) : Bool :=
  decide ((updateStateOnTime now e).state = .slaDegraded) &&
    decide ((slaSampleEntry cfg now s e).state = .closed)

def step (threshold cooloffSec : ℕ) (w : Watched) : Event → Watched
  | .sample now s =>
    { w with
      entry := slaSampleEntry w.cfg now s w.entry
      recorded := if recovers w.cfg now s w.entry then [] else s :: w.recorded }
  | .configure l => { w with cfg := l.kept w.cfg.model }
  | .override now newState =>
    { w with
      entry := overrideEntry cooloffSec now newState w.entry
      recorded := if newState = .closed then [] else w.recorded }
  | .failure now => { w with entry := failureEntry threshold cooloffSec now w.entry }
  | .success => { w with entry := successEntry w.entry }
  | .allow now => { w with entry := (allowEntry now w.entry).1 }
  | .query now => { w with entry := updateStateOnTime now w.entry }

/-- A new entry. -/
def start (p : Pair) (cfg : ModelSlaCfg) : Watched := ⟨newEntry p, cfg, []⟩

def average (samples : List SlaSample) : ℕ :=
  if samples.length = 0 then 0 else (samples.map SlaSample.ttftMs).sum / samples.length

/-- A whole window, and too many of its samples over the limits. -/
def TooSlow (cfg : ModelSlaCfg) (samples : List SlaSample) : Prop :=
  samples.length = cfg.windowSize ∧
    cfg.ratioReached (samples.countP (violates cfg)) cfg.windowSize = true

/-- The average and the decision about the next sample come from the last samples, as many as the
window has room for. -/
structure Windowed (w : Watched) : Prop where
  average : avgTtftEntry w.entry = average (w.recorded.take w.cfg.windowSize)
  trips : ∀ now s, w.entry.state = .closed →
    ((slaSampleEntry w.cfg now s w.entry).state = .slaDegraded ↔
      TooSlow w.cfg ((s :: w.recorded).take w.cfg.windowSize))

/-- A new window comes before either window is full, and an operator closes the entry when the
head of the ring is where it started. -/
def StepOk (w : Watched) : Event → Prop
  | .configure l => l.window = w.cfg.windowSize ∨
    w.entry.sampleCount < w.cfg.windowSize ∧ w.entry.sampleCount < l.window
  | .override _ newState => newState = .closed → w.entry.sampleHead = 0
  | _ => True

def ring (e : CbEntry) : RingSlots SlaSample := ⟨e.samples, e.sampleHead, e.sampleCount⟩

/-- The ring holds the last samples since the reset. -/
def Inv (w : Watched) : Prop := Keeps w.cfg.windowSize (ring w.entry) w.recorded

theorem ring_updateStateOnTime (now : ℤ) (e : CbEntry) :
    ring (updateStateOnTime now e) = ring e := by
  unfold updateStateOnTime
  split
  · rfl
  · rfl

theorem ring_allow (now : ℤ) (e : CbEntry) : ring (allowEntry now e).1 = ring e := by
  rw [← ring_updateStateOnTime now e]
  unfold allowEntry allowNow
  split
  · rfl
  · rfl
  · split
    · rfl
    · rfl
  · rfl

theorem ring_failure (threshold cooloffSec : ℕ) (now : ℤ) (e : CbEntry) :
    ring (failureEntry threshold cooloffSec now e) = ring e := by
  rw [← ring_updateStateOnTime now e]
  unfold failureEntry failureNow
  split
  · rfl
  · rfl
  · dsimp only
    split
    · rfl
    · rfl

theorem ring_addSample (cfg : ModelSlaCfg) (s : SlaSample) (e : CbEntry) :
    ring (addSample cfg s e) = (ring e).record cfg.windowSize s := rfl

/-- A judgement leaves the ring alone, or empties it with the degradation. -/
theorem ring_judgeSla (cfg : ModelSlaCfg) (e : CbEntry) :
    e.state = .slaDegraded ∧ (judgeSla cfg e).state = .closed ∧
        (ring (judgeSla cfg e)).count = 0 ∧ (ring (judgeSla cfg e)).head = 0 ∨
      ¬(e.state = .slaDegraded ∧ (judgeSla cfg e).state = .closed) ∧
        ring (judgeSla cfg e) = ring e := by
  unfold judgeSla
  split
  · rename_i hstate
    right
    rw [hstate]
    refine ⟨nofun, ?_⟩
    split
    · rfl
    · rfl
  · rename_i hstate
    split
    · exact Or.inl ⟨hstate, rfl, rfl, rfl⟩
    · refine Or.inr ⟨fun h => ?_, rfl⟩
      rw [hstate] at h
      exact nomatch h.2
  · rename_i hclosed hdegraded
    exact Or.inr ⟨fun h => hdegraded h.1, rfl⟩

theorem Inv.sample {w : Watched} (h : Inv w) (threshold cooloffSec : ℕ) (now : ℤ) (s : SlaSample) :
    Inv (step threshold cooloffSec w (.sample now s)) := by
  have hadded : Keeps w.cfg.windowSize
      (ring (addSample w.cfg s (updateStateOnTime now w.entry))) (s :: w.recorded) := by
    rw [ring_addSample, ring_updateStateOnTime]
    exact Keeps.record h s
  have hrecovers : recovers w.cfg now s w.entry = true ↔
      (addSample w.cfg s (updateStateOnTime now w.entry)).state = .slaDegraded ∧
        (slaSampleEntry w.cfg now s w.entry).state = .closed := by
    rw [recovers, Bool.and_eq_true, decide_eq_true_eq, decide_eq_true_eq]
    rfl
  unfold Inv
  simp only [step]
  rcases ring_judgeSla w.cfg (addSample w.cfg s (updateStateOnTime now w.entry)) with
    ⟨hstate, hclosed, hcount, hhead⟩ | ⟨hnot, hring⟩
  · rw [if_pos (hrecovers.mpr ⟨hstate, hclosed⟩)]
    exact keeps_nil _ hcount hhead
  · rw [if_neg fun hr => hnot (hrecovers.mp hr), slaSampleEntry, hring]
    exact hadded

theorem Inv.configure {w : Watched} (h : Inv w) {threshold cooloffSec : ℕ} {l : SlaLimits}
    (hok : StepOk w (.configure l)) : Inv (step threshold cooloffSec w (.configure l)) := by
  rcases hok with hsame | ⟨hless, hless'⟩
  · have hkept : (l.kept w.cfg.model).windowSize = w.cfg.windowSize := hsame
    unfold Inv
    simp only [step]
    rw [hkept]
    exact h
  · have hcount : w.entry.sampleCount = min w.recorded.length w.cfg.windowSize := h.count
    have hshort : w.recorded.length < w.cfg.windowSize := by omega
    have hshort' : w.recorded.length < l.window := by omega
    exact Keeps.resize h hshort hshort'

theorem Inv.override {w : Watched} (h : Inv w) {threshold cooloffSec : ℕ} {now : ℤ}
    {newState : CbState} (hok : StepOk w (.override now newState)) :
    Inv (step threshold cooloffSec w (.override now newState)) := by
  cases newState with
  | closed => exact keeps_nil _ rfl (hok rfl)
  | opened => exact h
  | halfOpen => exact h
  | slaDegraded => exact h

theorem Inv.of_ring {w : Watched} (h : Inv w) {e : CbEntry} (hring : ring e = ring w.entry) :
    Inv { w with entry := e } := by
  unfold Inv
  rw [hring]
  exact h

theorem Inv.step {threshold cooloffSec : ℕ} (w : Watched) (e : Event) (h : Inv w)
    (hok : StepOk w e) : Inv (step threshold cooloffSec w e) := by
  cases e with
  | sample now s => exact h.sample threshold cooloffSec now s
  | configure l => exact h.configure hok
  | override now newState => exact h.override hok
  | failure now => exact h.of_ring (ring_failure threshold cooloffSec now w.entry)
  | success => exact h
  | allow now => exact h.of_ring (ring_allow now w.entry)
  | query now => exact h.of_ring (ring_updateStateOnTime now w.entry)

theorem avgTtftEntry_eq (e : CbEntry) : avgTtftEntry e = average (ring e).read := by
  have hlength : (ring e).read.length = e.sampleCount := by
    rw [RingSlots.read, List.length_map, List.length_range]
    rfl
  unfold avgTtftEntry average
  rw [hlength, RingSlots.read, List.map_map]
  rfl

theorem average_perm {samples samples' : List SlaSample} (h : samples.Perm samples') :
    average samples = average samples' := by
  have hsum := (h.map SlaSample.ttftMs).sum_eq
  rw [average, average, hsum, h.length_eq]

theorem violationCount_eq (cfg : ModelSlaCfg) (e : CbEntry) :
    violationCount cfg e = (ring e).read.countP (violates cfg) := by
  rw [violationCount, RingSlots.read, List.countP_map]
  rfl

/-- A closed entry trips if its ring is full and slow. -/
theorem slaSample_degraded {e : CbEntry} (hclosed : e.state = .closed) (cfg : ModelSlaCfg)
    (now : ℤ) (s : SlaSample) : (slaSampleEntry cfg now s e).state = .slaDegraded ↔
      cfg.windowSize ≤ (addSample cfg s e).sampleCount ∧
        cfg.ratioReached (violationCount cfg (addSample cfg s e))
          (addSample cfg s e).sampleCount = true := by
  have hnow : updateStateOnTime now e = e := if_neg fun h => by simp [hclosed] at h
  have hadd : (addSample cfg s e).state = .closed := hclosed
  rw [slaSampleEntry, hnow, judgeSla]
  split
  · split
    · exact iff_of_true rfl ‹_›
    · exact iff_of_false (by rw [hadd]; nofun) ‹_›
  · rename_i hstate
    rw [hadd] at hstate
    cases hstate
  · rename_i hstate _
    exact absurd hadd hstate

theorem Inv.windowed {w : Watched} (h : Inv w) : Windowed w where
  average := by
    rw [avgTtftEntry_eq]
    exact average_perm (h.read_perm w.cfg.window_pos)
  trips := by
    intro now s hclosed
    have hadded : Keeps w.cfg.windowSize (ring (addSample w.cfg s w.entry)) (s :: w.recorded) := by
      rw [ring_addSample]
      exact Keeps.record h s
    have hperm := hadded.read_perm w.cfg.window_pos
    have hcount : (addSample w.cfg s w.entry).sampleCount =
        min (s :: w.recorded).length w.cfg.windowSize := hadded.count
    rw [slaSample_degraded hclosed, TooSlow, violationCount_eq, hperm.countP_eq, List.length_take,
      hcount]
    constructor
    · intro ⟨hfull, hratio⟩
      have hmin : min (s :: w.recorded).length w.cfg.windowSize = w.cfg.windowSize := by omega
      rw [hmin] at hratio
      exact ⟨by omega, hratio⟩
    · intro ⟨hfull, hratio⟩
      have hmin : min (s :: w.recorded).length w.cfg.windowSize = w.cfg.windowSize := by omega
      rw [hmin]
      exact ⟨le_rfl, hratio⟩

/-- In such a run every average and every decision comes from the last samples. -/
theorem windowed_run (threshold cooloffSec : ℕ) (p : Pair) (cfg : ModelSlaCfg)
    {events : List Event} (hok : RunOk (step threshold cooloffSec) StepOk (start p cfg) events) :
    Always (step threshold cooloffSec) Windowed (start p cfg) events := by
  have hstart : Inv (start p cfg) := keeps_nil _ rfl rfl
  have halways := always_of_runOk Inv.step hstart hok
  exact fun n => (halways n).windowed

/-- A window of two samples, and half of them over a second. -/
def sampleLimits : SlaLimits := ⟨1000, 0, 2, fun violations n => decide (n ≤ 2 * violations), []⟩

def samplePair : Pair := ⟨Text.ascii "gpt-4o", Text.ascii "https://a"⟩

/-- The entry is closed by an operator after a whole window. -/
def closedInTime : List Event :=
  [.sample 0 ⟨9000, 9000⟩, .sample 1 ⟨300, 300⟩, .override 2 .closed, .sample 3 ⟨10, 10⟩]

/-- The entry is closed by an operator after half a window. -/
def closedEarly : List Event := [.sample 0 ⟨9000, 9000⟩, .override 1 .closed, .sample 2 ⟨10, 10⟩]

theorem windowed_closedInTime : Always (step 3 30) Windowed
    (start samplePair (sampleLimits.kept samplePair.model)) closedInTime :=
  windowed_run 3 30 samplePair _ ⟨trivial, trivial, fun _ => rfl, trivial, trivial⟩

/-- The average is that of the sample before the reset. -/
theorem not_windowed_closedEarly : ¬Always (step 3 30) Windowed
    (start samplePair (sampleLimits.kept samplePair.model)) closedEarly := by
  intro h
  have havg := h.last.average
  have hread : avgTtftEntry (GuardedRuns.run (step 3 30)
      (start samplePair (sampleLimits.kept samplePair.model)) closedEarly).entry = 9000 := by
    decide +kernel
  have hlast : average ((GuardedRuns.run (step 3 30)
      (start samplePair (sampleLimits.kept samplePair.model)) closedEarly).recorded.take 2) = 10 :=
    by decide +kernel
  exact absurd (hread.symm.trans (havg.trans hlast)) (by decide)

end Aigate.SlaWindow
