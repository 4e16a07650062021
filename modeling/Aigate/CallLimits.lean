import Aigate.InFlight
import Aigate.Pipelines

/-!
# Upstream calls under a concurrency limit

Requests of all five endpoints work on targets side by side. Chat and embeddings acquire a
target before they call it and release it after; the other endpoints call it at once. The two
first targets of a hedged chat request are acquired and released together, and the release
does not wait for the call that has lost the race.
-/
namespace Aigate.CallLimits
open Text GuardedRuns ModelRouter Pipelines InFlight

/-- The pipeline of the endpoint acquires its targets. -/
def acquires : Endpoint → Bool
  | .chat => true
  | .embeddings => true
  | .responses => false
  | .messages => false
  | .generate => false

/-- The work of a request on one of its targets. -/
structure Attempt extends InFlight.Request where
  endpoint : Endpoint
  hedged : Bool
  calling : Bool
  deriving DecidableEq

structure Gateway where
  slots : List TargetSlot
  attempts : List Attempt

/-- A request begins with a target; it goes on with the acquire or the release of it; it calls
it, once or again; the call is over. -/
inductive Event where
  | attempt (endpoint : Endpoint) (hedged : Bool) (t : Target)
  | advance (k : ℕ) (spurious : Bool)
  | call (k : ℕ)
  | callEnds (k : ℕ)

/-- There is nothing to acquire for an endpoint that does not. -/
def newAttempt (endpoint : Endpoint) (hedged : Bool) (t : Target) : Attempt :=
  ⟨⟨t, if acquires endpoint then .entering else .done⟩, endpoint,
    hedged && decide (endpoint = .chat), false⟩

/-- The target is released when its call is over, or with the race. -/
def advanceAttempt (slots : List TargetSlot) (spurious : Bool) (a : Attempt) :
    List TargetSlot × Attempt :=
  if a.calling ∧ a.hedged = false then (slots, a)
  else
    ((InFlight.advance slots a.target spurious a.phase).1,
      { a with phase := (InFlight.advance slots a.target spurious a.phase).2 })

def callTarget (a : Attempt) : Attempt :=
  if acquires a.endpoint ∧ a.phase ≠ .holding then a else { a with calling := true }

def endCall (a : Attempt) : Attempt := { a with calling := false }

def step (g : Gateway) : Event → Gateway
  | .attempt endpoint hedged t => { g with attempts := g.attempts ++ [newAttempt endpoint hedged t] }
  | .advance k spurious =>
    match g.attempts[k]? with
    | none => g
    | some a =>
      ⟨(advanceAttempt g.slots spurious a).1, g.attempts.set k (advanceAttempt g.slots spurious a).2⟩
  | .call k => { g with attempts := g.attempts.modify k callTarget }
  | .callEnds k => { g with attempts := g.attempts.modify k endCall }

def start : Gateway := ⟨[], []⟩

/-- A call is in progress to the endpoint, for a target whose limit is at most `m`. -/
def Attempt.callsWithin (endpoint : Bytes) (m : ℤ) (a : Attempt) : Bool :=
  a.calling && decide (a.target.endpoint = endpoint) &&
    decide (0 < a.target.maxConcurrent ∧ a.target.maxConcurrent ≤ m)

/-- No target has more calls in progress than its limit. -/
def WithinLimits (g : Gateway) : Prop :=
  ∀ endpoint m, 0 < m → (g.attempts.countP (Attempt.callsWithin endpoint m) : ℤ) ≤ m

/-- The slots, and the requests that want or hold one. -/
def Gateway.flight (g : Gateway) : InFlight.System := ⟨g.slots, g.attempts.map Attempt.toRequest⟩

/-- A target with a limit is called by an endpoint that acquires it, is not released during its
call, and is counted right. -/
def StepOk (g : Gateway) : Event → Prop
  | .attempt _ _ _ => True
  | .advance k spurious => InFlight.StepOk g.flight (.advance k spurious) ∧
    ∀ a, g.attempts[k]? = some a → a.phase = .holding → a.calling → a.hedged →
      a.target.maxConcurrent ≤ 0
  | .call k => ∀ a, g.attempts[k]? = some a → acquires a.endpoint = false →
    a.target.maxConcurrent ≤ 0
  | .callEnds _ => True

/-- A target with a limit is held by the attempt that calls it. -/
structure Inv (g : Gateway) : Prop where
  flight : InFlight.Inv g.flight
  counted : Counted g.flight
  holding : ∀ a ∈ g.attempts, a.calling → 0 < a.target.maxConcurrent → a.phase = .holding

theorem inv_start : Inv start :=
  ⟨InFlight.inv_start, counted_start, fun _ h => absurd h List.not_mem_nil⟩

theorem Inv.withinLimits {g : Gateway} (h : Inv g) : WithinLimits g := by
  intro endpoint m hm
  have hlimited := h.flight.limited endpoint m hm
  have hle : g.attempts.countP (Attempt.callsWithin endpoint m) ≤
      g.flight.requests.countP fun r => r.holds endpoint &&
        decide (0 < r.target.maxConcurrent ∧ r.target.maxConcurrent ≤ m) := by
    rw [Gateway.flight, List.countP_map]
    apply List.countP_mono_left
    intro a ha hcall
    simp only [Attempt.callsWithin, Bool.and_eq_true, decide_eq_true_eq] at hcall
    obtain ⟨⟨hcalling, hendpoint⟩, hpos, hmax⟩ := hcall
    have hphase := h.holding a ha hcalling hpos
    simp [Request.holds, hphase, hendpoint, hpos, hmax]
  omega

/-- A change of calls alone. -/
theorem flight_modify (g : Gateway) (k : ℕ) {f : Attempt → Attempt}
    (hf : ∀ a, (f a).toRequest = a.toRequest) :
    Gateway.flight { g with attempts := g.attempts.modify k f } = g.flight := by
  have hmap : (g.attempts.modify k f).map Attempt.toRequest = g.attempts.map Attempt.toRequest := by
    apply List.ext_getElem?
    intro i
    rw [List.getElem?_map, List.getElem?_map, List.getElem?_modify, Option.map_eq_map,
      Option.map_map]
    congr 1
    funext a
    rw [Function.comp_apply]
    split
    · exact hf a
    · rfl
  rw [Gateway.flight, Gateway.flight, hmap]

theorem toRequest_callTarget (a : Attempt) : (callTarget a).toRequest = a.toRequest := by
  unfold callTarget
  split <;> rfl

theorem mem_modify {k : ℕ} {f : Attempt → Attempt} {attempts : List Attempt} {a : Attempt}
    (h : a ∈ attempts.modify k f) : a ∈ attempts ∨ ∃ b, attempts[k]? = some b ∧ a = f b := by
  obtain ⟨i, hi⟩ := List.mem_iff_getElem?.mp h
  rw [List.getElem?_modify] at hi
  obtain ⟨b, hb, hab⟩ := Option.map_eq_some_iff.mp hi
  by_cases hki : k = i
  · rw [if_pos hki] at hab
    exact Or.inr ⟨b, hki ▸ hb, hab.symm⟩
  · rw [if_neg hki] at hab
    exact Or.inl (hab ▸ List.mem_of_getElem? hb)

theorem Inv.modify {g : Gateway} (h : Inv g) (k : ℕ) {f : Attempt → Attempt}
    (hf : ∀ a, (f a).toRequest = a.toRequest)
    (hcall : ∀ a, g.attempts[k]? = some a → (f a).calling → 0 < a.target.maxConcurrent →
      a.phase = .holding) : Inv { g with attempts := g.attempts.modify k f } := by
  have hflight := flight_modify g k hf
  refine ⟨hflight ▸ h.flight, hflight ▸ h.counted, fun a ha hcalling hpos => ?_⟩
  rcases mem_modify ha with hold | ⟨b, hb, rfl⟩
  · exact h.holding a hold hcalling hpos
  · have hsame := hf b
    have htarget : (f b).target = b.target := congrArg InFlight.Request.target hsame
    have hphase : (f b).phase = b.phase := congrArg InFlight.Request.phase hsame
    rw [hphase]
    exact hcall b hb hcalling (htarget ▸ hpos)

theorem Inv.attempt {g : Gateway} (h : Inv g) (endpoint : Endpoint) (hedged : Bool) (t : Target) :
    Inv { g with attempts := g.attempts ++ [newAttempt endpoint hedged t] } := by
  have hflight : Gateway.flight { g with attempts := g.attempts ++ [newAttempt endpoint hedged t] } =
      ⟨g.flight.slots, g.flight.requests ++ [(newAttempt endpoint hedged t).toRequest]⟩ := by
    simp [Gateway.flight]
  have hslot : (newAttempt endpoint hedged t).phase.slot = none := by
    cases endpoint <;> rfl
  have hphase : (newAttempt endpoint hedged t).phase ≠ .holding := by
    cases endpoint <;> simp [newAttempt, acquires]
  refine ⟨?_, ?_, fun a ha hcalling hpos => ?_⟩
  · rw [hflight]
    exact h.flight.append t hslot hphase
  · rw [hflight]
    exact h.counted.append h.flight t hslot hphase
  · rcases List.mem_append.mp ha with hold | hnew
    · exact h.holding a hold hcalling hpos
    · rw [List.mem_singleton.mp hnew] at hcalling
      cases hcalling

/-- A step of an acquire or a release is one of the requests in flight. -/
theorem Inv.advance {g : Gateway} (h : Inv g) {k : ℕ} {spurious : Bool}
    (hok : StepOk g (.advance k spurious)) : Inv (step g (.advance k spurious)) := by
  rw [CallLimits.step]
  cases hk : g.attempts[k]? with
  | none => exact h
  | some a =>
    dsimp only
    unfold advanceAttempt
    by_cases hwaits : a.calling ∧ a.hedged = false
    · obtain ⟨hlt, rfl⟩ := List.getElem?_eq_some_iff.mp hk
      rw [if_pos hwaits, List.set_getElem_self hlt]
      exact h
    · rw [if_neg hwaits]
      have hrequest : g.flight.requests[k]? = some a.toRequest := by
        simp [Gateway.flight, hk]
      have hflight : Gateway.flight ⟨(InFlight.advance g.slots a.target spurious a.phase).1,
          g.attempts.set k { a with
            phase := (InFlight.advance g.slots a.target spurious a.phase).2 }⟩ =
          InFlight.step g.flight (.advance k spurious) := by
        rw [InFlight.step, hrequest]
        simp [Gateway.flight, List.map_set]
      refine ⟨?_, ?_, fun b hb hcalling hpos => ?_⟩
      · rw [hflight]
        exact h.flight.step h.counted hok.1
      · rw [hflight]
        exact (h.counted.step h.flight _).mpr hok.1
      · rcases List.mem_or_eq_of_mem_set hb with hold | rfl
        · exact h.holding b hold hcalling hpos
        · have hhedged : a.hedged = true := by
            by_contra hnot
            exact hwaits ⟨hcalling, by simpa using hnot⟩
          have hholding := h.holding a (List.mem_of_getElem? hk) hcalling hpos
          exact absurd (hok.2 a hk hholding hcalling hhedged) (not_le.mpr hpos)

theorem Inv.step {g : Gateway} (h : Inv g) {e : Event} (hok : StepOk g e) : Inv (step g e) := by
  cases e with
  | attempt endpoint hedged t => exact h.attempt endpoint hedged t
  | advance k spurious => exact h.advance hok
  | call k =>
    apply h.modify k toRequest_callTarget
    intro a ha hcalling hpos
    by_cases hacquires : acquires a.endpoint = true
    · by_contra hphase
      rw [callTarget, if_pos ⟨hacquires, hphase⟩] at hcalling
      exact hphase (h.holding a (List.mem_of_getElem? ha) hcalling hpos)
    · exact absurd (hok a ha (by simpa using hacquires)) (not_le.mpr hpos)
  | callEnds k =>
    have hf : ∀ a, (endCall a).toRequest = a.toRequest := fun _ => rfl
    exact h.modify k hf fun a _ hcalling _ => nomatch hcalling

/-- In every state of such a run no target has more calls in progress than its limit. -/
theorem withinLimits_run (events : List Event) (hok : RunOk step StepOk start events) :
    Always step WithinLimits start events := by
  have hinv : Always step Inv start events :=
    always_of_runOk (fun _ _ h hs => h.step hs) inv_start hok
  exact fun n => (hinv n).withinLimits

/-- A chat request acquires its target and calls it. -/
def once : List Event :=
  [.attempt .chat false single, .advance 0 false, .advance 0 false, .advance 0 false, .call 0]

theorem withinLimits_once : Always step WithinLimits start once := by
  apply withinLimits_run once
  refine ⟨trivial, ⟨fun r hr => ?_, fun a ha hphase => ?_⟩, ⟨fun r hr => ?_, fun a ha hphase => ?_⟩,
    ⟨fun r hr => ?_, fun a ha hphase => ?_⟩, fun a ha hacquires => ?_, trivial⟩
  · obtain rfl := Option.some.inj hr
    exact ⟨fun _ => by decide +kernel, (fun _ h => nomatch h)⟩
  · obtain rfl := Option.some.inj ha
    exact absurd hphase (by decide +kernel)
  · have hloading : r.phase = .loading 0 := by
      obtain rfl := Option.some.inj hr
      decide +kernel
    simp [hloading]
  · obtain rfl := Option.some.inj ha
    exact absurd hphase (by decide +kernel)
  · have htrying : r.phase = .trying 0 0 := by
      obtain rfl := Option.some.inj hr
      decide +kernel
    simp [htrying]
  · obtain rfl := Option.some.inj ha
    exact absurd hphase (by decide +kernel)
  · obtain rfl := Option.some.inj ha
    cases hacquires

/-- Two requests of an endpoint that acquires nothing call a target that may have one. -/
def twice (endpoint : Endpoint) : List Event :=
  [.attempt endpoint false single, .attempt endpoint false single, .call 0, .call 1]

theorem not_withinLimits_responses : ¬ Always step WithinLimits start (twice .responses) := by
  intro h
  have hone := h.last (ascii "https://api.openai.com/v1") 1 (by decide)
  revert hone
  decide +kernel

end Aigate.CallLimits
