import Aigate.Pipelines

/-!
# Who holds the probe of a half-open endpoint

Requests run side by side. Each asks the breaker for the targets of its model, one after the
other, then works through its pipeline. A half-open entry gives its probe to the first that
asks, and denies all others until a success or a failure is recorded for it.
-/
namespace Aigate.ProbeOwnership
open CircuitBreaker ModelRouter Pipelines

inductive Phase where
  | selecting (asked : List (Target × Bool)) (left : List Target)
  | running (ops : List Op)
  deriving DecidableEq

/-- An unfinished request, with the probes that it was given. -/
structure Pending where
  request : Request
  probes : List Pair
  phase : Phase

structure Gateway where
  breaker : Breaker
  pending : List Pending

/-- The operations of the breaker that are left when all its answers are there. With no
target allowed the ends of the cool-offs are looked up first. -/
def afterAnswers (r : Request) (snapshot : List (Target × Bool)) : List Op :=
  (if snapshot.any Prod.snd then [] else snapshot.map fun a => .query (askPair r a.1)) ++
    (pipeline r (orderCandidates r.balance (lbPolicyOf r.route.lbPolicy) snapshot)).filterMap
      breakerOp

/-- Only the OpenAI endpoints look at the provider that the client names. -/
def namedProvider (r : Request) (ts : List Target) : Option (List Target) :=
  if (r.endpoint = .chat ∨ r.endpoint = .embeddings) ∧ r.targetProvider ≠ [] then
    targetedOrder r.targetProvider ts
  else none

/-- A request that has a target begins to choose; a provider that the client names is taken
without asking. -/
def begin (r : Request) : Option Pending :=
  match sourceTargets r.route with
  | none => none
  | some ts =>
    match namedProvider r ts with
    | some cs => some ⟨r, [], .running ((pipeline r (cs.take maxTargets)).filterMap breakerOp)⟩
    | none => some ⟨r, [], .selecting [] ts⟩

/-- The breaker would answer with the probe of the entry. -/
def grantsProbe (cb : Breaker) (now : ℤ) (p : Pair) : Prop :=
  (updateStateOnTime now (entryOrNew cb p)).state = .halfOpen ∧
    (updateStateOnTime now (entryOrNew cb p)).halfOpenProbeActive = false

instance (cb : Breaker) (now : ℤ) (p : Pair) : Decidable (grantsProbe cb now p) :=
  inferInstanceAs (Decidable (_ ∧ _))

/-- A request after its next operation; `none` when it is finished. -/
def Pending.next (cb : Breaker) (now : ℤ) (q : Pending) : Breaker × Option Pending :=
  match q.phase with
  | .selecting asked (t :: left) =>
    let p := askPair q.request t
    ((cbAllowRequest cb now p).1,
      some ⟨q.request, if grantsProbe cb now p then p :: q.probes else q.probes,
        .selecting (asked ++ [(t, (cbAllowRequest cb now p).2)]) left⟩)
  | .selecting asked [] => (cb, some ⟨q.request, q.probes, .running (afterAnswers q.request asked)⟩)
  | .running (op :: ops) =>
    (CircuitBreaker.step cb (now, op), some ⟨q.request, q.probes, .running ops⟩)
  | .running [] => (cb, none)

inductive Event where
  | arrive (r : Request)
  | advance (i : ℕ)
  | query (p : Pair)

def step (G : Gateway) : ℤ × Event → Gateway
  | (_, .arrive r) => { G with pending := G.pending ++ (begin r).toList }
  | (now, .advance i) =>
    match G.pending[i]? with
    | none => G
    | some q =>
      ⟨(q.next G.breaker now).1,
        match (q.next G.breaker now).2 with
        | some q' => G.pending.set i q'
        | none => G.pending.eraseIdx i⟩
  | (now, .query p) => { G with breaker := (cbGetState G.breaker now p).1 }

def run (G : Gateway) (events : List (ℤ × Event)) : Gateway := events.foldl step G

/-- The gateway before the first request. -/
def idle (failureThreshold cooloffSec : ℕ) (slaConfigs : List ModelSlaCfg)
    (h : 0 < failureThreshold) : Gateway :=
  ⟨Breaker.create failureThreshold cooloffSec slaConfigs h, []⟩

/-- The entry is half open and its probe is out. -/
def Probing (e : CbEntry) : Prop := e.state = .halfOpen ∧ e.halfOpenProbeActive = true

/-- The operation settles the probe of a pair. -/
def Records (p : Pair) : Op → Prop
  | .success q => q = p
  | .failure q httpStatus => q = p ∧ countsAsFailure httpStatus = true
  | _ => False

/-- A success or a failure will be recorded, whatever the breaker answers to the questions
that are left. -/
def Pending.WillRecord (p : Pair) (q : Pending) : Prop :=
  match q.phase with
  | .selecting asked left => ∀ answers : List Bool, answers.length = left.length →
      ∃ op ∈ afterAnswers q.request (asked ++ left.zip answers), Records p op
  | .running ops => ∃ op ∈ ops, Records p op

def Pending.Owns (p : Pair) (q : Pending) : Prop := p ∈ q.probes ∧ q.WillRecord p

/-- Every probe that is out belongs to an unfinished request that will settle it. -/
def ProbesOwned (G : Gateway) : Prop :=
  ∀ p e, findEntry G.breaker p = some e → Probing e → ∃ q ∈ G.pending, q.Owns p

/-- The outcome of a call says something about the endpoint. -/
def callCounts (streaming : Bool) (c : Call) : Bool :=
  match outcome streaming c with
  | .completed => true
  | .interrupted => false
  | .failed _ => countsAsFailure c.status

/-- A place of the loop leads to a call whose outcome counts. -/
def placeCounts (r : Request) (alone : Bool) : Place → Bool
  | .race _ _ c => callCounts (streams r) c
  | .single _ t a =>
    !skipped r.endpoint (streams r) t a && callCounts (streams r) (finalCall (streams r) alone a)

/-- With these answers the request comes to a target and learns something about it: no
plugin has renamed the model, no filter and no cached answer ends the request, all
candidates before the target are passed over or fail over, and its own call counts. -/
def Settles (r : Request) (snapshot : List (Target × Bool)) (t : Target) : Prop :=
  let cs := orderCandidates r.balance (lbPolicyOf r.route.lbPolicy) snapshot
  currentModel r = r.route.name ∧ proceeds r cs = true ∧
    ∃ place, Failover.Reaches (visit r (decide (cs.length = 1))) (places r cs) place ∧
      place.target.endpoint = t.endpoint ∧
      placeCounts r (decide (cs.length = 1)) place = true

/-- A request that is given a probe comes to the target whatever it is answered about the
others. -/
def StepOk (G : Gateway) : ℤ × Event → Prop
  | (now, .advance i) => ∀ q ∈ G.pending[i]?, ∀ asked t left,
      q.phase = .selecting asked (t :: left) → grantsProbe G.breaker now (askPair q.request t) →
      ∀ answers : List Bool, answers.length = left.length →
        Settles q.request (asked ++ (t, true) :: left.zip answers) t
  | _ => True

/-- Every step of a run meets the condition. -/
def RunOk (G : Gateway) : List (ℤ × Event) → Prop
  | [] => True
  | event :: events => StepOk G event ∧ RunOk (step G event) events

theorem updateStateOnTime_probing {now : ℤ} {e : CbEntry}
    (h : Probing (updateStateOnTime now e)) : Probing e := by
  unfold updateStateOnTime at h
  split at h
  · exact absurd h.2 (by simp)
  · exact h

theorem successEntry_not_probing (e : CbEntry) : ¬Probing (successEntry e) := by
  rintro ⟨-, hflag⟩
  cases hflag

theorem failureEntry_not_probing (threshold cooloffSec : ℕ) (now : ℤ) (e : CbEntry) :
    ¬Probing (failureEntry threshold cooloffSec now e) := by
  unfold failureEntry failureNow
  rintro ⟨hstate, hflag⟩
  split at hstate
  · cases hstate
  · rename_i hopened
    rw [hopened] at hstate
    cases hstate
  · rename_i hhalf hopened
    dsimp only at hstate
    split at hstate
    · cases hstate
    · exact hhalf hstate

theorem slaSampleEntry_probing {cfg : ModelSlaCfg} {now : ℤ} {s : SlaSample} {e : CbEntry}
    (h : Probing (slaSampleEntry cfg now s e)) : Probing e := by
  apply @updateStateOnTime_probing now
  unfold slaSampleEntry judgeSla at h
  split at h
  · rename_i hclosed
    split at h
    · cases h.1
    · exact h
  · rename_i hdegraded
    split at h
    · cases h.1
    · exact h
  · exact h

theorem newEntry_not_probing (p : Pair) : ¬Probing (newEntry p) := fun h => by cases h.1

theorem entryOrNew_probing {cb : Breaker} {p : Pair} (h : Probing (entryOrNew cb p)) :
    ∃ e, findEntry cb p = some e ∧ Probing e := by
  unfold entryOrNew at h
  cases hfind : findEntry cb p with
  | none =>
    rw [hfind] at h
    exact absurd h (newEntry_not_probing p)
  | some e =>
    rw [hfind] at h
    exact ⟨e, rfl, h⟩

/-- A change that makes no probe keeps every entry without one. -/
theorem onEntry_probing {cb : Breaker} {p q : Pair} {f : CbEntry → CbEntry} (hf : KeepsPair f)
    {e' : CbEntry} (he' : findEntry (onEntry cb q f) p = some e') (hprobing : Probing e')
    (hnone : ∀ e, Probing (f e) → Probing e) : ∃ e, findEntry cb p = some e ∧ Probing e := by
  by_cases hqp : q = p
  · subst hqp
    rw [findEntry_onEntry cb q hf] at he'
    obtain ⟨e, he, rfl⟩ := Option.map_eq_some_iff.mp he'
    exact ⟨e, he, hnone e hprobing⟩
  · rw [findEntry_onEntry_ne cb hqp hf] at he'
    exact ⟨e', he', hprobing⟩

theorem onEntryOrNew_probing {cb : Breaker} {p q : Pair} (hq : Fits q) {f : CbEntry → CbEntry}
    (hf : KeepsPair f) {e' : CbEntry} (he' : findEntry (onEntryOrNew cb q f) p = some e')
    (hprobing : Probing e') (hnone : ∀ e, Probing (f e) → Probing e) :
    ∃ e, findEntry cb p = some e ∧ Probing e := by
  by_cases hqp : q = p
  · subst hqp
    rw [findEntry_onEntryOrNew cb hq hf] at he'
    obtain rfl := Option.some.inj he'
    exact entryOrNew_probing (hnone _ hprobing)
  · rw [findEntry_onEntryOrNew_ne cb hqp (by rwa [hq]) hf] at he'
    exact ⟨e', he', hprobing⟩

/-- An effect settles the probe of a pair. -/
def Effect.Settles (p : Pair) : Effect → Prop
  | .breaker op => Records p op
  | _ => False

theorem exists_op_iff {p : Pair} {effects : List Effect} :
    (∃ op ∈ effects.filterMap breakerOp, Records p op) ↔ ∃ e ∈ effects, Effect.Settles p e := by
  constructor
  · rintro ⟨op, hop, hrecords⟩
    obtain ⟨e, he, heop⟩ := List.mem_filterMap.mp hop
    cases e with
    | breaker op' =>
      obtain rfl := Option.some.inj heop
      exact ⟨.breaker op', he, hrecords⟩
    | usage _ _ _ _ => cases heop
    | budget _ _ => cases heop
    | quota _ _ => cases heop
  · rintro ⟨e, he, hsettles⟩
    cases e with
    | breaker op => exact ⟨op, List.mem_filterMap.mpr ⟨_, he, rfl⟩, hsettles⟩
    | usage _ _ _ _ => cases hsettles
    | budget _ _ => cases hsettles
    | quota _ _ => cases hsettles

theorem silent_settles_nothing {p : Pair} {effects : List Effect} (h : Silent effects) :
    ¬∃ e ∈ effects, Effect.Settles p e := by
  rintro ⟨e, he, hsettles⟩
  cases e with
  | breaker op => exact absurd (h _ he) (by simp [breakerOp])
  | usage _ _ _ _ => exact hsettles
  | budget _ _ => exact hsettles
  | quota _ _ => exact hsettles

/-- A call settles the probe of the entry it is recorded for, if its outcome counts. -/
theorem callEffects_settles {p : Pair} {r : Request} {i : ℕ} {t : Target} {c : Call} :
    (∃ e ∈ (callEffects r i t c).1, Effect.Settles p e) ↔
      recordPair r t = p ∧ callCounts (streams r) c = true := by
  unfold callEffects callCounts
  cases outcome (streams r) c with
  | completed =>
    dsimp only
    constructor
    · rintro ⟨e, he, hsettles⟩
      rcases List.mem_cons.mp he with rfl | he
      · exact ⟨hsettles, rfl⟩
      · exact absurd ⟨e, he, hsettles⟩ (silent_settles_nothing (completedCharges_silent r i c))
    · rintro ⟨hpair, -⟩
      exact ⟨_, List.mem_cons_self, hpair⟩
  | interrupted =>
    dsimp only
    constructor
    · intro h
      exact absurd h (silent_settles_nothing (interruptedCharges_silent r i c))
    · rintro ⟨-, h⟩
      cases h
  | failed passOn =>
    dsimp only
    constructor
    · rintro ⟨e, he, hsettles⟩
      rcases List.mem_cons.mp he with rfl | he
      · exact hsettles
      · split at he
        · cases he
        · exact absurd ⟨e, he, hsettles⟩ (silent_settles_nothing (refusedCharges_silent i c))
    · rintro ⟨hpair, hcounts⟩
      exact ⟨_, List.mem_cons_self, hpair, hcounts⟩

theorem visit_settles {p : Pair} {r : Request} {alone : Bool} {place : Place} :
    (∃ e ∈ (visit r alone place).1, Effect.Settles p e) ↔
      recordPair r place.target = p ∧ placeCounts r alone place = true := by
  cases place with
  | race i t c => exact callEffects_settles
  | single i t a =>
    cases hskip : skipped r.endpoint (streams r) t a with
    | true => simp [visit, placeCounts, hskip]
    | false =>
      simp only [visit, placeCounts, Place.target, hskip, Bool.false_eq_true, if_false,
        Bool.not_false, Bool.true_and]
      rw [← callEffects_settles]
      constructor
      · rintro ⟨e, he, hsettles⟩
        rcases List.mem_append.mp he with he | he
        · unfold slaEffects at he
          split at he
          · obtain ⟨s, -, rfl⟩ := List.mem_map.mp he
            exact hsettles.elim
          · cases he
        · exact ⟨e, he, hsettles⟩
      · rintro ⟨e, he, hsettles⟩
        exact ⟨e, List.mem_append_right _ he, hsettles⟩

/-- The pipeline settles the probe of a pair when the loop reaches a place whose call counts
and is recorded for the pair. -/
theorem pipeline_settles {p : Pair} {r : Request} {cs : List Target} :
    (∃ e ∈ pipeline r cs, Effect.Settles p e) ↔ proceeds r cs = true ∧
      ∃ place, Failover.Reaches (visit r (decide (cs.length = 1))) (places r cs) place ∧
        recordPair r place.target = p ∧
        placeCounts r (decide (cs.length = 1)) place = true := by
  unfold pipeline
  cases proceeds r cs with
  | false =>
    simp only [Bool.false_eq_true, if_false, false_and, iff_false]
    exact silent_settles_nothing (earlyCharges_silent r cs)
  | true =>
    simp only [if_true, true_and]
    unfold upstream
    constructor
    · rintro ⟨e, he, hsettles⟩
      rcases Failover.mem_walk.mp he with ⟨place, hreaches, he⟩ | ⟨-, he⟩
      · exact ⟨place, hreaches, visit_settles.mp ⟨e, he, hsettles⟩⟩
      · exact absurd ⟨e, he, hsettles⟩ (silent_settles_nothing (exhaustedEffects_silent r cs))
    · rintro ⟨place, hreaches, hplace⟩
      obtain ⟨e, he, hsettles⟩ := visit_settles.mpr hplace
      exact ⟨e, hreaches.subset_walk he, hsettles⟩

theorem recordPair_eq_askPair {r : Request} {s t : Target} :
    recordPair r s = askPair r t ↔ currentModel r = r.route.name ∧ s.endpoint = t.endpoint := by
  simp [recordPair, askPair]

/-- With all answers there, a target is settled exactly when something will be recorded for
the entry that the breaker was asked for. -/
theorem settles_iff {r : Request} {snapshot : List (Target × Bool)} {t : Target} :
    Settles r snapshot t ↔ ∃ op ∈ afterAnswers r snapshot, Records (askPair r t) op := by
  have hqueries : (∃ op ∈ afterAnswers r snapshot, Records (askPair r t) op) ↔
      ∃ op ∈ (pipeline r (orderCandidates r.balance (lbPolicyOf r.route.lbPolicy)
        snapshot)).filterMap breakerOp, Records (askPair r t) op := by
    constructor
    · rintro ⟨op, hop, hrecords⟩
      rcases List.mem_append.mp hop with hop | hop
      · split at hop
        · cases hop
        · obtain ⟨a, -, rfl⟩ := List.mem_map.mp hop
          exact hrecords.elim
      · exact ⟨op, hop, hrecords⟩
    · rintro ⟨op, hop, hrecords⟩
      exact ⟨op, List.mem_append_right _ hop, hrecords⟩
  rw [hqueries, exists_op_iff, pipeline_settles]
  unfold Settles
  dsimp only
  simp only [recordPair_eq_askPair]
  constructor
  · rintro ⟨hmodel, hproceeds, place, hreaches, hend, hcounts⟩
    exact ⟨hproceeds, place, hreaches, ⟨hmodel, hend⟩, hcounts⟩
  · rintro ⟨hproceeds, place, hreaches, ⟨hmodel, hend⟩, hcounts⟩
    exact ⟨hmodel, hproceeds, place, hreaches, hend, hcounts⟩

/-- An operation of a running request makes no probe, and one that records leaves none. -/
theorem op_probing {cb : Breaker} {now : ℤ} {op : Op} {p : Pair} (hfits : Fits op.pair)
    (hallow : ∀ q, op ≠ .allow q) {e' : CbEntry}
    (he' : findEntry (CircuitBreaker.step cb (now, op)) p = some e') (hprobing : Probing e') :
    (∃ e, findEntry cb p = some e ∧ Probing e) ∧ ¬Records p op := by
  cases op with
  | allow q => exact absurd rfl (hallow q)
  | success q =>
    refine ⟨onEntry_probing successEntry_pair he' hprobing
      fun e h => absurd h (successEntry_not_probing e), ?_⟩
    rintro rfl
    rw [show CircuitBreaker.step cb (now, .success q) = onEntry cb q successEntry from rfl,
      findEntry_onEntry cb q successEntry_pair] at he'
    obtain ⟨e, -, rfl⟩ := Option.map_eq_some_iff.mp he'
    exact successEntry_not_probing e hprobing
  | failure q httpStatus =>
    have hfits : Fits q := hfits
    simp only [CircuitBreaker.step, cbRecordFailure] at he'
    split at he'
    · refine ⟨onEntryOrNew_probing hfits (failureEntry_pair _ _ now) he' hprobing
        fun e h => absurd h (failureEntry_not_probing _ _ now e), ?_⟩
      rintro ⟨rfl, -⟩
      rw [findEntry_onEntryOrNew cb hfits (failureEntry_pair _ _ now)] at he'
      obtain rfl := Option.some.inj he'
      exact failureEntry_not_probing _ _ now _ hprobing
    · rename_i hclient
      exact ⟨⟨e', he', hprobing⟩, fun h => hclient h.2⟩
  | slaSample q s =>
    refine ⟨?_, id⟩
    simp only [CircuitBreaker.step, cbRecordSlaSample] at he'
    split at he'
    · exact ⟨e', he', hprobing⟩
    · exact onEntryOrNew_probing hfits (slaSampleEntry_pair _ now s) he' hprobing
        fun e h => slaSampleEntry_probing h
  | query q =>
    exact ⟨onEntry_probing (updateStateOnTime_pair now) he' hprobing
      fun e h => updateStateOnTime_probing h, id⟩

/-- Asking makes a probe only where the probe is granted. -/
theorem allow_probing {cb : Breaker} {now : ℤ} {q p : Pair} (hq : Fits q) {e' : CbEntry}
    (he' : findEntry (cbAllowRequest cb now q).1 p = some e') (hprobing : Probing e') :
    (q = p ∧ grantsProbe cb now q) ∨ ∃ e, findEntry cb p = some e ∧ Probing e := by
  by_cases hgrants : q = p ∧ grantsProbe cb now q
  · exact Or.inl hgrants
  · refine Or.inr ?_
    by_cases hqp : q = p
    · subst hqp
      rw [cbAllowRequest] at he'
      dsimp only at he'
      rw [findEntry_onEntryOrNew cb hq (allowEntry_pair now)] at he'
      obtain rfl := Option.some.inj he'
      apply entryOrNew_probing
      apply @updateStateOnTime_probing now
      have hnot : ¬grantsProbe cb now q := fun h => hgrants ⟨rfl, h⟩
      unfold allowEntry allowNow at hprobing
      unfold grantsProbe at hnot
      split at hprobing
      · exact hprobing
      · exact hprobing
      · rename_i hhalf
        split at hprobing
        · exact hprobing
        · rename_i hflag
          exact absurd ⟨hhalf, by simpa using hflag⟩ hnot
      · exact hprobing
    · rw [cbAllowRequest] at he'
      dsimp only at he'
      rw [findEntry_onEntryOrNew_ne cb hqp (by rwa [hq]) (allowEntry_pair now)] at he'
      exact ⟨e', he', hprobing⟩

theorem allow_of_grants {cb : Breaker} {now : ℤ} {p : Pair} (h : grantsProbe cb now p) :
    (cbAllowRequest cb now p).2 = true := by
  rw [cbAllowRequest]
  dsimp only
  unfold allowEntry allowNow
  rw [h.1]
  dsimp only
  rw [if_neg (by simp [h.2])]

/-- The operations of a running request touch entries that store their names whole, and ask
for nothing. -/
def Pending.OpsFit (q : Pending) : Prop :=
  ∀ ops, q.phase = .running ops → ∀ op ∈ ops, OpFits op

theorem afterAnswers_fit {r : Request} {snapshot : List (Target × Bool)} {op : Op}
    (h : op ∈ afterAnswers r snapshot) : OpFits op := by
  rcases List.mem_append.mp h with h | h
  · split at h
    · cases h
    · obtain ⟨a, -, rfl⟩ := List.mem_map.mp h
      exact ⟨askPair_fits r a.1, by simp⟩
  · exact pipeline_fit h

theorem begin_fit {r : Request} {q : Pending} (h : begin r = some q) : q.OpsFit := by
  unfold begin at h
  split at h
  · cases h
  · split at h
    · cases h
      rintro ops ⟨⟩ op hop
      exact pipeline_fit hop
    · cases h
      rintro ops ⟨⟩

theorem next_fit {cb : Breaker} {now : ℤ} {q q' : Pending} (hfit : q.OpsFit)
    (h : (q.next cb now).2 = some q') : q'.OpsFit := by
  unfold Pending.next at h
  split at h
  · cases h
    rintro ops ⟨⟩
  · cases h
    rintro ops ⟨⟩ op hop
    exact afterAnswers_fit hop
  · rename_i op ops hphase
    cases h
    rintro _ ⟨⟩ op' hop
    exact hfit _ hphase op' (List.mem_cons_of_mem _ hop)
  · cases h

/-- Where a probe is out after an operation of a request, either the request owns it, or it
was out before and the request did not own it. -/
theorem next_owns {cb : Breaker} {now : ℤ} {q : Pending} (hfit : q.OpsFit)
    (hok : ∀ asked t left, q.phase = .selecting asked (t :: left) →
      grantsProbe cb now (askPair q.request t) → ∀ answers : List Bool,
        answers.length = left.length →
          Settles q.request (asked ++ (t, true) :: left.zip answers) t)
    {p : Pair} {e' : CbEntry} (he' : findEntry (q.next cb now).1 p = some e')
    (hprobing : Probing e') :
    (∃ q', (q.next cb now).2 = some q' ∧ q'.Owns p) ∨
      ((∃ e, findEntry cb p = some e ∧ Probing e) ∧ ¬q.Owns p) := by
  obtain ⟨r, probes, phase⟩ := q
  cases phase with
  | selecting asked left =>
    cases left with
    | nil =>
      by_cases howns : Pending.Owns p ⟨r, probes, .selecting asked []⟩
      · refine Or.inl ⟨_, rfl, howns.1, ?_⟩
        have hwill := howns.2 [] rfl
        rw [List.zip_nil_left, List.append_nil] at hwill
        exact hwill
      · exact Or.inr ⟨⟨e', he', hprobing⟩, howns⟩
    | cons t left =>
      rcases allow_probing (askPair_fits r t) he' hprobing with ⟨hp, hgrants⟩ | hbefore
      · refine Or.inl ⟨_, rfl, ?_, ?_⟩
        · dsimp only
          rw [if_pos hgrants, hp]
          exact List.mem_cons_self
        · intro answers hlen
          have hsettles := settles_iff.mp (hok asked t left rfl hgrants answers hlen)
          dsimp only
          rw [allow_of_grants hgrants, List.append_assoc, ← hp]
          exact hsettles
      · by_cases howns : Pending.Owns p ⟨r, probes, .selecting asked (t :: left)⟩
        · refine Or.inl ⟨_, rfl, ?_, ?_⟩
          · dsimp only
            split
            · exact List.mem_cons_of_mem _ howns.1
            · exact howns.1
          · intro answers hlen
            have hwill := howns.2 ((cbAllowRequest cb now (askPair r t)).2 :: answers)
              (by simp [hlen])
            dsimp only
            rw [List.append_assoc]
            exact hwill
        · exact Or.inr ⟨hbefore, howns⟩
  | running ops =>
    cases ops with
    | nil =>
      refine Or.inr ⟨⟨e', he', hprobing⟩, ?_⟩
      rintro ⟨-, op, hop, -⟩
      cases hop
    | cons op ops =>
      have hop := hfit _ rfl op List.mem_cons_self
      obtain ⟨hbefore, hnot⟩ := op_probing hop.1 hop.2 he' hprobing
      by_cases howns : Pending.Owns p ⟨r, probes, .running (op :: ops)⟩
      · obtain ⟨hprobe, op', hop', hrecords⟩ := howns
        rcases List.mem_cons.mp hop' with rfl | hop'
        · exact absurd hrecords hnot
        · exact Or.inl ⟨_, rfl, hprobe, op', hop', hrecords⟩
      · exact Or.inr ⟨hbefore, howns⟩

/-- What a run keeps. -/
structure Inv (G : Gateway) : Prop where
  owned : ProbesOwned G
  fit : ∀ q ∈ G.pending, q.OpsFit

theorem idle_inv (failureThreshold cooloffSec : ℕ) (slaConfigs : List ModelSlaCfg)
    (h : 0 < failureThreshold) : Inv (idle failureThreshold cooloffSec slaConfigs h) where
  owned := fun p e he _ => by cases he
  fit := fun q hq => by cases hq

theorem Inv.arrive {G : Gateway} (h : Inv G) (now : ℤ) (r : Request) :
    Inv (step G (now, .arrive r)) where
  owned := by
    intro p e he hprobing
    obtain ⟨q, hq, howns⟩ := h.owned p e he hprobing
    exact ⟨q, List.mem_append_left _ hq, howns⟩
  fit := by
    intro q hq
    rcases List.mem_append.mp hq with hq | hq
    · exact h.fit q hq
    · exact begin_fit (Option.mem_toList.mp hq)

theorem Inv.query {G : Gateway} (h : Inv G) (now : ℤ) (p : Pair) :
    Inv (step G (now, .query p)) where
  owned := by
    intro p' e' he' hprobing
    obtain ⟨e, he, hprobing⟩ := onEntry_probing (updateStateOnTime_pair now) he' hprobing
      fun e h => updateStateOnTime_probing h
    exact h.owned p' e he hprobing
  fit := h.fit

theorem step_advance_none {G : Gateway} {i : ℕ} (h : G.pending[i]? = none) (now : ℤ) :
    step G (now, .advance i) = G := by
  simp only [step, h]

theorem step_advance_some {G : Gateway} {i : ℕ} {q : Pending} (h : G.pending[i]? = some q)
    (now : ℤ) : step G (now, .advance i) =
      ⟨(q.next G.breaker now).1,
        match (q.next G.breaker now).2 with
        | some q' => G.pending.set i q'
        | none => G.pending.eraseIdx i⟩ := by
  simp only [step, h]

theorem Inv.advance {G : Gateway} (h : Inv G) (now : ℤ) (i : ℕ)
    (hok : StepOk G (now, .advance i)) : Inv (step G (now, .advance i)) := by
  cases hi : G.pending[i]? with
  | none =>
    rw [step_advance_none hi]
    exact h
  | some q =>
    rw [step_advance_some hi]
    have hq : q ∈ G.pending := List.mem_of_getElem? hi
    have hlt : i < G.pending.length := (List.getElem?_eq_some_iff.mp hi).1
    constructor
    · intro p e' he' hprobing
      rcases next_owns (h.fit q hq) (hok q (by rw [hi]; rfl)) he' hprobing with
        ⟨q', hq', howns⟩ | ⟨⟨e, he, hbefore⟩, hnot⟩
      · refine ⟨q', ?_, howns⟩
        dsimp only
        rw [hq']
        exact List.mem_set hlt q'
      · obtain ⟨q₀, hq₀, howns⟩ := h.owned p e he hbefore
        obtain ⟨j, hj⟩ := List.mem_iff_getElem?.mp hq₀
        have hji : j ≠ i := by
          rintro rfl
          rw [hi] at hj
          cases hj
          exact hnot howns
        refine ⟨q₀, ?_, howns⟩
        dsimp only
        split
        · refine List.mem_iff_getElem?.mpr ⟨j, ?_⟩
          rw [List.getElem?_set_ne (Ne.symm hji)]
          exact hj
        · exact List.mem_eraseIdx_iff_getElem?.mpr ⟨j, hji, hj⟩
    · intro q₀ hq₀
      dsimp only at hq₀
      split at hq₀
      · rename_i q' hq'
        rcases List.mem_or_eq_of_mem_set hq₀ with hq₀ | rfl
        · exact h.fit q₀ hq₀
        · exact next_fit (h.fit q hq) hq'
      · exact h.fit q₀ (List.mem_of_mem_eraseIdx hq₀)

theorem Inv.step {G : Gateway} (h : Inv G) {event : ℤ × Event} (hok : StepOk G event) :
    Inv (step G event) := by
  obtain ⟨now, event⟩ := event
  cases event with
  | arrive r => exact h.arrive now r
  | advance i => exact h.advance now i hok
  | query p => exact h.query now p

theorem Inv.run {G : Gateway} (h : Inv G) {events : List (ℤ × Event)} (hok : RunOk G events) :
    Inv (run G events) := by
  induction events generalizing G with
  | nil => exact h
  | cons event events ih => exact ih (h.step hok.1) hok.2

theorem runOk_append {G : Gateway} {es fs : List (ℤ × Event)} (hes : RunOk G es)
    (hfs : RunOk (run G es) fs) : RunOk G (es ++ fs) := by
  induction es generalizing G with
  | nil => exact hfs
  | cons e es ih => exact ⟨hes.1, ih hes.2 hfs⟩

theorem runOk_of_append {G : Gateway} {es fs : List (ℤ × Event)} (h : RunOk G (es ++ fs)) :
    RunOk G es := by
  induction es generalizing G with
  | nil => trivial
  | cons e es ih => exact ⟨h.1, ih h.2⟩

/-- Every probe that is out is owned, in every state of a run. -/
def AlwaysOwned (G : Gateway) (events : List (ℤ × Event)) : Prop :=
  ∀ before after, events = before ++ after → ProbesOwned (run G before)

/-- If every request that is given a probe comes to its target and learns something about it,
no probe is ever lost. -/
theorem probes_owned (failureThreshold cooloffSec : ℕ) (slaConfigs : List ModelSlaCfg)
    (hpos : 0 < failureThreshold) {events : List (ℤ × Event)}
    (hok : RunOk (idle failureThreshold cooloffSec slaConfigs hpos) events) :
    AlwaysOwned (idle failureThreshold cooloffSec slaConfigs hpos) events := by
  rintro before after rfl
  exact ((idle_inv failureThreshold cooloffSec slaConfigs hpos).run (runOk_of_append hok)).owned

theorem next_request {cb : Breaker} {now : ℤ} {q q' : Pending}
    (h : (q.next cb now).2 = some q') : q'.request = q.request := by
  unfold Pending.next at h
  split at h
  · cases h
    rfl
  · cases h
    rfl
  · cases h
    rfl
  · cases h

theorem begin_request {r : Request} {q : Pending} (h : begin r = some q) : q.request = r := by
  unfold begin at h
  split at h
  · cases h
  · split at h
    · cases h
      rfl
    · cases h
      rfl

/-- Only what has arrived is unfinished. -/
theorem run_request {G : Gateway} {events : List (ℤ × Event)} {P : Request → Prop}
    (hG : ∀ q ∈ G.pending, P q.request)
    (harrive : ∀ now r, (now, Event.arrive r) ∈ events → P r) :
    ∀ q ∈ (run G events).pending, P q.request := by
  induction events generalizing G with
  | nil => exact hG
  | cons event events ih =>
    refine ih ?_ fun now r h => harrive now r (List.mem_cons_of_mem _ h)
    obtain ⟨now, event⟩ := event
    cases event with
    | arrive r =>
      intro q hq
      rcases List.mem_append.mp hq with hq | hq
      · exact hG q hq
      · rw [begin_request (Option.mem_toList.mp hq)]
        exact harrive now r List.mem_cons_self
    | advance i =>
      cases hi : G.pending[i]? with
      | none =>
        rw [step_advance_none hi]
        exact hG
      | some q₀ =>
        rw [step_advance_some hi]
        intro q hq
        dsimp only at hq
        split at hq
        · rename_i q' hq'
          rcases List.mem_or_eq_of_mem_set hq with hq | rfl
          · exact hG q hq
          · rw [next_request hq']
            exact hG q₀ (List.mem_of_getElem? hi)
        · exact hG q (List.mem_of_mem_eraseIdx hq)
    | query p => exact hG

/-- A model with one target. -/
theorem sampleName_le : (Text.ascii "gpt-4o").length ≤ 127 := by decide +kernel

theorem sampleRequested_le : (Text.ascii "gpt-4o").length ≤ 63 := by decide +kernel

theorem sampleEndpoint_le : (Text.ascii "https://a").length ≤ 511 := by decide +kernel

theorem samplePlugin_le : ∀ m ∈ (none : Option Text.Bytes), m.length ≤ 63 :=
  fun _ h => absurd h (Option.not_mem_none _)

def sampleRoute : Route :=
  ⟨Text.ascii "gpt-4o", Text.ascii "openai", Text.ascii "https://a", [], [], 0, false,
    sampleName_le, sampleEndpoint_le, Nat.zero_le _⟩

def sampleTarget : Target :=
  ⟨Text.ascii "openai", Text.ascii "https://a", 1, 0, 0, sampleEndpoint_le⟩

def sampleCall (status : ℤ) : Call := ⟨0, status, true, false, ⟨7, 5, true, 200, false⟩⟩

def sampleAttempt (status : ℤ) : Attempt :=
  ⟨true, true, true, sampleCall status, sampleCall status, []⟩

/-- A chat request that its upstream answers with a status. -/
def sampleRequest (status : ℤ) (cached : Option (ℤ × ℤ)) : Request where
  endpoint := .chat
  streaming := false
  requestedModel := Text.ascii "gpt-4o"
  route := sampleRoute
  targetProvider := []
  balance := ⟨fun _ => 0, fun _ => 0, fun _ => 0, fun _ => 0, fun _ => 0, fun _ _ => 0⟩
  pluginModel := none
  filter := .continues
  cached := cached
  hedge := ⟨false, false, sampleCall status, none⟩
  attempts := fun _ => sampleAttempt status
  budgetOn := true
  requested_le := sampleRequested_le
  plugin_le := samplePlugin_le

/-- One failure opens for thirty seconds. -/
def sampleGateway : Gateway := idle 1 30 [] Nat.one_pos

/-- A request fails, and after the cool-off another one comes. -/
def sampleStart (r : Request) : List (ℤ × Event) :=
  [(0, .arrive (sampleRequest 503 none)), (0, .advance 0), (0, .advance 0), (0, .advance 0),
    (0, .advance 0), (0, .advance 0), (30, .arrive r)]

/-- It asks for its target, is given the probe, and goes on. -/
def sampleEnd : List (ℤ × Event) := [(30, .advance 0), (30, .advance 0)]

/-- A request is not given a probe by its next operation. -/
def Pending.getsNothing (cb : Breaker) (now : ℤ) (q : Pending) : Bool :=
  match q.phase with
  | .selecting _ (t :: _) => !decide (grantsProbe cb now (askPair q.request t))
  | _ => true

/-- No probe is granted at a step. -/
def grantsNothing (G : Gateway) : ℤ × Event → Bool
  | (now, .advance i) => G.pending[i]?.all (Pending.getsNothing G.breaker now)
  | _ => true

def runGrantsNothing (G : Gateway) : List (ℤ × Event) → Bool
  | [] => true
  | event :: events => grantsNothing G event && runGrantsNothing (step G event) events

theorem runOk_of_grantsNothing {G : Gateway} {events : List (ℤ × Event)}
    (h : runGrantsNothing G events = true) : RunOk G events := by
  induction events generalizing G with
  | nil => trivial
  | cons event events ih =>
    obtain ⟨hevent, hevents⟩ := Bool.and_eq_true_iff.mp h
    refine ⟨?_, ih hevents⟩
    obtain ⟨now, event⟩ := event
    cases event with
    | arrive r => trivial
    | query p => trivial
    | advance i =>
      intro q hq asked t left hphase hgrants
      have hi : G.pending[i]? = some q := hq
      simp only [grantsNothing, hi, Option.all_some, Pending.getsNothing, hphase,
        Bool.not_eq_true', decide_eq_false_iff_not] at hevent
      exact absurd hgrants hevent

theorem sample_settles {status : ℤ} (h : status = 503 ∨ status = 200) :
    Settles (sampleRequest status none) [(sampleTarget, true)] sampleTarget := by
  have horder : orderCandidates (sampleRequest status none).balance
      (lbPolicyOf (sampleRequest status none).route.lbPolicy) [(sampleTarget, true)] =
      [sampleTarget] := by
    change orderCandidates
      ⟨fun _ => 0, fun _ => 0, fun _ => 0, fun _ => 0, fun _ => 0, fun _ _ => 0⟩
      (lbPolicyOf []) [(sampleTarget, true)] = [sampleTarget]
    decide +kernel
  unfold Settles
  dsimp only
  rw [horder]
  refine ⟨rfl, ?_, .single 0 sampleTarget (sampleAttempt status), ?_, rfl, ?_⟩
  · rcases h with rfl | rfl
    · decide +kernel
    · decide +kernel
  · have hplaces : places (sampleRequest status none) [sampleTarget] =
        [.single 0 sampleTarget (sampleAttempt status)] := by
      unfold places
      rw [if_neg (by simp [hedged, sampleRequest, sampleRoute])]
      rfl
    rw [hplaces]
    exact .head
  · rcases h with rfl | rfl
    · decide +kernel
    · decide +kernel

/-- The second request is answered by its upstream. -/
theorem probes_owned_sample : AlwaysOwned sampleGateway
    (sampleStart (sampleRequest 200 none) ++ sampleEnd) := by
  refine probes_owned 1 30 [] (by decide)
    (runOk_append (runOk_of_grantsNothing ?_) ⟨?_, runOk_of_grantsNothing ?_⟩)
  · decide +kernel
  · intro q hq asked t left hphase _ answers _
    have hphases : (run sampleGateway (sampleStart (sampleRequest 200 none))).pending.map
        Pending.phase = [.selecting [] [sampleTarget]] := by
      decide +kernel
    have hq : q ∈ (run sampleGateway (sampleStart (sampleRequest 200 none))).pending :=
      List.mem_of_getElem? hq
    have hmem := List.mem_map_of_mem (f := Pending.phase) hq
    rw [hphases, hphase] at hmem
    obtain ⟨rfl, rfl, rfl⟩ : asked = [] ∧ t = sampleTarget ∧ left = [] := by simpa using hmem
    have hrequest : ∃ status, (status = 503 ∨ status = 200) ∧
        q.request = sampleRequest status none := by
      refine run_request (P := fun r => ∃ status, (status = 503 ∨ status = 200) ∧
        r = sampleRequest status none) (by rintro q ⟨⟩) ?_ q hq
      intro now r h
      simp only [sampleStart, List.mem_cons, Prod.mk.injEq, Event.arrive.injEq, reduceCtorEq,
        and_false, false_or, List.not_mem_nil, or_false] at h
      rcases h with ⟨-, rfl⟩ | ⟨-, rfl⟩
      · exact ⟨503, Or.inl rfl, rfl⟩
      · exact ⟨200, Or.inr rfl, rfl⟩
    obtain ⟨status, hstatus, hr⟩ := hrequest
    rw [hr, List.zip_nil_left]
    exact sample_settles hstatus
  · decide +kernel

/-- The second request is answered from the cache: the probe that it was given stays out. -/
theorem probes_not_owned : ¬AlwaysOwned sampleGateway
    (sampleStart (sampleRequest 200 (some (7, 5))) ++ sampleEnd) := by
  intro howned
  have hnow := howned _ [] (List.append_nil _).symm
  have hentry : (findEntry (run sampleGateway
      (sampleStart (sampleRequest 200 (some (7, 5))) ++ sampleEnd)).breaker
      (askPair (sampleRequest 200 none) sampleTarget)).map
        (fun e => (e.state, e.halfOpenProbeActive)) = some (.halfOpen, true) := by
    decide +kernel
  have hphases : (run sampleGateway
      (sampleStart (sampleRequest 200 (some (7, 5))) ++ sampleEnd)).pending.map Pending.phase =
      [.running []] := by
    decide +kernel
  obtain ⟨e, he, hprobing⟩ := Option.map_eq_some_iff.mp hentry
  obtain ⟨q, hq, -, hwill⟩ := hnow _ e he (Prod.mk.inj hprobing)
  have hmem := List.mem_map_of_mem (f := Pending.phase) hq
  rw [hphases, List.mem_singleton] at hmem
  unfold Pending.WillRecord at hwill
  rw [hmem] at hwill
  obtain ⟨op, hop, -⟩ := hwill
  cases hop

end Aigate.ProbeOwnership
