import Aigate.CircuitBreaker
import Aigate.Failover
import Aigate.ModelRouter

/-!
# The request pipelines

What a request does after its candidates are chosen: the stages that may end it early, and
the loop over the candidates, with one hedged call where the model asks for it. A request is
given with the answers that the rest of the gateway and the upstreams will give it; the
result is what it leaves behind, in order: operations of the circuit breaker, and charges to
the usage meter, the budget and the daily token quota. A charge says which candidate it is
for. The answer to the client and the cost in dollars are left out.
-/
namespace Aigate.Pipelines
open Text CircuitBreaker ModelRouter

inductive Endpoint where
  | chat
  | embeddings
  | responses
  | messages
  | generate
  deriving DecidableEq, Repr

inductive Adapter where
  | openai
  | anthropic
  | gemini
  deriving DecidableEq, Repr

/-- `provider_find`. -/
def providerFind (provider : Bytes) : Option Adapter :=
  if provider = ascii "openai" ∨ provider = ascii "ollama" ∨ provider = ascii "azure" ∨
      provider = ascii "deepseek" ∨ provider = ascii "siliconflow" ∨ provider = ascii "vllm" then
    some .openai
  else if provider = ascii "anthropic" then some .anthropic
  else if provider = ascii "gemini" ∨ provider = ascii "google" then some .gemini
  else none

/-- The pipeline finds the functions that it needs in the adapter of a provider; the native
endpoints look for none. -/
def adapterServes : Endpoint → Bytes → Bool
  | .chat, p => (providerFind p).isSome
  | .embeddings, p => decide (providerFind p = some .openai ∨ providerFind p = some .gemini)
  | .responses, p => decide (providerFind p = some .openai)
  | .messages, _ => true
  | .generate, _ => true

/-- The tokens of a completion, what its translation yields, and the verdict of the outbound
filters on it. -/
structure Completion where
  ptok : ℤ
  ctok : ℤ
  parses : Bool
  parsedStatus : ℤ
  outboundStops : Bool
  deriving DecidableEq

/-- How an upstream call ends; headers are sent to the client when a stream brings a chunk
that the bridge can use. -/
structure Call where
  urc : ℤ
  status : ℤ
  hasBody : Bool
  headersSent : Bool
  completion : Completion
  deriving DecidableEq

/-- What a candidate meets when its turn comes; a lone candidate may be called twice. -/
structure Attempt where
  acquired : Bool
  built : Bool
  bridged : Bool
  first : Call
  second : Call
  samples : List SlaSample

/-- The race of the two first candidates. -/
structure HedgeRun where
  ready : Bool
  secondWins : Bool
  winner : Call
  loser : Option Call

/-- The inbound filters; a plugin that aborts a request meters nothing. -/
inductive FilterVerdict where
  | continues
  | blocks
  | aborts
  deriving DecidableEq, Repr

structure Request where
  endpoint : Endpoint
  streaming : Bool
  requestedModel : Bytes
  route : Route
  targetProvider : Bytes
  balance : Balance
  pluginModel : Option Bytes
  filter : FilterVerdict
  cached : Option (ℤ × ℤ)
  hedge : HedgeRun
  attempts : ℕ → Attempt
  budgetOn : Bool
  requested_le : requestedModel.length ≤ 63
  plugin_le : ∀ m ∈ pluginModel, m.length ≤ 63

deriving instance DecidableEq for Op

inductive Effect where
  | breaker (op : Op)
  | usage (source : Option ℕ) (status ptok ctok : ℤ)
  | budget (source : Option ℕ) (tokens : ℤ)
  | quota (source : Option ℕ) (tokens : ℤ)
  deriving DecidableEq

def breakerOp : Effect → Option Op
  | .breaker op => some op
  | _ => none

/-- `PIPE_UPSTREAM`. -/
def pipeUpstream : ℤ := 502

def isFailover (c : Call) : Bool :=
  decide (c.urc ≠ 0) || decide (c.status = 429) ||
    (decide (500 ≤ c.status) && decide (c.status ≤ 504))

inductive Outcome where
  | completed
  | interrupted
  | failed (passOn : Bool)
  deriving DecidableEq

def syncOutcome (c : Call) : Outcome :=
  if isFailover c = false ∧ c.status < 400 then .completed else .failed (isFailover c)

def streamOutcome (c : Call) : Outcome :=
  if c.headersSent = true then
    if c.urc ≠ 0 then .interrupted else .completed
  else .failed (isFailover c || decide (c.status < 400))

def outcome (streaming : Bool) (c : Call) : Outcome :=
  if streaming = true then streamOutcome c else syncOutcome c

/-- A lone candidate is called again after a short pause. -/
def retryDue (streaming : Bool) (c : Call) : Bool :=
  if streaming = true then !c.headersSent && (decide (c.urc ≠ 0) || decide (500 ≤ c.status))
  else decide (c.urc = 0) && decide (500 ≤ c.status)

def finalCall (streaming alone : Bool) (a : Attempt) : Call :=
  if alone = true ∧ retryDue streaming a.first = true then a.second else a.first

/-- A candidate is passed over without a call. -/
def skipped (e : Endpoint) (streaming : Bool) (t : Target) (a : Attempt) : Bool :=
  match e with
  | .chat =>
    !adapterServes .chat t.provider || !a.acquired || !a.built || (streaming && !a.bridged)
  | .embeddings => !adapterServes .embeddings t.provider || !a.acquired || !a.built
  | .responses => !adapterServes .responses t.provider || !a.built || (streaming && !a.bridged)
  | .messages => false
  | .generate => false

/-- Embeddings are never streamed. -/
def streams (r : Request) : Bool := r.streaming && decide (r.endpoint ≠ .embeddings)

/-- `q->model` after the inbound plugins. -/
def currentModel (r : Request) : Bytes :=
  match r.endpoint with
  | .chat => r.pluginModel.getD r.route.name
  | .embeddings => r.pluginModel.getD r.route.name
  | _ => r.route.name

/-- The entry that the outcome of a call is recorded for. -/
def recordPair (r : Request) (t : Target) : Pair := ⟨currentModel r, t.endpoint⟩

/-- The entry that the breaker is asked for. -/
def askPair (r : Request) (t : Target) : Pair := ⟨r.route.name, t.endpoint⟩

/-- The three charges of a completion. -/
def charge (r : Request) (source : Option ℕ) (status ptok ctok : ℤ) : List Effect :=
  [.usage source status ptok ctok] ++
    (if r.budgetOn = true then [.budget source (ptok + ctok)] else []) ++
    [.quota source (ptok + ctok)]

/-- `settle_success`. -/
def settleSuccess (r : Request) (source : Option ℕ) (status ptok ctok : ℤ) : List Effect :=
  [.usage source status ptok ctok] ++
    (if r.budgetOn = true then [.budget source (ptok + ctok)] else []) ++
    (if 0 < ptok + ctok then [.quota source (ptok + ctok)] else [])

/-- The charges of a call that ended well. -/
def completedCharges (r : Request) (i : ℕ) (c : Call) : List Effect :=
  let k := c.completion
  if streams r = true then
    charge r (some i) (if 0 < c.status then c.status else 200) k.ptok k.ctok
  else
    match r.endpoint with
    | .chat =>
      if k.parses = false then []
      else if k.parsedStatus = 200 ∧ k.outboundStops = true then [.usage (some i) 400 0 0]
      else charge r (some i) k.parsedStatus k.ptok k.ctok
    | .embeddings =>
      if k.parses = false then [] else settleSuccess r (some i) k.parsedStatus k.ptok 0
    | _ => charge r (some i) c.status k.ptok k.ctok

/-- The charges of a stream that broke off. -/
def interruptedCharges (r : Request) (i : ℕ) (c : Call) : List Effect :=
  settleSuccess r (some i) pipeUpstream c.completion.ptok c.completion.ctok ++
    (if r.endpoint = .chat then [.quota (some i) 0] else [])

/-- An error of the upstream that is handed to the client, if it has a body. -/
def refusedCharges (i : ℕ) (c : Call) : List Effect :=
  [.usage (some i) (if c.hasBody = true then c.status else pipeUpstream) 0 0]

/-- A call that was made, for the target it was made to. -/
def callEffects (r : Request) (i : ℕ) (t : Target) (c : Call) : List Effect × Bool :=
  match outcome (streams r) c with
  | .completed => (.breaker (.success (recordPair r t)) :: completedCharges r i c, false)
  | .interrupted => (interruptedCharges r i c, false)
  | .failed passOn =>
    (.breaker (.failure (recordPair r t) c.status) :: (if passOn then [] else refusedCharges i c),
      passOn)

/-- A place of the loop, with the number of its candidate: the winner of the race, or one
candidate. -/
inductive Place where
  | race (i : ℕ) (t : Target) (c : Call)
  | single (i : ℕ) (t : Target) (a : Attempt)

def slaEffects (r : Request) (t : Target) (a : Attempt) : List Effect :=
  if r.endpoint = .chat then
    a.samples.map fun s => .breaker (.slaSample ⟨r.requestedModel, t.endpoint⟩ s)
  else []

def visit (r : Request) (alone : Bool) : Place → List Effect × Bool
  | .race i t c => callEffects r i t c
  | .single i t a =>
    if skipped r.endpoint (streams r) t a = true then ([], true)
    else
      (slaEffects r t a ++ (callEffects r i t (finalCall (streams r) alone a)).1,
        (callEffects r i t (finalCall (streams r) alone a)).2)

/-- The two first candidates are raced. -/
def hedged (r : Request) (cs : List Target) : Bool :=
  decide (r.endpoint = .chat) && !streams r && r.route.hedgedEnabled &&
    decide (2 ≤ cs.length) && (cs.take 2).all (fun t => adapterServes .chat t.provider) &&
    r.hedge.ready

/-- The result of the race; without a body it counts as a transport error. -/
def raceCall (h : HedgeRun) : Call :=
  { h.winner with urc := if h.winner.urc = 0 ∧ h.winner.hasBody = true then 0 else -502 }

def singles (r : Request) (cs : List Target) : List Place :=
  cs.zipIdx.map fun p => .single p.2 p.1 (r.attempts p.2)

def winnerIndex (h : HedgeRun) : ℕ := if h.secondWins = true then 1 else 0

/-- The places of the loop. -/
def places (r : Request) (cs : List Target) : List Place :=
  if hedged r cs = true then
    match cs[winnerIndex r.hedge]? with
    | some t => .race (winnerIndex r.hedge) t (raceCall r.hedge) :: (singles r cs).drop 2
    | none => singles r cs
  else singles r cs

def Place.index : Place → ℕ
  | .race i _ _ => i
  | .single i _ _ => i

def Place.target : Place → Target
  | .race _ t _ => t
  | .single _ t _ => t

def Place.isSingle : Place → Bool
  | .race _ _ _ => false
  | .single _ _ _ => true

/-- The candidate has an adapter and no free slot. -/
def noSlot (e : Endpoint) : Place → Bool
  | .race _ _ _ => false
  | .single _ t a => adapterServes e t.provider && !a.acquired

/-- After the last candidate; the race does not count as one. -/
def exhaustedEffects (r : Request) (cs : List Target) : List Effect :=
  let loop := (places r cs).filter Place.isSingle
  if (r.endpoint = .chat ∨ r.endpoint = .embeddings) ∧ loop ≠ [] ∧
      loop.all (noSlot r.endpoint) = true then [.usage none 429 0 0]
  else [.usage none pipeUpstream 0 0]

/-- The loop over the candidates. -/
def upstream (r : Request) (cs : List Target) : List Effect :=
  Failover.walk (visit r (decide (cs.length = 1))) (exhaustedEffects r cs) (places r cs)

/-- The request goes on to the loop: it has a candidate, no filter stops it, some candidate
can be served, and the cache has no answer. -/
def proceeds (r : Request) (cs : List Target) : Bool :=
  decide (cs ≠ []) &&
    match r.endpoint with
    | .chat =>
      decide (r.filter = .continues) && cs.any (fun t => adapterServes .chat t.provider) &&
        r.cached.isNone
    | .embeddings =>
      decide (r.filter = .continues) && cs.any fun t => adapterServes .embeddings t.provider
    | .responses => r.cached.isNone
    | .messages => true
    | .generate => true

/-- A request that ends early: one that is blocked is metered without tokens, and an answer
from the cache is charged like the completion that it repeats. -/
def earlyCharges (r : Request) (cs : List Target) : List Effect :=
  if cs = [] then []
  else
    match r.endpoint, r.filter, r.cached with
    | .chat, .blocks, _ => [.usage none 400 0 0]
    | .embeddings, .blocks, _ => [.usage none 400 0 0]
    | .chat, .continues, some (p, c) =>
      if cs.any (fun t => adapterServes .chat t.provider) = true then charge r none 200 p c
      else []
    | .responses, _, some (p, c) => charge r none 200 p c
    | _, _, _ => []

/-- What the request leaves behind, from the choice of its candidates on. -/
def pipeline (r : Request) (cs : List Target) : List Effect :=
  if proceeds r cs = true then upstream r cs else earlyCharges r cs

theorem fits_of_le {p : Pair} (hmodel : p.model.length ≤ 127)
    (hendpoint : p.endpoint.length ≤ 511) : Fits p := by
  cases p
  simp only [Fits, storedPair, List.take_of_length_le hmodel, List.take_of_length_le hendpoint]

theorem currentModel_length (r : Request) : (currentModel r).length ≤ 127 := by
  have hplugin : (r.pluginModel.getD r.route.name).length ≤ 127 := by
    cases h : r.pluginModel with
    | none => exact r.route.name_le
    | some m => exact (r.plugin_le m h).trans (by omega)
  unfold currentModel
  split
  · exact hplugin
  · exact hplugin
  · exact r.route.name_le

theorem recordPair_fits (r : Request) (t : Target) : Fits (recordPair r t) :=
  fits_of_le (currentModel_length r) t.endpoint_le

theorem askPair_fits (r : Request) (t : Target) : Fits (askPair r t) :=
  fits_of_le r.route.name_le t.endpoint_le

/-- Effects that leave the breaker alone. -/
def Silent (effects : List Effect) : Prop := ∀ e ∈ effects, breakerOp e = none

theorem Silent.append {es fs : List Effect} (hes : Silent es) (hfs : Silent fs) :
    Silent (es ++ fs) := fun e he => (List.mem_append.mp he).elim (hes e) (hfs e)

theorem silent_nil : Silent [] := by simp [Silent]

theorem silent_usage (source : Option ℕ) (status ptok ctok : ℤ) :
    Silent [.usage source status ptok ctok] := by
  simp [Silent, breakerOp]

theorem silent_quota (source : Option ℕ) (tokens : ℤ) : Silent [.quota source tokens] := by
  simp [Silent, breakerOp]

theorem silent_budget (r : Request) (source : Option ℕ) (tokens : ℤ) :
    Silent (if r.budgetOn = true then [.budget source tokens] else []) := by
  split
  · simp [Silent, breakerOp]
  · exact silent_nil

theorem charge_silent (r : Request) (source : Option ℕ) (status ptok ctok : ℤ) :
    Silent (charge r source status ptok ctok) :=
  ((silent_usage _ _ _ _).append (silent_budget r _ _)).append (silent_quota _ _)

theorem settleSuccess_silent (r : Request) (source : Option ℕ) (status ptok ctok : ℤ) :
    Silent (settleSuccess r source status ptok ctok) := by
  refine ((silent_usage _ _ _ _).append (silent_budget r _ _)).append ?_
  split
  · exact silent_quota _ _
  · exact silent_nil

theorem completedCharges_silent (r : Request) (i : ℕ) (c : Call) :
    Silent (completedCharges r i c) := by
  unfold completedCharges
  dsimp only
  split
  · exact charge_silent r _ _ _ _
  · split
    · split
      · exact silent_nil
      · split
        · exact silent_usage _ _ _ _
        · exact charge_silent r _ _ _ _
    · split
      · exact silent_nil
      · exact settleSuccess_silent r _ _ _ _
    · exact charge_silent r _ _ _ _

theorem interruptedCharges_silent (r : Request) (i : ℕ) (c : Call) :
    Silent (interruptedCharges r i c) := by
  refine (settleSuccess_silent r _ _ _ _).append ?_
  split
  · exact silent_quota _ _
  · exact silent_nil

theorem refusedCharges_silent (i : ℕ) (c : Call) : Silent (refusedCharges i c) :=
  silent_usage _ _ _ _

theorem exhaustedEffects_silent (r : Request) (cs : List Target) :
    Silent (exhaustedEffects r cs) := by
  unfold exhaustedEffects
  dsimp only
  split
  · exact silent_usage _ _ _ _
  · exact silent_usage _ _ _ _

theorem earlyCharges_silent (r : Request) (cs : List Target) : Silent (earlyCharges r cs) := by
  unfold earlyCharges
  split
  · exact silent_nil
  · split
    · exact silent_usage _ _ _ _
    · exact silent_usage _ _ _ _
    · split
      · exact charge_silent r _ _ _ _
      · exact silent_nil
    · exact charge_silent r _ _ _ _
    · exact silent_nil

/-- The operations of the pipelines: no question, and a name that an entry stores whole. -/
def OpFits (op : Op) : Prop := Fits op.pair ∧ ∀ p, op ≠ .allow p

theorem callEffects_fit {r : Request} {i : ℕ} {t : Target} {c : Call} {op : Op}
    (h : .breaker op ∈ (callEffects r i t c).1) : OpFits op := by
  unfold callEffects at h
  generalize outcome (streams r) c = o at h
  cases o with
  | completed =>
    dsimp only at h
    rcases List.mem_cons.mp h with h | h
    · cases h
      exact ⟨recordPair_fits r t, by simp⟩
    · exact absurd (completedCharges_silent r i c _ h) (by simp [breakerOp])
  | interrupted => exact absurd (interruptedCharges_silent r i c _ h) (by simp [breakerOp])
  | failed passOn =>
    dsimp only at h
    rcases List.mem_cons.mp h with h | h
    · cases h
      exact ⟨recordPair_fits r t, by simp⟩
    · split at h
      · cases h
      · exact absurd (refusedCharges_silent i c _ h) (by simp [breakerOp])

theorem visit_fit {r : Request} {alone : Bool} {place : Place} {op : Op}
    (h : .breaker op ∈ (visit r alone place).1) : OpFits op := by
  cases place with
  | race i t c => exact callEffects_fit h
  | single i t a =>
    by_cases hskip : skipped r.endpoint (streams r) t a = true
    · rw [visit, if_pos hskip] at h
      cases h
    · rw [visit, if_neg hskip] at h
      rcases List.mem_append.mp h with h | h
      · unfold slaEffects at h
        split at h
        · obtain ⟨s, -, hs⟩ := List.mem_map.mp h
          cases hs
          refine ⟨fits_of_le ?_ t.endpoint_le, by simp⟩
          exact r.requested_le.trans (by omega)
        · cases h
      · exact callEffects_fit h

theorem pipeline_fit {r : Request} {cs : List Target} {op : Op}
    (h : op ∈ (pipeline r cs).filterMap breakerOp) : OpFits op := by
  obtain ⟨e, he, hop⟩ := List.mem_filterMap.mp h
  have hbreaker : e = .breaker op := by
    cases e with
    | breaker op' => exact congrArg _ (Option.some.inj hop)
    | usage _ _ _ _ => cases hop
    | budget _ _ => cases hop
    | quota _ _ => cases hop
  subst hbreaker
  unfold pipeline at he
  split at he
  · rcases Failover.mem_walk.mp he with ⟨place, -, he⟩ | ⟨-, he⟩
    · exact visit_fit he
    · exact absurd (exhaustedEffects_silent r cs _ he) (by simp [breakerOp])
  · exact absurd (earlyCharges_silent r cs _ he) (by simp [breakerOp])

end Aigate.Pipelines
