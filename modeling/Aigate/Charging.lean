import Aigate.Pipelines

/-!
# Charging for completions

Every call of a chat request that an upstream answers with a completion costs tokens. The
usage meter, the budget and the daily quota should each be charged with them once. They are
charged by the code behind the loop over the candidates, which not every completion reaches.
-/
namespace Aigate.Charging
open ModelRouter Pipelines

/-- An upstream call that has ended, with the number of its candidate; the loser of a race
is cut off from the pipeline. -/
structure EndedCall where
  source : ℕ
  call : Call
  lost : Bool
  deriving DecidableEq

/-- The calls of a place of the loop. -/
def endedCalls (r : Request) (alone : Bool) : Place → List EndedCall
  | .race i _ c => ⟨i, c, false⟩ :: (r.hedge.loser.map fun l => ⟨1 - i, l, true⟩).toList
  | .single i t a =>
    if skipped r.endpoint (streams r) t a = true then []
    else [⟨i, finalCall (streams r) alone a, false⟩]

/-- The calls of a loop over candidates. -/
def upstreamCalls (r : Request) (cs : List Target) : List EndedCall :=
  let alone := decide (cs.length = 1)
  Failover.walk (fun p => (endedCalls r alone p, (visit r alone p).2)) [] (places r cs)

/-- The call ended with a completion: status 2xx, and a body. -/
def isCompletion (c : Call) : Bool :=
  decide (c.urc = 0) && decide (200 ≤ c.status) && decide (c.status < 300) && c.hasBody

/-- The completions that a request has cost. -/
def completions (r : Request) (cs : List Target) : List EndedCall :=
  if proceeds r cs = true then (upstreamCalls r cs).filter fun k => isCompletion k.call else []

/-- The candidate that a charge is for. -/
def Effect.source : Effect → Option ℕ
  | .breaker _ => none
  | .usage source _ _ _ => source
  | .budget source _ => source
  | .quota source _ => source

def usageTokens : Effect → Option (ℤ × ℤ)
  | .usage _ _ ptok ctok => some (ptok, ctok)
  | _ => none

def budgetTokens : Effect → Option ℤ
  | .budget _ tokens => some tokens
  | _ => none

def quotaTokens : Effect → Option ℤ
  | .quota _ tokens => some tokens
  | _ => none

/-- What is charged for a candidate. -/
def chargesFor (i : ℕ) (effects : List Effect) : List Effect :=
  effects.filter fun e => Effect.source e = some i

/-- A completion is charged once to the meter, once to the budget if there is one, and once
to the daily quota, with its own tokens. -/
def ChargedOnce (r : Request) (cs : List Target) (k : EndedCall) : Prop :=
  let charges := chargesFor k.source (pipeline r cs)
  let tokens := k.call.completion
  charges.filterMap usageTokens = [(tokens.ptok, tokens.ctok)] ∧
    (r.budgetOn = true → charges.filterMap budgetTokens = [tokens.ptok + tokens.ctok]) ∧
    charges.filterMap quotaTokens = [tokens.ptok + tokens.ctok]

/-- The completion gets as far as the accounting: the bridge could use the stream; or the
call was not the loser of a race, its body can be translated, and no outbound filter stops
what comes out as status 200. -/
def Accounted (r : Request) (k : EndedCall) : Prop :=
  if streams r = true then k.call.headersSent = true
  else
    k.lost = false ∧ k.call.completion.parses = true ∧
      ¬(k.call.completion.parsedStatus = 200 ∧ k.call.completion.outboundStops = true)

theorem singles_index (r : Request) (cs : List Target) :
    (singles r cs).map Place.index = List.range' 0 cs.length := by
  unfold singles
  rw [List.map_map]
  exact List.zipIdx_map_snd 0 cs

theorem places_index_nodup (r : Request) (cs : List Target) :
    ((places r cs).map Place.index).Nodup := by
  have hsingles : ((singles r cs).map Place.index).Nodup := by
    rw [singles_index]
    exact List.nodup_range'
  unfold places
  split
  · split
    · rw [List.map_cons, List.map_drop, singles_index, List.nodup_cons]
      refine ⟨?_, (List.nodup_range').sublist (List.drop_sublist 2 _)⟩
      rw [List.drop_range', List.mem_range']
      rintro ⟨j, -, hj⟩
      simp only [Place.index, winnerIndex] at hj
      split at hj
      · omega
      · omega
    · exact hsingles
  · exact hsingles

theorem places_nodup (r : Request) (cs : List Target) : (places r cs).Nodup :=
  (places_index_nodup r cs).of_map _

theorem index_ne {r : Request} {cs : List Target} {a b : Place} (ha : a ∈ places r cs)
    (hb : b ∈ places r cs) (hne : b ≠ a) : b.index ≠ a.index :=
  fun h => hne (List.inj_on_of_nodup_map (places_index_nodup r cs) hb ha h)

/-- All charges among some effects are for one candidate. -/
def OnlyFor (i : ℕ) (effects : List Effect) : Prop :=
  ∀ e ∈ effects, Effect.source e = none ∨ Effect.source e = some i

theorem charge_only (r : Request) (i : ℕ) (status ptok ctok : ℤ) :
    OnlyFor i (charge r (some i) status ptok ctok) := by
  intro e he
  unfold charge at he
  split at he
  · simp only [List.cons_append, List.nil_append, List.mem_cons, List.not_mem_nil, or_false] at he
    rcases he with rfl | rfl | rfl
    · exact Or.inr rfl
    · exact Or.inr rfl
    · exact Or.inr rfl
  · simp only [List.append_nil, List.cons_append, List.nil_append, List.mem_cons,
      List.not_mem_nil, or_false] at he
    rcases he with rfl | rfl
    · exact Or.inr rfl
    · exact Or.inr rfl

theorem settleSuccess_only (r : Request) (i : ℕ) (status ptok ctok : ℤ) :
    OnlyFor i (settleSuccess r (some i) status ptok ctok) := by
  intro e he
  unfold settleSuccess at he
  rcases List.mem_append.mp he with he | he
  · rcases List.mem_append.mp he with he | he
    · obtain rfl := List.mem_singleton.mp he
      exact Or.inr rfl
    · split at he
      · obtain rfl := List.mem_singleton.mp he
        exact Or.inr rfl
      · cases he
  · split at he
    · obtain rfl := List.mem_singleton.mp he
      exact Or.inr rfl
    · cases he

theorem completedCharges_only (r : Request) (i : ℕ) (c : Call) :
    OnlyFor i (completedCharges r i c) := by
  have hnil : OnlyFor i [] := by
    rintro e ⟨⟩
  unfold completedCharges
  dsimp only
  split
  · exact charge_only r i _ _ _
  · split
    · split
      · exact hnil
      · split
        · intro e he
          obtain rfl := List.mem_singleton.mp he
          exact Or.inr rfl
        · exact charge_only r i _ _ _
    · split
      · exact hnil
      · exact settleSuccess_only r i _ _ _
    · exact charge_only r i _ _ _

theorem interruptedCharges_only (r : Request) (i : ℕ) (c : Call) :
    OnlyFor i (interruptedCharges r i c) := by
  intro e he
  rcases List.mem_append.mp he with he | he
  · exact settleSuccess_only r i _ _ _ e he
  · split at he
    · obtain rfl := List.mem_singleton.mp he
      exact Or.inr rfl
    · cases he

theorem callEffects_only (r : Request) (i : ℕ) (t : Target) (c : Call) :
    OnlyFor i (callEffects r i t c).1 := by
  unfold callEffects
  cases outcome (streams r) c with
  | completed => exact List.forall_mem_cons.mpr ⟨Or.inl rfl, completedCharges_only r i c⟩
  | interrupted => exact interruptedCharges_only r i c
  | failed passOn =>
    refine List.forall_mem_cons.mpr ⟨Or.inl rfl, ?_⟩
    intro e he
    cases passOn with
    | true => cases he
    | false =>
      obtain rfl := List.mem_singleton.mp he
      exact Or.inr rfl

theorem visit_only (r : Request) (alone : Bool) (p : Place) :
    OnlyFor p.index (visit r alone p).1 := by
  cases p with
  | race i t c => exact callEffects_only r i t c
  | single i t a =>
    by_cases hskip : skipped r.endpoint (streams r) t a = true
    · rw [visit, if_pos hskip]
      rintro e ⟨⟩
    · rw [visit, if_neg hskip]
      intro e he
      rcases List.mem_append.mp he with he | he
      · unfold slaEffects at he
        split at he
        · obtain ⟨s, -, rfl⟩ := List.mem_map.mp he
          exact Or.inl rfl
        · cases he
      · exact callEffects_only r i t _ e he

theorem exhaustedEffects_source (r : Request) (cs : List Target) :
    ∀ e ∈ exhaustedEffects r cs, Effect.source e = none := by
  intro e he
  unfold exhaustedEffects at he
  dsimp only at he
  split at he
  · obtain rfl := List.mem_singleton.mp he
    rfl
  · obtain rfl := List.mem_singleton.mp he
    rfl

/-- What is charged for another candidate does not come from a place. -/
theorem visit_other {r : Request} {alone : Bool} {p : Place} {i : ℕ} (h : p.index ≠ i) :
    ∀ e ∈ (visit r alone p).1, decide (Effect.source e = some i) = false := by
  intro e he
  apply decide_eq_false
  rcases visit_only r alone p e he with hnone | hsome
  · simp [hnone]
  · simp [hsome, h]

/-- The charges for a candidate are made where the loop reaches it. -/
theorem chargesFor_upstream {r : Request} {cs : List Target} {p : Place}
    (h : Failover.Reaches (visit r (decide (cs.length = 1))) (places r cs) p) :
    chargesFor p.index (upstream r cs) =
      chargesFor p.index (visit r (decide (cs.length = 1)) p).1 := by
  refine Failover.filter_walk h (places_nodup r cs) ?_ ?_
  · intro b hb hne
    exact visit_other (index_ne h.mem hb hne)
  · intro e he
    simp [exhaustedEffects_source r cs e he]

theorem single_of_mem_singles {r : Request} {cs : List Target} {p : Place}
    (h : p ∈ singles r cs) : ∃ i t a, p = .single i t a := by
  obtain ⟨q, -, rfl⟩ := List.mem_map.mp h
  exact ⟨_, _, _, rfl⟩

/-- A race is the first place, between the first two candidates. -/
theorem race_mem {r : Request} {cs : List Target} {i : ℕ} {t : Target} {c : Call}
    (h : .race i t c ∈ places r cs) : hedged r cs = true ∧ i = winnerIndex r.hedge ∧
      places r cs = .race i t c :: (singles r cs).drop 2 := by
  unfold places at h ⊢
  by_cases hh : hedged r cs = true
  · rw [if_pos hh] at h ⊢
    refine ⟨hh, ?_⟩
    cases hwin : cs[winnerIndex r.hedge]? with
    | none =>
      rw [hwin] at h
      obtain ⟨_, _, _, hsingle⟩ := single_of_mem_singles h
      cases hsingle
    | some t' =>
      rw [hwin] at h
      rcases List.mem_cons.mp h with h | h
      · cases h
        exact ⟨rfl, rfl⟩
      · obtain ⟨_, _, _, hsingle⟩ := single_of_mem_singles (List.mem_of_mem_drop h)
        cases hsingle
  · rw [if_neg hh] at h
    obtain ⟨_, _, _, hsingle⟩ := single_of_mem_singles h
    cases hsingle

/-- Nothing is charged for the loser of the race. -/
theorem chargesFor_loser {r : Request} {cs : List Target} {i : ℕ} {t : Target} {c : Call}
    (h : .race i t c ∈ places r cs) : chargesFor (1 - i) (upstream r cs) = [] := by
  obtain ⟨-, hi, hplaces⟩ := race_mem h
  have hle : i = 0 ∨ i = 1 := by
    rw [hi, winnerIndex]
    split
    · exact Or.inr rfl
    · exact Or.inl rfl
  have hindex : ∀ p ∈ places r cs, p.index ≠ 1 - i := by
    rw [hplaces]
    intro p hp
    rcases List.mem_cons.mp hp with rfl | hp
    · simp only [Place.index]
      omega
    · have hmem := List.mem_map_of_mem (f := Place.index) hp
      rw [List.map_drop, singles_index, List.drop_range', List.mem_range'] at hmem
      obtain ⟨j, -, hj⟩ := hmem
      omega
  refine Failover.filter_eq_nil ?_
  intro e he
  rcases Failover.mem_walk.mp he with ⟨p, hp, he⟩ | ⟨-, he⟩
  · exact visit_other (hindex p hp.mem) e he
  · simp [exhaustedEffects_source r cs e he]

/-- Three lists of charges, each with one entry for the tokens. -/
def OnceFor (r : Request) (k : Completion) (charges : List Effect) : Prop :=
  charges.filterMap usageTokens = [(k.ptok, k.ctok)] ∧
    (r.budgetOn = true → charges.filterMap budgetTokens = [k.ptok + k.ctok]) ∧
    charges.filterMap quotaTokens = [k.ptok + k.ctok]

theorem onceFor_nil (r : Request) (k : Completion) : ¬OnceFor r k [] := by
  rintro ⟨h, -⟩
  cases h

theorem onceFor_usage (r : Request) (i : ℕ) (k : Completion) :
    ¬OnceFor r k (chargesFor i [.usage (some i) 400 0 0]) := by
  have hnone : (chargesFor i [.usage (some i) 400 0 0]).filterMap quotaTokens = [] := by
    rw [chargesFor, List.filter_cons_of_pos (by simp [Effect.source])]
    rfl
  rintro ⟨-, -, h⟩
  rw [hnone] at h
  cases h

theorem onceFor_charge (r : Request) (i : ℕ) (status : ℤ) (k : Completion) :
    OnceFor r k (chargesFor i (charge r (some i) status k.ptok k.ctok)) := by
  have hall : chargesFor i (charge r (some i) status k.ptok k.ctok) =
      charge r (some i) status k.ptok k.ctok := by
    unfold charge
    split
    · simp [chargesFor, Effect.source]
    · simp [chargesFor, Effect.source]
  rw [hall]
  unfold charge
  split
  · exact ⟨rfl, fun _ => rfl, rfl⟩
  · rename_i hbudget
    exact ⟨rfl, fun h => absurd h hbudget, rfl⟩

theorem chargesFor_breaker (i : ℕ) (op : CircuitBreaker.Op) (effects : List Effect) :
    chargesFor i (.breaker op :: effects) = chargesFor i effects := by
  simp [chargesFor, Effect.source]

theorem isCompletion_iff {c : Call} : isCompletion c = true ↔
    c.urc = 0 ∧ 200 ≤ c.status ∧ c.status < 300 ∧ c.hasBody = true := by
  simp [isCompletion, and_assoc]

theorem not_isFailover {c : Call} (h : isCompletion c = true) : isFailover c = false := by
  obtain ⟨hurc, hlow, hhigh, -⟩ := isCompletion_iff.mp h
  have h429 : c.status ≠ 429 := by omega
  have h500 : ¬500 ≤ c.status := by omega
  simp [isFailover, hurc, h429, h500]

theorem chargesFor_completed {r : Request} {i : ℕ} {t : Target} {c : Call}
    (h : outcome (streams r) c = .completed) :
    chargesFor i (callEffects r i t c).1 = chargesFor i (completedCharges r i c) := by
  unfold callEffects
  rw [h]
  exact chargesFor_breaker i _ _

theorem chargesFor_passOn {r : Request} {i : ℕ} {t : Target} {c : Call}
    (h : outcome (streams r) c = .failed true) : chargesFor i (callEffects r i t c).1 = [] := by
  unfold callEffects
  rw [h]
  rfl

/-- A streamed completion is charged once exactly when the bridge could use it. -/
theorem stream_once {r : Request} (hstreams : streams r = true) (i : ℕ) (t : Target) {c : Call}
    (hc : isCompletion c = true) :
    OnceFor r c.completion (chargesFor i (callEffects r i t c).1) ↔ c.headersSent = true := by
  obtain ⟨hurc, -, hhigh, -⟩ := isCompletion_iff.mp hc
  cases hheaders : c.headersSent with
  | true =>
    have hout : outcome (streams r) c = .completed := by
      simp [outcome, streamOutcome, hstreams, hheaders, hurc]
    rw [chargesFor_completed hout, completedCharges, if_pos hstreams]
    exact ⟨fun _ => rfl, fun _ => onceFor_charge r i _ c.completion⟩
  | false =>
    have hlt : c.status < 400 := by omega
    have hout : outcome (streams r) c = .failed true := by
      simp [outcome, streamOutcome, hstreams, hheaders, hlt]
    rw [chargesFor_passOn hout]
    exact ⟨fun h => absurd h (onceFor_nil r _), fun h => by cases h⟩

/-- Another completion is charged once exactly when its body can be translated and no
outbound filter stops it. -/
theorem sync_once {r : Request} (hchat : r.endpoint = .chat) (hsync : streams r = false) (i : ℕ)
    (t : Target) {c : Call} (hc : isCompletion c = true) :
    OnceFor r c.completion (chargesFor i (callEffects r i t c).1) ↔
      c.completion.parses = true ∧
        ¬(c.completion.parsedStatus = 200 ∧ c.completion.outboundStops = true) := by
  obtain ⟨-, -, hhigh, -⟩ := isCompletion_iff.mp hc
  have hlt : c.status < 400 := by omega
  have hout : outcome (streams r) c = .completed := by
    simp [outcome, syncOutcome, hsync, not_isFailover hc, hlt]
  rw [chargesFor_completed hout, completedCharges, if_neg (by simp [hsync]), hchat]
  dsimp only
  cases hparses : c.completion.parses with
  | false =>
    rw [if_pos rfl]
    exact ⟨fun h => absurd h (onceFor_nil r _), fun h => by cases h.1⟩
  | true =>
    rw [if_neg (by simp)]
    by_cases hstop : c.completion.parsedStatus = 200 ∧ c.completion.outboundStops = true
    · rw [if_pos hstop]
      exact ⟨fun h => absurd h (onceFor_usage r i _), fun h => absurd hstop h.2⟩
    · rw [if_neg hstop]
      exact ⟨fun _ => ⟨rfl, hstop⟩, fun _ => onceFor_charge r i _ c.completion⟩

theorem callEffects_once {r : Request} (hchat : r.endpoint = .chat) (i : ℕ) (t : Target)
    {c : Call} (hc : isCompletion c = true) :
    OnceFor r c.completion (chargesFor i (callEffects r i t c).1) ↔ Accounted r ⟨i, c, false⟩ := by
  unfold Accounted
  cases hstreams : streams r with
  | true =>
    rw [if_pos rfl]
    exact stream_once hstreams i t hc
  | false =>
    rw [if_neg (by simp), sync_once hchat hstreams i t hc]
    exact ⟨fun h => ⟨rfl, h⟩, fun h => h.2⟩

theorem chargesFor_sla (i : ℕ) (r : Request) (t : Target) (a : Attempt) :
    chargesFor i (slaEffects r t a) = [] := by
  refine Failover.filter_eq_nil ?_
  intro e he
  unfold slaEffects at he
  split at he
  · obtain ⟨s, -, rfl⟩ := List.mem_map.mp he
    rfl
  · cases he

/-- A completion of a chat request is charged once to each of the three exactly when it gets
as far as the accounting. -/
theorem charged_once_iff {r : Request} {cs : List Target} (hchat : r.endpoint = .chat)
    {k : EndedCall} (hk : k ∈ completions r cs) : ChargedOnce r cs k ↔ Accounted r k := by
  unfold completions at hk
  by_cases hproceeds : proceeds r cs = true
  · rw [if_pos hproceeds] at hk
    obtain ⟨hk, hcompletion⟩ := List.mem_filter.mp hk
    have honce : ChargedOnce r cs k ↔
        OnceFor r k.call.completion (chargesFor k.source (upstream r cs)) := by
      unfold ChargedOnce
      rw [show pipeline r cs = upstream r cs from if_pos hproceeds]
      exact Iff.rfl
    rw [honce]
    rcases Failover.mem_walk.mp hk with ⟨p, hp, hk⟩ | ⟨-, hk⟩
    · have hreaches : Failover.Reaches (visit r (decide (cs.length = 1))) (places r cs) p := by
        refine Failover.Reaches.congr ?_ hp
        intro b
        rfl
      have hcharges := chargesFor_upstream hreaches
      cases p with
      | race i t c =>
        rcases List.mem_cons.mp hk with rfl | hk
        · rw [show chargesFor i (upstream r cs) = _ from hcharges]
          exact callEffects_once hchat i t hcompletion
        · obtain ⟨l, -, rfl⟩ := Option.map_eq_some_iff.mp (Option.mem_toList.mp hk)
          have hsync : streams r = false := by
            have hhedged := (race_mem hreaches.mem).1
            simp only [hedged, Bool.and_eq_true, Bool.not_eq_true'] at hhedged
            exact hhedged.1.1.1.1.2
          rw [chargesFor_loser hreaches.mem, Accounted, if_neg (by simp [hsync])]
          exact ⟨fun h => absurd h (onceFor_nil r _), fun h => by cases h.1⟩
      | single i t a =>
        by_cases hskip : skipped r.endpoint (streams r) t a = true
        · rw [endedCalls, if_pos hskip] at hk
          cases hk
        · rw [endedCalls, if_neg hskip] at hk
          obtain rfl := List.mem_singleton.mp hk
          rw [show chargesFor i (upstream r cs) = _ from hcharges, visit, if_neg hskip]
          have hsla : ∀ es, chargesFor i (slaEffects r t a ++ es) = chargesFor i es := by
            intro es
            unfold chargesFor
            rw [List.filter_append]
            exact congrArg (· ++ _) (chargesFor_sla i r t a)
          dsimp only [Place.index]
          rw [hsla]
          exact callEffects_once hchat i t hcompletion
    · cases hk
  · rw [if_neg hproceeds] at hk
    cases hk

def sampleRoute : Route :=
  ⟨Text.ascii "gpt-4o", Text.ascii "openai", Text.ascii "https://a", [], [], 0, false,
    by decide +kernel, by decide +kernel, by decide⟩

def sampleTarget : Target :=
  ⟨Text.ascii "openai", Text.ascii "https://a", 1, 0, 0, by decide +kernel⟩

/-- A completion of 12 tokens, and the verdict of the outbound filters on it. -/
def sampleCall (outboundStops : Bool) : Call :=
  ⟨0, 200, true, false, ⟨7, 5, true, 200, outboundStops⟩⟩

/-- A chat request with one candidate that answers at once. -/
def sampleRequest (outboundStops : Bool) : Request where
  endpoint := .chat
  streaming := false
  requestedModel := Text.ascii "gpt-4o"
  route := sampleRoute
  targetProvider := []
  balance := ⟨fun _ => 0, fun _ => 0, fun _ => 0, fun _ => 0, fun _ => 0, fun _ _ => 0⟩
  pluginModel := none
  filter := .continues
  cached := none
  hedge := ⟨false, false, sampleCall outboundStops, none⟩
  attempts := fun _ =>
    ⟨true, true, true, sampleCall outboundStops, sampleCall outboundStops, []⟩
  budgetOn := true
  requested_le := by decide +kernel
  plugin_le := by simp

theorem charged_once_iff_sample :
    ChargedOnce (sampleRequest false) [sampleTarget] ⟨0, sampleCall false, false⟩ ↔
      Accounted (sampleRequest false) ⟨0, sampleCall false, false⟩ :=
  charged_once_iff rfl (by decide +kernel)

/-- A completion that an outbound filter stops is charged to no budget and no quota. -/
theorem not_charged_once : ⟨0, sampleCall true, false⟩ ∈ completions (sampleRequest true)
    [sampleTarget] ∧
      ¬ChargedOnce (sampleRequest true) [sampleTarget] ⟨0, sampleCall true, false⟩ := by
  refine ⟨by decide +kernel, ?_⟩
  have hquota : (chargesFor 0 (pipeline (sampleRequest true) [sampleTarget])).filterMap
      quotaTokens = [] := by
    decide +kernel
  rintro ⟨-, -, honce⟩
  rw [show (chargesFor (EndedCall.source ⟨0, sampleCall true, false⟩)
    (pipeline (sampleRequest true) [sampleTarget])).filterMap quotaTokens = [] from hquota] at honce
  cases honce

end Aigate.Charging
