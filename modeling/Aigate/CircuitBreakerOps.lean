import Aigate.CircuitBreaker

/-!
# The other operations of the local circuit breaker

An operator can put an entry into a state, the limits of a model can be set while it is in use, and
the average time to the first token of an entry can be read.
-/
namespace Aigate.CircuitBreakerOps
open Text CircuitBreaker

/-- The change of `cb_override_state`. -/
def overrideEntry (cooloffSec : ℕ) (now : ℤ) (newState : CbState) (e : CbEntry) : CbEntry :=
  let e := { e with state := newState, manualOverride := true }
  match newState with
  | .closed =>
    { e with
      consecutiveFailures := 0
      openUntil := 0
      halfOpenProbeActive := false
      sampleCount := 0
      consecutiveSlaNormal := 0 }
  | .opened => { e with openUntil := now + cooloffSec, halfOpenProbeActive := false }
  | .slaDegraded => { e with consecutiveSlaNormal := 0 }
  | .halfOpen => e

/-- `cb_override_state`. -/
def cbOverrideState (cb : Breaker) (now : ℤ) (p : Pair) (newState : CbState) : Breaker :=
  onEntryOrNew cb p (overrideEntry cb.cooloffSec now newState)

/-- What `cb_get_sla_avg_ttft` reads of an entry. -/
def avgTtftEntry (e : CbEntry) : ℕ :=
  if e.sampleCount = 0 then 0
  else ((List.range e.sampleCount).map fun i => (e.samples i).ttftMs).sum / e.sampleCount

/-- `cb_get_sla_avg_ttft`. -/
def cbGetSlaAvgTtft (cb : Breaker) (p : Pair) : ℕ := ((findEntry cb p).map avgTtftEntry).getD 0

/-- The limits as they are given. -/
structure SlaLimits where
  ttftMaxMs : ℕ
  p95MaxMs : ℕ
  windowSize : ℕ
  ratioReached : ℕ → ℕ → Bool
  fallbackModel : Bytes

/-- Ten samples unless a window is set, and at most `CB_MAX_SLA_SAMPLES`. -/
def SlaLimits.window (l : SlaLimits) : ℕ := min 128 (if 0 < l.windowSize then l.windowSize else 10)

theorem SlaLimits.window_pos (l : SlaLimits) : 0 < l.window := by
  unfold SlaLimits.window
  split
  · omega
  · omega

/-- The limits as they are kept, under the name of the model. -/
def SlaLimits.kept (l : SlaLimits) (model : Bytes) : ModelSlaCfg where
  model := model
  ttftMaxMs := l.ttftMaxMs
  p95MaxMs := l.p95MaxMs
  windowSize := l.window
  ratioReached := l.ratioReached
  fallbackModel := l.fallbackModel.take 127
  consecutiveRecoverNeed := 2
  window_pos := l.window_pos
  window_le := min_le_left _ _

/-- `find_sla_cfg_locked` and a change of what it finds. -/
def setLimits (model : Bytes) (l : SlaLimits) : List ModelSlaCfg → List ModelSlaCfg
  | [] => []
  | cfg :: cfgs =>
    if cfg.model = model then l.kept cfg.model :: cfgs else cfg :: setLimits model l cfgs

/-- `cb_configure_sla`. -/
def cbConfigureSla (cb : Breaker) (model : Bytes) (l : SlaLimits) : Breaker :=
  match cb.slaConfigs.find? fun cfg => cfg.model = model with
  | some _ => { cb with slaConfigs := setLimits model l cb.slaConfigs }
  | none => { cb with slaConfigs := l.kept (model.take 127) :: cb.slaConfigs }

theorem overrideEntry_pair (cooloffSec : ℕ) (now : ℤ) (newState : CbState) :
    KeepsPair (overrideEntry cooloffSec now newState) := by
  intro e
  cases newState with
  | closed => rfl
  | opened => rfl
  | halfOpen => rfl
  | slaDegraded => rfl

end Aigate.CircuitBreakerOps
