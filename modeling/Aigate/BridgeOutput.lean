import Aigate.AnthropicOutput
import Aigate.GeminiOutput

/-!
# The streams that the bridges write

Both bridges to an OpenAI client write streams of whole events with one mark of the end, as long
as nothing is cut off in a buffer, no error needs escapes and nothing comes behind the end.
-/
namespace Aigate.BridgeOutput
open Text JsonTree JsonText JsonEdit Guardrails Utf8 StreamCache ProviderRequests BridgeEvents
  EventStreams GuardedRuns

def errorLine : Bytes :=
  ascii "data: \x7b\"error\":\x7b\"message\":\"model \\\"x\\\" is gone\"\x7d\x7d"

def quotedMessage : Bytes := ascii "model \"x\" is gone"

theorem errorMessage_errorLine :
    (AnthropicOutput.lineData errorLine).map AnthropicChunks.errorMessage = some quotedMessage := by
  decide +kernel

/-- Between the marks that the bridge writes, such a message leaves no document. -/
theorem not_isStream_quoted : ¬IsStream (snprintf eventCap (AnthropicBridge.errorText quotedMessage)) := by
  have hread : (events (snprintf eventCap (AnthropicBridge.errorText quotedMessage))).map
      (·.map fun d => (jsonLoads d).isSome) = some [false, false] := by decide +kernel
  rintro ⟨docs, hevents, hdocs⟩
  rw [hevents, Option.map_some, List.map_append] at hread
  cases docs with
  | nil =>
    have hlen := congrArg List.length (Option.some.inj hread)
    simp at hlen
  | cons d rest =>
    have hfirst : (jsonLoads d).isSome = false := (List.cons.inj (Option.some.inj hread)).1
    rw [hdocs d List.mem_cons_self] at hfirst
    cases hfirst

end Aigate.BridgeOutput
