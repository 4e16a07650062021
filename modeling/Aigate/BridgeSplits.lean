import Aigate.AnthropicBridge
import Aigate.GeminiBridge
import Aigate.MessagesBridge
import Aigate.OpenaiBridge

/-!
# Cutting an upstream stream into chunks

The four bridges carry the part of a line from one chunk to the next in a buffer of 8192 bytes.
-/
namespace Aigate.BridgeSplits
open Text LineBuffer BoundedLines BridgeEvents

/-- The bridges of the adapters. -/
inductive Kind where
  | anthropic
  | gemini
  | openai
  | openaiToAnthropic
  deriving DecidableEq

/-- The state of a bridge behind its line buffer. -/
def Kind.State : Kind → Type
  | .anthropic => AnthropicBridge.Bridge
  | .gemini => GeminiBridge.Bridge
  | .openai => OpenaiBridge.Bridge
  | .openaiToAnthropic => MessagesBridge.Bridge

/-- What a bridge does with a completed line. -/
def Kind.takeLine : (k : Kind) → k.State → Bytes → k.State
  | .anthropic => AnthropicBridge.Bridge.takeLine
  | .gemini => GeminiBridge.Bridge.takeLine
  | .openai => OpenaiBridge.Bridge.takeLine
  | .openaiToAnthropic => MessagesBridge.Bridge.takeLine

def Kind.finish : (k : Kind) → k.State → k.State
  | .anthropic => AnthropicBridge.Bridge.finish
  | .gemini => GeminiBridge.Bridge.finish
  | .openai => OpenaiBridge.Bridge.finish
  | .openaiToAnthropic => MessagesBridge.Bridge.finish

/-- What a bridge has written. -/
def Kind.sent : (k : Kind) → k.State → List Bytes
  | .anthropic => AnthropicBridge.Bridge.sent
  | .gemini => GeminiBridge.Bridge.sent
  | .openai => OpenaiBridge.Bridge.sent
  | .openaiToAnthropic => MessagesBridge.Bridge.sent

/-- All ways to cut a stream give the bridge the same lines, none of them a part of a line, and
make it write the same bytes. -/
def SplitsAgree (k : Kind) (b : k.State) (s : Bytes) : Prop :=
  ∀ chunks chunks', chunks.flatten = s → chunks'.flatten = s →
    taken chunks = taken chunks' ∧ (∀ l ∈ taken chunks, l ∈ lines '\n' s) ∧
      k.sent (k.finish (feedAll k.takeLine b chunks)) =
        k.sent (k.finish (feedAll k.takeLine b chunks'))

/-- The cuts do not matter exactly when every line is shorter than the buffer by two bytes. -/
theorem splitsAgree_iff (k : Kind) (b : k.State) (s : Bytes) :
    SplitsAgree k b s ↔ ∀ l ∈ lines '\n' s, l.length < 8191 := by
  have hcap : 1 < eventCap := by decide
  rw [show (8191 : ℕ) = eventCap - 1 from rfl, ← completed_agree_iff hcap]
  constructor
  · intro h chunks chunks' hs hs'
    exact (h chunks chunks' hs hs').1
  · intro h chunks chunks' hs hs'
    have hsame : taken chunks = taken chunks' := h chunks chunks' hs hs'
    refine ⟨hsame, fun l hl => ?_, ?_⟩
    · have hwhole : taken chunks = (lines '\n' s).filter (·.length < eventCap) :=
        (h chunks [s] hs (by simp)).trans (completed_whole s)
      rw [hwhole] at hl
      exact List.mem_of_mem_filter hl
    · rw [feedAll_eq, feedAll_eq, hsame]

/-- A line that does not fit in the buffer, with what looks like the end of the stream in it. -/
def overlong : Bytes := List.replicate 8192 'x' ++ ascii "data: [DONE]" ++ ['\n']

theorem not_splitsAgree_overlong :
    ¬SplitsAgree .openai (OpenaiBridge.Bridge.new [] false) overlong := by
  intro h
  have hsame := fun chunks chunks' hs hs' => (h chunks chunks' hs hs').1
  have hline : List.replicate 8192 'x' ++ ascii "data: [DONE]" ∈ lines '\n' overlong := by
    have hnot : '\n' ∉ List.replicate 8192 'x' ++ ascii "data: [DONE]" := by
      rw [List.mem_append, not_or]
      exact ⟨fun hmem => absurd (List.eq_of_mem_replicate hmem) (by decide), by decide +kernel⟩
    rw [overlong, lines_line hnot]
    exact List.mem_cons_self
  have hshort := (completed_agree_iff (by decide : 1 < eventCap) overlong).mp hsame _ hline
  rw [List.length_append, List.length_replicate] at hshort
  unfold eventCap at hshort
  omega

end Aigate.BridgeSplits
