import Aigate.EventStreams
import Aigate.MessagesAgreement

/-!
# Replies in chunks and whole ones

A client adds the chunks of a completion up: texts are joined, fragments of one index belong to
one call, the last reason for the end and the last usage count. A completion that comes as one
document says the same at once.
-/
namespace Aigate.CompletionReplies
open Text JsonTree JsonText JsonRoundtrip JsonEdit JsonUtf8 Guardrails GuardrailsEdits Utf8
  StreamCache StreamCacheReplay ProviderRequests BridgeEvents EventTexts EventStreams
open BlockModes (textOf thoughtOf deltaObject)
open MessagesAnswer (finishOf)
open MessagesAgreement (Call Fragment fragmentOf fragmentsOf joinFragment joinedCalls contentOf
  reasoningOf callsOf)

structure Usage where
  promptTokens : Option Int64
  completionTokens : Option Int64
  totalTokens : Option Int64
  deriving DecidableEq

def usageOf (root : Json) : Option Usage :=
  (getObject root "usage").map fun u =>
    ⟨integerMember u "prompt_tokens", integerMember u "completion_tokens",
      integerMember u "total_tokens"⟩

/-- What a client has of a completion; the arguments of a call are compared by some reading. -/
structure Reply (α : Type*) where
  content : Bytes
  reasoning : Bytes
  calls : List (Bytes × Bytes × α)
  finishReason : Option Bytes
  usage : Option Usage

/-- What some chunks say, one after the other. -/
structure Tally where
  content : Bytes
  reasoning : Bytes
  fragments : List Fragment
  finishes : List Bytes
  usages : List Usage

def Tally.empty : Tally := ⟨[], [], [], [], []⟩

def Tally.add (a b : Tally) : Tally :=
  ⟨a.content ++ b.content, a.reasoning ++ b.reasoning, a.fragments ++ b.fragments,
    a.finishes ++ b.finishes, a.usages ++ b.usages⟩

def tally (chunks : List Json) : Tally :=
  ⟨(chunks.filterMap textOf).flatten, (chunks.filterMap thoughtOf).flatten,
    chunks.flatMap fragmentsOf, chunks.filterMap finishOf, chunks.filterMap usageOf⟩

section
variable {α : Type*} (f : Bytes → α)

def readCall (c : Call) : Bytes × Bytes × α := (c.id, c.name, f c.arguments)

def Tally.reply (t : Tally) : Reply α :=
  ⟨t.content, t.reasoning, (joinedCalls t.fragments).map (readCall f), t.finishes.getLast?,
    t.usages.getLast?⟩

/-- The reply in a whole completion. -/
def wholeReply (root : Json) : Reply α :=
  ⟨(contentOf root).getD [], (reasoningOf root).getD [], (callsOf root).map (readCall f),
    finishOf root, usageOf root⟩

end

theorem tally_append (a b : List Json) : tally (a ++ b) = (tally a).add (tally b) := by
  unfold tally Tally.add
  rw [List.filterMap_append, List.flatten_append, List.filterMap_append, List.flatten_append,
    List.flatMap_append, List.filterMap_append, List.filterMap_append]

/-! ### Reading writes -/

/-- The document in a write that is one event. -/
def chunkData (w : Bytes) : Option Json :=
  match events w with
  | some [d] => jsonLoads d
  | _ => none

/-- The chunks in some writes; a write that is no event spoils them all. -/
def readChunks (writes : List Bytes) : Option (List Json) :=
  (writes.filter (· ≠ doneEvent)).mapM chunkData

theorem dataLines_length {ls docs : List Bytes} (h : dataLines ls = some docs) :
    ls.length = 2 * docs.length := by
  induction ls using dataLines.induct generalizing docs with
  | case1 =>
    obtain rfl := Option.some.inj h
    rfl
  | case2 line rest hbegins ih =>
    rw [dataLines, if_pos hbegins] at h
    obtain ⟨docs', hdocs', rfl⟩ := Option.map_eq_some_iff.mp h
    have := ih hdocs'
    simp only [List.length_cons]
    omega
  | case3 line rest hbegins =>
    rw [dataLines, if_neg hbegins] at h
    cases h
  | case4 ls h1 h2 =>
    rw [dataLines] at h
    · cases h
    · exact h1
    · exact h2

/-- A write that is read as a chunk has two ends of lines. -/
theorem count_of_chunkData {w : Bytes} {c : Json} (h : chunkData w = some c) :
    w.count '\n' = 2 := by
  unfold chunkData at h
  split at h
  · rename_i d hevents
    unfold events at hevents
    split at hevents
    · rename_i ls hsplit
      have hlen := split_length '\n' [] w
      rw [hsplit, dataLines_length hevents] at hlen
      exact hlen.symm
    · cases hevents
  · cases h

/-- The event of the document fits in its buffer. -/
def Whole (c : Json) : Prop := (dataEvent (dumps c)).length < eventCap

instance (c : Json) : Decidable (Whole c) := inferInstanceAs (Decidable (_ < _))

/-- A chunk that fits is read as it was packed, and one that is cut off is none. -/
theorem chunkData_cut {c : Json} (h : Writable c) :
    chunkData (cut c) = if Whole c then some c else none := by
  split
  · rename_i hfits
    have hevents := events_dataEvent (newline_not_mem_dumps c) []
    rw [List.append_nil, show events [] = some [] from rfl] at hevents
    rw [cut_of_fits hfits, chunkData, hevents]
    exact h.jsonLoads_dumps
  · rename_i hlong
    cases hread : chunkData (cut c) with
    | none => rfl
    | some c' =>
      have hcount := count_of_chunkData hread
      have hfront : '\n' ∉ ascii "data: " ++ dumps c := by
        rw [List.mem_append, not_or]
        exact ⟨not_mem_ascii _ (by decide), newline_not_mem_dumps c⟩
      have hshape : dataEvent (dumps c) = ((ascii "data: " ++ dumps c) ++ ['\n']) ++ ['\n'] := by
        simp [dataEvent]
      have hle : (cut c).count '\n' ≤ 1 := by
        have hshort : eventCap - 1 ≤ ((ascii "data: " ++ dumps c) ++ ['\n']).length := by
          rw [Whole, hshape, List.length_append, List.length_singleton] at hlong
          omega
        unfold cut snprintf
        rw [hshape, List.take_append_of_le_length hshort]
        refine ((List.take_sublist _ _).count_le '\n').trans ?_
        rw [List.count_append, List.count_eq_zero.mpr hfront]
        decide
      omega

theorem cut_ne_done {c : Json} (h : Writable c) : cut c ≠ doneEvent := by
  intro heq
  by_cases hfits : Whole c
  · have hsome : chunkData (cut c) = some c := (chunkData_cut h).trans (if_pos hfits)
    have hnone : chunkData doneEvent = none := Option.isNone_iff_eq_none.mp (by decide +kernel)
    rw [heq, hnone] at hsome
    cases hsome
  · have hlen : (cut c).length = eventCap - 1 := by
      unfold Whole at hfits
      unfold cut snprintf
      rw [List.length_take]
      omega
    have hdone : doneEvent.length = 14 := by
      rw [doneEvent, dataEvent_length, ascii_length]
      rfl
    rw [heq, hdone] at hlen
    cases hlen

theorem mapM_chunkData_cut {cs : List Json} (h : ∀ c ∈ cs, Writable c) :
    (cs.map cut).mapM chunkData =
      if ∀ c ∈ cs, Whole c then some cs else none := by
  induction cs with
  | nil => exact (if_pos (by simp)).symm
  | cons c rest ih =>
    obtain ⟨hc, hrest⟩ := List.forall_mem_cons.mp h
    rw [List.map_cons, List.mapM_cons, chunkData_cut hc, ih hrest]
    by_cases hfits : Whole c
    · by_cases hall : ∀ c ∈ rest, Whole c
      · rw [if_pos hfits, if_pos hall, if_pos (List.forall_mem_cons.mpr ⟨hfits, hall⟩)]
        rfl
      · rw [if_pos hfits, if_neg hall, if_neg fun hc => hall (List.forall_mem_cons.mp hc).2]
        rfl
    · rw [if_neg hfits, if_neg fun hc => hfits (List.forall_mem_cons.mp hc).1]
      rfl

/-- Chunks that were written are read again where each of them fits, and else none is. -/
theorem readChunks_cut {cs : List Json} (h : ∀ c ∈ cs, Writable c) :
    readChunks (cs.map cut) =
      if ∀ c ∈ cs, Whole c then some cs else none := by
  have hfilter : (cs.map cut).filter (· ≠ doneEvent) = cs.map cut := by
    refine List.filter_eq_self.mpr fun w hw => ?_
    obtain ⟨c, hc, rfl⟩ := List.mem_map.mp hw
    exact decide_eq_true (cut_ne_done (h c hc))
  unfold readChunks
  rw [hfilter]
  exact mapM_chunkData_cut h

end Aigate.CompletionReplies
