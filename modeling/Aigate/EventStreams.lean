import Aigate.EventTexts

/-!
# Streams of events

A stream of chunks is a list of events that are a line of data and an empty line each. The data is
a document, but for the last event, which says that the stream is done.
-/
namespace Aigate.EventStreams
open Text JsonTree JsonText JsonRoundtrip JsonEdit JsonUtf8 Guardrails GuardrailsEdits Utf8
  LineBuffer StreamCache ProviderRequests BridgeEvents EventTexts

/-- The data in the lines of some events. -/
def dataLines : List Bytes → Option (List Bytes)
  | [] => some []
  | line :: [] :: rest =>
    if (ascii "data: ").isPrefixOf line then (dataLines rest).map (line.drop 6 :: ·) else none
  | _ => none

def events (out : Bytes) : Option (List Bytes) :=
  match split '\n' [] out with
  | (ls, []) => dataLines ls
  | _ => none

/-- Documents, and the mark of the end behind them. -/
def IsStream (out : Bytes) : Prop :=
  ∃ docs, events out = some (docs ++ [ascii "[DONE]"]) ∧ ∀ d ∈ docs, (jsonLoads d).isSome = true

/-- A write that is the event of one document. -/
def IsChunk (w : Bytes) : Prop :=
  ∃ d, w = dataEvent d ∧ '\n' ∉ d ∧ (jsonLoads d).isSome = true

theorem events_dataEvent {d : Bytes} (hd : '\n' ∉ d) (rest : Bytes) :
    events (dataEvent d ++ rest) = (events rest).map (d :: ·) := by
  have hline : '\n' ∉ ascii "data: " ++ d := by
    rw [List.mem_append, not_or]
    exact ⟨not_mem_ascii _ (by decide), hd⟩
  have hsplit : split '\n' [] (dataEvent d ++ rest) =
      ((ascii "data: " ++ d) :: [] :: (split '\n' [] rest).1, (split '\n' [] rest).2) := by
    have hshape : dataEvent d ++ rest = (ascii "data: " ++ d) ++ '\n' :: ([] ++ '\n' :: rest) := by
      simp [dataEvent]
    rw [hshape, split_line hline, split_line List.not_mem_nil]
  have hbegins : (ascii "data: ").isPrefixOf (ascii "data: " ++ d) = true :=
    List.isPrefixOf_iff_prefix.mpr (List.prefix_append _ _)
  have hdrop : (ascii "data: " ++ d).drop 6 = d := by
    rw [StreamCacheReplay.data_eq]
    rfl
  unfold events
  rw [hsplit]
  cases hrest : split '\n' [] rest with
  | mk ls pending =>
    cases pending with
    | nil =>
      dsimp only
      rw [dataLines, if_pos hbegins, hdrop]
    | cons c cs => rfl

/-- Chunks and then the mark of the end make a stream. -/
theorem isStream_chunks {writes : List Bytes} (h : ∀ w ∈ writes, IsChunk w) :
    IsStream (writes.flatten ++ doneEvent) := by
  induction writes with
  | nil =>
    have hdone := events_dataEvent (not_mem_ascii "[DONE]" (by decide)) []
    rw [List.append_nil] at hdone
    exact ⟨[], hdone, fun d hd => absurd hd List.not_mem_nil⟩
  | cons w rest ih =>
    obtain ⟨docs, hevents, hdocs⟩ := ih fun w' hw' => h w' (List.mem_cons_of_mem _ hw')
    obtain ⟨d, rfl, hd, hloads⟩ := h w List.mem_cons_self
    refine ⟨d :: docs, ?_, ?_⟩
    · rw [List.flatten_cons, List.append_assoc, events_dataEvent hd, hevents]
      rfl
    · intro d' hd'
      rcases List.mem_cons.mp hd' with rfl | hd'
      · exact hloads
      · exact hdocs d' hd'

theorem clean_string {s : Bytes} (h : utf8Check s = true ∧ Nonzero s) : Clean (.string s) :=
  ⟨decide_eq_true h.2, fun _ ht => by rw [List.mem_singleton.mp ht]; exact h.1⟩

theorem valid_ascii (s : String)
    (h : s.toList.all (fun c => c.toNat < 128 ∧ c ≠ Char.ofNat 0) = true) :
    utf8Check (ascii s) = true ∧ Nonzero (ascii s) := by
  have hall := fun c hc => of_decide_eq_true (List.all_eq_true.mp h c hc)
  refine ⟨utf8Check_ascii s (List.all_eq_true.mpr fun c hc => ?_),
    nonzero_ascii s (List.all_eq_true.mpr fun c hc => ?_)⟩
  · exact decide_eq_true (hall c hc).1
  · exact decide_eq_true (hall c hc).2

/-- A literal is clean. -/
theorem clean_ascii (s : String)
    (h : s.toList.all (fun c => c.toNat < 128 ∧ c ≠ Char.ofNat 0) = true) :
    Clean (.string (ascii s)) := clean_string (valid_ascii s h)

theorem clean_integer (n : Int64) : Clean (.integer n) :=
  ⟨rfl, fun _ hs => absurd hs List.not_mem_nil⟩

theorem clean_null : Clean .null := ⟨rfl, fun _ hs => absurd hs List.not_mem_nil⟩

theorem clean_array {items : List Json} (h : ∀ x ∈ items, Clean x) : Clean (.array items) := by
  induction items with
  | nil => exact ⟨rfl, fun _ hs => absurd hs List.not_mem_nil⟩
  | cons x rest ih =>
    obtain ⟨hx, hrest⟩ := List.forall_mem_cons.mp h
    refine ⟨Bool.and_eq_true_iff.mpr ⟨hx.wellFormed, (ih hrest).wellFormed⟩, fun s hs => ?_⟩
    rcases List.mem_append.mp hs with hs | hs
    · exact hx.utf8 s hs
    · exact (ih hrest).utf8 s hs

/-- An object of clean values under clean keys. -/
theorem clean_object {members : List (Bytes × Json)} (hkeys : (members.map Prod.fst).Nodup)
    (h : ∀ m ∈ members, Clean (.string m.1) ∧ Clean m.2) : Clean (.object members) := by
  have hmembers : wellFormedMembers members = true ∧
      ∀ s ∈ stringsMembers members, utf8Check s = true := by
    clear hkeys
    induction members with
    | nil => exact ⟨rfl, fun _ hs => absurd hs List.not_mem_nil⟩
    | cons m rest ih =>
      obtain ⟨⟨hkey, hvalue⟩, hrest⟩ := List.forall_mem_cons.mp h
      obtain ⟨hw, hu⟩ := ih hrest
      refine ⟨?_, fun s hs => ?_⟩
      · have hnonzero : decide (Char.ofNat 0 ∉ m.1) = true := hkey.wellFormed
        rw [wellFormedMembers, hw, hvalue.wellFormed, hnonzero]
        rfl
      · rcases List.mem_cons.mp hs with rfl | hs
        · exact hkey.utf8 _ (List.mem_singleton_self _)
        rcases List.mem_append.mp hs with hs | hs
        · exact hvalue.utf8 s hs
        · exact hu s hs
  exact ⟨Bool.and_eq_true_iff.mpr ⟨hmembers.1, decide_eq_true hkeys⟩, hmembers.2⟩

/-- A document of few levels that is read again as it was written. -/
structure Writable (c : Json) : Prop where
  clean : Clean c
  isDocument : JsonText.isDocument c = true
  shallow : depth c ≤ 8

theorem Writable.jsonLoads_dumps {c : Json} (h : Writable c) : jsonLoads (dumps c) = some c :=
  h.clean.jsonLoads_dumps h.isDocument (h.shallow.trans (by decide))

/-- A chunk in the buffer of an event. -/
def cut (c : Json) : Bytes := snprintf eventCap (dataEvent (dumps c))

theorem cut_of_fits {c : Json} (hfits : (dataEvent (dumps c)).length < eventCap) :
    cut c = dataEvent (dumps c) := List.take_of_length_le (by omega)

/-- A document that fits in the buffer is written as its chunk. -/
theorem Writable.isChunk {c : Json} (h : Writable c)
    (hfits : (dataEvent (dumps c)).length < eventCap) : IsChunk (cut c) := by
  rw [cut_of_fits hfits]
  exact ⟨dumps c, rfl, newline_not_mem_dumps c, by rw [h.jsonLoads_dumps]; rfl⟩

/-- A member that is there when its text is UTF-8. -/
theorem clean_stringMember {key : String} (hkey : Clean (.string (ascii key))) {s : Bytes}
    (hs : Nonzero s) : ∀ m ∈ stringMember key s, Clean (.string m.1) ∧ Clean m.2 := by
  unfold stringMember
  intro m hm
  split at hm
  · rename_i hutf8
    rw [List.mem_singleton.mp hm]
    exact ⟨hkey, clean_string ⟨hutf8, hs⟩⟩
  · exact absurd hm List.not_mem_nil

/-- The choice of a chunk. -/
theorem clean_choice {d e : Json} (hd : Clean d) (he : Clean e) :
    Clean (.object [(ascii "index", .integer 0), (ascii "delta", d),
      (ascii "finish_reason", e)]) := by
  refine clean_object (by simp [ascii_inj]) ?_
  simp only [List.forall_mem_cons]
  exact ⟨⟨clean_ascii _ (by decide), clean_integer 0⟩, ⟨clean_ascii _ (by decide), hd⟩,
    ⟨clean_ascii _ (by decide), he⟩, List.forall_mem_nil _⟩

theorem jsonPack_eq_some {given : List Bytes} {tree c : Json} :
    jsonPack given tree = some c ↔ (∀ s ∈ given, utf8Check s = true) ∧ tree = c := by
  unfold jsonPack
  split
  · rename_i h
    rw [List.all_eq_true] at h
    exact ⟨fun heq => ⟨h, Option.some.inj heq⟩, fun hand => congrArg some hand.2⟩
  · rename_i h
    rw [List.all_eq_true] at h
    exact iff_of_false (by simp) fun hand => h hand.1

theorem dataEvent_length (d : Bytes) : (dataEvent d).length = d.length + 8 := by
  have hfield : (ascii "data: ").length = 6 := ascii_length _
  simp only [dataEvent, List.length_append, List.length_cons, List.length_nil, hfield]
  omega

end Aigate.EventStreams
