import Aigate.StreamCacheStore
import Aigate.JsonUtf8

/-!
# The replay of a stored stream

The bounds on the id, the model and the pieces keep every event within the 2048 bytes that it
is formatted into, so a client reads the events of a replay as they were packed. The message
they carry has the pieces of the content that are UTF-8, no tool call, and always the reason
`stop`: the message of the stream comes back only if that is what it was.
-/
namespace Aigate.StreamCacheReplay
open Text JsonTree JsonText JsonRoundtrip JsonEdit JsonUtf8 Guardrails GuardrailsEdits LineBuffer
  Utf8 StreamCache StreamCacheStore

theorem quoted_length_le (s : Bytes) : (quoted s).length ≤ 6 * s.length + 2 := by
  have hescape : ∀ c, (escapeChar c).length ≤ 6 := by
    intro c
    unfold escapeChar
    split_ifs <;> simp
  have hflat : (s.flatMap escapeChar).length ≤ 6 * s.length := by
    induction s with
    | nil => simp
    | cons c s ih =>
      have := hescape c
      rw [List.flatMap_cons, List.length_append, List.length_cons]
      omega
  simp only [quoted, List.length_append, List.length_cons, List.length_nil]
  omega

/-- A literal without special characters is written between quotes. -/
theorem quoted_ascii_length (s : String) (h : s.toList.all (fun c => escapeChar c = [c]) = true) :
    (quoted (ascii s)).length = s.toList.length + 2 := by
  have hflat : (ascii s).flatMap escapeChar = ascii s := by
    unfold ascii
    exact flatMap_escapeChar_self fun c hc => of_decide_eq_true (List.all_eq_true.mp h c hc)
  simp [quoted, hflat, String.length_toList]

theorem quoted_nil : quoted [] = ['"', '"'] := rfl

theorem integerText_length_le (n : Int64) : (integerText n).length ≤ 20 := by
  have hlow := n.le_toInt
  have hhigh := n.toInt_lt
  have hdigits : (decimal n.toInt.natAbs).length ≤ 19 :=
    decimal_length_le (by norm_num) (by omega)
  unfold integerText
  split
  · rw [List.length_cons]
    omega
  · omega

/-- An event that a client reads as it was written, in one buffer. -/
structure Sound (e : Json) : Prop where
  readable : Readable e
  isObject : e.isObject = true
  utf8 : utf8Check (dumps e) = true
  short : (dumps e).length ≤ 2039

/-- An event that a client reads as it was written. -/
structure IsEvent (e : Json) : Prop where
  readable : Readable e
  isObject : e.isObject = true
  utf8 : utf8Check (dumps e) = true

theorem Sound.isEvent {e : Json} (h : Sound e) : IsEvent e := ⟨h.readable, h.isObject, h.utf8⟩

def eventLine (e : Json) : Bytes := ascii "data: " ++ dumps e

theorem dumps_object_head {e : Json} (h : e.isObject = true) : ∃ rest, dumps e = '{' :: rest := by
  cases e with
  | object members =>
    rw [dumps]
    exact ⟨_, rfl⟩
  | _ => cases h

theorem data_eq : ascii "data: " = ['d', 'a', 't', 'a', ':', ' '] := by
  unfold ascii
  rfl

theorem sseData_eventLine {e : Json} (h : IsEvent e) : sseData (eventLine e) = some e := by
  obtain ⟨rest, hrest⟩ := dumps_object_head h.isObject
  have hnonzero : Nonzero (eventLine e) :=
    nonzero_append (nonzero_ascii _ rfl) (nonzero_dumps e)
  have hdone : eventLine e ≠ ascii "data: [DONE]" := by
    have : ascii "data: [DONE]" = ascii "data: " ++ ascii "[DONE]" := by
      unfold ascii
      rfl
    rw [eventLine, this, hrest, ne_eq, List.append_cancel_left_eq]
    have hbracket : ascii "[DONE]" = ['[', 'D', 'O', 'N', 'E', ']'] := by
      unfold ascii
      rfl
    rw [hbracket]
    simp
  have hfront : (ascii "data: ").isPrefixOf (eventLine e) = true := by
    rw [List.isPrefixOf_iff_prefix]
    exact List.prefix_append _ _
  have hdrop : (eventLine e).drop 6 = dumps e := by
    rw [eventLine, data_eq]
    rfl
  unfold sseData
  dsimp only
  rw [cString_of_nonzero hnonzero, if_pos ⟨hfront, hdone⟩, hdrop, jsonLoads, if_pos h.utf8,
    h.readable.loads_dumps]
  simp [h.isObject]

/-- A sound event is formatted as a whole. -/
theorem writeEvent_sound {e : Json} (h : Sound e) :
    (writeEvent e).sent = eventLine e ++ ['\n', '\n'] ∧
      (writeEvent e).length ≤ (writeEvent e).formatted.length := by
  have hlen : (ascii "data: " ++ dumps e ++ ['\n', '\n']).length ≤ 2047 := by
    have := h.short
    rw [List.length_append, List.length_append, ascii_length]
    change 6 + _ + 2 ≤ 2047
    omega
  have htake := List.take_of_length_le hlen
  unfold writeEvent Write.sent
  dsimp only
  rw [htake, List.take_length]
  exact ⟨rfl, le_refl _⟩

theorem newline_not_mem_eventLine (e : Json) : '\n' ∉ eventLine e := by
  rw [eventLine, List.mem_append]
  rintro (h | h)
  · rw [data_eq] at h
    revert h
    decide
  · have := printable_dumps e _ h
    revert this
    decide

theorem sseData_of_not_data {line : Bytes} (h : (ascii "data: ").isPrefixOf (cString line) = false) :
    sseData line = none := by
  unfold sseData
  simp [h]

/-- A client reads events one after the other, and nothing else. -/
theorem readMessage_lines {es : List Json} (hes : ∀ e ∈ es, IsEvent e) (m : Message) :
    (lines '\n' (es.flatMap (fun e => eventLine e ++ ['\n', '\n']) ++
      (ascii "data: [DONE]" ++ ['\n', '\n']))).foldl Message.read m =
      es.foldl (fun m e =>
        ⟨m.content ++ deltaContent e, m.toolCalls ++ deltaToolCalls e,
          (choiceFinish e).or m.finishReason⟩) m := by
  induction es generalizing m with
  | nil =>
    have hdone : ascii "data: [DONE]" =
        ['d', 'a', 't', 'a', ':', ' ', '[', 'D', 'O', 'N', 'E', ']'] := by
      unfold ascii
      rfl
    have hlines : lines '\n' (ascii "data: [DONE]" ++ ['\n', '\n']) = [ascii "data: [DONE]", []] := by
      rw [hdone]
      decide
    have hnonzero : Nonzero (ascii "data: [DONE]") := nonzero_ascii _ rfl
    have hend : sseData (ascii "data: [DONE]") = none := by
      unfold sseData
      dsimp only
      rw [cString_of_nonzero hnonzero, if_neg fun h => h.2 rfl]
    have hempty : sseData [] = none := sseData_of_not_data (by rw [data_eq]; rfl)
    simp [hlines, Message.read, hend, hempty]
  | cons e es ih =>
    have hempty : sseData [] = none := sseData_of_not_data (by rw [data_eq]; rfl)
    rw [List.flatMap_cons]
    simp only [List.append_assoc, List.cons_append, List.nil_append]
    rw [lines_line (newline_not_mem_eventLine e)]
    have hblank : ∀ rest : Bytes, lines '\n' ('\n' :: rest) = [] :: lines '\n' rest :=
      fun rest => lines_line List.not_mem_nil rest
    rw [hblank, List.foldl_cons, List.foldl_cons, List.foldl_cons]
    have hih := ih (fun e' he' => hes e' (List.mem_cons_of_mem _ he'))
      ⟨m.content ++ deltaContent e, m.toolCalls ++ deltaToolCalls e,
        (choiceFinish e).or m.finishReason⟩
    simpa [Message.read, sseData_eventLine (hes e List.mem_cons_self), hempty] using hih

/-- So it reads the events of a replay. -/
theorem readMessage_events {es : List Json} (hes : ∀ e ∈ es, Sound e) (m : Message) :
    (lines '\n' (es.flatMap (fun e => (writeEvent e).sent) ++
      (ascii "data: [DONE]" ++ ['\n', '\n']))).foldl Message.read m =
      es.foldl (fun m e =>
        ⟨m.content ++ deltaContent e, m.toolCalls ++ deltaToolCalls e,
          (choiceFinish e).or m.finishReason⟩) m := by
  rw [← readMessage_lines (fun e he => (hes e he).isEvent) m]
  congr 3
  exact List.flatMap_congr fun e he => (writeEvent_sound (hes e he)).1

/-- What the strings of an event may be. -/
structure Given (s : Bytes) (n : ℕ) : Prop where
  utf8 : utf8Check s = true
  nonzero : Nonzero s
  length_le : s.length ≤ n

/-- A delta of a replayed event. -/
structure Delta (delta : Json) : Prop where
  wellFormed : JsonRoundtrip.wellFormed delta = true
  depth_le : depth delta ≤ 2
  utf8 : ∀ s ∈ strings delta, utf8Check s = true
  short : (dumps delta).length ≤ 300

theorem delta_role : Delta (.object [(ascii "role", .string (ascii "assistant")),
    (ascii "content", .string [])]) where
  wellFormed := by
    simp (disch := decide) [JsonRoundtrip.wellFormed, wellFormedMembers, ascii_inj, nonzero_ascii]
  depth_le := by simp [depth, depthMembers]
  utf8 := by
    simp (disch := decide) [strings, stringsMembers, utf8Check_ascii, utf8Check]
  short := by
    simp (disch := decide) [dumps, dumpsMembers, quoted_ascii_length, quoted_nil]

theorem delta_content {piece : Bytes} (h : Given piece 32) :
    Delta (.object [(ascii "content", .string piece)]) where
  wellFormed := by
    have hp := h.nonzero
    simp (disch := decide) [JsonRoundtrip.wellFormed, wellFormedMembers, nonzero_ascii, hp]
  depth_le := by simp [depth, depthMembers]
  utf8 := by
    simp (disch := decide) [strings, stringsMembers, utf8Check_ascii, h.utf8]
  short := by
    have hq := quoted_length_le piece
    have hp := h.length_le
    simp (disch := decide) [dumps, dumpsMembers, quoted_ascii_length]
    omega

section Events

variable {id model : Bytes} (hid : Given id 63) (hmodel : Given model 127) (created : Int64)
include hid hmodel

/-- An event with a delta fits in the buffer of 2048 bytes. -/
theorem sound_delta {delta : Json} (hdelta : Delta delta) :
    Sound (chunkObject id model created delta .null []) where
  readable := by
    have hi := hid.nonzero
    have hm := hmodel.nonzero
    refine ⟨rfl, ?_, ?_⟩
    · simp (disch := decide) [chunkObject, wellFormed, wellFormedMembers, wellFormedItems,
        ascii_inj, nonzero_ascii, hi, hm, hdelta.wellFormed]
    · have := hdelta.depth_le
      simp [chunkObject, depth, depthMembers, depthItems, maxDepth]
      omega
  isObject := rfl
  utf8 := by
    refine utf8Check_dumps ?_
    simpa (disch := decide) [chunkObject, strings, stringsMembers, stringsItems, utf8Check_ascii,
      hid.utf8, hmodel.utf8, or_imp, forall_and] using hdelta.utf8
  short := by
    have hi := quoted_length_le id
    have hm := quoted_length_le model
    have hi' := hid.length_le
    have hm' := hmodel.length_le
    have hc := integerText_length_le created
    have h0 := integerText_length_le 0
    have hd := hdelta.short
    simp (disch := decide) [chunkObject, dumps, dumpsMembers, dumpsItems, quoted_ascii_length]
    omega

theorem sound_fin (ptok ctok : Int64) : Sound (chunkObject id model created (.object [])
    (.string (ascii "stop")) [(ascii "usage", usageObject ptok ctok)]) where
  readable := by
    have hi := hid.nonzero
    have hm := hmodel.nonzero
    refine ⟨rfl, ?_, ?_⟩
    · simp (disch := decide) [chunkObject, usageObject, wellFormed, wellFormedMembers,
        wellFormedItems, ascii_inj, nonzero_ascii, hi, hm]
    · simp [chunkObject, usageObject, depth, depthMembers, depthItems, maxDepth]
  isObject := rfl
  utf8 := by
    refine utf8Check_dumps ?_
    simp (disch := decide) [chunkObject, usageObject, strings, stringsMembers, stringsItems,
      utf8Check_ascii, hid.utf8, hmodel.utf8]
  short := by
    have hi := quoted_length_le id
    have hm := quoted_length_le model
    have hi' := hid.length_le
    have hm' := hmodel.length_le
    have hc := integerText_length_le created
    have h0 := integerText_length_le 0
    have h1 := integerText_length_le (toInt ptok)
    have h2 := integerText_length_le (toInt ctok)
    have h3 := integerText_length_le (toInt (ptok + ctok))
    simp (disch := decide) [chunkObject, usageObject, dumps, dumpsMembers, dumpsItems,
      quoted_ascii_length]
    omega

end Events

theorem mem_pieces {n : ℕ} {s p : Bytes} (h : p ∈ pieces n s) :
    p ≠ [] ∧ p.length ≤ 32 ∧ p.Sublist s := by
  induction n generalizing s with
  | zero => cases h
  | succ n ih =>
    cases s with
    | nil => cases h
    | cons c cs =>
      rcases List.mem_cons.mp h with rfl | h
      · exact ⟨by simp, List.length_take_le _ _, List.take_sublist _ _⟩
      · obtain ⟨hne, hlen, hsub⟩ := ih h
        exact ⟨hne, hlen, hsub.trans (List.drop_sublist _ _)⟩

theorem pieces_flatten {n : ℕ} {s : Bytes} (h : s.length ≤ n) : (pieces n s).flatten = s := by
  induction n generalizing s with
  | zero =>
    obtain rfl := List.length_eq_zero_iff.mp (Nat.le_zero.mp h)
    rfl
  | succ n ih =>
    cases s with
    | nil => rfl
    | cons c cs =>
      rw [pieces, List.flatten_cons, ih, List.take_append_drop]
      rw [List.length_drop, List.length_cons] at *
      omega

/-- Nothing is lost of a list of pieces exactly when none is left out. -/
theorem flatten_filter_eq_iff {ps : List Bytes} {p : Bytes → Bool} (h : ∀ x ∈ ps, x ≠ []) :
    (ps.filter p).flatten = ps.flatten ↔ ∀ x ∈ ps, p x = true := by
  induction ps with
  | nil => simp
  | cons x ps ih =>
    have ih := ih fun y hy => h y (List.mem_cons_of_mem _ hy)
    by_cases hx : p x = true
    · rw [List.filter_cons_of_pos hx, List.flatten_cons, List.flatten_cons,
        List.append_cancel_left_eq, ih]
      simp [hx]
    · rw [List.filter_cons_of_neg hx]
      refine iff_of_false ?_ (fun hall => hx (hall x List.mem_cons_self))
      intro heq
      have hle : (ps.filter p).flatten.length ≤ ps.flatten.length :=
        (List.filter_sublist.flatten).length_le
      have hpos := List.length_pos_iff.mpr (h x List.mem_cons_self)
      have := congrArg List.length heq
      rw [List.flatten_cons, List.length_append] at this
      omega

section Stored

variable {id model content : Bytes} (hid : Given id 63) (hmodel : Given model 127)
  (hutf8 : utf8Check content = true) (hcontent : Nonzero content) (created ptok ctok : Int64)
include hid hmodel hutf8 hcontent

/-- The stored document is read back as it was packed. -/
theorem jsonLoads_fullResponse :
    jsonLoads (cString (dumps (fullResponse id model content created ptok ctok))) =
      some (fullResponse id model content created ptok ctok) := by
  have hi := hid.nonzero
  have hm := hmodel.nonzero
  have hreadable : Readable (fullResponse id model content created ptok ctok) := by
    refine ⟨rfl, ?_, ?_⟩
    · simp (disch := decide) [fullResponse, usageObject, wellFormed, wellFormedMembers,
        wellFormedItems, ascii_inj, nonzero_ascii, hi, hm, hcontent]
    · simp [fullResponse, usageObject, depth, depthMembers, depthItems, maxDepth]
  have hstrings : utf8Check (dumps (fullResponse id model content created ptok ctok)) = true := by
    refine utf8Check_dumps ?_
    simp (disch := decide) [fullResponse, usageObject, strings, stringsMembers, stringsItems,
      utf8Check_ascii, hid.utf8, hmodel.utf8, hutf8]
  rw [cString_of_nonzero (nonzero_dumps _), jsonLoads, if_pos hstrings, hreadable.loads_dumps]

/-- A hit replays the role, the pieces of the content that are UTF-8, and the end. -/
theorem cacheStreamReplay_stored {ce : CachedEntry} (asked : Bytes)
    (h : ce.responseBody = dumps (fullResponse id model content created ptok ctok)) :
    cacheStreamReplay ce asked =
      ([chunkObject id model created (.object [(ascii "role", .string (ascii "assistant")),
          (ascii "content", .string [])]) .null []] ++
        ((contentPieces content).filter utf8Check).map (fun piece =>
          chunkObject id model created (.object [(ascii "content", .string piece)]) .null []) ++
        [chunkObject id model created (.object []) (.string (ascii "stop"))
          [(ascii "usage", usageObject ce.promptTokens ce.completionTokens)]]).map writeEvent ++
      [⟨ascii "data: [DONE]" ++ ['\n', '\n'], 14⟩, ⟨[], 0⟩] := by
  have hloads := jsonLoads_fullResponse hid hmodel hutf8 hcontent created ptok ctok
  have hgetId : (fullResponse id model content created ptok ctok).getString "id" = some id := by
    simp [fullResponse, Json.getString, Json.get, lookup, Json.stringValue]
  have hgetModel : (fullResponse id model content created ptok ctok).getString "model" =
      some model := by
    simp [fullResponse, Json.getString, Json.get, lookup, Json.stringValue, ascii_inj]
  have hgetCreated : integerMember (fullResponse id model content created ptok ctok) "created" =
      some created := by
    simp [fullResponse, integerMember, Json.get, lookup, ascii_inj]
  have hgetContent : cachedContent (fullResponse id model content created ptok ctok) =
      some content := by
    simp [fullResponse, cachedContent, firstChoice, Json.getArray, Json.getString, Json.get, lookup,
      Json.stringValue, Json.arrayItems, ascii_inj]
  have hpieces : ∀ (ps : List Bytes) (f : Bytes → Json),
      (ps.filterMap fun piece => jsonPack [id, model, piece] (f piece)) =
        (ps.filter utf8Check).map f := by
    intro ps f
    induction ps with
    | nil => rfl
    | cons p ps ih =>
      by_cases hp : utf8Check p = true
      · rw [List.filter_cons_of_pos hp, List.map_cons, ← ih]
        simp [jsonPack, hid.utf8, hmodel.utf8, hp]
      · rw [List.filter_cons_of_neg hp, ← ih]
        simp [jsonPack, hp]
  have hpack : ∀ tree, jsonPack [id, model] tree = some tree := by
    intro tree
    simp [jsonPack, hid.utf8, hmodel.utf8]
  unfold cacheStreamReplay
  rw [h, hloads]
  simp only [Option.bind_some, hgetId, hgetModel, hgetCreated, hgetContent, Option.getD_some,
    hpieces, hpack, Option.toList_some]

end Stored

theorem deltaContent_chunk (id model : Bytes) (created : Int64) (piece : Bytes) :
    deltaContent (chunkObject id model created (.object [(ascii "content", .string piece)]) .null
      []) = piece := by
  simp [deltaContent, deltaOf, firstChoice, chunkObject, Json.getArray, Json.getString, Json.get,
    lookup, Json.stringValue, Json.arrayItems, Json.isObject, Option.filter, ascii_inj]

theorem deltaToolCalls_chunk (id model : Bytes) (created : Int64) (piece : Bytes) :
    deltaToolCalls (chunkObject id model created (.object [(ascii "content", .string piece)]) .null
      []) = [] := by
  simp [deltaToolCalls, deltaOf, firstChoice, chunkObject, Json.getArray, Json.get, lookup,
    Json.arrayItems, Json.isObject, Option.filter, ascii_inj]

theorem choiceFinish_chunk (id model : Bytes) (created : Int64) (piece : Bytes) :
    choiceFinish (chunkObject id model created (.object [(ascii "content", .string piece)]) .null
      []) = none := by
  simp [choiceFinish, firstChoice, chunkObject, Json.getArray, Json.getString, Json.get, lookup,
    Json.stringValue, Json.arrayItems, ascii_inj]

/-- The message of a replay: the pieces that were sent, no tool call, and the reason `stop`. -/
theorem fold_replay (id model : Bytes) (created : Int64) (ps : List Bytes) (usage : Json) :
    ([chunkObject id model created (.object [(ascii "role", .string (ascii "assistant")),
        (ascii "content", .string [])]) .null []] ++
      ps.map (fun piece =>
        chunkObject id model created (.object [(ascii "content", .string piece)]) .null []) ++
      [chunkObject id model created (.object []) (.string (ascii "stop"))
        [(ascii "usage", usage)]]).foldl
      (fun m e => ⟨m.content ++ deltaContent e, m.toolCalls ++ deltaToolCalls e,
        (choiceFinish e).or m.finishReason⟩) Message.empty =
      ⟨ps.flatten, [], some (ascii "stop")⟩ := by
  have hfold : ∀ (ps : List Bytes) (text : Bytes),
      (ps.map (fun piece =>
        chunkObject id model created (.object [(ascii "content", .string piece)]) .null [])).foldl
        (fun m e => (⟨m.content ++ deltaContent e, m.toolCalls ++ deltaToolCalls e,
          (choiceFinish e).or m.finishReason⟩ : Message)) ⟨text, [], none⟩ =
        ⟨text ++ ps.flatten, [], none⟩ := by
    intro ps
    induction ps with
    | nil => simp
    | cons p ps ih =>
      intro text
      rw [List.map_cons, List.foldl_cons, deltaContent_chunk, deltaToolCalls_chunk,
        choiceFinish_chunk, List.append_nil, Option.or_none, ih, List.flatten_cons,
        List.append_assoc]
  have hrole : (⟨Message.empty.content ++ deltaContent (chunkObject id model created
        (.object [(ascii "role", .string (ascii "assistant")), (ascii "content", .string [])]) .null
        []),
      Message.empty.toolCalls ++ deltaToolCalls (chunkObject id model created
        (.object [(ascii "role", .string (ascii "assistant")), (ascii "content", .string [])]) .null
        []),
      (choiceFinish (chunkObject id model created
        (.object [(ascii "role", .string (ascii "assistant")), (ascii "content", .string [])]) .null
        [])).or Message.empty.finishReason⟩ : Message) = ⟨[], [], none⟩ := by
    simp [Message.empty, deltaContent, deltaToolCalls, choiceFinish, deltaOf, firstChoice,
      chunkObject, Json.getArray, Json.getString, Json.get, lookup, Json.stringValue,
      Json.arrayItems, Json.isObject, Option.filter, ascii_inj]
  rw [List.foldl_append, List.foldl_append]
  simp only [List.foldl_cons, List.foldl_nil]
  rw [hrole, hfold]
  simp [deltaContent, deltaToolCalls, choiceFinish, deltaOf, firstChoice, chunkObject,
    Json.getArray, Json.getString, Json.get, lookup, Json.stringValue, Json.arrayItems,
    Json.isObject, Option.filter, ascii_inj]

theorem given_storedId (s : StreamRun) (h : utf8Check (storedId s.acc) = true) :
    Given (storedId s.acc) 63 := by
  have hkept := kept_acc s
  refine ⟨h, ?_, ?_⟩
  · unfold storedId
    split
    · exact hkept.id_nonzero
    · exact nonzero_ascii _ rfl
  · unfold storedId
    split
    · exact hkept.id_le
    · rw [ascii_length]
      decide

/-- The message of the replay of a stored stream, and that every write is in its buffer. -/
theorem replay_stored {s : StreamRun} {body : Bytes} (h : cacheStoreStream s = some body)
    {ce : CachedEntry} (asked : Bytes) (hce : ce.responseBody = body) :
    readMessage (replayed (cacheStreamReplay ce asked)) =
        ⟨((contentPieces (readMessage s.marked.flatten).content).filter utf8Check).flatten, [],
          some (ascii "stop")⟩ ∧
      ∀ w ∈ cacheStreamReplay ce asked, w.length ≤ w.formatted.length := by
  unfold cacheStoreStream at h
  dsimp only at h
  split at h
  · rename_i hstored
    obtain ⟨hpack, -⟩ := Option.filter_eq_some_iff.mp h
    obtain ⟨tree, htree, rfl⟩ := Option.map_eq_some_iff.mp hpack
    unfold jsonPack at htree
    split at htree
    · rename_i hall
      obtain rfl := Option.some.inj htree
      simp only [List.all_cons, List.all_nil, Bool.and_true, Bool.and_eq_true] at hall
      have hid := given_storedId s hall.1
      have hmodel : Given s.model 127 := ⟨hall.2.1, s.model_nonzero, s.model_le⟩
      have hnonzero := (kept_acc s).content_nonzero
      rw [← acc_content s hstored.2.1]
      have hreplay := cacheStreamReplay_stored hid hmodel hall.2.2 hnonzero _ _ _ asked hce
      generalize (if 0 < s.acc.created then s.acc.created else s.now) = created at hreplay
      have hsound : ∀ e ∈ ([chunkObject (storedId s.acc) s.model created
            (.object [(ascii "role", .string (ascii "assistant")),
              (ascii "content", .string [])]) .null []] ++
          ((contentPieces s.acc.accumContent).filter utf8Check).map (fun piece =>
            chunkObject (storedId s.acc) s.model created
              (.object [(ascii "content", .string piece)]) .null []) ++
          [chunkObject (storedId s.acc) s.model created (.object []) (.string (ascii "stop"))
            [(ascii "usage", usageObject ce.promptTokens ce.completionTokens)]]), Sound e := by
        intro e he
        rcases List.mem_append.mp he with he | he
        · rcases List.mem_append.mp he with he | he
          · obtain rfl := List.mem_singleton.mp he
            exact sound_delta hid hmodel created delta_role
          · obtain ⟨piece, hpiece, rfl⟩ := List.mem_map.mp he
            obtain ⟨hmem, hvalid⟩ := List.mem_filter.mp hpiece
            obtain ⟨-, hlen, hsub⟩ := mem_pieces hmem
            exact sound_delta hid hmodel created
              (delta_content ⟨hvalid, nonzero_sublist hsub hnonzero, hlen⟩)
        · obtain rfl := List.mem_singleton.mp he
          exact sound_fin hid hmodel created _ _
      have hdone : (ascii "data: [DONE]" ++ ['\n', '\n']).length = 14 := by
        rw [List.length_append, ascii_length]
        rfl
      refine ⟨?_, ?_⟩
      · rw [hreplay, readMessage, replayed, List.flatMap_append, List.flatMap_map]
        have hend : ([⟨ascii "data: [DONE]" ++ ['\n', '\n'], 14⟩, ⟨[], 0⟩] : List Write).flatMap
            Write.sent = ascii "data: [DONE]" ++ ['\n', '\n'] := by
          simp [Write.sent, List.take_of_length_le hdone.le]
        rw [hend, readMessage_events hsound, fold_replay]
      · rw [hreplay]
        intro w hw
        rcases List.mem_append.mp hw with hw | hw
        · obtain ⟨e, he, rfl⟩ := List.mem_map.mp hw
          exact (writeEvent_sound (hsound e he)).2
        · rcases List.mem_cons.mp hw with rfl | hw
          · exact hdone.ge
          · obtain rfl := List.mem_singleton.mp hw
            exact le_refl _
    · cases htree
  · cases h

/-- A stored stream is replayed as the message it carried, and no write is longer than the
bytes formatted for it. -/
def RoundTrips (s : StreamRun) : Prop :=
  ∀ body, cacheStoreStream s = some body → ∀ (ce : CachedEntry) (asked : Bytes),
    ce.responseBody = body →
    (readMessage (replayed (cacheStreamReplay ce asked))).content =
        (readMessage s.chunks.flatten).content ∧
      (readMessage (replayed (cacheStreamReplay ce asked))).toolCalls =
        (readMessage s.chunks.flatten).toolCalls ∧
      (readMessage (replayed (cacheStreamReplay ce asked))).finishReason =
        (readMessage s.chunks.flatten).finishReason ∧
      ∀ w ∈ cacheStreamReplay ce asked, w.length ≤ w.formatted.length

/-- The pieces of 32 bytes that are UTF-8, of what the watermark leaves of the content, make up
the content. -/
def PiecesReplay (s : StreamRun) : Prop :=
  ((contentPieces (readMessage s.marked.flatten).content).filter utf8Check).flatten =
    (readMessage s.chunks.flatten).content

/-- Without a watermark every piece has to be UTF-8: no character crosses a border. -/
theorem piecesReplay_iff {s : StreamRun} (h : s.marked = s.chunks) :
    PiecesReplay s ↔
      ∀ p ∈ contentPieces (readMessage s.chunks.flatten).content, utf8Check p = true := by
  have hflat : (contentPieces (readMessage s.chunks.flatten).content).flatten =
      (readMessage s.chunks.flatten).content := pieces_flatten (le_refl _)
  unfold PiecesReplay
  rw [h]
  nth_rewrite 2 [← hflat]
  exact flatten_filter_eq_iff fun p hp => (mem_pieces hp).1

/-- Of a message without tool calls that ended with `stop`, the content is replayed if no
character crosses the border of a piece; any other message is replayed changed. -/
theorem roundTrips_iff (s : StreamRun) :
    RoundTrips s ↔ ((cacheStoreStream s).isSome = true → PiecesReplay s ∧
      (readMessage s.chunks.flatten).toolCalls = [] ∧
      (readMessage s.chunks.flatten).finishReason = some (ascii "stop")) := by
  constructor
  · intro h hsome
    obtain ⟨body, hbody⟩ := Option.isSome_iff_exists.mp hsome
    obtain ⟨hmessage, -⟩ := @replay_stored _ _ hbody ⟨body, 0, 0, 0⟩ [] rfl
    obtain ⟨hcontent, hcalls, hfinish, -⟩ := h body hbody ⟨body, 0, 0, 0⟩ [] rfl
    rw [hmessage] at hcontent hcalls hfinish
    exact ⟨hcontent, hcalls.symm, hfinish.symm⟩
  · rintro h body hbody ce asked hce
    obtain ⟨hcontent, hcalls, hfinish⟩ := h (by rw [hbody]; rfl)
    obtain ⟨hmessage, hlength⟩ := replay_stored hbody asked hce
    rw [hmessage]
    exact ⟨hcontent, hcalls.symm, hfinish.symm, hlength⟩

/-- 31 letters, and a character of two bytes. -/
def accented : Bytes := List.replicate 31 'a' ++ [Char.ofNat 0xC3, Char.ofNat 0xA9]

def accentedRun : StreamRun where
  chunks := [ascii "data: \x7b\"choices\":[\x7b\"delta\":\x7b\"content\":\"" ++ accented ++
    ascii "\"\x7d,\"finish_reason\":\"stop\"\x7d]\x7d" ++ ['\n', '\n']]
  marked := [ascii "data: \x7b\"choices\":[\x7b\"delta\":\x7b\"content\":\"" ++ accented ++
    ascii "\"\x7d,\"finish_reason\":\"stop\"\x7d]\x7d" ++ ['\n', '\n']]
  cacheable := true
  status := 200
  model := ascii "m"
  model_le := by rw [ascii_length]; decide
  model_nonzero := nonzero_ascii _ rfl
  now := 0
  ptok := 0
  ctok := 0

theorem accentedRun_content : (readMessage accentedRun.chunks.flatten).content = accented := by
  decide +kernel

/-- The accent crosses the border of the first piece, and neither half is replayed. -/
theorem not_roundTrips_accented : ¬ RoundTrips accentedRun := by
  intro h
  have hstored : (cacheStoreStream accentedRun).isSome = true := by decide +kernel
  obtain ⟨body, hbody⟩ := Option.isSome_iff_exists.mp hstored
  obtain ⟨hmessage, -⟩ := @replay_stored _ _ hbody ⟨body, 0, 0, 0⟩ [] rfl
  obtain ⟨hcontent, -⟩ := h body hbody ⟨body, 0, 0, 0⟩ [] rfl
  rw [hmessage] at hcontent
  change ((contentPieces (readMessage accentedRun.chunks.flatten).content).filter
    utf8Check).flatten = _ at hcontent
  rw [accentedRun_content] at hcontent
  revert hcontent
  decide +kernel

end Aigate.StreamCacheReplay
