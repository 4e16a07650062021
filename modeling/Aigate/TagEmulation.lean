import Aigate.CompletionReplies
import Aigate.OpenaiBridge
import Aigate.TaggedText

/-!
# Tag emulation in the bridge of an OpenAI stream

With tag emulation the bridge packs the thoughts, the text and the reason for the end of every
chunk again. It packs nothing else.
-/
namespace Aigate.TagEmulation
open Text JsonTree JsonText JsonRoundtrip JsonEdit JsonUtf8 Guardrails GuardrailsEdits Utf8
  LineBuffer BoundedLines StreamCache StreamCacheReplay BridgeEvents EventTexts EventStreams CompletionReplies TaggedText
open ProviderRequests (getObject)
open BlockModes (textOf)
open MessagesAnswer (finishOf)
open MessagesAgreement (fragmentsOf)
open OpenaiBridge (Bridge openTag closeTag bracedDocument)

/-! ### The pieces of a stream -/

/-- What ends a text. -/
inductive Ending where
  | finish (reason : Bytes)
  | done
  deriving DecidableEq

def Ending.reason? : Ending → Option Bytes
  | finish reason => some reason
  | done => none

/-- What is in a line for the bridge. -/
inductive Line where
  | chunk (root : Json)
  | done

def Line.root? : Line → Option Json
  | chunk root => some root
  | done => none

def lineOf (line : Bytes) : Option Line :=
  (strstr (ascii "data:") (cString (stripCr line))).bind fun d =>
    if skipBlanks (d.drop 5) = ascii "[DONE]" then some .done
    else (bracedDocument (skipBlanks (d.drop 5))).map .chunk

/-- A thought, under the name of either provider. -/
def thoughtOf (root : Json) : Option Bytes :=
  ((OpenaiBridge.choiceOf root).bind (getObject · "delta")).bind fun delta =>
    ((delta.get "reasoning_content").or (delta.get "thought")).bind Json.stringValue

/-- The reason for the end; what is no string counts as `stop`. -/
def reasonOf (c0 : Json) : Option Bytes :=
  match c0.get "finish_reason" with
  | none => none
  | some .null => none
  | some reason => some (reason.stringValue.getD (ascii "stop"))

def endingOf (root : Json) : Option Bytes := (OpenaiBridge.choiceOf root).bind reasonOf

def piecesOf : Line → List (Piece Char Ending)
  | .chunk root => (thoughtOf root).toList.map .thought ++ (textOf root).toList.map .text ++
      (endingOf root).toList.map fun reason => .mark (.finish reason)
  | .done => [.mark .done]

def pieces (ls : List Bytes) : List (Piece Char Ending) := (ls.filterMap lineOf).flatMap piecesOf

def chunkId (model : Bytes) : Bytes :=
  ascii "chatcmpl-" ++ if model = [] then ascii "openai" else model

/-- The chunk of `openai_bridge_emit_delta`. -/
def deltaChunk (model : Bytes) (delta reason : List (Bytes × Json)) : Json :=
  .object (stringMember "id" (chunkId model) ++
    [(ascii "object", .string (ascii "chat.completion.chunk"))] ++ stringMember "model" model ++
    [(ascii "choices", .array [.object
      ([(ascii "index", .integer 0), (ascii "delta", .object delta)] ++ reason)])])

def contentChunk (model text : Bytes) : Json :=
  deltaChunk model (stringMember "content" text) [(ascii "finish_reason", .null)]

def finishChunk (model reason : Bytes) : Json :=
  deltaChunk model [] (stringMember "finish_reason" reason)

/-- The chunk for a part of the result. -/
def docOf (model : Bytes) : Bytes ⊕ Ending → Option Json
  | .inl text => some (contentChunk model text)
  | .inr (.finish reason) => some (finishChunk model reason)
  | .inr .done => none

def written (model : Bytes) (x : Bytes ⊕ Ending) : Bytes :=
  ((docOf model x).map cut).getD doneEvent

/-! ### The bridge writes the pieces between tags -/

/-- A bridge whose tags are in some state has written a result. -/
structure Shows (b : Bridge) (model : Bytes) (s : TagState) (out : List (Bytes ⊕ Ending)) :
    Prop where
  emulation : b.tagEmulation = true
  sameModel : b.model = model
  opened : b.tagOpened = decide (s ≠ .unopened)
  closed : b.tagClosed = decide (s = .closed)
  sent : b.sent = out.map (written model)

theorem cut_ne_nil (c : Json) : cut c ≠ [] := by
  intro h
  have hlen := congrArg List.length h
  rw [cut, snprintf, List.length_take, dataEvent_length] at hlen
  simp [eventCap] at hlen

theorem emitSse_of_ne (b : Bridge) {text : Bytes} (h : text ≠ []) :
    b.emitSse text = { b with sent := b.sent ++ [text] } := if_neg h

section
variable {b : Bridge} {model : Bytes} {s : TagState} {out : List (Bytes ⊕ Ending)}

/-- Behind a result, some more pieces were written. -/
def Adds (b : Bridge) (model : Bytes) (s : TagState) (out : List (Bytes ⊕ Ending))
    (ps : List (Piece Char Ending)) : Prop :=
  Shows b model (ps.foldl TagState.after s) (out ++ emitAll openTag closeTag s ps)

theorem Shows.adds_nil (h : Shows b model s out) : Adds b model s out [] := by
  unfold Adds
  simpa [emitAll] using h

theorem Shows.adds_one {p : Piece Char Ending}
    (h : Shows b model (s.after p) (out ++ emit openTag closeTag s p)) :
    Adds b model s out [p] := by
  unfold Adds
  simpa [emitAll] using h

/-- More pieces can be written behind. -/
theorem Adds.append {b' : Bridge} {ps qs : List (Piece Char Ending)} (h : Adds b model s out ps)
    (hadds : ∀ {s out}, Shows b model s out → Adds b' model s out qs) :
    Adds b' model s out (ps ++ qs) := by
  have hboth := hadds h
  unfold Adds at hboth ⊢
  rwa [List.foldl_append, emitAll_append, ← List.append_assoc]

theorem Shows.content (h : Shows b model s out) (text : Bytes) :
    Shows (b.emitContent text) model s (out ++ [.inl text]) := by
  have hemit : b.emitContent text = { b with sent := b.sent ++ [cut (contentChunk b.model text)] } :=
    emitSse_of_ne b (cut_ne_nil _)
  rw [hemit]
  exact ⟨h.emulation, h.sameModel, h.opened, h.closed, by simp [h.sent, h.sameModel, written, docOf]⟩

theorem Shows.finish (h : Shows b model s out) (reason : Bytes) :
    Shows (b.emitDelta [] (some reason)) model s (out ++ [.inr (.finish reason)]) := by
  have hemit : b.emitDelta [] (some reason) =
      { b with sent := b.sent ++ [cut (finishChunk b.model reason)] } :=
    emitSse_of_ne b (cut_ne_nil _)
  rw [hemit]
  exact ⟨h.emulation, h.sameModel, h.opened, h.closed, by simp [h.sent, h.sameModel, written, docOf]⟩

theorem Shows.done (h : Shows b model s out) :
    Shows (b.emitSse doneEvent) model s (out ++ [.inr .done]) := by
  rw [emitSse_of_ne b (by decide +kernel)]
  exact ⟨h.emulation, h.sameModel, h.opened, h.closed, by simp [h.sent, written, docOf]⟩

theorem Shows.opens (h : Shows b model s out) :
    Shows b.opened model s.think (out ++ opening openTag s) := by
  have hflag := h.opened
  unfold OpenaiBridge.Bridge.opened
  rw [hflag]
  cases s with
  | unopened =>
    have hcontent := h.content openTag
    exact ⟨hcontent.emulation, hcontent.sameModel, rfl, hcontent.closed, hcontent.sent⟩
  | opened => simpa [opening, TagState.think] using h
  | closed => simpa [opening, TagState.think] using h

theorem Shows.closes (h : Shows b model s out) :
    Shows b.closed model s.leave (out ++ closing closeTag s) := by
  have hopened := h.opened
  have hclosed := h.closed
  unfold OpenaiBridge.Bridge.closed
  rw [hopened, hclosed]
  cases s with
  | opened =>
    have hcontent := h.content closeTag
    exact ⟨hcontent.emulation, hcontent.sameModel, hcontent.opened, rfl, hcontent.sent⟩
  | unopened => simpa [closing, TagState.leave] using h
  | closed => simpa [closing, TagState.leave] using h

theorem Shows.thought (h : Shows b model s out) (delta : Json) :
    Adds (b.thought delta) model s out
      ((((delta.get "reasoning_content").or (delta.get "thought")).bind
        Json.stringValue).toList.map .thought) := by
  unfold OpenaiBridge.Bridge.thought
  cases ((delta.get "reasoning_content").or (delta.get "thought")).bind Json.stringValue with
  | none => exact h.adds_nil
  | some text =>
    apply Shows.adds_one
    simpa [emit, TagState.after] using h.opens.content text

theorem Shows.text (h : Shows b model s out) (delta : Json) :
    Adds (b.content delta) model s out ((delta.getString "content").toList.map .text) := by
  unfold OpenaiBridge.Bridge.content
  cases delta.getString "content" with
  | none => exact h.adds_nil
  | some text =>
    apply Shows.adds_one
    simpa [emit, Piece.plain, TagState.after] using h.closes.content text

theorem Shows.reason (h : Shows b model s out) (c0 : Json) :
    Adds (b.finishOf c0) model s out
      ((reasonOf c0).toList.map fun reason => .mark (.finish reason)) := by
  have hfinish : ∀ reason, Adds (b.closed.emitDelta [] (some reason)) model s out
      [.mark (.finish reason)] := by
    intro reason
    apply Shows.adds_one
    simpa [emit, Piece.plain, TagState.after] using h.closes.finish reason
  unfold OpenaiBridge.Bridge.finishOf reasonOf
  cases c0.get "finish_reason" with
  | none => exact h.adds_nil
  | some reason =>
    cases reason with
    | null => exact h.adds_nil
    | _ => exact hfinish _

theorem Shows.usage (h : Shows b model s out) (usage : Json) : Shows (b.usage usage) model s out :=
  ⟨h.emulation, h.sameModel, h.opened, h.closed, h.sent⟩

/-- The pieces of a chunk are written in their order. -/
theorem Shows.tagged (h : Shows b model s out) (dp : Bytes) :
    Adds (b.tagged dp) model s out
      ((if dp = ascii "[DONE]" then some Line.done
        else (bracedDocument dp).map .chunk).toList.flatMap piecesOf) := by
  unfold OpenaiBridge.Bridge.tagged
  split
  · apply Shows.adds_one
    simpa [emit, Piece.plain, TagState.after] using h.closes.done
  cases bracedDocument dp with
  | none => exact h.adds_nil
  | some root =>
    have htext : textOf root = ((OpenaiBridge.choiceOf root).bind (getObject · "delta")).bind
        (·.getString "content") := rfl
    rw [Option.bind_some, Option.map_some, Option.toList_some, List.flatMap_singleton, piecesOf,
      endingOf, thoughtOf, htext]
    cases OpenaiBridge.choiceOf root with
    | none => exact h.adds_nil
    | some c0 =>
      cases hdelta : getObject c0 "delta" with
      | none => simpa [hdelta] using h.reason c0
      | some delta =>
        simpa [hdelta] using ((h.thought delta).append fun h => h.text delta).append
          fun h => h.reason c0

theorem Shows.takeLine (h : Shows b model s out) (line : Bytes) :
    Adds (b.takeLine line) model s out ((lineOf line).toList.flatMap piecesOf) := by
  have hline : Adds (b.processLine (cString (stripCr line))) model s out
      ((lineOf line).toList.flatMap piecesOf) := by
    unfold OpenaiBridge.Bridge.processLine lineOf
    cases strstr (ascii "data:") (cString (stripCr line)) with
    | none => exact h.adds_nil
    | some d =>
      dsimp only [Option.bind_some]
      split
      · rw [(h.usage _).emulation, if_pos rfl]
        exact (h.usage _).tagged _
      · rw [h.emulation, if_pos rfl]
        exact h.tagged _
  unfold OpenaiBridge.Bridge.takeLine
  split
  · rename_i hempty
    have hnone : lineOf line = none := by
      unfold lineOf
      rw [hempty]
      decide +kernel
    rw [hnone]
    exact h.adds_nil
  · exact hline

theorem Shows.foldl (h : Shows b model s out) (ls : List Bytes) :
    Adds (ls.foldl Bridge.takeLine b) model s out (pieces ls) := by
  induction ls generalizing b s out with
  | nil => exact h.adds_nil
  | cons line rest ih =>
    have hpieces : pieces (line :: rest) = (lineOf line).toList.flatMap piecesOf ++ pieces rest := by
      unfold pieces
      cases hline : lineOf line with
      | none => simp [hline]
      | some l => simp [hline]
    rw [hpieces]
    exact (h.takeLine line).append fun h => ih h

end

theorem shows_new (model : Bytes) :
    Shows (Bridge.new model true) (snprintf 128 model) .unopened [] :=
  ⟨rfl, rfl, rfl, rfl, rfl⟩

/-- All that the bridge writes for some lines. -/
theorem sent_finish (model : Bytes) (ls : List Bytes) :
    (ls.foldl Bridge.takeLine (Bridge.new model true)).finish.sent =
      (run openTag closeTag .unopened (pieces ls)).map (written (snprintf 128 model)) := by
  have hshows : Shows _ _ _ _ := (shows_new model).foldl ls
  unfold OpenaiBridge.Bridge.finish
  rw [hshows.emulation, if_pos rfl, hshows.closes.sent]
  simp [run]

/-! ### Reading what was written -/

/-- The text of a part of the result can be packed. -/
def Valid : Bytes ⊕ Ending → Prop
  | .inl text => utf8Check text = true ∧ Nonzero text
  | .inr (.finish reason) => utf8Check reason = true ∧ Nonzero reason
  | .inr .done => True

theorem valid_openTag : utf8Check openTag = true ∧ Nonzero openTag := by decide +kernel

theorem valid_closeTag : utf8Check closeTag = true ∧ Nonzero closeTag := by decide +kernel

theorem valid_thoughtOf {root : Json} (hroot : Clean root) :
    ∀ t ∈ thoughtOf root, utf8Check t = true ∧ Nonzero t := by
  intro t ht
  obtain ⟨delta, hdelta, hstring⟩ := Option.bind_eq_some_iff.mp ht
  obtain ⟨c0, hc0, hget⟩ := Option.bind_eq_some_iff.mp hdelta
  have hclean : Clean delta :=
    (hroot.firstChoice (Option.filter_eq_some_iff.mp hc0).1).getObject hget
  obtain ⟨j, hj, hvalue⟩ := Option.bind_eq_some_iff.mp hstring
  rcases Option.or_eq_some_iff.mp hj with hj | ⟨-, hj⟩
  · exact (hclean.get hj).stringValue hvalue
  · exact (hclean.get hj).stringValue hvalue

theorem valid_textOf {root : Json} (hroot : Clean root) :
    ∀ t ∈ textOf root, utf8Check t = true ∧ Nonzero t := by
  intro t ht
  obtain ⟨delta, hdelta, hstring⟩ := Option.bind_eq_some_iff.mp ht
  obtain ⟨c0, hc0, hget⟩ := Option.bind_eq_some_iff.mp hdelta
  exact ((hroot.firstChoice (Option.filter_eq_some_iff.mp hc0).1).getObject hget).getString hstring

theorem valid_endingOf {root : Json} (hroot : Clean root) :
    ∀ r ∈ endingOf root, utf8Check r = true ∧ Nonzero r := by
  intro r hr
  obtain ⟨c0, hc0, hreason⟩ := Option.bind_eq_some_iff.mp hr
  have hclean : Clean c0 := hroot.firstChoice (Option.filter_eq_some_iff.mp hc0).1
  unfold reasonOf at hreason
  split at hreason
  · cases hreason
  · cases hreason
  · rename_i j _ hget
    obtain rfl := Option.some.inj hreason
    cases hvalue : j.stringValue with
    | none => exact valid_ascii "stop" (by decide)
    | some t => exact (hclean.get hget).stringValue hvalue

theorem valid_piecesOf {root : Json} (hroot : Clean root) :
    ∀ p ∈ piecesOf (.chunk root), Valid p.plain := by
  rw [piecesOf]
  simp only [List.forall_mem_append, List.forall_mem_map, Option.mem_toList]
  exact ⟨⟨valid_thoughtOf hroot, valid_textOf hroot⟩, valid_endingOf hroot⟩

theorem clean_lineOf {line : Bytes} {root : Json} (h : lineOf line = some (.chunk root)) :
    Clean root := by
  obtain ⟨d, -, hd⟩ := Option.bind_eq_some_iff.mp h
  split at hd
  · cases hd
  · obtain ⟨root', hroot, heq⟩ := Option.map_eq_some_iff.mp hd
    obtain rfl : root' = root := Line.chunk.inj heq
    obtain ⟨text, -, htext⟩ := Option.bind_eq_some_iff.mp hroot
    exact clean_jsonLoads htext

theorem valid_pieces (ls : List Bytes) : ∀ p ∈ pieces ls, Valid p.plain := by
  intro p hp
  obtain ⟨l, hl, hpl⟩ := List.mem_flatMap.mp hp
  obtain ⟨line, -, hline⟩ := List.mem_filterMap.mp hl
  cases l with
  | chunk root => exact valid_piecesOf (clean_lineOf hline) p hpl
  | done =>
    obtain rfl := List.mem_singleton.mp hpl
    exact trivial

theorem valid_run (ls : List Bytes) :
    ∀ x ∈ run openTag closeTag .unopened (pieces ls), Valid x := by
  intro x hx
  rcases mem_run openTag closeTag hx with rfl | rfl | ⟨p, hp, rfl⟩
  · exact valid_openTag
  · exact valid_closeTag
  · exact valid_pieces ls p hp

theorem writable_deltaChunk {model : Bytes} (hmodel : Nonzero model)
    {delta : List (Bytes × Json)} (hdelta : Clean (.object delta) ∧ depth (.object delta) ≤ 2)
    {reason : Json} (hreason : Clean reason ∧ depth reason ≤ 1) :
    Writable (deltaChunk model delta [(ascii "finish_reason", reason)]) := by
  have hid : Nonzero (chunkId model) := by
    refine nonzero_append (nonzero_ascii _ (by decide)) ?_
    split
    · exact nonzero_ascii _ (by decide)
    · exact hmodel
  have hchoice := clean_choice hdelta.1 hreason.1
  refine ⟨clean_object ?_ ?_, rfl, ?_⟩
  · unfold stringMember
    split_ifs <;> simp [ascii_inj]
  · simp only [List.forall_mem_append, List.forall_mem_cons]
    exact ⟨⟨⟨clean_stringMember (clean_ascii _ (by decide)) hid,
        ⟨clean_ascii _ (by decide), clean_ascii _ (by decide)⟩, List.forall_mem_nil _⟩,
      clean_stringMember (clean_ascii _ (by decide)) hmodel⟩,
      ⟨clean_ascii _ (by decide), clean_array (List.forall_mem_singleton.mpr hchoice)⟩,
      List.forall_mem_nil _⟩
  · have hd := hdelta.2
    have hr := hreason.2
    unfold deltaChunk stringMember
    split_ifs
    all_goals
      simp [depth, depthMembers, depthItems] at hd ⊢
      omega

theorem clean_contentDelta {text : Bytes} (h : Nonzero text) :
    Clean (.object (stringMember "content" text)) ∧
      depth (.object (stringMember "content" text)) ≤ 2 := by
  refine ⟨clean_object ?_ (clean_stringMember (clean_ascii _ (by decide)) h), ?_⟩
  · unfold stringMember
    split <;> simp
  · unfold stringMember
    split <;> simp [depth, depthMembers]

theorem writable_docOf {model : Bytes} (hmodel : Nonzero model) {x : Bytes ⊕ Ending}
    (hx : Valid x) : ∀ c ∈ docOf model x, Writable c := by
  intro c hc
  match x with
  | .inl text =>
    obtain rfl := Option.some.inj hc
    exact writable_deltaChunk hmodel (clean_contentDelta hx.2) ⟨clean_null, le_rfl⟩
  | .inr (.finish reason) =>
    obtain rfl := Option.some.inj hc
    rw [finishChunk, stringMember, if_pos hx.1]
    exact writable_deltaChunk hmodel
      ⟨clean_object (by simp) (List.forall_mem_nil _), by simp [depth, depthMembers]⟩
      ⟨clean_string hx, le_rfl⟩
  | .inr .done => cases hc

/-- What is read of the result: nothing, if an event was cut off. -/
theorem readChunks_written {model : Bytes} (hmodel : Nonzero model) {out : List (Bytes ⊕ Ending)}
    (hout : ∀ x ∈ out, Valid x) :
    readChunks (out.map (written model)) =
      if ∀ c ∈ out.filterMap (docOf model), Whole c then some (out.filterMap (docOf model))
      else none := by
  have hwritable : ∀ c ∈ out.filterMap (docOf model), Writable c := by
    intro c hc
    obtain ⟨x, hx, hdoc⟩ := List.mem_filterMap.mp hc
    exact writable_docOf hmodel (hout x hx) c hdoc
  have hfilter : (out.map (written model)).filter (· ≠ doneEvent) =
      (out.filterMap (docOf model)).map cut := by
    clear hwritable
    induction out with
    | nil => rfl
    | cons x rest ih =>
      obtain ⟨hx, hrest⟩ := List.forall_mem_cons.mp hout
      cases hdoc : docOf model x with
      | none => simpa [written, hdoc] using ih hrest
      | some c =>
        have hne : cut c ≠ doneEvent := cut_ne_done (writable_docOf hmodel hx c hdoc)
        simpa [written, hdoc, hne] using ih hrest
  unfold readChunks
  rw [hfilter]
  exact mapM_chunkData_cut hwritable

/-- The members of a chunk that was packed again. -/
theorem get_deltaChunk (model : Bytes) (delta reason : List (Bytes × Json)) :
    MessagesBridge.choiceOf (deltaChunk model delta reason) =
        some (.object ([(ascii "index", .integer 0), (ascii "delta", .object delta)] ++ reason)) ∧
      usageOf (deltaChunk model delta reason) = none := by
  unfold deltaChunk stringMember
  split_ifs
  all_goals
    simp [MessagesBridge.choiceOf, firstChoice, usageOf, getObject, Json.getArray, Json.get, lookup,
      Json.arrayItems, Json.isObject, Option.filter, ascii_inj]

theorem tally_contentChunk (model : Bytes) {text : Bytes} (h : utf8Check text = true) :
    tally [contentChunk model text] = ⟨text, [], [], [], []⟩ := by
  obtain ⟨hchoice, husage⟩ := get_deltaChunk model (stringMember "content" text)
    [(ascii "finish_reason", .null)]
  rw [← contentChunk] at hchoice husage
  simp [tally, textOf, BlockModes.thoughtOf, BlockModes.deltaObject, fragmentsOf, finishOf,
    hchoice, husage, stringMember, h, getObject, Json.getString, Json.getArray, Json.get, lookup,
    Json.stringValue, Json.arrayItems, Json.isObject, Option.filter, ascii_inj]

theorem tally_finishChunk (model : Bytes) {reason : Bytes} (h : utf8Check reason = true) :
    tally [finishChunk model reason] = ⟨[], [], [], [reason], []⟩ := by
  obtain ⟨hchoice, husage⟩ := get_deltaChunk model [] (stringMember "finish_reason" reason)
  rw [← finishChunk] at hchoice husage
  simp [tally, textOf, BlockModes.thoughtOf, BlockModes.deltaObject, fragmentsOf, finishOf,
    hchoice, husage, stringMember, h, getObject, Json.getString, Json.getArray, Json.get, lookup,
    Json.stringValue, Json.arrayItems, Json.isObject, Option.filter, ascii_inj]

/-- What a client adds up. -/
theorem tally_written (model : Bytes) {out : List (Bytes ⊕ Ending)} (hout : ∀ x ∈ out, Valid x) :
    tally (out.filterMap (docOf model)) =
      ⟨shown out, [], [], (marks out).filterMap Ending.reason?, []⟩ := by
  induction out with
  | nil => rfl
  | cons x rest ih =>
    obtain ⟨hx, hrest⟩ := List.forall_mem_cons.mp hout
    have htally := ih hrest
    match x with
    | .inl text =>
      have hsplit : (Sum.inl text :: rest).filterMap (docOf model) =
          [contentChunk model text] ++ rest.filterMap (docOf model) := rfl
      rw [hsplit, tally_append, tally_contentChunk model hx.1, htally]
      simp [Tally.add]
    | .inr (.finish reason) =>
      have hsplit : (Sum.inr (Ending.finish reason) :: rest).filterMap (docOf model) =
          [finishChunk model reason] ++ rest.filterMap (docOf model) := rfl
      rw [hsplit, tally_append, tally_finishChunk model hx.1, htally]
      simp [Tally.add, Ending.reason?]
    | .inr .done =>
      have hsplit : (Sum.inr Ending.done :: rest).filterMap (docOf model) =
          rest.filterMap (docOf model) := rfl
      rw [hsplit, htally]
      simp [Ending.reason?, List.filterMap_cons]

theorem tag_lengths : openTag.length ≤ 20 ∧ closeTag.length ≤ 20 := by decide +kernel

theorem chunkId_length_le {model : Bytes} (h : model.length ≤ 127) :
    (chunkId model).length ≤ 136 := by
  have hhead : "chatcmpl-".length = 9 := by decide
  unfold chunkId
  rw [List.length_append, ascii_length]
  split
  · rw [ascii_length]
    decide
  · omega

/-- The events of the tags fit. -/
theorem whole_tag {model tag : Bytes} (hmodel : model.length ≤ 127) (htag : tag.length ≤ 20) :
    Whole (contentChunk model tag) := by
  have hlen := chunkId_length_le hmodel
  have hid := quoted_length_le (chunkId model)
  have hname := quoted_length_le model
  have htext := quoted_length_le tag
  have hindex := integerText_length_le 0
  unfold Whole contentChunk deltaChunk stringMember
  rw [dataEvent_length]
  split_ifs
  all_goals
    simp (disch := decide) [dumps, dumpsMembers, dumpsItems, quoted_ascii_length, eventCap]
    omega

/-! ### The stream -/

/-- The documents in the lines of a stream. -/
def rootsOf (ls : List Bytes) : List Json := (ls.filterMap lineOf).filterMap Line.root?

/-- The name of the model in the chunks. -/
def shownModel (model : Bytes) : Bytes := snprintf 128 (cString model)

/-- What the client of an emulated stream adds up is what the stream says. -/
def Preserved (model : Bytes) (chunks : List Bytes) : Prop :=
  let roots := rootsOf (lines '\n' chunks.flatten)
  ∃ out, readChunks
      (feedAll Bridge.takeLine (Bridge.new (cString model) true) chunks).finish.sent = some out ∧
    (tally out).content = tagged openTag closeTag (roots.filterMap thoughtOf).flatten
      (roots.filterMap textOf).flatten ∧
    (tally out).fragments = roots.flatMap fragmentsOf ∧
    (tally out).finishes = roots.filterMap finishOf ∧ (tally out).usages = roots.filterMap usageOf

/-- What can be packed again: no calls and no usage, reasons that are strings, and events that fit
in their buffer. -/
structure Repacks (model : Bytes) (roots : List Json) : Prop where
  noCalls : roots.flatMap fragmentsOf = []
  noUsage : roots.filterMap usageOf = []
  reasons : ∀ root ∈ roots, endingOf root = finishOf root
  thoughts : ∀ root ∈ roots, ∀ t ∈ thoughtOf root, Whole (contentChunk (shownModel model) t)
  texts : ∀ root ∈ roots, ∀ t ∈ textOf root, Whole (contentChunk (shownModel model) t)
  finishes : ∀ root ∈ roots, ∀ r ∈ endingOf root, Whole (finishChunk (shownModel model) r)

theorem shownModel_bounds (model : Bytes) :
    Nonzero (shownModel model) ∧ (shownModel model).length ≤ 127 :=
  ⟨nonzero_sublist (List.take_sublist _ _) (nonzero_cString model), List.length_take_le _ _⟩

/-- What is read off the pieces of a stream, by what is read off its documents. -/
theorem filterMap_pieces {β : Type*} {f : Piece Char Ending → Option β} {g : Json → Option β}
    (hdone : f (.mark .done) = none)
    (hchunk : ∀ root, (piecesOf (.chunk root)).filterMap f = (g root).toList) (ls : List Bytes) :
    (pieces ls).filterMap f = (rootsOf ls).filterMap g := by
  unfold pieces rootsOf
  induction ls.filterMap lineOf with
  | nil => rfl
  | cons l rest ih =>
    rw [List.flatMap_cons, List.filterMap_append, ih]
    cases l with
    | done => simp [piecesOf, hdone, Line.root?, List.filterMap_cons]
    | chunk root => cases hg : g root <;> simp [hchunk, hg, Line.root?]

theorem thoughts_pieces (ls : List Bytes) :
    TaggedText.thoughts (pieces ls) = ((rootsOf ls).filterMap thoughtOf).flatten := by
  refine congrArg List.flatten (filterMap_pieces rfl (fun root => ?_) ls)
  rw [piecesOf]
  cases thoughtOf root <;> cases textOf root <;> cases endingOf root <;> rfl

theorem texts_pieces (ls : List Bytes) :
    TaggedText.texts (pieces ls) = ((rootsOf ls).filterMap textOf).flatten := by
  refine congrArg List.flatten (filterMap_pieces rfl (fun root => ?_) ls)
  rw [piecesOf]
  cases thoughtOf root <;> cases textOf root <;> cases endingOf root <;> rfl

theorem marks_pieces (ls : List Bytes) :
    ((pieces ls).filterMap Piece.mark?).filterMap Ending.reason? =
      (rootsOf ls).filterMap endingOf := by
  rw [List.filterMap_filterMap]
  refine filterMap_pieces rfl (fun root => ?_) ls
  rw [piecesOf]
  cases thoughtOf root <;> cases textOf root <;> cases endingOf root <;> rfl

/-- The events of the pieces fit exactly when those of the documents do. -/
theorem whole_pieces_iff (model : Bytes) (ls : List Bytes) :
    (∀ p ∈ pieces ls, ∀ c ∈ docOf model p.plain, Whole c) ↔
      ∀ root ∈ rootsOf ls, (∀ t ∈ thoughtOf root, Whole (contentChunk model t)) ∧
        (∀ t ∈ textOf root, Whole (contentChunk model t)) ∧
          ∀ r ∈ endingOf root, Whole (finishChunk model r) := by
  unfold pieces rootsOf
  induction ls.filterMap lineOf with
  | nil => simp
  | cons l rest ih =>
    rw [List.flatMap_cons, List.forall_mem_append, ih]
    cases l with
    | done => simp [piecesOf, Piece.plain, docOf, Line.root?, List.filterMap_cons]
    | chunk root =>
      have hchunk : (∀ p ∈ piecesOf (.chunk root), ∀ c ∈ docOf model p.plain, Whole c) ↔
          (∀ t ∈ thoughtOf root, Whole (contentChunk model t)) ∧
            (∀ t ∈ textOf root, Whole (contentChunk model t)) ∧
              ∀ r ∈ endingOf root, Whole (finishChunk model r) := by
        rw [piecesOf]
        cases thoughtOf root <;> cases textOf root <;> cases endingOf root <;>
          simp [Piece.plain, docOf]
      have hroots : (Line.chunk root :: rest).filterMap Line.root? =
          root :: rest.filterMap Line.root? := rfl
      rw [hchunk, hroots, List.forall_mem_cons]

theorem whole_run_iff (model : Bytes) (ls : List Bytes) :
    (∀ c ∈ (run openTag closeTag .unopened (pieces ls)).filterMap (docOf (shownModel model)),
        Whole c) ↔
      ∀ p ∈ pieces ls, ∀ c ∈ docOf (shownModel model) p.plain, Whole c := by
  constructor
  · intro h p hp c hc
    exact h c (List.mem_filterMap.mpr ⟨p.plain, plain_mem_run openTag closeTag .unopened hp, hc⟩)
  · intro h c hc
    obtain ⟨x, hx, hdoc⟩ := List.mem_filterMap.mp hc
    have hmodel := (shownModel_bounds model).2
    rcases mem_run openTag closeTag hx with rfl | rfl | ⟨p, hp, rfl⟩
    · obtain rfl := Option.some.inj hdoc
      exact whole_tag hmodel tag_lengths.1
    · obtain rfl := Option.some.inj hdoc
      exact whole_tag hmodel tag_lengths.2
    · exact h p hp c hdoc

/-- A list read in two ways, the one finding what the other finds, is read the same only if the
other finds nothing else. -/
theorem filterMap_eq_iff {α β : Type*} {f g : α → Option β}
    (hsub : ∀ a b, g a = some b → f a = some b) (l : List α) :
    l.filterMap f = l.filterMap g ↔ ∀ a ∈ l, f a = g a := by
  have hle : ∀ l : List α, (l.filterMap g).length ≤ (l.filterMap f).length := by
    intro l
    induction l with
    | nil => exact le_rfl
    | cons a rest ih =>
      cases hg : g a with
      | none =>
        rw [List.filterMap_cons_none hg]
        exact ih.trans ((List.sublist_cons_self a rest).filterMap f).length_le
      | some b => simpa [hg, hsub a b hg] using ih
  refine ⟨fun h => ?_, fun h => List.filterMap_congr h⟩
  induction l with
  | nil => exact List.forall_mem_nil _
  | cons a rest ih =>
    cases hg : g a with
    | some b =>
      have hf := hsub a b hg
      rw [List.filterMap_cons_some hf, List.filterMap_cons_some hg] at h
      exact List.forall_mem_cons.mpr ⟨hf.trans hg.symm, ih (List.cons.inj h).2⟩
    | none =>
      cases hf : f a with
      | none =>
        rw [List.filterMap_cons_none hf, List.filterMap_cons_none hg] at h
        exact List.forall_mem_cons.mpr ⟨hf.trans hg.symm, ih h⟩
      | some b =>
        -- the other finds more in this element than is left to be made up for
        rw [List.filterMap_cons_some hf, List.filterMap_cons_none hg] at h
        have hlen := congrArg List.length h
        have hrest := hle rest
        rw [List.length_cons] at hlen
        omega

/-- What a client reads of an emulated stream whose lines are short. -/
theorem readChunks_sent (model : Bytes) {chunks : List Bytes}
    (hshort : ∀ l ∈ lines '\n' chunks.flatten, l.length < 8191) :
    readChunks (feedAll Bridge.takeLine (Bridge.new (cString model) true) chunks).finish.sent =
      (let out := (run openTag closeTag .unopened (pieces (lines '\n' chunks.flatten))).filterMap
        (docOf (shownModel model))
      if ∀ c ∈ out, Whole c then some out else none) := by
  have hlines : taken chunks = lines '\n' chunks.flatten :=
    completed_eq chunks (Or.inl rfl) hshort
  rw [feedAll_eq, hlines, sent_finish]
  exact readChunks_written (shownModel_bounds model).1 (valid_run _)

theorem endingOf_of_finishOf {root : Json} {reason : Bytes} (h : finishOf root = some reason) :
    endingOf root = some reason := by
  obtain ⟨c0, hc0, hstring⟩ := Option.bind_eq_some_iff.mp h
  have hchoice : OpenaiBridge.choiceOf root = some c0 := hc0
  have hget : c0.get "finish_reason" = some (.string reason) := getString_eq_some.mp hstring
  unfold endingOf reasonOf
  rw [hchoice, Option.bind_some, hget]
  rfl

/-- The events of a stream fit exactly when those of its documents do. -/
theorem whole_iff (model : Bytes) (ls : List Bytes) :
    (∀ c ∈ (run openTag closeTag .unopened (pieces ls)).filterMap (docOf (shownModel model)),
        Whole c) ↔
      ∀ root ∈ rootsOf ls, (∀ t ∈ thoughtOf root, Whole (contentChunk (shownModel model) t)) ∧
        (∀ t ∈ textOf root, Whole (contentChunk (shownModel model) t)) ∧
          ∀ r ∈ endingOf root, Whole (finishChunk (shownModel model) r) :=
  (whole_run_iff model ls).trans (whole_pieces_iff (shownModel model) ls)

/-- What the client of the emulated stream adds up, if it can read it. -/
theorem tally_run (model : Bytes) (ls : List Bytes) :
    tally ((run openTag closeTag .unopened (pieces ls)).filterMap (docOf (shownModel model))) =
      ⟨shown (run openTag closeTag .unopened (pieces ls)), [], [],
        (rootsOf ls).filterMap endingOf, []⟩ := by
  rw [tally_written _ (valid_run ls), marks_run, marks_pieces]

/-- Whatever the order, a stream that is preserved can be packed again. -/
theorem repacks_of_preserved {model : Bytes} {chunks : List Bytes}
    (hshort : ∀ l ∈ lines '\n' chunks.flatten, l.length < 8191) (h : Preserved model chunks) :
    Repacks model (rootsOf (lines '\n' chunks.flatten)) := by
  unfold Preserved at h
  rw [readChunks_sent model hshort] at h
  obtain ⟨out, hout, -, hcalls, hreasons, husage⟩ := h
  dsimp only at hout
  split at hout
  · rename_i hfits
    obtain rfl := Option.some.inj hout
    rw [tally_run] at hcalls hreasons husage
    have hall := (whole_iff model _).mp hfits
    exact ⟨hcalls.symm, husage.symm,
      (filterMap_eq_iff (fun _ _ => endingOf_of_finishOf) _).mp hreasons,
      fun root hroot => (hall root hroot).1, fun root hroot => (hall root hroot).2.1,
      fun root hroot => (hall root hroot).2.2⟩
  · cases hout

/-- With the thoughts in one run, a stream of short lines is preserved exactly when it can be packed
again. -/
theorem preserved_iff (model : Bytes) {chunks : List Bytes}
    (hshort : ∀ l ∈ lines '\n' chunks.flatten, l.length < 8191)
    (hordered : Ordered (pieces (lines '\n' chunks.flatten))) :
    Preserved model chunks ↔ Repacks model (rootsOf (lines '\n' chunks.flatten)) := by
  refine ⟨repacks_of_preserved hshort, fun h => ?_⟩
  have hfits := (whole_iff model (lines '\n' chunks.flatten)).mpr fun root hroot =>
    ⟨h.thoughts root hroot, h.texts root hroot, h.finishes root hroot⟩
  have hshown := shown_run openTag closeTag hordered
  rw [thoughts_pieces, texts_pieces] at hshown
  unfold Preserved
  rw [readChunks_sent model hshort]
  refine ⟨_, if_pos hfits, ?_⟩
  rw [tally_run, hshown]
  exact ⟨rfl, h.noCalls.symm,
    (filterMap_eq_iff (fun _ _ => endingOf_of_finishOf) _).mpr h.reasons, h.noUsage.symm⟩

/-- The stream ends inside the thoughts. -/
def thinkingLines : List Bytes :=
  [ascii "data: \x7b\"choices\":[\x7b\"delta\":\x7b\"reasoning_content\":\"why\"\x7d\x7d]\x7d", [],
    ascii "data: [DONE]", []]

theorem preserved_iff_thinking :
    Preserved (ascii "m") [thinkingLines.flatMap (· ++ ['\n'])] ↔
      Repacks (ascii "m") (rootsOf (lines '\n' [thinkingLines.flatMap (· ++ ['\n'])].flatten)) := by
  have hlines : lines '\n' [thinkingLines.flatMap (· ++ ['\n'])].flatten = thinkingLines := by
    rw [List.flatten_singleton]
    exact lines_flatMap (by decide +kernel)
  have hpieces : pieces thinkingLines =
      [] ++ [ascii "why"].map .thought ++ [.mark .done] := by decide +kernel
  refine preserved_iff (ascii "m") ?_ ?_
  · rw [hlines]
    decide +kernel
  · rw [hlines]
    exact Or.inr ⟨[], [ascii "why"], [.mark .done], hpieces, by decide +kernel,
      List.forall_mem_nil _, by simp [Piece.thought?]⟩

theorem not_preserved_toolCall :
    ¬Preserved (ascii "m") [MessagesAgreement.toolLines.flatMap (· ++ ['\n'])] := by
  have hlines : lines '\n' [MessagesAgreement.toolLines.flatMap (· ++ ['\n'])].flatten =
      MessagesAgreement.toolLines := by
    rw [List.flatten_singleton]
    exact lines_flatMap (by decide +kernel)
  intro h
  have hrepacks := repacks_of_preserved (by rw [hlines]; decide +kernel) h
  have hcalls := congrArg List.length hrepacks.noCalls
  rw [hlines] at hcalls
  exact absurd hcalls (by decide +kernel)

end Aigate.TagEmulation
