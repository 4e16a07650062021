import Aigate.BlockEvents

/-!
# The blocks that the bridge opens

The bridge of an OpenAI stream starts a block when the first delta for it comes and knows one
block of thoughts, before one block of text. Without the start of the message, nothing that it
writes can be followed.
-/
namespace Aigate.BlockModes
open Text JsonTree JsonText JsonRoundtrip JsonEdit JsonUtf8 Guardrails GuardrailsEdits Utf8
  StreamCache StreamCacheReplay ProviderRequests BridgeEvents EventTexts MessagesBridge BlockEvents

/-- What the bridge has open. -/
inductive Mode where
  | begun
  | thinking
  | text (afterThoughts : Bool)
  deriving DecidableEq

def Mode.phase : Mode → Phase
  | .begun => .between none
  | .thinking => .inside 0 (ascii "thinking")
  | .text afterThoughts => .inside (if afterThoughts then 1 else 0) (ascii "text")

def Mode.hasText : Mode → Bool
  | .text _ => true
  | _ => false

/-- The reasons that the bridge writes. -/
def IsReason (reason : Bytes) : Prop :=
  reason = [] ∨ reason = ascii "max_tokens" ∨ reason = ascii "tool_use" ∨
    reason = ascii "end_turn"

/-- The flags of a bridge whose writes are so far in order. -/
structure InMode (b : Bridge) (m : Mode) : Prop where
  phase : phaseAfter b.sent = some m.phase
  started : b.messageStartSent = true
  notDone : b.doneEmitted = false
  inThinking : b.inThinking = decide (m = .thinking)
  thinkingStarted : b.thinkingStarted = decide (m = .thinking ∨ m = .text true)
  thinkingClosed : b.thinkingClosed = decide (m = .text true)
  textStarted : b.textStarted = m.hasText
  textClosed : b.textClosed = false
  reason : IsReason b.finishReason

/-- The bridge is in a mode, or its writes are out of order. -/
def Tracks (b : Bridge) : Option Mode → Prop
  | some m => InMode b m
  | none => phaseAfter b.sent = none

/-- A delta of a thought; there is no way back from the text. -/
def Mode.think : Mode → Option Mode
  | .begun => some .thinking
  | .thinking => some .thinking
  | .text _ => none

def Mode.write : Mode → Mode
  | .begun => .text false
  | .thinking => .text true
  | .text afterThoughts => .text afterThoughts

def Mode.onThought (m : Mode) (thought : Option Bytes) : Option Mode :=
  match thought with
  | none => some m
  | some t => if Fits "thinking" t then m.think else none

def Mode.onText (m : Mode) (text : Option Bytes) : Option Mode :=
  match text with
  | none => some m
  | some t => if Fits "text" t then some m.write else none

theorem phaseAfter_emit (b : Bridge) (cap : ℕ) (name : String) (d : Json) :
    phaseAfter (b.emit cap name (some d)).sent =
      (phaseAfter b.sent).bind fun p => readWrite p (snprintf cap (eventText name d)) := by
  change phaseAfter (b.sent ++ [_]) = _
  rw [phaseAfter_append]
  congr 1
  funext p
  simp [List.foldlM]

/-- A delta is read by a client when it fits. -/
theorem phaseAfter_delta (b : Bridge) {i : Int64} (hi : i = 0 ∨ i = 1) {kind : String}
    (hkind : IsKind kind) {text : Bytes} (htext : utf8Check text = true ∧ Nonzero text) :
    phaseAfter (b.emit 8192 "content_block_delta"
        (jsonPack [text] (blockDelta i (kind ++ "_delta") kind text))).sent =
      if Fits kind text then
        (phaseAfter b.sent).bind (·.step (.blockDelta i (ascii kind ++ ascii "_delta")))
      else none := by
  have hpack : ∀ j, jsonPack [text] j = some j := fun j => by simp [jsonPack, htext.1]
  rw [hpack, phaseAfter_emit, ← deltaText]
  unfold readWrite
  rw [read_blockDelta hi hkind htext]
  by_cases hfits : Fits kind text
  · rw [if_pos hfits, if_pos hfits]
    rfl
  · rw [if_neg hfits, if_neg hfits]
    cases phaseAfter b.sent <;> rfl

/-- The first thought of a message opens its block. -/
theorem phaseAfter_startThinking (b : Bridge) (h : b.thinkingStarted = false) :
    phaseAfter b.startThinking.sent =
      (phaseAfter b.sent).bind (·.step (.blockStart 0 (ascii "thinking"))) := by
  unfold Bridge.startThinking
  rw [h, if_neg Bool.false_ne_true]
  change phaseAfter (b.emit 1024 "content_block_start" (some (blockStart 0 "thinking"))).sent = _
  rw [phaseAfter_emit]
  unfold readWrite
  rw [read_blockStart 0 (Or.inl rfl)]
  rfl

theorem startThinking_started {b : Bridge} (h : b.thinkingStarted = true) :
    b.startThinking = b := by
  unfold Bridge.startThinking
  rw [if_pos h]

theorem thinking_delta : ascii "thinking" ++ ascii "_delta" = ascii "thinking_delta" := by
  unfold ascii
  rfl

/-- What a thought does to the phase. -/
theorem phaseAfter_thinking {b : Bridge} {delta : Json} (hdelta : Clean delta) {t : Bytes}
    (ht : delta.getString "reasoning_content" = some t) :
    phaseAfter (b.thinking delta).sent =
      if Fits "thinking" t then
        (phaseAfter b.startThinking.sent).bind (·.step (.blockDelta 0 (ascii "thinking_delta")))
      else none := by
  unfold Bridge.thinking
  rw [ht, ← thinking_delta]
  exact phaseAfter_delta b.startThinking (Or.inl rfl) (Or.inl rfl) (hdelta.getString ht)

theorem emit_eq (b : Bridge) (cap : ℕ) (name : String) (d : Option Json) :
    b.emit cap name d = { b with sent := (b.emit cap name d).sent } := by
  cases d <;> rfl

theorem thinking_eq {b : Bridge} {delta : Json} {t : Bytes}
    (ht : delta.getString "reasoning_content" = some t) :
    b.thinking delta = { b.startThinking with sent := (b.thinking delta).sent } := by
  unfold Bridge.thinking
  rw [ht]
  exact emit_eq _ _ _ _

theorem InMode.thinking {b : Bridge} {m : Mode} (h : InMode b m) {delta : Json}
    (hdelta : Clean delta) :
    Tracks (b.thinking delta) (m.onThought (delta.getString "reasoning_content")) := by
  cases hthought : delta.getString "reasoning_content" with
  | none =>
    unfold Bridge.thinking
    rw [hthought]
    exact h
  | some t =>
    have hphase := phaseAfter_thinking (b := b) hdelta hthought
    have heq := thinking_eq (b := b) hthought
    unfold Mode.onThought
    dsimp only
    cases m with
    | begun =>
      have hstarted : b.thinkingStarted = false := h.thinkingStarted
      rw [phaseAfter_startThinking b hstarted, h.phase] at hphase
      by_cases hfits : Fits "thinking" t
      · rw [if_pos hfits]
        rw [if_pos hfits] at hphase
        rw [heq]
        have hopen : (Phase.between none).step (.blockStart 0 (ascii "thinking")) =
            some Mode.thinking.phase := step_blockStart (fun j hj => by cases hj) _
        rw [Option.bind_some, Mode.phase, hopen] at hphase
        refine ⟨hphase.trans (step_blockDelta 0 thinking_delta.symm), ?_, ?_, ?_, ?_, ?_, ?_, ?_,
          ?_⟩
        all_goals
          unfold Bridge.startThinking
          rw [hstarted, if_neg Bool.false_ne_true]
        · exact h.started
        · exact h.notDone
        · rfl
        · rfl
        · exact h.thinkingClosed
        · exact h.textStarted
        · exact h.textClosed
        · exact h.reason
      · rw [if_neg hfits]
        rw [if_neg hfits] at hphase
        exact hphase
    | thinking =>
      have hstarted : b.thinkingStarted = true := h.thinkingStarted
      rw [startThinking_started hstarted, h.phase] at hphase
      by_cases hfits : Fits "thinking" t
      · rw [if_pos hfits]
        rw [if_pos hfits] at hphase
        rw [heq, startThinking_started hstarted]
        exact ⟨hphase.trans (step_blockDelta 0 thinking_delta.symm), h.started,
          h.notDone, h.inThinking, h.thinkingStarted, h.thinkingClosed, h.textStarted,
          h.textClosed, h.reason⟩
      · rw [if_neg hfits]
        rw [if_neg hfits] at hphase
        exact hphase
    | text afterThoughts =>
      have hnone : (if Fits "thinking" t then (Mode.text afterThoughts).think else none) = none := by
        split <;> rfl
      rw [hnone]
      change phaseAfter _ = none
      rw [hphase]
      split
      swap
      · rfl
      cases afterThoughts with
      | true =>
        have hstarted : b.thinkingStarted = true := h.thinkingStarted
        rw [startThinking_started hstarted, h.phase]
        exact step_blockDelta_ne (by decide : (0 : Int64) ≠ 1) (ascii "text") (ascii "thinking_delta")
      | false =>
        have hstarted : b.thinkingStarted = false := h.thinkingStarted
        rw [phaseAfter_startThinking b hstarted, h.phase]
        rfl

/-- The block of thoughts is stopped before the text. -/
theorem phaseAfter_stopThinking {b : Bridge} (h : b.inThinking = true ∧ b.thinkingClosed = false) :
    phaseAfter b.stopThinking.sent = (phaseAfter b.sent).bind (·.step (.blockStop 0)) := by
  unfold Bridge.stopThinking
  rw [if_pos h]
  change phaseAfter (b.emit 512 "content_block_stop" (some (blockStop 0))).sent = _
  rw [phaseAfter_emit]
  unfold readWrite
  rw [read_blockStop]
  rfl

theorem stopThinking_closed {b : Bridge} (h : b.inThinking = false) : b.stopThinking = b := by
  unfold Bridge.stopThinking
  rw [if_neg (by rw [h]; exact fun hand => Bool.false_ne_true hand.1)]

theorem phaseAfter_startText {b : Bridge} (h : b.textStarted = false) :
    phaseAfter b.startText.sent =
      (phaseAfter b.sent).bind (·.step (.blockStart b.textIdx (ascii "text"))) := by
  unfold Bridge.startText
  rw [h, if_neg Bool.false_ne_true]
  change phaseAfter (b.emit 1024 "content_block_start" (some (blockStart b.textIdx "text"))).sent = _
  rw [phaseAfter_emit]
  unfold readWrite
  rw [read_blockStart b.textIdx (Or.inr rfl)]
  rfl

/-- Before a text, its block is the open one. -/
theorem InMode.startText {b : Bridge} {m : Mode} (h : InMode b m) :
    InMode b.stopThinking.startText m.write := by
  cases m with
  | begun =>
    have hstopped : b.stopThinking = b := stopThinking_closed h.inThinking
    have hnoText : b.textStarted = false := h.textStarted
    have hphase := phaseAfter_startText hnoText
    have hidx : b.textIdx = 0 := by
      unfold Bridge.textIdx
      rw [h.thinkingStarted]
      rfl
    rw [h.phase, hidx, Option.bind_some, Mode.phase, step_blockStart fun j hj => by cases hj]
      at hphase
    rw [hstopped]
    refine ⟨hphase, ?_, ?_, ?_, ?_, ?_, ?_, ?_, ?_⟩
    all_goals
      unfold Bridge.startText
      rw [hnoText, if_neg Bool.false_ne_true]
    · exact h.started
    · exact h.notDone
    · exact h.inThinking
    · exact h.thinkingStarted
    · exact h.thinkingClosed
    · rfl
    · exact h.textClosed
    · exact h.reason
  | thinking =>
    have hopen : b.inThinking = true ∧ b.thinkingClosed = false := ⟨h.inThinking, h.thinkingClosed⟩
    have hstop := phaseAfter_stopThinking hopen
    rw [h.phase, Option.bind_some, Mode.phase, step_blockStop] at hstop
    have heq : b.stopThinking =
        { b with sent := b.stopThinking.sent, thinkingClosed := true, inThinking := false } := by
      unfold Bridge.stopThinking
      rw [if_pos hopen]
      rfl
    have hphase : phaseAfter b.stopThinking.startText.sent =
        (phaseAfter b.stopThinking.sent).bind
          (·.step (.blockStart b.stopThinking.textIdx (ascii "text"))) := by
      refine phaseAfter_startText ?_
      rw [heq]
      exact h.textStarted
    have hidx : b.stopThinking.textIdx = 1 := by
      unfold Bridge.textIdx
      rw [heq]
      dsimp only
      rw [h.thinkingStarted]
      rfl
    rw [hstop, hidx, Option.bind_some, step_blockStart fun j hj => by cases hj; decide] at hphase
    refine ⟨hphase, ?_, ?_, ?_, ?_, ?_, ?_, ?_, ?_⟩
    all_goals
      unfold Bridge.startText
      rw [if_neg (by rw [heq]; dsimp only; rw [h.textStarted]; decide), heq]
    · exact h.started
    · exact h.notDone
    · rfl
    · exact h.thinkingStarted
    · rfl
    · rfl
    · exact h.textClosed
    · exact h.reason
  | text afterThoughts =>
    have hstopped : b.stopThinking = b := stopThinking_closed h.inThinking
    have hstarted : b.startText = b := by
      unfold Bridge.startText
      rw [h.textStarted]
      rfl
    rw [hstopped, hstarted]
    exact h

theorem InMode.text {b : Bridge} {m : Mode} (h : InMode b m) {delta : Json}
    (hdelta : Clean delta) :
    Tracks (b.text delta) (m.onText (delta.getString "content")) := by
  unfold Bridge.text Mode.onText
  cases htext : delta.getString "content" with
  | none => exact h
  | some t =>
    dsimp only
    have hopen := h.startText
    obtain ⟨afterThoughts, hwrite⟩ : ∃ a, m.write = .text a := by
      cases m with
      | begun => exact ⟨false, rfl⟩
      | thinking => exact ⟨true, rfl⟩
      | text a => exact ⟨a, rfl⟩
    rw [hwrite] at hopen ⊢
    generalize b.stopThinking.startText = b' at hopen
    have hidx : b'.textIdx = if afterThoughts then 1 else 0 := by
      unfold Bridge.textIdx
      rw [hopen.thinkingStarted]
      cases afterThoughts <;> rfl
    have hphase := phaseAfter_delta b' (i := if afterThoughts then 1 else 0)
      (by cases afterThoughts <;> simp) (Or.inr rfl : IsKind "text") (hdelta.getString htext)
    rw [hidx]
    by_cases hfits : Fits "text" t
    · rw [if_pos hfits]
      rw [if_pos hfits, hopen.phase, Option.bind_some, Mode.phase, step_blockDelta _ rfl] at hphase
      change InMode (b'.emit 8192 _ _) _
      rw [emit_eq]
      exact ⟨hphase, hopen.started, hopen.notDone, hopen.inThinking, hopen.thinkingStarted,
        hopen.thinkingClosed, hopen.textStarted, hopen.textClosed, hopen.reason⟩
    · rw [if_neg hfits]
      rw [if_neg hfits] at hphase
      exact hphase

/-! ### Chunks -/

/-- The delta of a chunk's first choice. -/
def deltaObject (root : Json) : Option Json := (MessagesBridge.choiceOf root).bind (getObject · "delta")

def thoughtOf (root : Json) : Option Bytes :=
  (deltaObject root).bind (·.getString "reasoning_content")

def textOf (root : Json) : Option Bytes := (deltaObject root).bind (·.getString "content")

def Mode.onChunk (m : Mode) (root : Json) : Option Mode :=
  (m.onThought (thoughtOf root)).bind (·.onText (textOf root))

/-- Writes are only added. -/
theorem emit_sent (b : Bridge) (cap : ℕ) (name : String) (d : Option Json) :
    b.sent <+: (b.emit cap name d).sent := by
  cases d with
  | none => exact List.prefix_rfl
  | some d => exact List.prefix_append _ _

theorem stopThinking_sent (b : Bridge) : b.sent <+: b.stopThinking.sent := by
  unfold Bridge.stopThinking
  split
  · exact emit_sent b 512 _ _
  · exact List.prefix_rfl

theorem startText_sent (b : Bridge) : b.sent <+: b.startText.sent := by
  unfold Bridge.startText
  split
  · exact List.prefix_rfl
  · exact emit_sent b 1024 _ _

theorem text_sent (b : Bridge) (delta : Json) : b.sent <+: (b.text delta).sent := by
  unfold Bridge.text
  split
  · exact (stopThinking_sent b).trans ((startText_sent _).trans (emit_sent _ _ _ _))
  · exact List.prefix_rfl

theorem thinking_sent (b : Bridge) (delta : Json) : b.sent <+: (b.thinking delta).sent := by
  unfold Bridge.thinking
  split
  · refine List.IsPrefix.trans ?_ (emit_sent _ _ _ _)
    unfold Bridge.startThinking
    split
    · exact List.prefix_rfl
    · exact emit_sent b 1024 _ _
  · exact List.prefix_rfl

theorem stopText_sent (b : Bridge) : b.sent <+: b.stopText.sent := by
  unfold Bridge.stopText
  split
  · exact emit_sent b 512 _ _
  · exact List.prefix_rfl

theorem close_sent (b : Bridge) : b.sent <+: b.close.sent :=
  (emit_sent b 1024 _ _).trans (List.prefix_append _ _)

theorem finish_sent (b : Bridge) : b.sent <+: b.finish.sent := by
  unfold Bridge.finish
  split
  · exact List.prefix_rfl
  · exact (stopThinking_sent b).trans ((stopText_sent _).trans (close_sent _))

theorem start_sent (b : Bridge) : b.sent <+: b.start.sent := by
  unfold Bridge.start
  split
  · exact List.prefix_rfl
  · exact emit_sent b 2048 _ _

theorem reason_sent (b : Bridge) (c0 : Json) : (b.reason c0).sent = b.sent := by
  unfold Bridge.reason
  split <;> rfl

theorem usage_sent (b : Bridge) (root : Json) : (b.usage root).sent = b.sent := by
  unfold Bridge.usage
  split <;> rfl

theorem choice_sent (b : Bridge) (c0 : Json) : b.sent <+: (b.choice c0).sent := by
  unfold Bridge.choice
  split
  · refine List.IsPrefix.trans ?_ (text_sent _ _)
    refine List.IsPrefix.trans ?_ (thinking_sent _ _)
    rw [reason_sent]
  · rw [reason_sent]

theorem chunk_sent (b : Bridge) (root : Json) : b.sent <+: (b.chunk root).sent := by
  have hstart : b.sent <+: ((b.identify root).start.usage root).sent := by
    rw [usage_sent]
    exact start_sent (b.identify root)
  unfold Bridge.chunk
  split
  · exact hstart.trans (choice_sent _ _)
  · exact hstart

/-- What is out of order stays so. -/
theorem phaseAfter_none {a b : List Bytes} (h : phaseAfter a = none) (hpre : a <+: b) :
    phaseAfter b = none := by
  obtain ⟨rest, rfl⟩ := hpre
  rw [phaseAfter_append, h]
  rfl

theorem IsReason.stopReasonOf {old : Bytes} (h : IsReason old) (finish : Bytes) :
    IsReason (MessagesBridge.stopReasonOf finish old) := by
  unfold MessagesBridge.stopReasonOf
  split_ifs
  · exact Or.inr (Or.inl rfl)
  · exact Or.inr (Or.inr (Or.inl rfl))
  · exact Or.inr (Or.inr (Or.inr rfl))
  · exact h

theorem IsReason.reason {b : Bridge} (h : IsReason b.finishReason) (c0 : Json) :
    IsReason (b.reason c0).finishReason := by
  unfold Bridge.reason
  split
  · exact h.stopReasonOf _
  · exact h

theorem InMode.reasonOf {b : Bridge} {m : Mode} (h : InMode b m) (c0 : Json) :
    InMode (b.reason c0) m := by
  have hreason := h.reason.reason c0
  unfold Bridge.reason at hreason ⊢
  split
  · rename_i finish hfinish
    rw [hfinish] at hreason
    exact ⟨h.phase, h.started, h.notDone, h.inThinking, h.thinkingStarted, h.thinkingClosed,
      h.textStarted, h.textClosed, hreason⟩
  · exact h

theorem InMode.usage {b : Bridge} {m : Mode} (h : InMode b m) (root : Json) :
    InMode (b.usage root) m := by
  unfold Bridge.usage
  split
  · exact h
  · exact ⟨h.phase, h.started, h.notDone, h.inThinking, h.thinkingStarted, h.thinkingClosed,
      h.textStarted, h.textClosed, h.reason⟩

/-- The choice of a chunk, in a mode. -/
theorem InMode.choice {b : Bridge} {m : Mode} (h : InMode b m) {c0 : Json} (hc0 : Clean c0) :
    Tracks (b.choice c0) ((m.onThought ((getObject c0 "delta").bind
      (·.getString "reasoning_content"))).bind
        (·.onText ((getObject c0 "delta").bind (·.getString "content")))) := by
  unfold Bridge.choice
  cases hdelta : getObject c0 "delta" with
  | none => exact h.reasonOf c0
  | some delta =>
    rw [Option.bind_some, Option.bind_some]
    have hclean : Clean delta := hc0.getObject hdelta
    have hthink := (h.reasonOf c0).thinking hclean
    cases hmode : m.onThought (delta.getString "reasoning_content") with
    | none =>
      rw [hmode] at hthink
      exact phaseAfter_none hthink (text_sent _ _)
    | some m' =>
      rw [hmode] at hthink
      exact hthink.text hclean

theorem InMode.chunk {b : Bridge} {m : Mode} (h : InMode b m) {root : Json} (hroot : Clean root) :
    Tracks (b.chunk root) (m.onChunk root) := by
  have hbefore : InMode ((b.identify root).start.usage root) m := by
    have hidentify : InMode (b.identify root) m := ⟨h.phase, h.started, h.notDone, h.inThinking,
      h.thinkingStarted, h.thinkingClosed, h.textStarted, h.textClosed, h.reason⟩
    have hstart : (b.identify root).start = b.identify root := by
      unfold Bridge.start
      rw [if_pos hidentify.started]
    rw [hstart]
    exact hidentify.usage root
  unfold Bridge.chunk Mode.onChunk thoughtOf textOf deltaObject
  cases hchoice : MessagesBridge.choiceOf root with
  | none => exact hbefore
  | some c0 =>
    have hc0 : Clean c0 := hroot.firstChoice (Option.filter_eq_some_iff.mp hchoice).1
    exact hbefore.choice hc0

/-! ### The first chunk -/

/-- The model that is written. -/
def modelName (b : Bridge) : Bytes := if b.model = [] then ascii "unknown" else b.model

/-- The id and the model of a first chunk can be packed: no character is cut in two. -/
def Named (model : Bytes) (root : Json) : Prop :=
  utf8Check (msgIdClean ((Bridge.new model).identify root).msgId) = true ∧
    utf8Check (modelName ((Bridge.new model).identify root)) = true

theorem nonzero_snprintf {cap : ℕ} {s : Bytes} (h : Nonzero s) : Nonzero (snprintf cap s) :=
  nonzero_sublist (List.take_sublist _ _) h

theorem msgIdClean_bounds {id : Bytes} (hnonzero : Nonzero id) (hlen : id.length ≤ 63) :
    Nonzero (msgIdClean id) ∧ (msgIdClean id).length ≤ 70 := by
  have hmsg : Nonzero (ascii "msg_") ∧ (ascii "msg_").length = 4 := by
    exact ⟨nonzero_ascii _ (by decide), ascii_length _⟩
  unfold msgIdClean
  split_ifs
  · refine ⟨nonzero_append hmsg.1 (nonzero_sublist (List.drop_sublist _ _) hnonzero), ?_⟩
    rw [List.length_append, hmsg.2, List.length_drop]
    omega
  · refine ⟨nonzero_append hmsg.1 hnonzero, ?_⟩
    rw [List.length_append, hmsg.2]
    omega
  · exact ⟨nonzero_ascii _ (by decide), by rw [ascii_length]; decide⟩

theorem snprintf_length (cap : ℕ) (s : Bytes) : (snprintf cap s).length ≤ cap - 1 :=
  List.length_take_le _ _

/-- The id and the model that a chunk leaves fit in their buffers. -/
theorem identify_bounds (model : Bytes) {root : Json} (hroot : Clean root) :
    (Nonzero ((Bridge.new model).identify root).msgId ∧
        ((Bridge.new model).identify root).msgId.length ≤ 63) ∧
      Nonzero (modelName ((Bridge.new model).identify root)) ∧
        (modelName ((Bridge.new model).identify root)).length ≤ 70 := by
  have hid : ((Bridge.new model).identify root).msgId =
      snprintf 64 ((root.getString "id").getD []) := by
    unfold Bridge.identify Bridge.new
    dsimp only
    exact if_pos rfl
  rw [hid]
  refine ⟨⟨nonzero_snprintf (hroot.getString_getD "id" valid_nil).2, snprintf_length 64 _⟩, ?_⟩
  have hmodel : Nonzero ((Bridge.new model).identify root).model ∧
      ((Bridge.new model).identify root).model.length ≤ 63 := by
    unfold Bridge.identify
    dsimp only
    split
    · exact ⟨nonzero_snprintf (hroot.getString_getD "model" valid_nil).2, snprintf_length 64 _⟩
    · exact ⟨nonzero_snprintf (nonzero_cString model), snprintf_length 64 _⟩
  unfold modelName
  split
  · exact ⟨nonzero_ascii _ (by decide), by rw [ascii_length]; decide⟩
  · exact ⟨hmodel.1, by omega⟩

/-- The id and the model of a message that starts. -/
theorem named_bounds {model : Bytes} {root : Json} (hroot : Clean root) (h : Named model root) :
    (utf8Check (msgIdClean ((Bridge.new model).identify root).msgId) = true ∧
        Nonzero (msgIdClean ((Bridge.new model).identify root).msgId) ∧
          (msgIdClean ((Bridge.new model).identify root).msgId).length ≤ 70) ∧
      utf8Check (modelName ((Bridge.new model).identify root)) = true ∧
        Nonzero (modelName ((Bridge.new model).identify root)) ∧
          (modelName ((Bridge.new model).identify root)).length ≤ 70 := by
  obtain ⟨⟨hidNonzero, hidLen⟩, hmodel⟩ := identify_bounds model hroot
  exact ⟨⟨h.1, msgIdClean_bounds hidNonzero hidLen⟩, h.2, hmodel⟩

theorem start_named {model : Bytes} {root : Json} (h : Named model root) :
    ((Bridge.new model).identify root).start =
      { ((Bridge.new model).identify root).emit 2048 "message_start"
          (some (messageStart (msgIdClean ((Bridge.new model).identify root).msgId)
            (modelName ((Bridge.new model).identify root)) 0)) with
        messageStartSent := true } := by
  have hpack : ∀ j, jsonPack [msgIdClean ((Bridge.new model).identify root).msgId,
      modelName ((Bridge.new model).identify root)] j = some j := fun j => by
    simp [jsonPack, h.1, h.2]
  rw [← hpack]
  rfl

/-- The first chunk starts the message. -/
theorem InMode.start {model : Bytes} {root : Json} (hroot : Clean root) (h : Named model root) :
    InMode ((Bridge.new model).identify root).start .begun := by
  obtain ⟨hid, hmodel⟩ := named_bounds hroot h
  have hstart := start_named h
  have hphase : phaseAfter ((Bridge.new model).identify root).start.sent =
      some (.between none) := by
    rw [hstart]
    change phaseAfter (((Bridge.new model).identify root).emit 2048 "message_start"
      (some _)).sent = _
    rw [phaseAfter_emit]
    unfold readWrite
    rw [read_messageStart 0 hid hmodel]
    rfl
  refine ⟨hphase, ?_, ?_, ?_, ?_, ?_, ?_, ?_, ?_⟩
  all_goals rw [hstart]
  · rfl
  · rfl
  · rfl
  · rfl
  · rfl
  · rfl
  · exact Or.inl rfl

/-- A bridge that has not written the start of its message. -/
structure Lost (b : Bridge) : Prop where
  phase : ∀ p, phaseAfter b.sent = some p → p = .fresh
  reason : IsReason b.finishReason

theorem Lost.emit {b : Bridge} (h : Lost b) {cap : ℕ} {name : String} {d : Json} {e : Event}
    (he : e ≠ .messageStart)
    (hread : ∀ e', readEvent (snprintf cap (eventText name d)) = some e' → e' = e) :
    Lost (b.emit cap name (some d)) := by
  refine ⟨fun p hp => ?_, h.reason⟩
  rw [phaseAfter_emit] at hp
  obtain ⟨q, hq, hstep⟩ := Option.bind_eq_some_iff.mp hp
  obtain rfl := h.phase q hq
  obtain ⟨e', he', hstep⟩ := Option.bind_eq_some_iff.mp hstep
  obtain rfl := hread e' he'
  cases e' with
  | messageStart => exact absurd rfl he
  | _ => cases hstep

theorem Lost.of_sent {b b' : Bridge} (h : Lost b) (hsent : b'.sent = b.sent)
    (hreason : IsReason b'.finishReason) : Lost b' := ⟨hsent ▸ h.phase, hreason⟩

theorem Lost.startThinking {b : Bridge} (h : Lost b) : Lost b.startThinking := by
  unfold Bridge.startThinking
  split
  · exact h
  · have hemit : Lost (b.emit 1024 "content_block_start" (some (blockStart 0 "thinking"))) := by
      refine h.emit (e := .blockStart 0 (ascii "thinking")) (by simp) fun e' he' => ?_
      rw [read_blockStart 0 (Or.inl rfl)] at he'
      exact (Option.some.inj he').symm
    exact hemit.of_sent rfl h.reason

theorem Lost.stopThinking {b : Bridge} (h : Lost b) : Lost b.stopThinking := by
  unfold Bridge.stopThinking
  split
  · have hemit : Lost (b.emit 512 "content_block_stop" (some (blockStop 0))) := by
      refine h.emit (e := .blockStop 0) (by simp) fun e' he' => ?_
      rw [read_blockStop] at he'
      exact (Option.some.inj he').symm
    exact hemit.of_sent rfl h.reason
  · exact h

theorem Lost.startText {b : Bridge} (h : Lost b) : Lost b.startText := by
  unfold Bridge.startText
  split
  · exact h
  · have hemit : Lost (b.emit 1024 "content_block_start" (some (blockStart b.textIdx "text"))) := by
      refine h.emit (e := .blockStart b.textIdx (ascii "text")) (by simp) fun e' he' => ?_
      rw [read_blockStart b.textIdx (Or.inr rfl)] at he'
      exact (Option.some.inj he').symm
    exact hemit.of_sent rfl h.reason

theorem Lost.delta {b : Bridge} (h : Lost b) {i : Int64} (hi : i = 0 ∨ i = 1) {kind : String}
    (hkind : IsKind kind) {text : Bytes} (htext : utf8Check text = true ∧ Nonzero text) :
    Lost (b.emit 8192 "content_block_delta"
      (jsonPack [text] (blockDelta i (kind ++ "_delta") kind text))) := by
  have hpack : ∀ j, jsonPack [text] j = some j := fun j => by simp [jsonPack, htext.1]
  rw [hpack]
  refine h.emit (e := .blockDelta i (ascii kind ++ ascii "_delta")) (by simp) fun e' he' => ?_
  rw [← deltaText, read_blockDelta hi hkind htext] at he'
  split at he'
  · exact (Option.some.inj he').symm
  · cases he'

theorem textIdx_cases (b : Bridge) : b.textIdx = 0 ∨ b.textIdx = 1 := by
  unfold Bridge.textIdx
  split
  · exact Or.inr rfl
  · exact Or.inl rfl

theorem Lost.choice {b : Bridge} (h : Lost b) {c0 : Json} (hc0 : Clean c0) :
    Lost (b.choice c0) := by
  have hreason : Lost (b.reason c0) := h.of_sent (reason_sent b c0) (h.reason.reason c0)
  unfold Bridge.choice
  cases hdelta : getObject c0 "delta" with
  | none => exact hreason
  | some delta =>
    have hclean : Clean delta := hc0.getObject hdelta
    have hthinking : Lost ((b.reason c0).thinking delta) := by
      unfold Bridge.thinking
      cases ht : delta.getString "reasoning_content" with
      | none => exact hreason
      | some t =>
        exact hreason.startThinking.delta (Or.inl rfl) (Or.inl rfl : IsKind "thinking")
          (hclean.getString ht)
    change Lost (((b.reason c0).thinking delta).text delta)
    unfold Bridge.text
    cases ht : delta.getString "content" with
    | none => exact hthinking
    | some t =>
      exact hthinking.stopThinking.startText.delta (textIdx_cases _) (Or.inr rfl : IsKind "text")
        (hclean.getString ht)

theorem Lost.usage {b : Bridge} (h : Lost b) (root : Json) : Lost (b.usage root) := by
  refine h.of_sent (usage_sent b root) ?_
  unfold Bridge.usage
  split
  · exact h.reason
  · exact h.reason

/-- Once the start is left out, no chunk brings it back. -/
theorem Lost.chunk {b : Bridge} (h : Lost b) (hstarted : b.messageStartSent = true) {root : Json}
    (hroot : Clean root) : Lost (b.chunk root) := by
  have hidentify : Lost (b.identify root) := h.of_sent rfl h.reason
  have hstart : (b.identify root).start = b.identify root := by
    unfold Bridge.start
    rw [if_pos]
    exact hstarted
  unfold Bridge.chunk
  rw [hstart]
  cases hchoice : MessagesBridge.choiceOf root with
  | none => exact hidentify.usage root
  | some c0 =>
    exact (hidentify.usage root).choice (hroot.firstChoice (Option.filter_eq_some_iff.mp hchoice).1)

theorem isReason_valid {reason : Bytes} (h : IsReason reason) :
    utf8Check (if reason = [] then ascii "end_turn" else reason) = true ∧
      Nonzero (if reason = [] then ascii "end_turn" else reason) ∧
        (if reason = [] then ascii "end_turn" else reason).length ≤ 63 := by
  rcases h with rfl | rfl | rfl | rfl
  all_goals exact ⟨by decide +kernel, by decide +kernel, by decide +kernel⟩

/-- What the end of a message does to the phase. -/
theorem phaseAfter_close {b : Bridge} (h : IsReason b.finishReason) :
    phaseAfter b.close.sent =
      ((phaseAfter b.sent).bind (·.step .messageDelta)).bind (·.step .messageStop) := by
  have hvalid := isReason_valid h
  have hpack : ∀ j, jsonPack [if b.finishReason = [] then ascii "end_turn" else b.finishReason] j =
      some j := fun j => by simp [jsonPack, hvalid.1]
  unfold Bridge.close
  dsimp only
  rw [hpack]
  change phaseAfter ((b.emit 1024 "message_delta" (some _)).sent ++ [_]) = _
  rw [phaseAfter_append, phaseAfter_emit]
  unfold readWrite
  rw [read_messageDelta b.outputTokens hvalid]
  simp only [List.foldlM, read_messageStop]
  simp

/-- A message without a start is none. -/
theorem Lost.finish {b : Bridge} (h : Lost b) (hdone : b.doneEmitted = false) :
    phaseAfter b.finish.sent = none := by
  have hstopped : Lost b.stopThinking.stopText := by
    unfold Bridge.stopText
    split
    · have hemit : Lost (b.stopThinking.emit 512 "content_block_stop"
          (some (blockStop b.stopThinking.textIdx))) := by
        refine h.stopThinking.emit (e := .blockStop b.stopThinking.textIdx) (by simp) fun e' he' => ?_
        rw [read_blockStop] at he'
        exact (Option.some.inj he').symm
      exact hemit.of_sent rfl h.stopThinking.reason
    · exact h.stopThinking
  unfold Bridge.finish
  rw [hdone, if_neg Bool.false_ne_true, phaseAfter_close hstopped.reason]
  cases hphase : phaseAfter b.stopThinking.stopText.sent with
  | none => rfl
  | some p =>
    obtain rfl := hstopped.phase p hphase
    rfl

end Aigate.BlockModes
