import Aigate.BlockModes

/-!
# The grammar of a translated stream

What the bridge writes for a stream of OpenAI chunks is one well-ordered message exactly when
the first chunk names it, every delta fits and no thought comes behind a text.
-/
namespace Aigate.BlockGrammar
open Text JsonTree JsonText JsonEdit Guardrails Utf8 StreamCache ProviderRequests BridgeEvents
  EventTexts MessagesBridge BlockEvents BlockModes

@[simp] theorem emit_doneEmitted (b : Bridge) (cap : ℕ) (name : String) (d : Option Json) :
    (b.emit cap name d).doneEmitted = b.doneEmitted := by
  cases d <;> rfl

@[simp] theorem emit_messageStartSent (b : Bridge) (cap : ℕ) (name : String) (d : Option Json) :
    (b.emit cap name d).messageStartSent = b.messageStartSent := by
  cases d <;> rfl

@[simp] theorem emit_finishReason (b : Bridge) (cap : ℕ) (name : String) (d : Option Json) :
    (b.emit cap name d).finishReason = b.finishReason := by
  cases d <;> rfl

/-- A chunk neither ends the message nor takes its start back. -/
theorem chunk_flags (b : Bridge) (root : Json) :
    (b.chunk root).doneEmitted = b.doneEmitted ∧ (b.chunk root).messageStartSent = true := by
  have hthinking : ∀ (b : Bridge) delta, (b.thinking delta).doneEmitted = b.doneEmitted ∧
      (b.thinking delta).messageStartSent = b.messageStartSent := by
    intro b delta
    unfold Bridge.thinking Bridge.startThinking
    split
    · split <;> simp
    · exact ⟨rfl, rfl⟩
  have htext : ∀ (b : Bridge) delta, (b.text delta).doneEmitted = b.doneEmitted ∧
      (b.text delta).messageStartSent = b.messageStartSent := by
    intro b delta
    unfold Bridge.text Bridge.startText Bridge.stopThinking
    split
    · dsimp only
      split
      · split <;> simp
      · split <;> simp
    · exact ⟨rfl, rfl⟩
  have hreason : ∀ (b : Bridge) c0, (b.reason c0).doneEmitted = b.doneEmitted ∧
      (b.reason c0).messageStartSent = b.messageStartSent := by
    intro b c0
    unfold Bridge.reason
    split <;> exact ⟨rfl, rfl⟩
  have husage : ∀ b : Bridge, (b.usage root).doneEmitted = b.doneEmitted ∧
      (b.usage root).messageStartSent = b.messageStartSent := by
    intro b
    unfold Bridge.usage
    split <;> exact ⟨rfl, rfl⟩
  have hstart : (b.identify root).start.doneEmitted = b.doneEmitted ∧
      (b.identify root).start.messageStartSent = true := by
    unfold Bridge.start
    split
    · rename_i h
      exact ⟨rfl, h⟩
    · simp [Bridge.identify]
  have hbefore : ((b.identify root).start.usage root).doneEmitted = b.doneEmitted ∧
      ((b.identify root).start.usage root).messageStartSent = true :=
    ⟨(husage _).1.trans hstart.1, (husage _).2.trans hstart.2⟩
  unfold Bridge.chunk Bridge.choice
  split
  · split
    · exact ⟨(htext _ _).1.trans ((hthinking _ _).1.trans ((hreason _ _).1.trans hbefore.1)),
        (htext _ _).2.trans ((hthinking _ _).2.trans ((hreason _ _).2.trans hbefore.2))⟩
    · exact ⟨(hreason _ _).1.trans hbefore.1, (hreason _ _).2.trans hbefore.2⟩
  · exact hbefore

/-- The first chunk of a stream. -/
theorem chunk_first {model : Bytes} {root : Json} (hroot : Clean root) (h : Named model root) :
    Tracks ((Bridge.new model).chunk root) (Mode.begun.onChunk root) := by
  have hbefore := (InMode.start hroot h).usage root
  unfold Bridge.chunk Mode.onChunk thoughtOf textOf deltaObject
  cases hchoice : MessagesBridge.choiceOf root with
  | none => exact hbefore
  | some c0 => exact hbefore.choice (hroot.firstChoice (Option.filter_eq_some_iff.mp hchoice).1)

theorem lost_new (model : Bytes) : Lost (Bridge.new model) :=
  ⟨fun _ hp => (Option.some.inj hp).symm, Or.inl rfl⟩

/-- A first chunk whose id or model cannot be packed. -/
theorem chunk_unnamed {model : Bytes} {root : Json} (hroot : Clean root) (h : ¬Named model root) :
    Lost ((Bridge.new model).chunk root) := by
  have hnone : ∀ j, jsonPack [msgIdClean ((Bridge.new model).identify root).msgId,
      modelName ((Bridge.new model).identify root)] j = none := by
    intro j
    unfold Named at h
    simp only [jsonPack, List.all_cons, List.all_nil, Bool.and_true]
    rw [if_neg (by rwa [Bool.and_eq_true])]
  have hstart : Lost ((Bridge.new model).identify root).start := by
    have hreason : ((Bridge.new model).identify root).start.finishReason = [] := by
      unfold Bridge.start
      split
      · rfl
      · exact emit_finishReason _ _ _ _
    refine (lost_new model).of_sent ?_ (Or.inl hreason)
    change (((Bridge.new model).identify root).emit 2048 "message_start"
      (jsonPack [_, modelName ((Bridge.new model).identify root)] _)).sent = _
    rw [hnone]
    rfl
  unfold Bridge.chunk
  cases hchoice : MessagesBridge.choiceOf root with
  | none => exact hstart.usage root
  | some c0 =>
    exact (hstart.usage root).choice (hroot.firstChoice (Option.filter_eq_some_iff.mp hchoice).1)

theorem phaseAfter_stopText {b : Bridge} (h : b.textStarted = true ∧ b.textClosed = false) :
    phaseAfter b.stopText.sent = (phaseAfter b.sent).bind (·.step (.blockStop b.textIdx)) := by
  unfold Bridge.stopText
  rw [if_pos h]
  change phaseAfter (b.emit 512 "content_block_stop" (some (blockStop b.textIdx))).sent = _
  rw [phaseAfter_emit]
  unfold readWrite
  rw [read_blockStop]
  rfl

theorem stopText_none {b : Bridge} (h : b.textStarted = false) : b.stopText = b := by
  unfold Bridge.stopText
  rw [if_neg (by rw [h]; exact fun hand => Bool.false_ne_true hand.1)]

theorem stops_reason (b : Bridge) : b.stopThinking.stopText.finishReason = b.finishReason := by
  unfold Bridge.stopText Bridge.stopThinking
  dsimp only
  split
  · split <;> simp
  · split <;> simp

/-- Before the end of the message, the open block is stopped. -/
theorem stops_inMode {b : Bridge} {m : Mode} (h : InMode b m) :
    ∃ last, phaseAfter b.stopThinking.stopText.sent = some (.between last) := by
  cases m with
  | begun =>
    have hstopped : b.stopThinking = b := stopThinking_closed h.inThinking
    have hnoText : b.textStarted = false := h.textStarted
    rw [hstopped, stopText_none hnoText]
    exact ⟨none, h.phase⟩
  | thinking =>
    have hopen : b.inThinking = true ∧ b.thinkingClosed = false := ⟨h.inThinking, h.thinkingClosed⟩
    have hstop := phaseAfter_stopThinking hopen
    rw [h.phase, Option.bind_some, Mode.phase, step_blockStop] at hstop
    have hnoText : b.stopThinking.textStarted = false := by
      unfold Bridge.stopThinking
      rw [if_pos hopen]
      exact h.textStarted
    rw [stopText_none hnoText]
    exact ⟨some 0, hstop⟩
  | text afterThoughts =>
    have hstopped : b.stopThinking = b := stopThinking_closed h.inThinking
    have hidx : b.textIdx = if afterThoughts then 1 else 0 := by
      unfold Bridge.textIdx
      rw [h.thinkingStarted]
      cases afterThoughts <;> rfl
    rw [hstopped, phaseAfter_stopText ⟨h.textStarted, h.textClosed⟩, h.phase, Option.bind_some,
      Mode.phase, hidx, step_blockStop]
    exact ⟨_, rfl⟩

/-- The end of a message whose writes are in order. -/
theorem finish_inMode {b : Bridge} {m : Mode} (h : InMode b m) : IsMessage b.finish.sent := by
  obtain ⟨last, hlast⟩ := stops_inMode h
  have hreason : IsReason b.stopThinking.stopText.finishReason := stops_reason b ▸ h.reason
  unfold IsMessage Bridge.finish
  rw [h.notDone, if_neg Bool.false_ne_true, phaseAfter_close hreason, hlast]
  rfl

/-- The deltas of a chunk fit in the buffer of an event. -/
def ChunkFits (root : Json) : Prop :=
  (∀ t ∈ thoughtOf root, Fits "thinking" t) ∧ ∀ t ∈ textOf root, Fits "text" t

theorem onChunk_isSome_iff (m : Mode) (root : Json) :
    (m.onChunk root).isSome = true ↔
      ChunkFits root ∧ (m.hasText = true → thoughtOf root = none) := by
  unfold Mode.onChunk Mode.onThought Mode.onText ChunkFits
  cases thoughtOf root with
  | none =>
    cases textOf root with
    | none => simp
    | some t => by_cases ht : Fits "text" t <;> simp [ht]
  | some t =>
    by_cases ht : Fits "thinking" t
    · cases m <;> cases textOf root with
      | none => simp [ht, Mode.think, Mode.hasText]
      | some t' =>
        by_cases ht' : Fits "text" t' <;> simp [ht, ht', Mode.think, Mode.hasText]
    · simp [ht]

theorem onThought_hasText {m m' : Mode} {thought : Option Bytes}
    (h : m.onThought thought = some m') : m'.hasText = m.hasText := by
  unfold Mode.onThought at h
  cases thought with
  | none => rw [Option.some.inj h]
  | some t =>
    dsimp only at h
    split at h
    · cases m with
      | begun => rw [← Option.some.inj h]; rfl
      | thinking => rw [← Option.some.inj h]
      | text a => cases h
    · cases h

theorem onText_hasText {m m' : Mode} {text : Option Bytes} (h : m.onText text = some m') :
    m'.hasText = (m.hasText || text.isSome) := by
  unfold Mode.onText at h
  cases text with
  | none =>
    rw [Option.some.inj h]
    simp
  | some t =>
    dsimp only at h
    split at h
    · rw [← Option.some.inj h]
      cases m <;> rfl
    · cases h

theorem onChunk_hasText {m m' : Mode} {root : Json} (h : m.onChunk root = some m') :
    m'.hasText = (m.hasText || (textOf root).isSome) := by
  obtain ⟨m'', hthought, htext⟩ := Option.bind_eq_some_iff.mp h
  rw [onText_hasText htext, onThought_hasText hthought]

/-- No thought comes behind a text. -/
def ThoughtsFirst (roots : List Json) : Prop :=
  roots.Pairwise fun earlier later => textOf earlier = none ∨ thoughtOf later = none

/-- The modes of a stream exist when its deltas fit and its thoughts come first. -/
theorem run_isSome_iff (roots : List Json) (m : Mode) :
    (roots.foldlM Mode.onChunk m).isSome = true ↔
      (∀ root ∈ roots, ChunkFits root) ∧
        (m.hasText = true → ∀ root ∈ roots, thoughtOf root = none) ∧ ThoughtsFirst roots := by
  induction roots generalizing m with
  | nil => simp [ThoughtsFirst, List.foldlM]
  | cons root rest ih =>
    have honly := onChunk_isSome_iff m root
    rw [List.foldlM_cons, List.forall_mem_cons, ThoughtsFirst, List.pairwise_cons,
      ← ThoughtsFirst]
    cases hnext : m.onChunk root with
    | none =>
      rw [hnext] at honly
      simp only [Option.isSome_none, Bool.false_eq_true, false_iff] at honly
      constructor
      · intro h
        cases h
      · rintro ⟨⟨hfits, -⟩, hthoughts, -⟩
        exact absurd ⟨hfits, fun hm => hthoughts hm root List.mem_cons_self⟩ honly
    | some m' =>
      rw [hnext] at honly
      obtain ⟨hfits, hfirst⟩ := honly.mp rfl
      change (rest.foldlM Mode.onChunk m').isSome = true ↔ _
      rw [ih, onChunk_hasText hnext, Bool.or_eq_true]
      constructor
      · rintro ⟨hrest, hlater, hordered⟩
        refine ⟨⟨hfits, hrest⟩, fun hm => List.forall_mem_cons.mpr ⟨hfirst hm, hlater (Or.inl hm)⟩,
          fun later hmem => ?_, hordered⟩
        cases htext : textOf root with
        | none => exact Or.inl rfl
        | some t => exact Or.inr (hlater (Or.inr (by rw [htext]; rfl)) later hmem)
      · rintro ⟨⟨-, hrest⟩, hthoughts, hpairs, hordered⟩
        refine ⟨hrest, fun hor later hmem => ?_, hordered⟩
        rcases hor with hm | htext
        · exact hthoughts hm later (List.mem_cons_of_mem _ hmem)
        · rcases hpairs later hmem with hnone | hnone
          · rw [hnone] at htext
            cases htext
          · exact hnone

/-- The chunk in a line. -/
def chunkOf (line : Bytes) : Option Json :=
  let line := cString (stripCr line)
  if (ascii "data:").isPrefixOf line = true ∧
      (ascii "[DONE]").isPrefixOf (skipBlanks (line.drop 5)) = false then
    jsonLoads (skipBlanks (line.drop 5))
  else none

theorem takeLine_eq (b : Bridge) (line : Bytes) :
    b.takeLine line = match chunkOf line with
      | some root => b.chunk root
      | none => b := by
  unfold Bridge.takeLine Bridge.processLine chunkOf
  dsimp only
  by_cases hdata : (ascii "data:").isPrefixOf (cString (stripCr line)) = true
  · rw [if_pos hdata]
    by_cases hdone : (ascii "[DONE]").isPrefixOf (skipBlanks ((cString (stripCr line)).drop 5)) = true
    · rw [if_pos hdone, if_neg (by rw [hdone]; simp)]
    · have hchunk : (ascii "data:").isPrefixOf (cString (stripCr line)) = true ∧
          (ascii "[DONE]").isPrefixOf (skipBlanks ((cString (stripCr line)).drop 5)) = false :=
        ⟨hdata, Bool.not_eq_true _ ▸ hdone⟩
      rw [if_neg hdone]
      exact congrArg (fun parsed : Option Json => match parsed with
        | some root => b.chunk root
        | none => b) (if_pos hchunk).symm
  · rw [if_neg hdata, if_neg (fun hand => hdata hand.1)]

theorem foldl_takeLine (ls : List Bytes) (b : Bridge) :
    ls.foldl Bridge.takeLine b = (ls.filterMap chunkOf).foldl Bridge.chunk b := by
  induction ls generalizing b with
  | nil => rfl
  | cons line rest ih =>
    rw [List.foldl_cons, takeLine_eq]
    cases hline : chunkOf line with
    | none => rw [List.filterMap_cons_none hline, ih]
    | some root => rw [List.filterMap_cons_some hline, List.foldl_cons, ih]

theorem clean_chunkOf {line : Bytes} {root : Json} (h : chunkOf line = some root) : Clean root := by
  unfold chunkOf at h
  dsimp only at h
  split at h
  · exact clean_jsonLoads h
  · cases h

theorem foldl_sent (roots : List Json) (b : Bridge) :
    b.sent <+: (roots.foldl Bridge.chunk b).sent := by
  induction roots generalizing b with
  | nil => exact List.prefix_rfl
  | cons root rest ih => exact (chunk_sent b root).trans (ih _)

theorem tracks_isMessage_iff {b : Bridge} {om : Option Mode} (h : Tracks b om) :
    IsMessage b.finish.sent ↔ om.isSome = true := by
  cases om with
  | none =>
    refine iff_of_false (fun hmessage => ?_) (by simp)
    unfold IsMessage at hmessage
    rw [phaseAfter_none h (finish_sent b)] at hmessage
    cases hmessage
  | some m => exact iff_of_true (finish_inMode h) rfl

/-- A run of chunks keeps to its modes, or what it writes is out of order. -/
theorem foldl_tracks {roots : List Json} (hroots : ∀ root ∈ roots, Clean root) {b : Bridge}
    {m : Mode} (h : InMode b m) :
    Tracks (roots.foldl Bridge.chunk b) (roots.foldlM Mode.onChunk m) := by
  induction roots generalizing b m with
  | nil => exact h
  | cons root rest ih =>
    have hnext := h.chunk (hroots root List.mem_cons_self)
    rw [List.foldl_cons, List.foldlM_cons]
    cases hmode : m.onChunk root with
    | none =>
      rw [hmode] at hnext
      exact phaseAfter_none hnext (foldl_sent rest _)
    | some m' =>
      rw [hmode] at hnext
      exact ih (fun r hr => hroots r (List.mem_cons_of_mem _ hr)) hnext

theorem foldl_lost {roots : List Json} (hroots : ∀ root ∈ roots, Clean root) {b : Bridge}
    (h : Lost b) (hstarted : b.messageStartSent = true) : Lost (roots.foldl Bridge.chunk b) := by
  induction roots generalizing b with
  | nil => exact h
  | cons root rest ih =>
    exact ih (fun r hr => hroots r (List.mem_cons_of_mem _ hr))
      (h.chunk hstarted (hroots root List.mem_cons_self)) (chunk_flags b root).2

theorem foldl_notDone (roots : List Json) (b : Bridge) :
    (roots.foldl Bridge.chunk b).doneEmitted = b.doneEmitted := by
  induction roots generalizing b with
  | nil => rfl
  | cons root rest ih =>
    rw [List.foldl_cons, ih]
    exact (chunk_flags b root).1

/-- What the chunks of a stream must be: a first one that can name the message, deltas that fit,
and no thought behind a text. -/
structure Orderly (model : Bytes) (roots : List Json) : Prop where
  named : ∃ first ∈ roots.head?, Named model first
  fits : ∀ root ∈ roots, ChunkFits root
  ordered : ThoughtsFirst roots

/-- A message comes out exactly when the chunks are orderly. -/
theorem isMessage_iff (model : Bytes) {roots : List Json} (hroots : ∀ root ∈ roots, Clean root) :
    IsMessage (roots.foldl Bridge.chunk (Bridge.new model)).finish.sent ↔ Orderly model roots := by
  cases roots with
  | nil =>
    constructor
    · intro h
      unfold IsMessage at h
      rw [List.foldl_nil, (lost_new model).finish rfl] at h
      cases h
    · rintro ⟨⟨first, hfirst, -⟩, -, -⟩
      cases hfirst
  | cons first rest =>
    have hfirst := hroots first List.mem_cons_self
    have hrest : ∀ root ∈ rest, Clean root := fun r hr => hroots r (List.mem_cons_of_mem _ hr)
    rw [List.foldl_cons]
    by_cases hnamed : Named model first
    · have hmode := (run_isSome_iff (first :: rest) .begun).symm
      have htracks : Tracks (rest.foldl Bridge.chunk ((Bridge.new model).chunk first))
          ((first :: rest).foldlM Mode.onChunk .begun) := by
        have hchunk := chunk_first hfirst hnamed
        rw [List.foldlM_cons]
        cases hnext : Mode.begun.onChunk first with
        | none =>
          rw [hnext] at hchunk
          exact phaseAfter_none hchunk (foldl_sent rest _)
        | some m =>
          rw [hnext] at hchunk
          exact foldl_tracks hrest hchunk
      rw [tracks_isMessage_iff htracks, ← hmode]
      constructor
      · rintro ⟨hfits, -, hordered⟩
        exact ⟨⟨first, rfl, hnamed⟩, hfits, hordered⟩
      · rintro ⟨-, hfits, hordered⟩
        exact ⟨hfits, fun h => absurd h Bool.false_ne_true, hordered⟩
    · have hlost := foldl_lost hrest (chunk_unnamed hfirst hnamed) (chunk_flags _ _).2
      have hnotDone : (rest.foldl Bridge.chunk ((Bridge.new model).chunk first)).doneEmitted =
          false := (foldl_notDone _ _).trans (chunk_flags _ _).1
      constructor
      · intro h
        unfold IsMessage at h
        rw [hlost.finish hnotDone] at h
        cases h
      · rintro ⟨⟨root, hroot, h⟩, -, -⟩
        obtain rfl : first = root := Option.some.inj hroot
        exact absurd h hnamed

/-- What the bridge writes for a stream is one well-ordered message exactly when the chunks in its
lines are orderly. -/
theorem grammatical_iff (model : Bytes) (chunks : List Bytes) :
    IsMessage (feedAll Bridge.takeLine (Bridge.new model) chunks).finish.sent ↔
      Orderly model ((taken chunks).filterMap chunkOf) := by
  rw [feedAll_eq, foldl_takeLine]
  refine isMessage_iff model fun root hroot => ?_
  obtain ⟨line, -, hline⟩ := List.mem_filterMap.mp hroot
  exact clean_chunkOf hline

def emptyText : Bytes :=
  ascii "data: \x7b\"choices\":[\x7b\"delta\":\x7b\"content\":\"\"\x7d\x7d]\x7d"

def lateThought : Bytes :=
  ascii "data: \x7b\"choices\":[\x7b\"delta\":\x7b\"reasoning_content\":\"a\"\x7d\x7d]\x7d"

/-- An empty text comes first here, and a thought behind it. -/
def thoughtLast : Bytes := emptyText ++ '\n' :: (lateThought ++ ['\n'])

theorem taken_thoughtLast : taken [thoughtLast] = [emptyText, lateThought] := by
  unfold taken thoughtLast
  have hshort : emptyText.length < eventCap ∧ lateThought.length < eventCap := by decide +kernel
  rw [BoundedLines.completed_whole, LineBuffer.lines_line (by decide +kernel),
    LineBuffer.lines_line (by decide +kernel)]
  simp [hshort, LineBuffer.lines, LineBuffer.split]

theorem not_grammatical_thoughtLast : ¬IsMessage
    (feedAll Bridge.takeLine (Bridge.new (ascii "m")) [thoughtLast]).finish.sent := by
  have hfirst : (chunkOf emptyText).bind textOf = some [] := by decide +kernel
  have hsecond : (chunkOf lateThought).bind thoughtOf = some ['a'] := by decide +kernel
  obtain ⟨text, htext, hcontent⟩ := Option.bind_eq_some_iff.mp hfirst
  obtain ⟨thought, hthought, hreasoning⟩ := Option.bind_eq_some_iff.mp hsecond
  intro h
  have hroots : ∀ root ∈ [text, thought], Clean root := by
    intro root hroot
    rcases List.mem_pair.mp hroot with rfl | rfl
    · exact clean_chunkOf htext
    · exact clean_chunkOf hthought
  rw [feedAll_eq, foldl_takeLine, taken_thoughtLast, List.filterMap_cons_some htext,
    List.filterMap_cons_some hthought, List.filterMap_nil, isMessage_iff _ hroots] at h
  have hordered := List.pairwise_pair.mp h.ordered
  rw [hcontent, hreasoning] at hordered
  simp at hordered

end Aigate.BlockGrammar
