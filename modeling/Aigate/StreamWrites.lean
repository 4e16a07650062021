import Aigate.BridgeSplits
import Aigate.PiiRestore
import Aigate.WatermarkStream

/-!
# The writes of a streamed response

The transport is told by a flag which write is the last one. On the chat pipeline the writes of a
bridge pass the watermark, the restoring of placeholders and the accumulator of the cache; the
native pipelines hand the chunks on or translate them. A response is complete when exactly one
write has the flag, the last one.
-/
namespace Aigate.StreamWrites
open Text PiiText PiiRestore StreamCache BridgeEvents BridgeSplits WatermarkStream

/-- A call of the transport's `write`. -/
structure Write where
  bytes : Bytes
  fin : Bool
  deriving DecidableEq

/-- Exactly one write has the flag, and it is the last one. -/
def FinLast (ws : List Write) : Prop :=
  ∃ before last, ws = before ++ [last] ∧ last.fin = true ∧ ∀ w ∈ before, w.fin = false

/-- `stream_cache_acc_t`. -/
structure Acc where
  wm : StreamWatermark
  sf : StreamFilter
  cache : StreamCacheAcc

/-- The chunk behind the watermark; it is as it was when the watermark fails. -/
def Acc.marked (acc : Acc) (chunk : Bytes) (fin : Bool) : StreamWatermark × Bytes :=
  if acc.wm.enabled then
    let fed := streamFeed acc.wm chunk fin (chunk.length + 1024)
    (fed.1, (fed.2.map (render acc.wm.payload)).getD chunk)
  else (acc.wm, chunk)

/-- The chunk behind the filter: what is written of it, and at the end what was held. -/
def filtered (sf : StreamFilter) (chunk : Bytes) (fin : Bool) : StreamFilter × List Write :=
  if sf.map.entries = [] then (sf, [⟨chunk, fin⟩])
  else
    let fed := streamFilterFeed sf chunk (outCapacity chunk)
    let first := if fed.2 = [] then [] else [⟨fed.2, fin && fed.1.win.isEmpty⟩]
    if fin = true ∧ fed.1.win ≠ [] then
      let flushed := streamFilterFlush fed.1 64
      (flushed.1, first ++ if flushed.2 = [] then [] else [⟨flushed.2, true⟩])
    else (fed.1, first)

/-- `stream_cache_acc_write`, and the writes that it makes. -/
def accWrite (acc : Acc) (chunk : Bytes) (fin : Bool) : Acc × List Write :=
  let marked := acc.marked chunk fin
  let written := filtered acc.sf marked.2 fin
  ({ wm := marked.1, sf := written.1, cache := streamCacheAccWrite acc.cache marked.2 }, written.2)

/-- Some writes that are not the last one. -/
def accWrites (acc : Acc) : List Bytes → Acc × List Write
  | [] => (acc, [])
  | chunk :: chunks =>
    let first := accWrite acc chunk false
    let rest := accWrites first.1 chunks
    (rest.1, first.2 ++ rest.2)

/-- The message about a stream that was interrupted. -/
def interruption (urc : ℤ) : Bytes :=
  if urc = -110 then ascii "stream interrupted: silence timeout"
  else ascii "stream interrupted: transport error"

/-- A stream of `handle_chat_stream` whose headers are sent: a bridge that has written nothing
yet, the watermark and the placeholders of the request, the chunks from upstream, and how the
call of upstream ended. -/
structure ChatStream where
  kind : Kind
  bridge : kind.State
  fresh : kind.sent bridge = []
  wm : StreamWatermark
  map : SessionMap
  chunks : List Bytes
  urc : ℤ

def ChatStream.acc (s : ChatStream) : Acc := ⟨s.wm, .init s.map, .init⟩

def ChatStream.fed (s : ChatStream) : s.kind.State := feedAll s.kind.takeLine s.bridge s.chunks

/-- What the bridge writes up to its last write, which is empty and only made when the stream was
not interrupted. -/
def ChatStream.sent (s : ChatStream) : List Bytes :=
  if s.urc = 0 then s.kind.sent (s.kind.finish s.fed) else s.kind.sent s.fed

/-- The accumulator in front of the last write. -/
def ChatStream.lastAcc (s : ChatStream) : Acc := (accWrites s.acc s.sent).1

/-- An interrupted stream ends with an error that the pipeline writes past the accumulator. -/
def ChatStream.writes (s : ChatStream) : List Write :=
  (accWrites s.acc s.sent).2 ++
    if s.urc = 0 then (accWrite s.lastAcc [] true).2
    else [⟨AnthropicBridge.errorText (interruption s.urc), true⟩]

/-- The pipelines whose client speaks the language of the provider. -/
inductive NativePipeline where
  | anthropic
  | gemini

def NativePipeline.errorEvent (urc : ℤ) : NativePipeline → Bytes
  | .anthropic => ascii "event: error" ++ '\r' :: '\n' :: ascii "data: " ++
      ascii "\x7b\"type\":\"error\",\"error\":\x7b\"type\":\"api_error\",\"message\":\"" ++
      interruption urc ++ ascii "\"\x7d\x7d" ++ ['\r', '\n', '\r', '\n']
  | .gemini => dataEvent (ascii "\x7b\"error\":\x7b\"code\":502,\"message\":\"" ++
      interruption urc ++ ascii "\",\"status\":\"UNAVAILABLE\"\x7d\x7d")

/-- The end of a native pipeline. -/
def NativePipeline.epilogue (p : NativePipeline) (urc : ℤ) : List Write :=
  if urc = 0 then [⟨[], true⟩] else [⟨p.errorEvent urc, true⟩]

/-- A streamed response whose headers are sent. -/
inductive Streamed where
  /-- `handle_chat_stream`. -/
  | chat (s : ChatStream)
  /-- `cache_stream_replay`. -/
  | replay (ce : CachedEntry) (model : Bytes)
  /-- A native pipeline that passes the chunks on. -/
  | passed (p : NativePipeline) (chunks : List Bytes) (urc : ℤ)
  /-- `handle_anthropic_messages` with a provider that speaks OpenAI. -/
  | translated (model : Bytes) (chunks : List Bytes) (urc : ℤ)

/-- The writes that reach the transport. -/
def Streamed.writes : Streamed → List Write
  | .chat s => s.writes
  | .replay ce model =>
    (cacheStreamReplay ce model).dropLast.map (fun w => ⟨w.sent, false⟩) ++ [⟨[], true⟩]
  | .passed p chunks urc =>
    (chunks.filter (· ≠ [])).map (fun chunk => ⟨chunk, false⟩) ++ p.epilogue urc
  | .translated model chunks urc =>
    (feedAll MessagesBridge.Bridge.takeLine (.new model) chunks).finish.sent.map
      (fun text => ⟨text, false⟩) ++ [⟨[], true⟩] ++ NativePipeline.anthropic.epilogue urc

theorem finLast_append {before ws : List Write} (h : ∀ w ∈ before, w.fin = false) :
    FinLast (before ++ ws) ↔ FinLast ws := by
  constructor
  · rintro ⟨front, last, heq, hlast, hfront⟩
    rcases List.eq_nil_or_concat' ws with rfl | ⟨ws, w, rfl⟩
    · have hmem : last ∈ before := by
        rw [← List.append_nil before, heq]
        exact List.mem_append_right _ (List.mem_singleton_self _)
      rw [h last hmem] at hlast
      cases hlast
    · rw [← List.append_assoc] at heq
      obtain ⟨hsame, hw⟩ := List.append_inj' heq rfl
      refine ⟨ws, w, rfl, ?_, fun v hv => hfront v ?_⟩
      · rw [List.singleton_inj.mp hw]
        exact hlast
      · rw [← hsame]
        exact List.mem_append_right _ hv
  · rintro ⟨front, last, rfl, hlast, hfront⟩
    refine ⟨before ++ front, last, (List.append_assoc _ _ _).symm, hlast, fun w hw => ?_⟩
    rcases List.mem_append.mp hw with hw | hw
    · exact h w hw
    · exact hfront w hw

theorem finLast_singleton (bytes : Bytes) : FinLast [⟨bytes, true⟩] :=
  ⟨[], ⟨bytes, true⟩, rfl, rfl, fun _ hw => nomatch hw⟩

theorem not_finLast_nil : ¬FinLast [] := by
  rintro ⟨before, last, heq, -, -⟩
  exact List.append_ne_nil_of_right_ne_nil before (List.cons_ne_nil _ _) heq.symm

/-- Two writes with the flag are too many. -/
theorem not_finLast_pair (u v : Bytes) : ¬FinLast [⟨u, true⟩, ⟨v, true⟩] := by
  rintro ⟨before, last, heq, -, hbefore⟩
  have hpair : [(⟨u, true⟩ : Write)] ++ [⟨v, true⟩] = before ++ [last] := heq
  obtain ⟨hfront, -⟩ := List.append_inj' hpair rfl
  have hfalse := hbefore ⟨u, true⟩ (hfront ▸ List.mem_singleton_self _)
  cases hfalse

/-! The filter and the watermark. -/

theorem isWord_of_cut {n : ℕ} {s : Bytes} (h : ahead n s = .cut) : ∀ c ∈ s, isWord c = true := by
  induction n generalizing s with
  | zero => cases h
  | succ n ih =>
    cases s with
    | nil => exact fun c hc => nomatch hc
    | cons d s =>
      rw [ahead] at h
      split at h
      · cases h
      · split at h
        · rename_i hword
          split at h
          · cases h
          · cases h
          · rename_i hcut
            intro c hc
            rcases List.mem_cons.mp hc with rfl | hc
            · exact hword
            · exact ih hcut c hc
        · cases h

theorem isWord_of_closed {n letters : ℕ} {s : Bytes} (h : ahead n s = .closed letters) :
    ∀ c ∈ s.take (letters + 1), isWord c = true ∨ c = ']' := by
  induction n generalizing s letters with
  | zero => cases h
  | succ n ih =>
    cases s with
    | nil => cases h
    | cons d s =>
      rw [ahead] at h
      intro c hc
      rw [List.take_succ_cons] at hc
      split at h
      · rename_i hbracket
        cases h
        rw [List.take_zero] at hc
        exact Or.inr ((List.mem_singleton.mp hc).trans hbracket)
      · split at h
        · rename_i hword
          split at h
          · rename_i hclosed
            cases h
            rcases List.mem_cons.mp hc with rfl | hc
            · exact Or.inl hword
            · exact ih hclosed c hc
          · cases h
          · cases h
        · cases h

/-- A character that cannot be in a placeholder passes the filter. -/
theorem mem_feedLoop (map : SessionMap) {x : Char} (hopen : x ≠ '[') (hclose : x ≠ ']')
    (hword : isWord x = false) {skip : ℕ} {s : Bytes} (hx : x ∈ s.drop skip) :
    x ∈ (feedLoop map skip s).1 := by
  fun_induction feedLoop map skip s with
  | case1 skip =>
    rw [List.drop_nil] at hx
    cases hx
  | case2 skip c rest ih => exact ih hx
  | case3 c rest hcut =>
    rcases List.mem_cons.mp hx with rfl | hx
    · exact absurd hcut.1 hopen
    · rw [isWord_of_cut hcut.2 x hx] at hword
      cases hword
  | case4 c rest hcut skip original htoken ih =>
    refine List.mem_append_right _ (ih ?_)
    have hbracket : c = '[' := by
      by_contra hne
      rw [if_neg hne] at htoken
      cases htoken
    rw [if_pos hbracket] at htoken
    unfold tokenAhead at htoken
    split at htoken
    · rename_i letters hclosed
      obtain ⟨_, -, heq⟩ := Option.map_eq_some_iff.mp htoken
      obtain ⟨rfl, -⟩ := Prod.mk.inj heq
      rw [List.drop_zero, List.mem_cons] at hx
      rcases hx with rfl | hx
      · exact absurd hbracket hopen
      · rw [← List.take_append_drop (letters + 1) rest, List.mem_append] at hx
        rcases hx with hx | hx
        · rcases isWord_of_closed hclosed x hx with htrue | hbracket
          · rw [htrue] at hword
            cases hword
          · exact absurd hbracket hclose
        · exact hx
    · cases htoken
  | case5 c rest hcut htoken ih =>
    rcases List.mem_cons.mp hx with rfl | hx
    · exact List.mem_cons_self
    · exact List.mem_cons_of_mem _ (ih hx)

/-- The map of a filter stays, and writes that are not the last one do not have the flag. -/
theorem filtered_false (sf : StreamFilter) (chunk : Bytes) :
    (filtered sf chunk false).1.map = sf.map ∧
      ∀ w ∈ (filtered sf chunk false).2, w.fin = false := by
  unfold filtered
  split
  · exact ⟨rfl, fun w hw => by rw [List.mem_singleton.mp hw]⟩
  · rename_i hmap
    have hfeed : (streamFilterFeed sf chunk (outCapacity chunk)).1.map = sf.map := by
      by_cases hchunk : chunk = []
      · rw [hchunk, feed_empty]
      · rw [streamFilterFeed_eq hmap hchunk]
    dsimp only
    rw [if_neg fun h => Bool.false_ne_true h.1]
    refine ⟨hfeed, fun w hw => ?_⟩
    split at hw
    · cases hw
    · rw [List.mem_singleton.mp hw]
      rfl

theorem accWrites_spec (acc : Acc) (chunks : List Bytes) :
    (accWrites acc chunks).1.sf.map = acc.sf.map ∧
      ∀ w ∈ (accWrites acc chunks).2, w.fin = false := by
  induction chunks generalizing acc with
  | nil => exact ⟨rfl, fun w hw => nomatch hw⟩
  | cons chunk chunks ih =>
    obtain ⟨hmap, hfirst⟩ := filtered_false acc.sf (acc.marked chunk false).2
    obtain ⟨hrest, hwrites⟩ := ih (accWrite acc chunk false).1
    refine ⟨hrest.trans hmap, fun w hw => ?_⟩
    rcases List.mem_append.mp hw with hw | hw
    · exact hfirst w hw
    · exact hwrites w hw

theorem colon_mem_synthEvent (st : StreamWatermark) : ':' ∈ st.synthEvent := by
  have hfront : ∀ {front rest : Bytes}, ':' ∈ front → front.length ≤ 511 →
      ':' ∈ snprintf 512 (front ++ rest) := by
    intro front rest hcolon hle
    rw [snprintf, List.take_append, List.take_of_length_le hle]
    exact List.mem_append_left _ hcolon
  unfold StreamWatermark.synthEvent
  split
  · refine hfront ?_ (by rw [ascii_length]; decide)
    unfold ascii
    decide
  · rw [dataEvent, List.append_assoc]
    refine hfront ?_ (by rw [ascii_length]; decide)
    unfold ascii
    decide

theorem enabled_streamFeed (st : StreamWatermark) (chunk : Bytes) (isFinal : Bool) (outCap : ℕ) :
    (streamFeed st chunk isFinal outCap).1.enabled = st.enabled := by
  unfold streamFeed
  split
  · rfl
  · split
    · rfl
    · split
      · rfl
      · split
        · rfl
        · dsimp only
          split <;> rfl

theorem enabled_accWrites (acc : Acc) (chunks : List Bytes) :
    (accWrites acc chunks).1.wm.enabled = acc.wm.enabled := by
  induction chunks generalizing acc with
  | nil => rfl
  | cons chunk chunks ih =>
    refine (ih _).trans ?_
    change (acc.marked chunk false).1.enabled = _
    unfold Acc.marked
    split
    · exact enabled_streamFeed _ _ _ _
    · rfl

/-- The last write behind the watermark: the made up event, if the stream still needs it. -/
theorem marked_last (acc : Acc) : (acc.marked [] true).2 =
    if acc.wm.enabled = true ∧ acc.wm.tileInjected = false then acc.wm.synthEvent else [] := by
  have hnone : ∀ {pat : Bytes}, pat ≠ [] → strstr pat [] = none := fun h => if_neg h
  have hpos : ∀ s : String, 0 < s.length → ascii s ≠ [] := by
    intro s hs
    apply List.ne_nil_of_length_pos
    rwa [ascii_length]
  unfold Acc.marked
  split
  · rename_i henabled
    have hends : acc.wm.streamEnds [] true = true := rfl
    dsimp only
    rw [streamFeed, if_neg (by rw [henabled]; decide), hends, henabled]
    by_cases htile : acc.wm.tileInjected = false
    · have hevent : acc.wm.withEvent [] = [.text [], .event acc.wm.synthEvent] := by
        unfold StreamWatermark.withEvent
        dsimp only
        rw [hnone]
        split
        · exact hpos _ (by decide)
        · exact hpos _ (by decide)
      have hlong := length_synthEvent acc.wm
      rw [if_pos ⟨rfl, htile⟩, if_pos ⟨rfl, htile⟩, hevent]
      dsimp only
      rw [StreamWatermark.written, if_neg]
      · simp [render, Part.bytes]
      · simp only [render, List.flatMap_cons, List.flatMap_nil, Part.bytes, List.nil_append,
          List.append_nil, List.length_nil]
        omega
    · have hkey : acc.wm.valueStart [] = none := by
        unfold StreamWatermark.valueStart
        rw [hnone]
        · rfl
        · unfold StreamWatermark.valueKey
          split
          · exact hpos _ (by decide)
          · exact hpos _ (by decide)
      rw [if_neg fun h => htile h.2, if_neg fun h => htile h.2, hkey]
      rfl
  · rename_i henabled
    rw [if_neg fun h => henabled h.1]

/-- The last write has the flag unless the filter has nothing to write. -/
theorem finLast_filtered {sf : StreamFilter} {chunk : Bytes} (hchunk : chunk = [] ∨ ':' ∈ chunk) :
    FinLast (filtered sf chunk true).2 ↔ sf.map.entries = [] ∨ sf.win ≠ [] ∨ chunk ≠ [] := by
  by_cases hmap : sf.map.entries = []
  · rw [filtered, if_pos hmap]
    exact iff_of_true (finLast_singleton chunk) (Or.inl hmap)
  · rw [filtered, if_neg hmap]
    dsimp only
    rcases hchunk with rfl | hcolon
    · rw [feed_empty]
      by_cases hwin : sf.win = []
      · rw [if_pos rfl, if_neg fun h => h.2 hwin]
        exact iff_of_false not_finLast_nil (by simp [hmap, hwin])
      · have hflush : (streamFilterFlush sf 64).2 = sf.win :=
          List.take_of_length_le (le_trans sf.fits (by decide))
        rw [if_pos rfl, if_pos ⟨rfl, hwin⟩, List.nil_append, hflush, if_neg hwin]
        exact iff_of_true (finLast_singleton _) (Or.inr (Or.inl hwin))
    · have hchunk := List.ne_nil_of_mem hcolon
      have hout : ((feedLoop sf.map 0 (sf.win ++ chunk)).1.take (outCapacity chunk)) ≠ [] := by
        have hmem : ':' ∈ (feedLoop sf.map 0 (sf.win ++ chunk)).1 :=
          mem_feedLoop sf.map (by decide) (by decide) (by decide) (List.mem_append_right _ hcolon)
        apply List.ne_nil_of_length_pos
        have hpos := List.length_pos_of_mem hmem
        rw [List.length_take]
        unfold outCapacity
        omega
      rw [streamFilterFeed_eq hmap hchunk, if_neg hout]
      refine iff_of_true ?_ (Or.inr (Or.inr hchunk))
      generalize held_length sf.map 0 (sf.win ++ chunk) = hheld
      revert hheld
      generalize (feedLoop sf.map 0 (sf.win ++ chunk)).2 = win
      intro hheld
      by_cases hwin : win = []
      · rw [if_neg fun h => h.2 hwin]
        subst hwin
        exact finLast_singleton _
      · have hflush : win.take 64 = win := List.take_of_length_le (le_trans hheld (by decide))
        rw [if_pos ⟨rfl, hwin⟩, streamFilterFlush, if_neg (by decide), hflush, if_neg hwin]
        refine (finLast_append fun w hw => ?_).mpr (finLast_singleton win)
        rw [List.mem_singleton.mp hw]
        simpa using hwin

/-- The response of a chat stream is complete unless the end of the stream leaves the filter
nothing to write. -/
theorem ChatStream.finLast_iff (s : ChatStream) : FinLast s.writes ↔
    s.urc ≠ 0 ∨ s.map.entries = [] ∨ s.lastAcc.sf.win ≠ [] ∨
      (s.wm.enabled = true ∧ s.lastAcc.wm.tileInjected = false) := by
  obtain ⟨hmap, hwrites⟩ := accWrites_spec s.acc s.sent
  rw [ChatStream.writes, finLast_append hwrites]
  by_cases hurc : s.urc = 0
  · have hmarked := marked_last s.lastAcc
    have henabled : s.lastAcc.wm.enabled = s.wm.enabled := enabled_accWrites s.acc s.sent
    rw [henabled] at hmarked
    have hmap' : s.lastAcc.sf.map.entries = s.map.entries := congrArg SessionMap.entries hmap
    rw [if_pos hurc, accWrite, hmarked, finLast_filtered, hmap']
    · have hevent := List.ne_nil_of_mem (colon_mem_synthEvent s.lastAcc.wm)
      have hdone : ¬s.urc ≠ 0 := not_not.mpr hurc
      split
      · rename_i hend
        simp only [hevent, hend, ne_eq, not_false_iff, and_self, or_true]
      · rename_i hend
        simp only [hend, hdone, ne_eq, not_true, or_false, false_or]
    · split
      · exact Or.inr (colon_mem_synthEvent s.lastAcc.wm)
      · exact Or.inl rfl
  · rw [if_neg hurc]
    exact iff_of_true (finLast_singleton _) (Or.inl hurc)

/-- What a response needs for its last write to be told, and told once. -/
def Streamed.FinForwarded : Streamed → Prop
  | .chat s => s.urc ≠ 0 ∨ s.map.entries = [] ∨ s.lastAcc.sf.win ≠ [] ∨
      (s.wm.enabled = true ∧ s.lastAcc.wm.tileInjected = false)
  | .replay _ _ => True
  | .passed _ _ _ => True
  | .translated _ _ _ => False

theorem epilogue_finLast (p : NativePipeline) (urc : ℤ) : FinLast (p.epilogue urc) := by
  unfold NativePipeline.epilogue
  split
  · exact finLast_singleton _
  · exact finLast_singleton _

/-- The bridge tells the end, and so does the pipeline that runs it. -/
theorem translated_not_finLast (model : Bytes) (chunks : List Bytes) (urc : ℤ) :
    ¬FinLast (Streamed.translated model chunks urc).writes := by
  obtain ⟨bytes, hend⟩ : ∃ bytes, NativePipeline.anthropic.epilogue urc = [⟨bytes, true⟩] := by
    unfold NativePipeline.epilogue
    split
    · exact ⟨_, rfl⟩
    · exact ⟨_, rfl⟩
  rw [Streamed.writes, List.append_assoc, finLast_append]
  · rw [hend]
    exact not_finLast_pair _ _
  · intro w hw
    obtain ⟨text, -, rfl⟩ := List.mem_map.mp hw
    rfl

/-- A response is complete exactly if it is not translated by a native pipeline and, on the chat
pipeline, its end reaches the transport. -/
theorem response_complete_iff (r : Streamed) : FinLast r.writes ↔ r.FinForwarded := by
  cases r with
  | chat s => exact s.finLast_iff
  | replay ce model =>
    refine iff_of_true ((finLast_append fun w hw => ?_).mpr (finLast_singleton [])) trivial
    obtain ⟨v, -, rfl⟩ := List.mem_map.mp hw
    rfl
  | passed p chunks urc =>
    refine iff_of_true ((finLast_append fun w hw => ?_).mpr (epilogue_finLast p urc)) trivial
    obtain ⟨chunk, -, rfl⟩ := List.mem_map.mp hw
    rfl
  | translated model chunks urc => exact iff_of_false (translated_not_finLast model chunks urc) id

/-! A translated stream of one chunk, and a chat stream with a placeholder, of which the
filter holds nothing back at the end. -/

def onePlaceholder : SessionMap :=
  ⟨[⟨ascii "[EMAIL_1]", ascii "a@b.co", .email⟩], by decide⟩

def restoredChat : ChatStream where
  kind := .openai
  bridge := OpenaiBridge.Bridge.new (ascii "m") false
  fresh := rfl
  wm := .init none [] 100
  map := onePlaceholder
  chunks := [ascii "data: [DONE]" ++ ['\n']]
  urc := 0

theorem restoredChat_held : restoredChat.lastAcc.sf.win = [] := by decide +kernel

theorem not_finLast_streams :
    ¬FinLast (Streamed.translated (ascii "m") [ascii "data: \x7b\x7d" ++ ['\n']] 0).writes ∧
    ¬FinLast (Streamed.chat restoredChat).writes := by
  refine ⟨translated_not_finLast _ _ _, fun h => ?_⟩
  rcases restoredChat.finLast_iff.mp h with hurc | hmap | hwin | henabled
  · exact hurc rfl
  · exact absurd hmap (List.cons_ne_nil _ _)
  · exact hwin restoredChat_held
  · exact absurd henabled.1 Bool.false_ne_true

end Aigate.StreamWrites
