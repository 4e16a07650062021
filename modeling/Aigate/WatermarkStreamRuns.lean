import Aigate.GuardedRuns
import Aigate.WatermarkRoundTrip
import Aigate.WatermarkStream

/-!
# A marked stream

Without tiles and made up events the outputs are the chunks again. The scan of a value counts the
distance of every end of a sentence from the start of the value, and whatever stands behind the
value, and it takes a quote behind a backslash for a part of the value. A stream in which that
does no harm has its tiles in the texts of deltas, far enough apart.
-/
namespace Aigate.WatermarkStream
open Text BridgeEvents Watermark GuardedRuns

/-- What the parts of an output have from the chunks. -/
def texts (parts : List Part) : Bytes :=
  parts.flatMap fun
    | .text s => s
    | _ => []

theorem texts_append (u v : List Part) : texts (u ++ v) = texts u ++ texts v :=
  List.flatMap_append

/-- The ends of sentences in a value: where each begins, and its length. -/
def sentenceEnds : Option Char → ℕ → Bytes → List (ℕ × ℕ)
  | _, _, [] => []
  | prev, idx, c :: rest =>
    if c = '"' ∧ prev ≠ some '\\' then []
    else if anchorLength (c :: rest) = 0 then sentenceEnds (some c) (idx + 1) rest
    else (idx, anchorLength (c :: rest)) :: sentenceEnds (some c) (idx + 1) rest

/-- The end at which enough is counted, when each one adds its distance from the start. -/
def placeOf (minInterval : ℕ) : ℕ → List (ℕ × ℕ) → ℕ × Option ℕ
  | chars, [] => (chars, none)
  | chars, (idx, a) :: ends =>
    if minInterval ≤ chars + idx then (chars + idx, some (idx + a))
    else placeOf minInterval (chars + idx) ends

theorem scanValue_eq (minInterval : ℕ) (prev : Option Char) (idx chars : ℕ) (s : Bytes) :
    scanValue minInterval prev idx chars s =
      placeOf minInterval chars (sentenceEnds prev idx s) := by
  induction s generalizing prev idx chars with
  | nil => rfl
  | cons c rest ih =>
    rw [scanValue, sentenceEnds]
    dsimp only
    by_cases hquote : c = '"' ∧ prev ≠ some '\\'
    · rw [if_pos hquote, if_pos hquote, placeOf]
    · rw [if_neg hquote, if_neg hquote]
      by_cases hanchor : anchorLength (c :: rest) = 0
      · rw [if_pos hanchor, if_pos hanchor, ih]
      · rw [if_neg hanchor, if_neg hanchor, placeOf]
        split
        · rfl
        · exact ih _ _ _

/-! The string of a delta. -/

/-- The characters between the quotes of a JSON string. -/
inductive StringBody : Bytes → Prop
  | nil : StringBody []
  | plain {c : Char} {s : Bytes} (hquote : c ≠ '"') (hescape : c ≠ '\\') (h : StringBody s) :
      StringBody (c :: s)
  | escape (c : Char) {s : Bytes} (h : StringBody s) : StringBody ('\\' :: c :: s)

/-- The characters up to the quote that ends a string. -/
def bodyOf : Bytes → Bytes
  | [] => []
  | [c] => if c = '"' then [] else [c]
  | c :: d :: rest =>
    if c = '"' then []
    else if c = '\\' then c :: d :: bodyOf rest
    else c :: bodyOf (d :: rest)

theorem bodyOf_body {body : Bytes} (h : StringBody body) (rest : Bytes) :
    bodyOf (body ++ '"' :: rest) = body := by
  induction h with
  | nil =>
    cases rest with
    | nil => rfl
    | cons c rest => rfl
  | @plain c s hquote hescape _ ih =>
    obtain ⟨d, t, hd⟩ : ∃ d t, s ++ '"' :: rest = d :: t := by
      cases s with
      | nil => exact ⟨_, _, rfl⟩
      | cons d s => exact ⟨_, _, rfl⟩
    rw [List.cons_append, hd, bodyOf, if_neg hquote, if_neg hescape, ← hd, ih]
  | @escape c s _ ih =>
    rw [List.cons_append, List.cons_append, bodyOf, if_neg (by decide), if_pos rfl, ih]

/-- A string may be cut behind anything but a backslash. -/
theorem StringBody.split {s : Bytes} (h : StringBody s) :
    ∀ {u v : Bytes}, s = u ++ v → u.getLast? ≠ some '\\' → StringBody u ∧ StringBody v := by
  have htail : ∀ {c : Char} {u : Bytes}, (c :: u).getLast? ≠ some '\\' →
      u.getLast? ≠ some '\\' := by
    intro c u hlast
    cases u with
    | nil => exact fun h => nomatch h
    | cons d u => exact hlast
  induction h with
  | nil =>
    intro u v hs _
    obtain ⟨rfl, rfl⟩ := List.append_eq_nil_iff.mp hs.symm
    exact ⟨.nil, .nil⟩
  | @plain c s hquote hescape h ih =>
    intro u v hs hlast
    cases u with
    | nil =>
      rw [List.nil_append] at hs
      exact ⟨.nil, hs ▸ .plain hquote hescape h⟩
    | cons d u =>
      rw [List.cons_append, List.cons.injEq] at hs
      obtain ⟨rfl, hs⟩ := hs
      obtain ⟨hu, hv⟩ := ih hs (htail hlast)
      exact ⟨.plain hquote hescape hu, hv⟩
  | @escape c s h ih =>
    intro u v hs hlast
    rcases u with _ | ⟨d, _ | ⟨e, u⟩⟩
    · rw [List.nil_append] at hs
      exact ⟨.nil, hs ▸ .escape c h⟩
    · rw [List.cons_append, List.cons.injEq] at hs
      exact absurd (congrArg some hs.1.symm) hlast
    · rw [List.cons_append, List.cons_append, List.cons.injEq, List.cons.injEq] at hs
      obtain ⟨rfl, rfl, hs⟩ := hs
      obtain ⟨hu, hv⟩ := ih hs (htail (htail hlast))
      exact ⟨.escape _ hu, hv⟩

/-- An end of a sentence has neither a quote nor a backslash in it. -/
theorem plain_sentenceMark {mark : Bytes} (h : mark ∈ sentenceMarks) :
    mark ≠ [] ∧ '"' ∉ mark ∧ mark.getLast? ≠ some '\\' := by
  revert mark
  decide

/-- The ends of sentences that the scan finds are within the string. -/
theorem sentenceEnds_body {body : Bytes} (hlast : body.getLast? ≠ some '\\') (rest : Bytes) :
    ∀ {pre s : Bytes}, body = pre ++ s →
      ∀ e ∈ sentenceEnds pre.getLast? pre.length (s ++ '"' :: rest),
        ∃ u v, body = u ++ v ∧ u.length = e.1 + e.2 ∧ u.getLast? ≠ some '\\' := by
  intro pre s hbody
  induction s generalizing pre with
  | nil =>
    rw [List.append_nil] at hbody
    rw [List.nil_append, sentenceEnds, if_pos ⟨rfl, hbody ▸ hlast⟩]
    exact fun e he => nomatch he
  | cons c s ih =>
    have hnext : body = (pre ++ [c]) ++ s := by simp [hbody]
    have hends := ih hnext
    rw [List.getLast?_concat, List.length_append, List.length_singleton] at hends
    rw [List.cons_append, sentenceEnds]
    split
    · exact fun e he => nomatch he
    · split
      · exact hends
      · rename_i hanchor
        intro e he
        rcases List.mem_cons.mp he with rfl | he
        · obtain ⟨mark, r, hs, hlength, hmark⟩ := mark_of_anchorLength hanchor
          obtain ⟨hne, hquote, hmarkLast⟩ := plain_sentenceMark hmark
          rw [← List.cons_append] at hs
          obtain ⟨t, ht⟩ : ∃ t, c :: s = mark ++ t := by
            rcases List.append_eq_append_iff.mp hs with ⟨t, hlong, ht⟩ | ⟨t, ht, -⟩
            · cases t with
              | nil => exact ⟨[], by rw [hlong, List.append_nil, List.append_nil]⟩
              | cons d t =>
                -- the mark would reach to the quote behind the string
                obtain rfl : '"' = d := by
                  rw [List.cons_append, List.cons.injEq] at ht
                  exact ht.1
                refine absurd ?_ hquote
                rw [hlong]
                exact List.mem_append_right _ List.mem_cons_self
            · exact ⟨t, ht⟩
          refine ⟨pre ++ mark, t, by rw [hbody, ht, List.append_assoc], ?_, ?_⟩
          · rw [List.length_append, hlength]
          · rwa [List.getLast?_append_of_ne_nil _ hne]
        · exact hends e he

/-! What one feed does. -/

theorem strstr_some {pat s t : Bytes} (h : strstr pat s = some t) :
    ∃ u, s = u ++ t ∧ pat <+: t := by
  induction s with
  | nil =>
    rw [strstr] at h
    split at h
    · rename_i hpat
      cases h
      exact ⟨[], rfl, by rw [hpat]⟩
    · cases h
  | cons c s ih =>
    rw [strstr] at h
    split at h
    · rename_i hpre
      cases h
      exact ⟨[], rfl, List.isPrefixOf_iff_prefix.mp hpre⟩
    · obtain ⟨u, rfl, hpat⟩ := ih h
      exact ⟨c :: u, rfl, hpat⟩

/-- The settings of a stream, which no feed changes. -/
structure SameSettings (st st' : StreamWatermark) : Prop where
  payload : st'.payload = st.payload
  minInterval : st'.minInterval = st.minInterval
  format : st'.format = st.format
  enabled : st'.enabled = st.enabled

theorem SameSettings.valueKey {st st' : StreamWatermark} (h : SameSettings st st') :
    st'.valueKey = st.valueKey := by
  unfold StreamWatermark.valueKey StreamWatermark.isAnthropic
  rw [h.format]

/-- A feed puts an event in. -/
def StreamWatermark.Synthesizes (st : StreamWatermark) (chunk : Bytes) (isFinal : Bool) : Prop :=
  st.enabled = true ∧ st.streamEnds chunk isFinal = true ∧ st.tileInjected = false

/-- A feed looks at the value in a chunk. -/
def StreamWatermark.Scans (st : StreamWatermark) (chunk : Bytes) (isFinal : Bool)
    (value : Bytes) : Prop :=
  st.enabled = true ∧ ¬(st.streamEnds chunk isFinal = true ∧ st.tileInjected = false) ∧
    st.valueStart chunk = some value

/-- What a feed can do. -/
inductive Fed (st : StreamWatermark) (chunk : Bytes) (isFinal : Bool) (outCap : ℕ) :
    StreamWatermark × Option (List Part) → Prop
  | passed (st' : StreamWatermark) (hsame : SameSettings st st')
      (htile : st'.tileInjected = st.tileInjected) :
      Fed st chunk isFinal outCap (st', some [.text chunk])
  | event (h : st.Synthesizes chunk isFinal) :
      Fed st chunk isFinal outCap ({ st with tileInjected := true }, some (st.withEvent chunk))
  | tile (value : Bytes) (chars place : ℕ) (h : st.Scans chunk isFinal value)
      (hplace : placeOf st.minInterval st.charsSinceLastTile (sentenceEnds none 0 value) =
        (chars, some place)) :
      Fed st chunk isFinal outCap ({ st with charsSinceLastTile := 0, tileInjected := true },
        some [.text (chunk.take (chunk.length - value.length + place)), .tile,
          .text (chunk.drop (chunk.length - value.length + place))])
  | failed (st' : StreamWatermark) (hsame : SameSettings st st')
      (htile : st.tileInjected = true → st'.tileInjected = true)
      (hidle : ¬st.Synthesizes chunk isFinal → (∀ value, ¬st.Scans chunk isFinal value) → st' = st)
      (hroom : outCap < chunk.length + 512) : Fed st chunk isFinal outCap (st', none)

theorem SameSettings.refl (st : StreamWatermark) : SameSettings st st := ⟨rfl, rfl, rfl, rfl⟩

theorem texts_withEvent (st : StreamWatermark) (chunk : Bytes) :
    texts (st.withEvent chunk) = chunk := by
  unfold StreamWatermark.withEvent
  dsimp only
  split
  · rename_i tail htail
    obtain ⟨u, rfl, -⟩ := strstr_some htail
    rw [List.length_append, Nat.add_sub_cancel, List.take_left]
    simp [texts]
  · simp [texts]

theorem length_withEvent (st : StreamWatermark) (chunk : Bytes) :
    (render st.payload (st.withEvent chunk)).length ≤ chunk.length + 511 := by
  have hevent := length_synthEvent st
  unfold StreamWatermark.withEvent
  dsimp only
  split
  · rename_i tail htail
    obtain ⟨u, rfl, -⟩ := strstr_some htail
    rw [List.length_append, Nat.add_sub_cancel, List.take_left]
    simp only [render, List.flatMap_cons, List.flatMap_nil, Part.bytes, List.length_append,
      List.append_nil]
    omega
  · simp only [render, List.flatMap_cons, List.flatMap_nil, Part.bytes, List.length_append,
      List.append_nil]
    omega

theorem written_cases (st : StreamWatermark) (outCap : ℕ) (parts : List Part) :
    st.written outCap parts = some parts ∨
      (st.written outCap parts = none ∧ outCap < (render st.payload parts).length) := by
  unfold StreamWatermark.written
  split
  · exact Or.inr ⟨rfl, by assumption⟩
  · exact Or.inl rfl

theorem streamFeed_cases (st : StreamWatermark) (chunk : Bytes) (isFinal : Bool) (outCap : ℕ) :
    Fed st chunk isFinal outCap (streamFeed st chunk isFinal outCap) := by
  have hplain : (render st.payload [.text chunk]).length = chunk.length := by
    simp [render, Part.bytes]
  have hpass : ∀ st', SameSettings st st' → st'.tileInjected = st.tileInjected →
      ((∀ value, ¬st.Scans chunk isFinal value) → st' = st) →
      Fed st chunk isFinal outCap (st', st.written outCap [.text chunk]) := by
    intro st' hsame htile hidle
    rcases written_cases st outCap [.text chunk] with hsome | ⟨hnone, hroom⟩
    · rw [hsome]
      exact .passed st' hsame htile
    · rw [hnone]
      exact .failed st' hsame (fun h => htile.trans h) (fun _ => hidle) (by omega)
  unfold streamFeed
  split
  · exact hpass st (.refl st) rfl fun _ => rfl
  · rename_i henabled
    rw [Bool.not_eq_false] at henabled
    split
    · rename_i hends
      rcases written_cases st outCap (st.withEvent chunk) with hsome | ⟨hnone, hroom⟩
      · rw [hsome]
        exact .event ⟨henabled, hends⟩
      · rw [hnone]
        have hlength := length_withEvent st chunk
        exact .failed _ ⟨rfl, rfl, rfl, rfl⟩ (fun _ => rfl)
          (fun h => absurd ⟨henabled, hends⟩ h) (by omega)
    · rename_i hends
      split
      · exact hpass st (.refl st) rfl fun _ => rfl
      · rename_i value hvalue
        have hscans : st.Scans chunk isFinal value := ⟨henabled, hends, hvalue⟩
        rw [scanValue_eq]
        split
        · exact hpass _ ⟨rfl, rfl, rfl, rfl⟩ rfl fun h => absurd hscans (h value)
        · rename_i chars place hplace
          dsimp only
          split
          · rename_i parts hparts
            rcases written_cases st outCap
              [.text (chunk.take (chunk.length - value.length + place)), .tile,
                .text (chunk.drop (chunk.length - value.length + place))] with
                hsome | ⟨hnone, -⟩
            · rw [hsome] at hparts
              cases hparts
              exact .tile value chars place hscans hplace
            · rw [hnone] at hparts
              cases hparts
          · rename_i hparts
            rcases written_cases st outCap
              [.text (chunk.take (chunk.length - value.length + place)), .tile,
                .text (chunk.drop (chunk.length - value.length + place))] with
                hsome | ⟨-, hroom⟩
            · rw [hsome] at hparts
              cases hparts
            · have hwhole := congrArg List.length
                (List.take_append_drop (chunk.length - value.length + place) chunk)
              rw [List.length_append] at hwhole
              simp only [render, List.flatMap_cons, List.flatMap_nil, Part.bytes,
                List.length_append, List.append_nil, length_tile] at hroom
              exact .failed _ ⟨rfl, rfl, rfl, rfl⟩ id (fun _ h => absurd hscans (h value))
                (by omega)

/-! The history of a stream. -/

/-- A place in a chunk is between two characters of the string that a delta has for its text. -/
def InDelta (st : StreamWatermark) (chunk : Bytes) (place : ℕ) : Prop :=
  ∃ before members body₁ body₂ rest,
    chunk = (before ++ (ascii "\"delta\":\x7b" ++ (members ++ (st.valueKey ++ body₁)))) ++
      (body₂ ++ '"' :: rest) ∧
    '\x7b' ∉ members ∧ '\x7d' ∉ members ∧ StringBody body₁ ∧ StringBody body₂ ∧
    place = (before ++ (ascii "\"delta\":\x7b" ++ (members ++ (st.valueKey ++ body₁)))).length

/-- A chunk that is fed, whether it is the last one, and the room in the buffer. -/
structure Feed where
  chunk : Bytes
  isFinal : Bool
  outCap : ℕ

/-- How much text the value in a chunk has. -/
def StreamWatermark.contentLength (st : StreamWatermark) (chunk : Bytes) : ℕ :=
  ((st.valueStart chunk).map fun value => (bodyOf value).length).getD 0

/-- Where the value in a chunk starts. -/
def StreamWatermark.valueOffset (st : StreamWatermark) (chunk : Bytes) : ℕ :=
  chunk.length - ((st.valueStart chunk).getD []).length

/-- A stream so far: what was put in and what came out, the text since the last tile, the text
between any two tiles, the chunks with a tile and its place, and the states around the feeds that
failed. Text next to a made up event, in the same chunk, is not counted. -/
structure Log where
  st : StreamWatermark
  input : Bytes
  output : List Part
  passed : Option ℕ
  gaps : List ℕ
  placed : List (Bytes × ℕ)
  failures : List (StreamWatermark × StreamWatermark)

def Log.start (st : StreamWatermark) : Log := ⟨st, [], [], none, [], [], []⟩

/-- The place of a tile in the output for one chunk. -/
def tilePlace : List Part → Option ℕ
  | [.text u, .tile, .text _] => some u.length
  | _ => none

def hasEvent (parts : List Part) : Bool :=
  parts.any fun
    | .event _ => true
    | _ => false

def Log.feed (log : Log) (e : Feed) : Log :=
  let fed := streamFeed log.st e.chunk e.isFinal e.outCap
  match fed.2 with
  | none => { log with st := fed.1, failures := log.failures ++ [(log.st, fed.1)] }
  | some parts =>
    let content := log.st.contentLength e.chunk
    let log' : Log :=
      { log with st := fed.1, input := log.input ++ e.chunk, output := log.output ++ parts }
    match tilePlace parts with
    | some place =>
      let inFront := place - log.st.valueOffset e.chunk
      { log' with
        passed := some (content - inFront)
        gaps := log.gaps ++ (log.passed.map (· + inFront)).toList
        placed := log.placed ++ [(e.chunk, place)] }
    | none =>
      if hasEvent parts then { log' with passed := some 0, gaps := log.gaps ++ log.passed.toList }
      else { log' with passed := log.passed.map (· + content) }

/-- The stream is as it should be: nothing but tiles and events was added, tiles are in the texts
of deltas and far enough apart, and failures changed nothing. -/
structure WellMarked (log : Log) : Prop where
  undone : texts log.output = log.input
  inside : ∀ p ∈ log.placed, InDelta log.st p.1 p.2
  apart : ∀ gap ∈ log.gaps, log.st.minInterval ≤ gap
  kept : ∀ f ∈ log.failures, f.2 = f.1

/-- The first key in a chunk opens the text of a delta, a string that does not end in a
backslash. -/
def DeltaOpens (st : StreamWatermark) (chunk value : Bytes) : Prop :=
  ∃ before members body rest,
    chunk = before ++ (ascii "\"delta\":\x7b" ++ (members ++ (st.valueKey ++ value))) ∧
    '\x7b' ∉ members ∧ '\x7d' ∉ members ∧ value = body ++ '"' :: rest ∧ StringBody body ∧
    body.getLast? ≠ some '\\'

/-- The count in front of a value is right, or is not needed. -/
def Earned (st : StreamWatermark) (passed : ℕ) (value : Bytes) : Prop :=
  (∀ e ∈ (sentenceEnds none 0 value).head?, st.minInterval ≤ e.1) ∨
    (st.charsSinceLastTile ≤ passed ∧ (sentenceEnds none 0 value).length ≤ 1)

/-- A feed that does not meet the defects of the scan: there is room for whatever it puts in, and
a value with the end of a sentence is the text of a delta, and either its first such end stands
behind the interval, or it is the only one and no more was counted than there is text since the
last tile. -/
structure FeedOk (log : Log) (e : Feed) : Prop where
  room : e.chunk.length + 512 ≤ e.outCap ∨
    (¬log.st.Synthesizes e.chunk e.isFinal ∧ ∀ value, ¬log.st.Scans e.chunk e.isFinal value)
  opens : ∀ value, log.st.Scans e.chunk e.isFinal value → sentenceEnds none 0 value ≠ [] →
    DeltaOpens log.st e.chunk value
  earned : ∀ value passed, log.st.Scans e.chunk e.isFinal value → log.passed = some passed →
    Earned log.st passed value

/-- Until there is a tile, no text is counted. -/
def Counts (log : Log) : Prop := log.st.tileInjected = false → log.passed = none

theorem InDelta.congr {st st' : StreamWatermark} (h : SameSettings st st') {chunk : Bytes}
    {place : ℕ} (hin : InDelta st chunk place) : InDelta st' chunk place := by
  unfold InDelta
  rw [h.valueKey]
  exact hin

theorem placeOf_some {minInterval chars count place : ℕ} {ends : List (ℕ × ℕ)}
    (h : placeOf minInterval chars ends = (count, some place)) :
    ∃ e ∈ ends, place = e.1 + e.2 := by
  induction ends generalizing chars with
  | nil => cases h
  | cons e ends ih =>
    rw [placeOf] at h
    split at h
    · cases h
      exact ⟨e, List.mem_cons_self, rfl⟩
    · obtain ⟨d, hd, hplace⟩ := ih h
      exact ⟨d, List.mem_cons_of_mem _ hd, hplace⟩

/-- The text in front of a tile is long enough when its place was earned. -/
theorem Earned.le {st : StreamWatermark} {passed count place : ℕ} {value : Bytes}
    (h : Earned st passed value)
    (hplace : placeOf st.minInterval st.charsSinceLastTile (sentenceEnds none 0 value) =
      (count, some place)) : st.minInterval ≤ passed + place := by
  unfold Earned at h
  revert h hplace
  generalize sentenceEnds none 0 value = ends
  intro h hplace
  cases ends with
  | nil => cases hplace
  | cons e ends =>
    rw [placeOf] at hplace
    rcases h with hfirst | ⟨hcount, hone⟩
    · have hle := hfirst e rfl
      rw [if_pos (by omega)] at hplace
      cases hplace
      omega
    · obtain rfl : ends = [] := by
        rw [List.length_cons] at hone
        exact List.length_eq_zero_iff.mp (by omega)
      split at hplace
      · cases hplace
        omega
      · cases hplace

/-- A tile is put into the text of a delta. -/
theorem DeltaOpens.inDelta {st : StreamWatermark} {chunk value : Bytes} {count place : ℕ}
    (h : DeltaOpens st chunk value)
    (hplace : placeOf st.minInterval st.charsSinceLastTile (sentenceEnds none 0 value) =
      (count, some place)) : InDelta st chunk (chunk.length - value.length + place) := by
  obtain ⟨before, members, body, rest, rfl, hopen, hclose, rfl, hbody, hlast⟩ := h
  obtain ⟨e, he, rfl⟩ := placeOf_some hplace
  obtain ⟨u, v, rfl, hlength, hu⟩ := @sentenceEnds_body body hlast rest [] _ rfl e he
  obtain ⟨hbody₁, hbody₂⟩ := hbody.split rfl hu
  refine ⟨before, members, u, v, rest, ?_, hopen, hclose, hbody₁, hbody₂, ?_⟩
  · simp only [List.append_assoc]
  · simp only [List.length_append, ← hlength]
    omega

theorem StreamWatermark.Scans.offset {st : StreamWatermark} {chunk value : Bytes} {isFinal : Bool}
    (h : st.Scans chunk isFinal value) : st.valueOffset chunk = chunk.length - value.length := by
  unfold StreamWatermark.valueOffset
  rw [h.2.2, Option.getD_some]

theorem hasEvent_withEvent (st : StreamWatermark) (chunk : Bytes) :
    hasEvent (st.withEvent chunk) = true ∧ tilePlace (st.withEvent chunk) = none := by
  unfold StreamWatermark.withEvent
  dsimp only
  split
  · exact ⟨rfl, rfl⟩
  · exact ⟨rfl, rfl⟩

/-- One feed keeps a stream as it should be. -/
theorem WellMarked.feed {log : Log} {e : Feed} (h : WellMarked log) (hcounts : Counts log)
    (hok : FeedOk log e) : WellMarked (log.feed e) ∧ Counts (log.feed e) := by
  have hcases := streamFeed_cases log.st e.chunk e.isFinal e.outCap
  unfold Log.feed
  dsimp only
  revert hcases
  generalize streamFeed log.st e.chunk e.isFinal e.outCap = fed
  intro hcases
  have hinside : ∀ st', SameSettings log.st st' → ∀ p ∈ log.placed, InDelta st' p.1 p.2 :=
    fun st' hsame p hp => (h.inside p hp).congr hsame
  have hundone : ∀ parts, texts parts = e.chunk →
      texts (log.output ++ parts) = log.input ++ e.chunk := by
    intro parts hparts
    rw [texts_append, h.undone, hparts]
  cases hcases with
  | passed st' hsame htile =>
    have hnothing : hasEvent [.text e.chunk] = false := rfl
    dsimp only [tilePlace]
    rw [hnothing, if_neg Bool.false_ne_true]
    refine ⟨⟨hundone _ (List.append_nil _), hinside st' hsame, fun gap hgap => ?_, h.kept⟩, ?_⟩
    · rw [hsame.minInterval]
      exact h.apart gap hgap
    · intro hnone
      dsimp only at hnone ⊢
      rw [hcounts (htile.symm.trans hnone)]
      rfl
  | event hevent =>
    obtain ⟨hhas, hplace⟩ := hasEvent_withEvent log.st e.chunk
    have hpassed : log.passed = none := hcounts hevent.2.2
    dsimp only
    rw [hplace, hhas]
    dsimp only
    rw [if_pos rfl, hpassed]
    refine ⟨⟨hundone _ (texts_withEvent _ _), hinside _ ⟨rfl, rfl, rfl, rfl⟩, ?_, h.kept⟩,
      fun hnone => nomatch hnone⟩
    intro gap hgap
    rw [Option.toList_none, List.append_nil] at hgap
    exact h.apart gap hgap
  | tile value count place hscans hplace =>
    have hin := (hok.opens value hscans fun hnil => by
      rw [hnil] at hplace
      cases hplace).inDelta hplace
    have hlength : (e.chunk.take (e.chunk.length - value.length + place)).length =
        e.chunk.length - value.length + place := by
      obtain ⟨before, members, body₁, body₂, rest, hchunk, -, -, -, -, hend⟩ := hin
      rw [hend, hchunk, List.take_left]
    dsimp only [tilePlace]
    rw [hlength, hscans.offset, Nat.add_sub_cancel_left]
    refine ⟨⟨hundone _ ?_, fun p hp => ?_, fun gap hgap => ?_, h.kept⟩, fun hnone => nomatch hnone⟩
    · simp [texts]
    · rcases List.mem_append.mp hp with hp | hp
      · exact hinside _ ⟨rfl, rfl, rfl, rfl⟩ p hp
      · rw [List.mem_singleton.mp hp]
        exact hin.congr ⟨rfl, rfl, rfl, rfl⟩
    · rcases List.mem_append.mp hgap with hgap | hgap
      · exact h.apart gap hgap
      · obtain ⟨passed, hpassed, rfl⟩ := Option.map_eq_some_iff.mp (Option.mem_toList.mp hgap)
        exact (hok.earned value passed hscans hpassed).le hplace
  | failed st' hsame htile hidle hroom =>
    dsimp only
    refine ⟨⟨h.undone, hinside st' hsame, fun gap hgap => ?_, fun f hf => ?_⟩, fun hnone => ?_⟩
    · rw [hsame.minInterval]
      exact h.apart gap hgap
    · rcases List.mem_append.mp hf with hf | hf
      · exact h.kept f hf
      · rw [List.mem_singleton.mp hf]
        rcases hok.room with hlarge | ⟨hsynth, hscan⟩
        · omega
        · exact hidle hsynth hscan
    · cases hbefore : log.st.tileInjected with
      | false => exact hcounts hbefore
      | true =>
        rw [show st'.tileInjected = true from htile hbefore] at hnone
        cases hnone

/-- A stream of feeds that do not meet the defects of the scan is as it should be, at any time. -/
theorem wellMarked_of_feeds (payload : Option WatermarkPayload) (format : Bytes)
    (minInterval : ℕ) (feeds : List Feed)
    (h : RunOk Log.feed FeedOk (.start (.init payload format minInterval)) feeds) :
    Always Log.feed WellMarked (.start (.init payload format minInterval)) feeds := by
  have hstart : WellMarked (.start (.init payload format minInterval)) ∧
      Counts (.start (.init payload format minInterval)) :=
    ⟨⟨rfl, fun _ hp => (nomatch hp), fun _ hg => (nomatch hg), fun _ hf => (nomatch hf)⟩,
      fun _ => rfl⟩
  have hstep : ∀ (log : Log) (e : Feed), WellMarked log ∧ Counts log → FeedOk log e →
      WellMarked (log.feed e) ∧ Counts (log.feed e) :=
    fun log e hlog hok => hlog.1.feed hlog.2 hok
  exact fun n => (always_of_runOk hstep hstart h n).1

/-! A delta with one sentence, and two with five short sentences each. -/

def deltaChunk (text : String) : Bytes :=
  dataEvent (ascii "\x7b\"choices\":[\x7b\"delta\":\x7b\"content\":\"" ++ ascii text ++
    ascii "\"\x7d\x7d]\x7d")

theorem stringBody_plain {s : Bytes} (hquote : '"' ∉ s) (hescape : '\\' ∉ s) : StringBody s := by
  induction s with
  | nil => exact .nil
  | cons c s ih =>
    rw [List.mem_cons, not_or] at hquote hescape
    exact .plain (Ne.symm hquote.1) (Ne.symm hescape.1) (ih hquote.2 hescape.2)

def greeting : Feed := ⟨deltaChunk "Hello there.", false, 2048⟩

theorem wellMarked_greeting :
    Always Log.feed WellMarked (.start (.init (some ⟨1, 2, 3⟩) (ascii "openai") 5)) [greeting] := by
  have hvalue : (StreamWatermark.init (some ⟨1, 2, 3⟩) (ascii "openai") 5).valueStart
      (deltaChunk "Hello there.") =
      some (ascii "Hello there." ++ '"' :: (ascii "\x7d\x7d]\x7d" ++ ['\n', '\n'])) := by
    decide +kernel
  have hlength : (deltaChunk "Hello there.").length = 58 := by decide +kernel
  refine wellMarked_of_feeds _ _ _ _ ⟨⟨Or.inl ?_, ?_, ?_⟩, trivial⟩
  · dsimp only [greeting]
    omega
  · intro value hscans _
    obtain rfl := Option.some.inj (hscans.2.2.symm.trans hvalue)
    have hbody : StringBody (ascii "Hello there.") :=
      stringBody_plain (not_mem_ascii _ (by decide)) (not_mem_ascii _ (by decide))
    refine ⟨ascii "data: " ++ ascii "\x7b\"choices\":[\x7b", [], ascii "Hello there.", _, ?_, ?_,
      ?_, rfl, hbody, ?_⟩ <;> decide +kernel
  · intro value passed _ hpassed
    cases hpassed

def shortSentences : Feed :=
  ⟨deltaChunk "aaaaaaaaa.aaaaaaaaa.aaaaaaaaa.aaaaaaaaa.aaaaaaaaa.", false, 2048⟩

theorem gap_shortSentences :
    let log := run Log.feed (.start (.init (some ⟨1, 2, 3⟩) (ascii "openai") 100))
      [shortSentences, shortSentences]
    50 ∈ log.gaps ∧ log.st.minInterval = 100 := by
  decide +kernel

theorem not_wellMarked_shortSentences :
    ¬Always Log.feed WellMarked (.start (.init (some ⟨1, 2, 3⟩) (ascii "openai") 100))
      [shortSentences, shortSentences] := by
  intro h
  obtain ⟨hgap, hinterval⟩ := gap_shortSentences
  have hle := h.last.apart 50 hgap
  rw [hinterval] at hle
  omega

end Aigate.WatermarkStream
