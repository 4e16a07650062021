import Aigate.StreamCacheStore

/-!
# Cutting the cached stream into writes

The content and the overflow flag of the accumulator depend on the stream alone. The write in
which it overflows is still read to its end, and what comes after is not: an id behind the
overflow is taken or not, depending on where that write ends.
-/
namespace Aigate.StreamCacheSplits
open Text JsonTree JsonText Guardrails LineBuffer StreamCache StreamCacheStore

/-- With the given content, the accumulator overflows when it comes to this line. -/
def Overflows (content line : Bytes) : Prop :=
  lineLimit ≤ line.length ∨
    lineContent line ≠ [] ∧ contentLimit ≤ content.length + (lineContent line).length

instance (content line : Bytes) : Decidable (Overflows content line) :=
  inferInstanceAs (Decidable (_ ∨ _))

/-- The id of a line; a line that does not fit in the buffer is not read. -/
def lineId (line : Bytes) : Bytes :=
  if line.length + 1 ≤ lineLimit then
    (((sseData line).bind (·.getString "id")).getD []).take 63
  else []

def firstId : List Bytes → Bytes
  | [] => []
  | line :: rest => if lineId line = [] then firstId rest else lineId line

theorem firstId_append (a b : List Bytes) :
    firstId (a ++ b) = if firstId a = [] then firstId b else firstId a := by
  induction a with
  | nil => simp [firstId]
  | cons line rest ih =>
    by_cases hid : lineId line = []
    · simp [firstId, hid, ih]
    · simp [firstId, hid]

theorem firstId_eq_nil_iff (ls : List Bytes) : firstId ls = [] ↔ ∀ line ∈ ls, lineId line = [] := by
  induction ls with
  | nil => simp [firstId]
  | cons line rest ih =>
    by_cases hid : lineId line = []
    · simp [firstId, hid, ih]
    · simp [firstId, hid]

theorem appendContent_id (acc : StreamCacheAcc) (text : Bytes) :
    (appendContent acc text).id = acc.id := by
  unfold appendContent
  split_ifs <;> rfl

/-- The id of a line is taken whether or not the accumulator has overflowed. -/
theorem takeLine_id (acc : StreamCacheAcc) (line : Bytes) :
    (takeLine acc line).id = if acc.id = [] then lineId line else acc.id := by
  unfold takeLine lineId
  by_cases hfits : line.length + 1 ≤ lineLimit
  · rw [if_pos hfits, if_pos hfits]
    unfold accumulateSseLine
    cases hdata : sseData line with
    | none =>
      dsimp only
      split
      · rename_i hid
        rw [hid]
        rfl
      · rfl
    | some root =>
      rw [appendContent_id]
      rfl
  · rw [if_neg hfits, if_neg hfits]
    dsimp only
    split
    · assumption
    · rfl

theorem foldl_takeLine_id (ls : List Bytes) (acc : StreamCacheAcc) :
    (ls.foldl takeLine acc).id = if acc.id = [] then firstId ls else acc.id := by
  induction ls generalizing acc with
  | nil =>
    rw [List.foldl_nil, firstId]
    split
    · assumption
    · rfl
  | cons line rest ih =>
    rw [List.foldl_cons, ih, takeLine_id, firstId]
    by_cases hid : acc.id = []
    · rw [if_pos hid, if_pos hid]
    · rw [if_neg hid, if_neg hid, if_neg hid]

/-- The content that the lines add to the given one, and whether they overflow. -/
def kept (content : Bytes) : List Bytes → Bytes × Bool
  | [] => (content, false)
  | line :: rest =>
    if Overflows content line then (content, true)
    else kept (content ++ lineContent line) rest

theorem kept_append (content : Bytes) (a b : List Bytes) :
    kept content (a ++ b) =
      if (kept content a).2 = true then kept content a else kept (kept content a).1 b := by
  induction a generalizing content with
  | nil => simp [kept]
  | cons line rest ih =>
    rw [List.cons_append, kept, kept]
    split
    · rfl
    · exact ih _

theorem appendContent_overflowed (acc : StreamCacheAcc) (h : acc.overflow = true)
    (text : Bytes) : (appendContent acc text).accumContent = acc.accumContent ∧
      (appendContent acc text).overflow = true := by
  unfold appendContent
  split_ifs
  · exact ⟨rfl, h⟩
  · exact ⟨rfl, h⟩
  · exact ⟨rfl, rfl⟩

/-- An accumulator that has overflowed keeps its content. -/
theorem takeLine_overflowed {acc : StreamCacheAcc} (h : acc.overflow = true) (line : Bytes) :
    (takeLine acc line).accumContent = acc.accumContent ∧ (takeLine acc line).overflow = true := by
  unfold takeLine
  split
  · unfold accumulateSseLine
    cases sseData line with
    | none => exact ⟨rfl, h⟩
    | some root =>
      refine appendContent_overflowed _ ?_ _
      exact h
  · exact ⟨rfl, rfl⟩

theorem foldl_takeLine_overflowed (ls : List Bytes) {acc : StreamCacheAcc}
    (h : acc.overflow = true) : (ls.foldl takeLine acc).accumContent = acc.accumContent ∧
      (ls.foldl takeLine acc).overflow = true := by
  induction ls generalizing acc with
  | nil => exact ⟨rfl, h⟩
  | cons line rest ih =>
    obtain ⟨hcontent, hover⟩ := takeLine_overflowed h line
    obtain ⟨hrest, hover'⟩ := ih hover
    exact ⟨hrest.trans hcontent, hover'⟩

/-- A line with which the accumulator overflows leaves its content. -/
theorem takeLine_full {acc : StreamCacheAcc} {line : Bytes}
    (h : Overflows acc.accumContent line) :
    (takeLine acc line).accumContent = acc.accumContent ∧ (takeLine acc line).overflow = true := by
  unfold takeLine
  split
  · rcases h with hlong | ⟨hne, hfull⟩
    · omega
    · unfold accumulateSseLine
      unfold lineContent at hne hfull
      cases hdata : sseData line with
      | none =>
        rw [hdata] at hne
        exact absurd rfl hne
      | some root =>
        rw [hdata] at hne hfull
        dsimp only [Option.map_some, Option.getD_some] at hne hfull ⊢
        rw [appendContent, if_neg hne, if_neg (by dsimp only; omega)]
        exact ⟨rfl, rfl⟩
  · exact ⟨rfl, rfl⟩

theorem foldl_takeLine_kept (ls : List Bytes) {acc : StreamCacheAcc} (h : acc.overflow = false) :
    ((ls.foldl takeLine acc).accumContent, (ls.foldl takeLine acc).overflow) =
      kept acc.accumContent ls := by
  induction ls generalizing acc with
  | nil => simp [kept, h]
  | cons line rest ih =>
    rw [List.foldl_cons, kept]
    split
    · rename_i hover
      obtain ⟨hline, hflag⟩ := takeLine_full hover
      obtain ⟨hcontent, hflag'⟩ := foldl_takeLine_overflowed rest hflag
      rw [hcontent, hflag', hline]
    · rename_i hfits
      unfold Overflows at hfits
      have hflag : (takeLine acc line).overflow = false := by
        unfold takeLine
        rw [if_pos (by omega)]
        unfold accumulateSseLine
        unfold lineContent at hfits
        cases hdata : sseData line with
        | none => exact h
        | some root =>
          rw [hdata] at hfits
          dsimp only [Option.map_some, Option.getD_some] at hfits ⊢
          unfold appendContent
          by_cases hnil : deltaContent root = []
          · rw [if_pos hnil]
            exact h
          · rw [if_neg hnil, if_pos (by dsimp only; grind), if_neg (by rw [h]; decide)]
            exact h
      rw [ih hflag, (takeLine_spec hflag).2]

/-- What the accumulator has of a stream, however it was cut. -/
def seen (s : Bytes) : Bytes × Bool :=
  let k := kept [] (lines '\n' s)
  (k.1, k.2 || decide (lineLimit ≤ (split '\n' [] s).2.length))

/-- After an overflow, more bytes change nothing. -/
theorem seen_append {s : Bytes} (h : (seen s).2 = true) (t : Bytes) : seen (s ++ t) = seen s := by
  have hlines : lines '\n' (s ++ t) =
      lines '\n' s ++ (split '\n' (split '\n' [] s).2 t).1 := by
    rw [lines, split_append, lines]
  unfold seen at h ⊢
  dsimp only at h ⊢
  rw [hlines, kept_append]
  by_cases hover : (kept [] (lines '\n' s)).2 = true
  · simp [hover]
  · have hlong : lineLimit ≤ (split '\n' [] s).2.length := by simpa [hover] using h
    obtain ⟨l, rest, hl, hprefix⟩ := split_prefix '\n' (split '\n' [] s).2 t
    have hlen := hprefix.length_le
    have hpending : (split '\n' [] (s ++ t)).2 = (split '\n' (split '\n' [] s).2 t).2 := by
      rw [split_append]
    rw [if_neg hover, hpending]
    cases hcompleted : (split '\n' (split '\n' [] s).2 t).1 with
    | nil =>
      rw [hcompleted, List.nil_append] at hl
      have heq : (split '\n' (split '\n' [] s).2 t).2 = l := (List.cons.inj hl).1
      rw [heq]
      simp [kept, hlong, le_trans hlong hlen]
    | cons first others =>
      rw [hcompleted] at hl
      have heq : first = l := (List.cons.inj hl).1
      have hfirst : Overflows (kept [] (lines '\n' s)).1 first :=
        Or.inl (heq ▸ hlong.trans hlen)
      rw [kept, if_pos hfirst]
      simp [hlong]

/-- The accumulator after some writes of a stream; its id is of the lines up to the end of the
write in which it overflowed. -/
structure Seen (acc : StreamCacheAcc) (s : Bytes) : Prop where
  content : acc.accumContent = (seen s).1
  overflow : acc.overflow = (seen s).2
  lineBuf : acc.overflow = false → acc.lineBuf = (split '\n' [] s).2
  id : ∃ t t', s = t ++ t' ∧ acc.id = firstId (lines '\n' t) ∧ (t' = [] ∨ (seen t).2 = true)

theorem Seen.write {acc : StreamCacheAcc} {s : Bytes} (h : Seen acc s) (chunk : Bytes) :
    Seen (streamCacheAccWrite acc chunk) (s ++ chunk) := by
  unfold streamCacheAccWrite
  by_cases hskip : chunk = [] ∨ acc.overflow = true
  · rw [if_pos hskip]
    rcases hskip with rfl | hover
    · rw [List.append_nil]
      exact h
    · have hflag : (seen s).2 = true := h.overflow ▸ hover
      obtain ⟨t, t', hs, hid, hor⟩ := h.id
      have hstopped : (seen t).2 = true := by
        rcases hor with rfl | hor
        · rwa [hs, List.append_nil] at hflag
        · exact hor
      refine ⟨?_, ?_, fun hf => ?_, t, t' ++ chunk, by rw [hs, List.append_assoc], hid,
        Or.inr hstopped⟩
      · rw [seen_append hflag, h.content]
      · rw [seen_append hflag, h.overflow]
      · rw [hover] at hf
        cases hf
  · rw [if_neg hskip]
    rw [not_or, Bool.not_eq_true] at hskip
    dsimp only
    obtain ⟨-, hover⟩ := hskip
    have hflag : (seen s).2 = false := h.overflow ▸ hover
    have hkept : kept [] (lines '\n' s) = (acc.accumContent, false) := by
      have hfst : (kept [] (lines '\n' s)).1 = acc.accumContent := h.content.symm
      have hsnd : (kept [] (lines '\n' s)).2 = false := (Bool.or_eq_false_iff.mp hflag).1
      rw [← hfst, ← hsnd]
    have hsplit : split '\n' [] (s ++ chunk) =
        (lines '\n' s ++ (split '\n' acc.lineBuf chunk).1, (split '\n' acc.lineBuf chunk).2) := by
      rw [split_append, h.lineBuf hover, lines]
    have hlines : lines '\n' (s ++ chunk) = lines '\n' s ++ (split '\n' acc.lineBuf chunk).1 := by
      rw [lines, hsplit]
    have hid : ((split '\n' acc.lineBuf chunk).1.foldl takeLine acc).id =
        firstId (lines '\n' (s ++ chunk)) := by
      obtain ⟨t, t', hs, hid, hor⟩ := h.id
      have ht : s = t := by
        rcases hor with rfl | hstopped
        · rw [hs, List.append_nil]
        · rw [hs, seen_append hstopped, hstopped] at hflag
          cases hflag
      rw [foldl_takeLine_id, hid, ← ht, hlines, firstId_append]
    have hfold := foldl_takeLine_kept (split '\n' acc.lineBuf chunk).1 hover
    have hseen : seen (s ++ chunk) =
        (((split '\n' acc.lineBuf chunk).1.foldl takeLine acc).accumContent,
          ((split '\n' acc.lineBuf chunk).1.foldl takeLine acc).overflow ||
            decide (lineLimit ≤ (split '\n' acc.lineBuf chunk).2.length)) := by
      unfold seen
      rw [hlines, kept_append, hkept, if_neg Bool.false_ne_true, ← hfold, hsplit]
    split
    · rename_i hfits
      have hshort : ¬lineLimit ≤ (split '\n' acc.lineBuf chunk).2.length := by omega
      rw [decide_eq_false hshort, Bool.or_false] at hseen
      refine ⟨?_, ?_, fun _ => ?_, s ++ chunk, [], by rw [List.append_nil], hid, Or.inl rfl⟩
      · rw [hseen]
      · rw [hseen]
      · rw [hsplit]
    · rename_i hlong
      have hle : lineLimit ≤ (split '\n' acc.lineBuf chunk).2.length := by omega
      rw [decide_eq_true hle, Bool.or_true] at hseen
      refine ⟨?_, ?_, fun hf => ?_, s ++ chunk, [], by rw [List.append_nil], hid, Or.inl rfl⟩
      · rw [hseen]
      · rw [hseen]
      · cases hf

/-- The state after a stream that arrives in the given writes. -/
def accumulated (writes : List Bytes) : StreamCacheAcc :=
  writes.foldl streamCacheAccWrite StreamCacheAcc.init

theorem seen_accumulated (writes : List Bytes) : Seen (accumulated writes) writes.flatten := by
  have hrun : ∀ (writes : List Bytes) (acc : StreamCacheAcc) (s : Bytes), Seen acc s →
      Seen (writes.foldl streamCacheAccWrite acc) (s ++ writes.flatten) := by
    intro writes
    induction writes with
    | nil => exact fun acc s h => by simpa using h
    | cons w ws ih =>
      intro acc s h
      have hws := ih _ _ (h.write w)
      simpa [List.append_assoc] using hws
  have hinit : Seen StreamCacheAcc.init [] :=
    ⟨rfl, rfl, fun _ => rfl, [], [], rfl, rfl, Or.inl rfl⟩
  exact hrun writes _ _ hinit

/-- Two splits leave the same content, id and overflow flag. -/
def Agree (writes writes' : List Bytes) : Prop :=
  (accumulated writes').accumContent = (accumulated writes).accumContent ∧
    (accumulated writes').id = (accumulated writes).id ∧
    (accumulated writes').overflow = (accumulated writes).overflow

/-- When a line overflows the accumulator, the id is known by then, or no later line has one. -/
def Settled (s : Bytes) : Prop :=
  ∀ before line after, lines '\n' s = before ++ line :: after →
    Overflows (before.flatMap lineContent) line →
    (∃ l ∈ before ++ [line], lineId l ≠ []) ∨ ∀ l ∈ after, lineId l = []

/-- The flag of the lines is set by one of them. -/
theorem kept_snd_iff (before ls : List Bytes) :
    (kept (before.flatMap lineContent) ls).2 = true ↔
      ∃ a l b, ls = a ++ l :: b ∧ Overflows ((before ++ a).flatMap lineContent) l := by
  induction ls generalizing before with
  | nil => simp [kept]
  | cons line rest ih =>
    rw [kept]
    by_cases hover : Overflows (before.flatMap lineContent) line
    · rw [if_pos hover]
      exact ⟨fun _ => ⟨[], line, rest, rfl, by rwa [List.append_nil]⟩, fun _ => rfl⟩
    · rw [if_neg hover]
      have hnext : before.flatMap lineContent ++ lineContent line =
          (before ++ [line]).flatMap lineContent := by simp
      rw [hnext, ih]
      constructor
      · rintro ⟨a, l, b, rfl, ha⟩
        exact ⟨line :: a, l, b, rfl, by simpa using ha⟩
      · rintro ⟨a, l, b, hls, ha⟩
        cases a with
        | nil =>
          obtain ⟨rfl, rfl⟩ := List.cons.inj hls
          rw [List.append_nil] at ha
          exact absurd ha hover
        | cons first others =>
          obtain ⟨rfl, rfl⟩ := List.cons.inj hls
          exact ⟨others, l, b, rfl, by simpa using ha⟩

theorem lineId_of_long {line : Bytes} (h : lineLimit ≤ line.length) : lineId line = [] := by
  rw [lineId, if_neg (by omega)]

/-- The id is that of the whole stream, whatever the split. -/
theorem Settled.id_eq {s : Bytes} (h : Settled s) {acc : StreamCacheAcc} (hs : Seen acc s) :
    acc.id = firstId (lines '\n' s) := by
  obtain ⟨t, t', rfl, hid, hstopped⟩ := hs.id
  rcases hstopped with rfl | hover
  · rw [hid, List.append_nil]
  · set more := (split '\n' (split '\n' [] t).2 t').1 with hmore
    have hlines : lines '\n' (t ++ t') = lines '\n' t ++ more := by
      rw [lines, split_append, lines]
    have hlater : firstId (lines '\n' t) = [] → firstId more = [] := by
      intro hnone
      rw [firstId_eq_nil_iff] at hnone ⊢
      unfold seen at hover
      rw [Bool.or_eq_true] at hover
      rcases hover with hline | hlong
      · obtain ⟨a, l, b, ht, hl⟩ := (kept_snd_iff [] _).mp hline
        rw [ht] at hnone
        have hwhole : lines '\n' (t ++ t') = a ++ l :: (b ++ more) := by
          rw [hlines, ht, List.append_assoc, List.cons_append]
        rcases h a l _ hwhole hl with ⟨x, hx, hne⟩ | hafter
        · have hmem : x ∈ a ++ l :: b := by
            rw [← List.append_cons a l b |>.symm]
            exact List.mem_append_left b hx
          exact absurd (hnone x hmem) hne
        · exact fun x hx => hafter x (List.mem_append_right b hx)
      · have hlong := of_decide_eq_true hlong
        obtain ⟨l, rest, hl, hprefix⟩ := split_prefix '\n' (split '\n' [] t).2 t'
        rw [← hmore] at hl
        cases hcompleted : more with
        | nil => exact fun x hx => absurd hx List.not_mem_nil
        | cons first others =>
          rw [hcompleted] at hl hlines
          have heq : first = l := (List.cons.inj hl).1
          have hfirst : lineLimit ≤ first.length := heq ▸ hlong.trans hprefix.length_le
          rcases h _ first others hlines (Or.inl hfirst) with ⟨x, hx, hne⟩ | hafter
          · rcases List.mem_append.mp hx with hx | hx
            · exact absurd (hnone x hx) hne
            · rw [List.mem_singleton.mp hx] at hne
              exact absurd (lineId_of_long hfirst) hne
          · exact List.forall_mem_cons.mpr ⟨lineId_of_long hfirst, hafter⟩
    rw [hid, hlines, firstId_append]
    split
    · rename_i hnone
      rw [hnone, hlater hnone]
    · rfl

/-- One write is read to its end. -/
theorem accumulated_singleton_id (s : Bytes) :
    (accumulated [s]).id = firstId (lines '\n' s) := by
  change (streamCacheAccWrite StreamCacheAcc.init s).id = _
  unfold streamCacheAccWrite
  split
  · rename_i hskip
    rcases hskip with rfl | hover
    · rfl
    · cases hover
  · dsimp only
    split
    · exact foldl_takeLine_id _ _
    · exact foldl_takeLine_id _ _

/-- A stream cut behind the line that overflows is not read further. -/
theorem accumulated_cut_id {t : Bytes} {before : List Bytes} {line : Bytes}
    (ht : lines '\n' t = before ++ [line])
    (hover : Overflows (before.flatMap lineContent) line) (t' : Bytes) :
    (accumulated [t, t']).id = firstId (before ++ [line]) := by
  have hline : (kept [] (before ++ [line])).2 = true :=
    (kept_snd_iff [] _).mpr ⟨before, line, [], rfl, hover⟩
  have hseen : Seen (accumulated [t]) t := by simpa using seen_accumulated [t]
  have hflag : (accumulated [t]).overflow = true := by
    rw [hseen.overflow, seen, ht]
    dsimp only
    rw [hline, Bool.true_or]
  have hstop : accumulated [t, t'] = accumulated [t] := by
    change streamCacheAccWrite (accumulated [t]) t' = _
    rw [streamCacheAccWrite, if_pos (Or.inr hflag)]
  rw [hstop, accumulated_singleton_id, ht]

/-- In one write the whole stream is read; cut behind the overflow, the rest is not. -/
theorem settled_of_agree {s : Bytes}
    (h : ∀ writes writes', writes.flatten = s → writes'.flatten = s → Agree writes writes') :
    Settled s := by
  intro before line after hlines hover
  obtain ⟨t, t', rfl, ht, -⟩ := exists_before_line hlines
  have ht' : lines '\n' (t ++ ['\n']) = before ++ [line] := by
    rw [lines, split_append, ht]
    simp [split]
  have hid := (h [t ++ ['\n'], t'] [t ++ '\n' :: t'] (by simp) (by simp)).2.1
  rw [accumulated_cut_id ht' hover, accumulated_singleton_id, hlines, List.append_cons,
    firstId_append] at hid
  by_cases hnone : firstId (before ++ [line]) = []
  · rw [if_pos hnone, hnone, firstId_eq_nil_iff] at hid
    exact Or.inr hid
  · rw [firstId_eq_nil_iff] at hnone
    push Not at hnone
    exact Or.inl hnone

/-- The splits of a stream agree exactly when no id comes behind the overflow only. -/
theorem splits_agree_iff (s : Bytes) :
    (∀ writes writes', writes.flatten = s → writes'.flatten = s → Agree writes writes') ↔
      Settled s := by
  refine ⟨settled_of_agree, fun h writes writes' hw hw' => ?_⟩
  have hseen : Seen (accumulated writes) s := hw ▸ seen_accumulated writes
  have hseen' : Seen (accumulated writes') s := hw' ▸ seen_accumulated writes'
  exact ⟨hseen'.content.trans hseen.content.symm, (h.id_eq hseen').trans (h.id_eq hseen).symm,
    hseen'.overflow.trans hseen.overflow.symm⟩

/-- A long comment line, and an event with an id behind it. -/
def longThenId : Bytes :=
  List.replicate lineLimit ':' ++ '\n' :: ascii "data: \x7b\"id\":\"chatcmpl-1\"\x7d" ++ ['\n']

theorem not_splits_agree : ¬∀ s writes writes', writes.flatten = s → writes'.flatten = s →
    Agree writes writes' := by
  intro h
  have hsettled := settled_of_agree (h longThenId)
  have hlines : lines '\n' longThenId = List.replicate lineLimit ':' ::
      [ascii "data: \x7b\"id\":\"chatcmpl-1\"\x7d"] := by
    unfold longThenId
    rw [List.append_assoc, List.cons_append, lines_line, lines_line]
    · rfl
    · decide +kernel
    · exact fun hmem => absurd (List.eq_of_mem_replicate hmem) (by decide)
  rcases hsettled [] _ _ hlines (Or.inl (by simp)) with ⟨l, hl, hid⟩ | hnone
  · rw [List.nil_append, List.mem_singleton] at hl
    exact hid (by rw [hl]; exact lineId_of_long (by simp))
  · exact absurd (hnone _ List.mem_cons_self) (by decide +kernel)

end Aigate.StreamCacheSplits
