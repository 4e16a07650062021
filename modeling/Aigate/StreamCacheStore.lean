import Aigate.StreamCache

/-!
# What the accumulator stores

The accumulator sees the stream in chunks of any size. If it has not overflowed, its content
is the content that a client reads off the whole stream, and what it keeps are C strings.
-/
namespace Aigate.StreamCacheStore
open Text JsonTree JsonText JsonRoundtrip JsonEdit Guardrails GuardrailsEdits LineBuffer
  StreamCache

/-- What a line adds to the content. -/
def lineContent (line : Bytes) : Bytes := ((sseData line).map deltaContent).getD []

theorem read_content (ls : List Bytes) (m : Message) :
    (ls.foldl Message.read m).content = m.content ++ ls.flatMap lineContent := by
  induction ls generalizing m with
  | nil => simp
  | cons l ls ih =>
    rw [List.foldl_cons, ih, List.flatMap_cons, ← List.append_assoc]
    congr 1
    unfold Message.read lineContent
    cases sseData l <;> simp

theorem appendContent_spec (acc : StreamCacheAcc) (text : Bytes)
    (h : (appendContent acc text).overflow = false) :
    acc.overflow = false ∧ appendContent acc text =
      { acc with accumContent := acc.accumContent ++ text } := by
  unfold appendContent at h ⊢
  by_cases htext : text = []
  · rw [if_pos htext] at h ⊢
    exact ⟨h, by rw [htext, List.append_nil]⟩
  · rw [if_neg htext] at h ⊢
    by_cases hfits : acc.accumContent.length + text.length + 1 ≤ contentLimit
    · rw [if_pos hfits] at h ⊢
      by_cases hover : acc.overflow = true
      · simp_all
      · simp_all
    · rw [if_neg hfits] at h
      cases h

/-- A line that leaves no overflow adds its content. -/
theorem takeLine_spec {acc : StreamCacheAcc} {line : Bytes}
    (h : (takeLine acc line).overflow = false) :
    acc.overflow = false ∧
      (takeLine acc line).accumContent = acc.accumContent ++ lineContent line := by
  unfold takeLine at h ⊢
  split at h
  · rename_i hfits
    rw [if_pos hfits]
    unfold accumulateSseLine lineContent at *
    cases hdata : sseData line with
    | none => simp_all
    | some root =>
      rw [hdata] at h
      dsimp only at h
      obtain ⟨hover, heq⟩ := appendContent_spec _ _ h
      exact ⟨hover, by simp [heq]⟩
  · cases h

theorem foldl_takeLine_spec {ls : List Bytes} {acc : StreamCacheAcc}
    (h : (ls.foldl takeLine acc).overflow = false) :
    acc.overflow = false ∧
      (ls.foldl takeLine acc).accumContent = acc.accumContent ++ ls.flatMap lineContent := by
  induction ls generalizing acc with
  | nil => exact ⟨h, by simp⟩
  | cons l ls ih =>
    rw [List.foldl_cons] at h
    obtain ⟨hover, hcontent⟩ := ih h
    obtain ⟨hover', hcontent'⟩ := takeLine_spec hover
    refine ⟨hover', ?_⟩
    rw [List.foldl_cons, hcontent, hcontent', List.flatMap_cons, List.append_assoc]

/-- The accumulator has read the lines of the bytes so far. -/
def HasRead (acc : StreamCacheAcc) (stream : Bytes) : Prop :=
  acc.overflow = false →
    acc.accumContent = (readMessage stream).content ∧ acc.lineBuf = (split '\n' [] stream).2

theorem HasRead.write {acc : StreamCacheAcc} {stream : Bytes} (h : HasRead acc stream)
    (chunk : Bytes) : HasRead (streamCacheAccWrite acc chunk) (stream ++ chunk) := by
  unfold streamCacheAccWrite
  by_cases hskip : chunk = [] ∨ acc.overflow = true
  · rw [if_pos hskip]
    intro hover
    rcases hskip with rfl | htrue
    · rw [List.append_nil]
      exact h hover
    · rw [htrue] at hover
      cases hover
  · rw [if_neg hskip]
    dsimp only
    intro hover
    split at hover
    · rename_i hfits
      rw [if_pos hfits]
      dsimp only at hover ⊢
      obtain ⟨hover', hcontent⟩ := foldl_takeLine_spec hover
      obtain ⟨hbefore, hbuf⟩ := h hover'
      rw [hcontent, hbefore, readMessage, readMessage, lines, lines, split_append,
        List.foldl_append, read_content _ (List.foldl _ _ _), ← hbuf]
      exact ⟨rfl, rfl⟩
    · cases hover

/-- The stored content is that of the lines behind the watermark. -/
theorem acc_content (s : StreamRun) (h : s.acc.overflow = false) :
    s.acc.accumContent = (readMessage s.marked.flatten).content := by
  have hrun : ∀ (chunks : List Bytes) (acc : StreamCacheAcc) (stream : Bytes),
      HasRead acc stream → HasRead (chunks.foldl streamCacheAccWrite acc)
        (stream ++ chunks.flatten) := by
    intro chunks
    induction chunks with
    | nil => exact fun acc stream hread => by simpa using hread
    | cons c cs ih =>
      intro acc stream hread
      have := ih _ _ (hread.write c)
      simpa [List.append_assoc] using this
  have hinit : HasRead StreamCacheAcc.init [] := fun _ => ⟨rfl, rfl⟩
  exact (hrun s.marked _ _ hinit h).1

/-- The strings that the accumulator keeps are C strings, and the id fits in its buffer. -/
structure Kept (acc : StreamCacheAcc) : Prop where
  id_le : acc.id.length ≤ 63
  id_nonzero : Nonzero acc.id
  content_nonzero : Nonzero acc.accumContent

theorem jsonLoads_readable {text : Bytes} {j : Json} (h : jsonLoads text = some j) :
    Readable j := by
  unfold jsonLoads at h
  split at h
  · exact Readable.of_loads h
  · cases h

theorem sseData_readable {line : Bytes} {j : Json} (h : sseData line = some j) : Readable j := by
  unfold sseData at h
  dsimp only at h
  split at h
  · exact jsonLoads_readable (Option.filter_eq_some_iff.mp h).1
  · cases h

theorem nonzero_getString {j : Json} {key : String} {s : Bytes} (hj : wellFormed j = true)
    (h : j.getString key = some s) : Nonzero s := by
  have := (wellFormed_get (getString_eq_some.mp h) hj).1
  simpa [wellFormed] using this

theorem wellFormed_firstChoice {j c0 : Json} (hj : wellFormed j = true)
    (h : firstChoice j = some c0) : wellFormed c0 = true := by
  obtain ⟨items, hitems, hhead⟩ := Option.bind_eq_some_iff.mp h
  have hw := (wellFormed_get (getArray_eq_some.mp hitems) hj).1
  exact wellFormedItems_iff.mp hw c0 (List.mem_of_mem_head? hhead)

theorem nonzero_deltaContent {j : Json} (hj : wellFormed j = true) : Nonzero (deltaContent j) := by
  unfold deltaContent
  cases h : (deltaOf j).bind (·.getString "content") with
  | none => exact List.not_mem_nil
  | some s =>
    obtain ⟨delta, hdelta, hs⟩ := Option.bind_eq_some_iff.mp h
    obtain ⟨c0, hc0, hdelta⟩ := Option.bind_eq_some_iff.mp hdelta
    have hw := wellFormed_firstChoice hj hc0
    have hget := (Option.filter_eq_some_iff.mp hdelta).1
    exact nonzero_getString (wellFormed_get hget hw).1 hs

theorem Kept.appendContent {acc : StreamCacheAcc} {text : Bytes} (h : Kept acc)
    (htext : Nonzero text) : Kept (StreamCache.appendContent acc text) := by
  unfold StreamCache.appendContent
  split_ifs
  · exact h
  · exact h
  · exact ⟨h.id_le, h.id_nonzero, nonzero_append h.content_nonzero htext⟩
  · exact ⟨h.id_le, h.id_nonzero, h.content_nonzero⟩

theorem Kept.takeLine {acc : StreamCacheAcc} (h : Kept acc) (line : Bytes) :
    Kept (StreamCache.takeLine acc line) := by
  unfold StreamCache.takeLine
  split
  · unfold accumulateSseLine
    cases hdata : sseData line with
    | none => exact h
    | some root =>
      have hw := (sseData_readable hdata).wellFormed
      refine Kept.appendContent ⟨?_, ?_, h.content_nonzero⟩ (nonzero_deltaContent hw)
      · dsimp only
        split
        · exact List.length_take_le _ _
        · exact h.id_le
      · dsimp only
        split
        · cases hid : root.getString "id" with
          | none => simp [Nonzero]
          | some s => exact nonzero_sublist (List.take_sublist 63 s) (nonzero_getString hw hid)
        · exact h.id_nonzero
  · exact ⟨h.id_le, h.id_nonzero, h.content_nonzero⟩

theorem Kept.write {acc : StreamCacheAcc} (h : Kept acc) (chunk : Bytes) :
    Kept (streamCacheAccWrite acc chunk) := by
  have hfold : ∀ (ls : List Bytes) (acc : StreamCacheAcc), Kept acc →
      Kept (ls.foldl StreamCache.takeLine acc) := by
    intro ls
    induction ls with
    | nil => exact fun acc hacc => hacc
    | cons l ls ih => exact fun acc hacc => ih _ (hacc.takeLine l)
  unfold streamCacheAccWrite
  split
  · exact h
  · have hread := hfold (split '\n' acc.lineBuf chunk).1 acc h
    dsimp only
    split
    · exact ⟨hread.id_le, hread.id_nonzero, hread.content_nonzero⟩
    · exact ⟨hread.id_le, hread.id_nonzero, hread.content_nonzero⟩

theorem kept_acc (s : StreamRun) : Kept s.acc := by
  have hrun : ∀ (chunks : List Bytes) (acc : StreamCacheAcc), Kept acc →
      Kept (chunks.foldl streamCacheAccWrite acc) := by
    intro chunks
    induction chunks with
    | nil => exact fun acc hacc => hacc
    | cons c cs ih => exact fun acc hacc => ih _ (hacc.write c)
  exact hrun _ _ ⟨Nat.zero_le _, List.not_mem_nil, List.not_mem_nil⟩

end Aigate.StreamCacheStore
