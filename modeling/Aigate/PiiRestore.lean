import Aigate.PiiText

/-!
# Restoring the originals

The placeholders in a response are replaced by their originals. A stream is filtered chunk
by chunk: what may be the beginning of a placeholder at the end of a chunk is held back, and
each chunk is written to a buffer that is a little longer than the chunk. The filter restores
what restoring the whole text does exactly if no buffer is too short.
-/
namespace Aigate.PiiRestore
open Text PiiText

def isWord (c : Char) : Bool := c.isAlphanum || c = '_'

/-- What a look-ahead behind a bracket comes to: a closing bracket behind so many letters, a
character that cannot be in a placeholder, or the end of the text. -/
inductive Ahead where
  | closed (letters : ℕ)
  | broken
  | cut
  deriving DecidableEq

/-- Look at so many bytes at most. -/
def ahead : ℕ → Bytes → Ahead
  | 0, _ => .broken
  | _ + 1, [] => .cut
  | n + 1, c :: rest =>
    if c = ']' then .closed 0
    else if isWord c then
      match ahead n rest with
      | .closed letters => .closed (letters + 1)
      | .broken => .broken
      | .cut => .cut
    else .broken

/-- The placeholder whose bracket stands before the text: how much of the text belongs to it,
and what it stands for. -/
def tokenAhead (map : SessionMap) (rest : Bytes) : Option (ℕ × Bytes) :=
  match ahead 31 rest with
  | .closed letters =>
    (map.lookupToken ('[' :: rest.take (letters + 1))).map fun original => (letters + 1, original)
  | _ => none

/-- The loop of `guardrails_restore_pii_text`, which first passes over what is left of a
placeholder, and whether it changes anything. -/
def restoreLoop (map : SessionMap) : ℕ → Bytes → Bytes × Bool
  | _, [] => ([], false)
  | skip + 1, _ :: rest => restoreLoop map skip rest
  | 0, c :: rest =>
    match if c = '[' then tokenAhead map rest else none with
    | some (skip, original) => (original ++ (restoreLoop map skip rest).1, true)
    | none => (c :: (restoreLoop map 0 rest).1, (restoreLoop map 0 rest).2)

/-- `guardrails_restore_pii_text`: nothing when nothing changes. -/
def guardrailsRestorePiiText (map : SessionMap) (text : Bytes) : Option Bytes :=
  if text = [] ∨ map.entries = [] then none
  else
    let restored := restoreLoop map 0 text
    if restored.2 then some restored.1 else none

/-- What a caller goes on with. -/
def restored (map : SessionMap) (text : Bytes) : Bytes :=
  (guardrailsRestorePiiText map text).getD text

/-- The loop of `guardrails_stream_filter_feed` over what was held and the chunk: what is to
be written, and what is held from now on. -/
def feedLoop (map : SessionMap) : ℕ → Bytes → Bytes × Bytes
  | _, [] => ([], [])
  | skip + 1, _ :: rest => feedLoop map skip rest
  | 0, c :: rest =>
    if c = '[' ∧ ahead 31 rest = .cut then ([], c :: rest)
    else
      match if c = '[' then tokenAhead map rest else none with
      | some (skip, original) => (original ++ (feedLoop map skip rest).1, (feedLoop map skip rest).2)
      | none => (c :: (feedLoop map 0 rest).1, (feedLoop map 0 rest).2)

theorem length_of_cut {n : ℕ} {rest : Bytes} (h : ahead n rest = .cut) : rest.length < n := by
  induction n generalizing rest with
  | zero => cases h
  | succ n ih =>
    cases rest with
    | nil => exact Nat.succ_pos n
    | cons c rest =>
      simp only [ahead] at h
      split at h
      · cases h
      · split at h
        · split at h
          · cases h
          · cases h
          · rename_i hcut
            have := ih hcut
            rw [List.length_cons]
            omega
        · cases h

theorem held_length (map : SessionMap) (skip : ℕ) (text : Bytes) :
    (feedLoop map skip text).2.length ≤ 31 := by
  fun_induction feedLoop map skip text with
  | case1 => exact Nat.zero_le _
  | case2 skip c rest ih => exact ih
  | case3 c rest hcut =>
    have := length_of_cut hcut.2
    rw [List.length_cons]
    omega
  | case4 c rest hcut skip original htoken ih => exact ih
  | case5 c rest hcut htoken ih => exact ih

/-- The filter, and the window of 32 bytes that holds the beginning of a placeholder. -/
structure StreamFilter where
  map : SessionMap
  win : Bytes
  fits : win.length ≤ 31

/-- `guardrails_stream_filter_init`. -/
def StreamFilter.init (map : SessionMap) : StreamFilter := ⟨map, [], Nat.zero_le _⟩

/-- `guardrails_stream_filter_feed`: bytes beyond the capacity are dropped. -/
def streamFilterFeed (sf : StreamFilter) (chunk : Bytes) (outCap : ℕ) : StreamFilter × Bytes :=
  if outCap = 0 ∨ chunk = [] then (sf, [])
  else if sf.map.entries = [] then (sf, chunk.take outCap)
  else
    ({ sf with win := (feedLoop sf.map 0 (sf.win ++ chunk)).2, fits := held_length _ _ _ },
      (feedLoop sf.map 0 (sf.win ++ chunk)).1.take outCap)

/-- `guardrails_stream_filter_flush`. -/
def streamFilterFlush (sf : StreamFilter) (outCap : ℕ) : StreamFilter × Bytes :=
  if outCap = 0 then (sf, [])
  else ({ sf with win := [], fits := Nat.zero_le _ }, sf.win.take outCap)

/-- The capacity that the write path of a stream gives a chunk. -/
def outCapacity (chunk : Bytes) : ℕ := chunk.length + 128

/-- What the client receives of a stream: the output for each chunk, and at the end what was
held, in a buffer of 64 bytes. -/
def streamed (sf : StreamFilter) : List Bytes → Bytes
  | [] => (streamFilterFlush sf 64).2
  | chunk :: chunks =>
    (streamFilterFeed sf chunk (outCapacity chunk)).2 ++
      streamed (streamFilterFeed sf chunk (outCapacity chunk)).1 chunks

/-- What a feed has to write fits in its buffer: what was held and the chunk, restored as far
as it is decided. -/
def FeedFits (sf : StreamFilter) (chunk : Bytes) : Prop :=
  (feedLoop sf.map 0 (sf.win ++ chunk)).1.length ≤ outCapacity chunk

def RunFits (sf : StreamFilter) : List Bytes → Prop
  | [] => True
  | chunk :: chunks =>
    FeedFits sf chunk ∧ RunFits (streamFilterFeed sf chunk (outCapacity chunk)).1 chunks

theorem ahead_append {n : ℕ} {s : Bytes} (h : ahead n s ≠ .cut) (t : Bytes) :
    ahead n (s ++ t) = ahead n s := by
  induction n generalizing s with
  | zero => rfl
  | succ n ih =>
    cases s with
    | nil => exact absurd rfl h
    | cons c s =>
      simp only [List.cons_append, ahead] at h ⊢
      split
      · rfl
      · split
        · rename_i hbracket hword
          rw [if_neg hbracket, if_pos hword] at h
          have hrest : ahead n s ≠ .cut := by
            intro hcut
            rw [hcut] at h
            exact h rfl
          rw [ih hrest]
        · rfl

theorem closed_le {n letters : ℕ} {s : Bytes} (h : ahead n s = .closed letters) :
    letters + 1 ≤ s.length := by
  induction n generalizing s letters with
  | zero => cases h
  | succ n ih =>
    cases s with
    | nil => cases h
    | cons c s =>
      simp only [ahead] at h
      rw [List.length_cons]
      split at h
      · obtain rfl := Ahead.closed.inj h
        omega
      · split at h
        · split at h
          · rename_i hclosed
            obtain rfl := Ahead.closed.inj h
            have := ih hclosed
            omega
          · cases h
          · cases h
        · cases h

theorem tokenAhead_le {map : SessionMap} {s original : Bytes} {skip : ℕ}
    (h : tokenAhead map s = some (skip, original)) : skip ≤ s.length := by
  unfold tokenAhead at h
  split at h
  · rename_i letters hclosed
    obtain ⟨_, -, heq⟩ := Option.map_eq_some_iff.mp h
    obtain ⟨rfl, -⟩ := Prod.mk.inj heq
    exact closed_le hclosed
  · cases h

/-- More text does not change what has been decided. -/
theorem tokenAhead_append {map : SessionMap} {s : Bytes} (h : ahead 31 s ≠ .cut) (t : Bytes) :
    tokenAhead map (s ++ t) = tokenAhead map s := by
  unfold tokenAhead
  rw [ahead_append h]
  cases hahead : ahead 31 s with
  | closed letters =>
    dsimp only
    rw [List.take_append_of_le_length (closed_le hahead)]
  | broken => rfl
  | cut => rfl

/-- The filter goes on from what it holds. -/
theorem feedLoop_append (map : SessionMap) {skip : ℕ} {s : Bytes} (h : skip ≤ s.length)
    (t : Bytes) : feedLoop map skip (s ++ t) =
      ((feedLoop map skip s).1 ++ (feedLoop map 0 ((feedLoop map skip s).2 ++ t)).1,
        (feedLoop map 0 ((feedLoop map skip s).2 ++ t)).2) := by
  fun_induction feedLoop map skip s with
  | case1 skip =>
    obtain rfl := Nat.le_zero.mp h
    rfl
  | case2 skip c rest ih =>
    rw [List.cons_append, feedLoop, ih (by simpa using h)]
  | case3 c rest hcut => rfl
  | case4 c rest hcut skip original htoken ih =>
    obtain ⟨rfl, hsome⟩ := Option.ite_none_right_eq_some.mp htoken
    have hahead : ahead 31 rest ≠ .cut := fun hc => hcut ⟨rfl, hc⟩
    have happend : ahead 31 (rest ++ t) ≠ .cut := by rwa [ahead_append hahead]
    rw [List.cons_append, feedLoop, if_neg fun hc => happend hc.2, tokenAhead_append hahead]
    simp only [if_true, hsome]
    rw [ih (tokenAhead_le hsome), List.append_assoc]
  | case5 c rest hcut htoken ih =>
    have hnone : (if c = '[' then tokenAhead map (rest ++ t) else none) = none := by
      split
      · rename_i hc
        rw [if_pos hc] at htoken
        rw [tokenAhead_append fun h => hcut ⟨hc, h⟩, htoken]
      · rfl
    have hcut' : ¬(c = '[' ∧ ahead 31 (rest ++ t) = .cut) := by
      rintro ⟨hc, hahead⟩
      rw [ahead_append fun h => hcut ⟨hc, h⟩] at hahead
      exact hcut ⟨hc, hahead⟩
    rw [List.cons_append, feedLoop, if_neg hcut', hnone]
    dsimp only
    rw [ih (Nat.zero_le _), List.cons_append]

theorem restoreLoop_of_no_bracket (map : SessionMap) {s : Bytes} (h : '[' ∉ s) :
    (restoreLoop map 0 s).1 = s := by
  induction s with
  | nil => rfl
  | cons c s ih =>
    simp only [List.mem_cons, not_or] at h
    rw [restoreLoop, if_neg (Ne.symm h.1)]
    exact congrArg (c :: ·) (ih h.2)

theorem no_bracket_of_cut {n : ℕ} {s : Bytes} (h : ahead n s = .cut) : '[' ∉ s := by
  induction n generalizing s with
  | zero => cases h
  | succ n ih =>
    cases s with
    | nil => exact List.not_mem_nil
    | cons c s =>
      simp only [ahead] at h
      split at h
      · cases h
      · split at h
        · rename_i hword
          split at h
          · cases h
          · cases h
          · rename_i hcut
            rw [List.mem_cons, not_or]
            refine ⟨?_, ih hcut⟩
            rintro rfl
            exact absurd hword (by decide)
        · cases h

/-- What is not written is held. -/
theorem restoreLoop_eq (map : SessionMap) (skip : ℕ) (s : Bytes) :
    (restoreLoop map skip s).1 = (feedLoop map skip s).1 ++ (feedLoop map skip s).2 := by
  fun_induction feedLoop map skip s with
  | case1 skip => cases skip <;> rfl
  | case2 skip c rest ih => rw [restoreLoop, ih]
  | case3 c rest hcut =>
    have hnone : (if c = '[' then tokenAhead map rest else none) = none := by
      rw [if_pos hcut.1, tokenAhead, hcut.2]
    rw [restoreLoop, hnone, List.nil_append]
    exact congrArg (c :: ·) (restoreLoop_of_no_bracket map (no_bracket_of_cut hcut.2))
  | case4 c rest hcut skip original htoken ih =>
    rw [restoreLoop, htoken]
    dsimp only
    rw [ih, List.append_assoc]
  | case5 c rest hcut htoken ih =>
    rw [restoreLoop, htoken]
    dsimp only
    rw [ih, List.cons_append]

theorem restoreLoop_unchanged {map : SessionMap} {skip : ℕ} {s : Bytes}
    (h : (restoreLoop map skip s).2 = false) : (restoreLoop map skip s).1 = s.drop skip := by
  fun_induction restoreLoop map skip s with
  | case1 skip => rw [List.drop_nil]
  | case2 skip c rest ih => exact ih h
  | case3 c rest skip original htoken ih => cases h
  | case4 c rest htoken ih => exact congrArg (c :: ·) (ih h)

theorem lookupToken_of_nil {map : SessionMap} (h : map.entries = []) (token : Bytes) :
    map.lookupToken token = none := by
  unfold SessionMap.lookupToken
  rw [h]
  split
  · rfl
  · rfl

theorem restoreLoop_of_nil {map : SessionMap} (h : map.entries = []) (s : Bytes) :
    (restoreLoop map 0 s).2 = false := by
  induction s with
  | nil => rfl
  | cons c s ih =>
    have hnone : (if c = '[' then tokenAhead map s else none) = none := by
      unfold tokenAhead
      simp only [lookupToken_of_nil h]
      split
      · split
        · rfl
        · rfl
      · rfl
    rw [restoreLoop, hnone]
    exact ih

/-- A caller goes on with what the loop makes of the text. -/
theorem restored_eq (map : SessionMap) (text : Bytes) :
    restored map text = (restoreLoop map 0 text).1 := by
  have hsame : (restoreLoop map 0 text).2 = false → text = (restoreLoop map 0 text).1 :=
    fun h => (restoreLoop_unchanged h).symm
  unfold restored guardrailsRestorePiiText
  split
  · rename_i hnone
    refine hsame ?_
    rcases hnone with rfl | hnil
    · rfl
    · exact restoreLoop_of_nil hnil text
  · dsimp only
    split
    · rfl
    · rename_i hunchanged
      exact hsame (by simpa using hunchanged)

/-- The window holds the beginning of what may be a placeholder. -/
def Held (sf : StreamFilter) : Prop := feedLoop sf.map 0 sf.win = ([], sf.win)

theorem feedLoop_held (map : SessionMap) (skip : ℕ) (s : Bytes) :
    feedLoop map 0 (feedLoop map skip s).2 = ([], (feedLoop map skip s).2) := by
  fun_induction feedLoop map skip s with
  | case1 skip => rfl
  | case2 skip c rest ih => exact ih
  | case3 c rest hcut =>
    dsimp only
    rw [feedLoop, if_pos hcut]
  | case4 c rest hcut skip original htoken ih => exact ih
  | case5 c rest hcut htoken ih => exact ih

/-- The whole text is what the filter has left to write. -/
def Pending (sf : StreamFilter) (rest : Bytes) : Bytes := (restoreLoop sf.map 0 (sf.win ++ rest)).1

theorem flush_eq {sf : StreamFilter} (h : Held sf) : (streamFilterFlush sf 64).2 = Pending sf [] := by
  have htake : sf.win.take 64 = sf.win := List.take_of_length_le (by have := sf.fits; omega)
  rw [Pending, List.append_nil, restoreLoop_eq, h]
  exact htake

theorem streamFilterFeed_eq {sf : StreamFilter} (hmap : sf.map.entries ≠ []) {chunk : Bytes}
    (hchunk : chunk ≠ []) : streamFilterFeed sf chunk (outCapacity chunk) =
      ({ sf with win := (feedLoop sf.map 0 (sf.win ++ chunk)).2, fits := held_length _ _ _ },
        (feedLoop sf.map 0 (sf.win ++ chunk)).1.take (outCapacity chunk)) := by
  unfold streamFilterFeed
  rw [if_neg, if_neg hmap]
  simp [outCapacity, hchunk]

theorem feed_empty (sf : StreamFilter) : streamFilterFeed sf [] (outCapacity []) = (sf, []) :=
  if_pos (Or.inr rfl)

/-- What is pending is what a feed has to write, and then what is pending. -/
theorem pending_feed {sf : StreamFilter} (hmap : sf.map.entries ≠ []) {chunk : Bytes}
    (hchunk : chunk ≠ []) (rest : Bytes) : Pending sf (chunk ++ rest) =
      (feedLoop sf.map 0 (sf.win ++ chunk)).1 ++
        Pending (streamFilterFeed sf chunk (outCapacity chunk)).1 rest := by
  rw [streamFilterFeed_eq hmap hchunk]
  unfold Pending
  dsimp only
  rw [← List.append_assoc, restoreLoop_eq, feedLoop_append sf.map (Nat.zero_le _), restoreLoop_eq,
    List.append_assoc]

/-- Nothing is added, and nothing is lost exactly if every output fits. -/
theorem streamed_pending {sf : StreamFilter} (hmap : sf.map.entries ≠ []) (h : Held sf)
    (chunks : List Bytes) : (streamed sf chunks).length ≤ (Pending sf chunks.flatten).length ∧
      (streamed sf chunks = Pending sf chunks.flatten ↔ RunFits sf chunks) := by
  induction chunks generalizing sf with
  | nil =>
    have hflush := flush_eq h
    rw [streamed, List.flatten_nil, hflush]
    exact ⟨le_refl _, iff_of_true rfl trivial⟩
  | cons chunk chunks ih =>
    rw [streamed, List.flatten_cons, RunFits]
    by_cases hchunk : chunk = []
    · subst hchunk
      have hfits : FeedFits sf [] := by
        unfold FeedFits
        rw [List.append_nil, h]
        exact Nat.zero_le _
      obtain ⟨hle, hiff⟩ := ih hmap h
      rw [feed_empty, List.nil_append, List.nil_append]
      exact ⟨hle, hiff.trans (and_iff_right hfits).symm⟩
    · have hnext : Held (streamFilterFeed sf chunk (outCapacity chunk)).1 := by
        rw [streamFilterFeed_eq hmap hchunk]
        exact feedLoop_held _ _ _
      have hmap' : (streamFilterFeed sf chunk (outCapacity chunk)).1.map.entries ≠ [] := by
        rw [streamFilterFeed_eq hmap hchunk]
        exact hmap
      have hout : (streamFilterFeed sf chunk (outCapacity chunk)).2 =
          (feedLoop sf.map 0 (sf.win ++ chunk)).1.take (outCapacity chunk) := by
        rw [streamFilterFeed_eq hmap hchunk]
      obtain ⟨hle, hiff⟩ := ih hmap' hnext
      rw [pending_feed hmap hchunk, hout]
      have htake := List.length_take_le (outCapacity chunk) (feedLoop sf.map 0 (sf.win ++ chunk)).1
      have htake' := List.length_take_le' (outCapacity chunk)
        (feedLoop sf.map 0 (sf.win ++ chunk)).1
      refine ⟨?_, ?_, ?_⟩
      · rw [List.length_append, List.length_append]
        omega
      · intro heq
        have hlength := congrArg List.length heq
        rw [List.length_append, List.length_append] at hlength
        have hfits : FeedFits sf chunk := by
          unfold FeedFits
          omega
        rw [List.take_of_length_le hfits, List.append_cancel_left_eq] at heq
        exact ⟨hfits, hiff.mp heq⟩
      · rintro ⟨hfits, hrest⟩
        rw [List.take_of_length_le hfits, hiff.mpr hrest]

/-- Without placeholders the chunks are passed on. -/
theorem streamed_of_nil {sf : StreamFilter} (hmap : sf.map.entries = []) (hwin : sf.win = [])
    (chunks : List Bytes) : streamed sf chunks = chunks.flatten ∧ RunFits sf chunks := by
  induction chunks with
  | nil =>
    unfold streamed streamFilterFlush
    simp [hwin, RunFits]
  | cons chunk chunks ih =>
    have hfeed : streamFilterFeed sf chunk (outCapacity chunk) = (sf, chunk) := by
      by_cases hchunk : chunk = []
      · subst hchunk
        exact feed_empty sf
      · unfold streamFilterFeed
        have hle : chunk.length ≤ outCapacity chunk := Nat.le_add_right _ _
        rw [if_neg (by simp [outCapacity, hchunk]), if_pos hmap, List.take_of_length_le hle]
    have hfits : FeedFits sf chunk := by
      have hwhole := restoreLoop_unchanged (restoreLoop_of_nil hmap chunk)
      have hlength := congrArg List.length ((restoreLoop_eq sf.map 0 chunk).symm.trans hwhole)
      rw [List.length_append, List.drop_zero] at hlength
      unfold FeedFits outCapacity
      rw [hwin, List.nil_append]
      omega
    rw [streamed, RunFits, hfeed, List.flatten_cons, ih.1]
    exact ⟨rfl, hfits, ih.2⟩

/-- For every map, text and way to split it, the filter restores what restoring the whole text
does exactly if the output of every feed fits in its buffer. -/
theorem streamed_eq_restored_iff (map : SessionMap) (chunks : List Bytes) :
    streamed (StreamFilter.init map) chunks = restored map chunks.flatten ↔
      RunFits (StreamFilter.init map) chunks := by
  rw [restored_eq]
  by_cases hmap : map.entries = []
  · obtain ⟨hsame, hfits⟩ := @streamed_of_nil (StreamFilter.init map) hmap rfl chunks
    refine iff_of_true ?_ hfits
    rw [hsame]
    exact (restoreLoop_unchanged (restoreLoop_of_nil hmap _)).symm
  · exact (@streamed_pending (StreamFilter.init map) hmap rfl chunks).2

/-- An address of 127 bytes, and its placeholder. -/
def longMap : SessionMap :=
  (SessionMap.empty.getOrCreate .email (List.replicate 127 'a')).1

def twoPlaceholders : Bytes := ascii "[EMAIL_1][EMAIL_1]"

/-- Two placeholders in one chunk stand for more than the buffer holds. -/
theorem long_not_streamed : streamed (StreamFilter.init longMap) [twoPlaceholders] ≠
    restored longMap twoPlaceholders := by
  intro h
  have hlength := congrArg List.length h
  revert hlength
  decide +kernel

end Aigate.PiiRestore
