import Aigate.PromptCompressor

/-!
# Pruned sentences are whole

The sentences that are kept are joined with blanks in a buffer of the length of the text. What is
written of each sentence, and when the blanks leave no room for the last ones.
-/
namespace Aigate.SentencePruning
open Text JailbreakDetector PromptCompressor

/-- All sentences of a text. -/
def sentences (src : Bytes) : List Bytes := splitSentences src.length src

/-- The sentences that are looked at, with their marks. -/
def classified (rule : CompressorRule) (src : Bytes) : List Sentence :=
  if src = [] ∨ rule.ratioInRange = false then []
  else protectEnds ((splitSentences 128 src).map readSentence)

/-- The sentences that are selected, in their order. -/
def keptSentences (rule : CompressorRule) (src : Bytes) : List Sentence :=
  (select (max 1 (rule.targetLen src.length)) (classified rule src).length
    ((classified rule src).map fun s => { s with keep := s.isProtected })).filter Sentence.keep

/-- What is written for a sentence, and what before it. -/
structure Piece where
  sentence : Sentence
  before : Bytes
  written : Bytes

/-- The blank before a sentence. -/
def separator (cap : ℕ) (dst : Bytes) : Bytes :=
  if dst ≠ [] ∧ dst.length < cap ∧ dst.getLast? ≠ some '\n' ∧ dst.getLast? ≠ some ' ' then [' ']
  else []

/-- The pieces that are put behind each other. -/
def pieces (cap : ℕ) : Bytes → List Sentence → List Piece
  | _, [] => []
  | dst, s :: ss =>
    let spaced := dst ++ separator cap dst
    ⟨s, separator cap dst, s.text.take (cap - spaced.length)⟩ ::
      pieces cap (spaced ++ s.text.take (cap - spaced.length)) ss

/-- The pieces of a text that is copied. -/
def copied : ℕ → Bytes → List Piece
  | 0, _ => []
  | n + 1, text =>
    let rest := text.dropWhile isSpaceC
    if rest = [] then []
    else
      ⟨⟨rest.take (sentenceLength rest), false, false, true⟩, text.takeWhile isSpaceC,
        rest.take (sentenceLength rest)⟩ :: copied n (rest.drop (sentenceLength rest))

/-- The pieces of the result. -/
def resultPieces (rule : CompressorRule) (src : Bytes) : List Piece :=
  if rule.ratioInRange = false then copied src.length src
  else pieces src.length [] (keptSentences rule src)

def joined (ps : List Piece) : Bytes := ps.flatMap fun p => p.before ++ p.written

def AllSpace (text : Bytes) : Prop := ∀ c ∈ text, isSpaceC c = true

/-- The result is made of sentences of the text in their order, with white space between them; the
protected ones are among them; and each is written whole, or it is not protected and nothing of
it is written. -/
structure Pruned (rule : CompressorRule) (src : Bytes) : Prop where
  output : ∃ rest, AllSpace rest ∧
    compressorPruneSentenceDensity rule src = joined (resultPieces rule src) ++ rest
  spaces : ∀ p ∈ resultPieces rule src, AllSpace p.before
  inOrder : ((resultPieces rule src).map fun p => p.sentence.text).Sublist (sentences src)
  protectedKept : ((classified rule src).filter Sentence.isProtected).map Sentence.text =
    ((resultPieces rule src).filter fun p => p.sentence.isProtected).map fun p => p.sentence.text
  whole : ∀ p ∈ resultPieces rule src,
    p.written = p.sentence.text ∨ p.written = [] ∧ p.sentence.isProtected = false

/-- The place of the next sentence behind one, with the blank if it needs one. -/
def room (text : Bytes) : ℕ :=
  text.length + if text.getLast? = some '\n' ∨ text.getLast? = some ' ' then 0 else 1

/-- The places at which sentences begin when they are joined without a bound. -/
def starts : ℕ → List Sentence → List (ℕ × Sentence)
  | _, [] => []
  | o, s :: ss => (o, s) :: starts (o + room s.text) ss

/-- Joined with their blanks, each selected sentence ends within the length of the text, or it is
not protected and begins at or behind that length. -/
def Fits (rule : CompressorRule) (src : Bytes) : Prop :=
  rule.ratioInRange = false ∨ ∀ p ∈ starts 0 (keptSentences rule src),
    p.1 + p.2.text.length ≤ src.length ∨ src.length ≤ p.1 ∧ p.2.isProtected = false

/-! The sentences of a text. -/

theorem sentenceLength_pos {text : Bytes} (h : text ≠ []) : 0 < sentenceLength text := by
  cases text with
  | nil => exact absurd rfl h
  | cons c rest =>
    unfold sentenceLength
    split
    · exact Nat.one_pos
    · split <;> omega

theorem length_dropWhile_le (text : Bytes) : (text.dropWhile isSpaceC).length ≤ text.length :=
  (List.dropWhile_suffix isSpaceC).sublist.length_le

theorem splitSentences_succ (n : ℕ) (text : Bytes) :
    splitSentences (n + 1) text =
      if text.dropWhile isSpaceC = [] then []
      else (text.dropWhile isSpaceC).take (sentenceLength (text.dropWhile isSpaceC)) ::
        splitSentences n ((text.dropWhile isSpaceC).drop
          (sentenceLength (text.dropWhile isSpaceC))) := rfl

/-- With fewer sentences allowed, the first ones are the same. -/
theorem splitSentences_sublist {n m : ℕ} {text : Bytes} (h : text.length ≤ m) :
    (splitSentences n text).Sublist (splitSentences m text) := by
  induction n generalizing m text with
  | zero => exact List.nil_sublist _
  | succ n ih =>
    rw [splitSentences_succ]
    split
    · exact List.nil_sublist _
    · rename_i hne
      have hle := length_dropWhile_le text
      have hlen := List.length_pos_iff.mpr hne
      have hpos := sentenceLength_pos hne
      cases m with
      | zero => omega
      | succ m =>
        rw [splitSentences_succ, if_neg hne]
        apply List.Sublist.cons_cons
        apply ih
        rw [List.length_drop]
        omega

theorem splitSentences_ne_nil {n : ℕ} {text t : Bytes} (h : t ∈ splitSentences n text) : t ≠ [] := by
  induction n generalizing text with
  | zero => exact nomatch h
  | succ n ih =>
    rw [splitSentences_succ] at h
    split at h
    · exact nomatch h
    · rename_i hne
      rcases List.mem_cons.mp h with rfl | h
      · have hpos := sentenceLength_pos hne
        simp only [ne_eq, List.take_eq_nil_iff, not_or]
        exact ⟨by omega, hne⟩
      · exact ih h

theorem copied_succ (n : ℕ) (text : Bytes) :
    copied (n + 1) text =
      if text.dropWhile isSpaceC = [] then []
      else
        ⟨⟨(text.dropWhile isSpaceC).take (sentenceLength (text.dropWhile isSpaceC)), false, false,
          true⟩, text.takeWhile isSpaceC,
          (text.dropWhile isSpaceC).take (sentenceLength (text.dropWhile isSpaceC))⟩ ::
        copied n ((text.dropWhile isSpaceC).drop (sentenceLength (text.dropWhile isSpaceC))) := rfl

theorem copied_map (n : ℕ) (text : Bytes) :
    (copied n text).map (fun p => p.sentence.text) = splitSentences n text := by
  induction n generalizing text with
  | zero => rfl
  | succ n ih =>
    rw [splitSentences_succ, copied_succ]
    split
    · rfl
    · rw [List.map_cons, ih]

theorem copied_piece {n : ℕ} {text : Bytes} {p : Piece} (hp : p ∈ copied n text) :
    AllSpace p.before ∧ p.sentence.isProtected = false ∧ p.written = p.sentence.text := by
  induction n generalizing text with
  | zero => exact nomatch hp
  | succ n ih =>
    rw [copied_succ] at hp
    split at hp
    · exact nomatch hp
    · rcases List.mem_cons.mp hp with rfl | hp
      · exact ⟨fun c hc => List.mem_takeWhile_imp hc, rfl, rfl⟩
      · exact ih hp

/-- A text is its sentences and the white space between them. -/
theorem joined_copied {n : ℕ} {text : Bytes} (h : text.length ≤ n) :
    ∃ rest, AllSpace rest ∧ text = joined (copied n text) ++ rest := by
  induction n generalizing text with
  | zero =>
    obtain rfl := List.length_eq_zero_iff.mp (Nat.le_zero.mp h)
    exact ⟨[], fun c hc => (nomatch hc), rfl⟩
  | succ n ih =>
    have hsplit : text.takeWhile isSpaceC ++ text.dropWhile isSpaceC = text :=
      List.takeWhile_append_dropWhile
    rw [copied_succ]
    split
    · rename_i hnil
      rw [hnil, List.append_nil] at hsplit
      refine ⟨text, ?_, rfl⟩
      rw [← hsplit]
      exact fun c hc => List.mem_takeWhile_imp hc
    · rename_i hne
      have hle := length_dropWhile_le text
      have hlen := List.length_pos_iff.mpr hne
      have hpos := sentenceLength_pos hne
      have hshort : ((text.dropWhile isSpaceC).drop
          (sentenceLength (text.dropWhile isSpaceC))).length ≤ n := by
        rw [List.length_drop]
        omega
      obtain ⟨rest, hrest, heq⟩ := ih hshort
      refine ⟨rest, hrest, ?_⟩
      rw [joined, List.flatMap_cons, List.append_assoc, List.append_assoc, ← joined, ← heq,
        List.take_append_drop, hsplit]

/-! The sentences that are selected. -/

/-- A sentence behind the selection: the same, and kept if it was. -/
structure Marked (s t : Sentence) : Prop where
  text : t.text = s.text
  isProtected : t.isProtected = s.isProtected
  keep : s.keep = true → t.keep = true

theorem Marked.refl (s : Sentence) : Marked s s := ⟨rfl, rfl, id⟩

theorem Marked.trans {s t u : Sentence} (hst : Marked s t) (htu : Marked t u) : Marked s u :=
  ⟨htu.text.trans hst.text, htu.isProtected.trans hst.isProtected, fun h => htu.keep (hst.keep h)⟩

theorem marked_modify (sents : List Sentence) (i : ℕ) :
    List.Forall₂ Marked sents (sents.modify i fun s => { s with keep := true }) := by
  induction sents generalizing i with
  | nil =>
    rw [List.modify_nil]
    exact List.Forall₂.nil
  | cons s sents ih =>
    cases i with
    | zero =>
      rw [List.modify_zero_cons]
      exact List.Forall₂.cons ⟨rfl, rfl, fun _ => rfl⟩
        (List.forall₂_same.mpr fun s _ => Marked.refl s)
    | succ i =>
      rw [List.modify_succ_cons]
      exact List.Forall₂.cons (Marked.refl s) (ih i)

theorem marked_trans {xs ys zs : List Sentence} (h : List.Forall₂ Marked xs ys)
    (h' : List.Forall₂ Marked ys zs) : List.Forall₂ Marked xs zs := by
  induction h generalizing zs with
  | nil => exact h'
  | cons hxy _ ih =>
    cases h' with
    | cons hyz htail => exact List.Forall₂.cons (hxy.trans hyz) (ih htail)

theorem marked_select (targetLen n : ℕ) (sents : List Sentence) :
    List.Forall₂ Marked sents (select targetLen n sents) := by
  have hsame : List.Forall₂ Marked sents sents := List.forall₂_same.mpr fun s _ => Marked.refl s
  induction n generalizing sents with
  | zero => exact hsame
  | succ n ih =>
    unfold select
    split
    · split
      · exact marked_trans (marked_modify sents _)
          (ih _ (List.forall₂_same.mpr fun s _ => Marked.refl s))
      · exact hsame
    · exact hsame

theorem map_text_of_marked {xs ys : List Sentence} (h : List.Forall₂ Marked xs ys) :
    ys.map Sentence.text = xs.map Sentence.text := by
  induction h with
  | nil => rfl
  | cons hxy _ ih => rw [List.map_cons, List.map_cons, hxy.text, ih]

/-- The selection keeps what is protected. -/
theorem protected_of_marked {xs ys : List Sentence} (h : List.Forall₂ Marked xs ys)
    (hkeep : ∀ s ∈ xs, s.isProtected = true → s.keep = true) :
    (xs.filter Sentence.isProtected).map Sentence.text =
      ((ys.filter Sentence.keep).filter Sentence.isProtected).map Sentence.text := by
  induction h with
  | nil => rfl
  | @cons x y xs ys hxy _ ih =>
    obtain ⟨hx, hxs⟩ := List.forall_mem_cons.mp hkeep
    have htail := ih hxs
    rw [List.filter_filter] at htail ⊢
    rw [List.filter_cons, List.filter_cons, hxy.isProtected]
    by_cases hp : x.isProtected = true
    · simp [hp, hxy.keep (hx hp), hxy.text, htail]
    · simp [hp, htail]

theorem protectEnds_text (sents : List Sentence) :
    (protectEnds sents).map Sentence.text = sents.map Sentence.text := by
  unfold protectEnds
  split
  · rw [List.map_map]
    have hpoint : (Sentence.text ∘ fun p : Sentence × ℕ =>
        if (p.2 = 0 ∨ p.2 + 1 = sents.length) ∧ p.1.filler = false then
          { p.1 with isProtected := true }
        else p.1) = Sentence.text ∘ Prod.fst := by
      funext p
      simp only [Function.comp_apply]
      split <;> rfl
    rw [hpoint, ← List.map_map, List.zipIdx_map_fst]
  · rfl

theorem classified_text {rule : CompressorRule} {src : Bytes} (hne : src ≠ [])
    (hratio : rule.ratioInRange = true) :
    (classified rule src).map Sentence.text = splitSentences 128 src := by
  unfold classified
  rw [if_neg (by simp [hne, hratio]), protectEnds_text, List.map_map]
  exact List.map_id _

theorem keptSentences_sublist (rule : CompressorRule) {src : Bytes} (hne : src ≠ [])
    (hratio : rule.ratioInRange = true) :
    ((keptSentences rule src).map Sentence.text).Sublist (splitSentences 128 src) := by
  rw [← classified_text hne hratio]
  have hmarked := map_text_of_marked (marked_select (max 1 (rule.targetLen src.length))
    (classified rule src).length ((classified rule src).map fun s => { s with keep := s.isProtected }))
  rw [List.map_map] at hmarked
  have hsub := (List.filter_sublist (p := Sentence.keep)
    (l := select (max 1 (rule.targetLen src.length)) (classified rule src).length
      ((classified rule src).map fun s => { s with keep := s.isProtected }))).map Sentence.text
  rw [hmarked] at hsub
  exact hsub

theorem keptSentences_protected (rule : CompressorRule) (src : Bytes) :
    ((classified rule src).filter Sentence.isProtected).map Sentence.text =
      ((keptSentences rule src).filter Sentence.isProtected).map Sentence.text := by
  have hmarked := marked_select (max 1 (rule.targetLen src.length)) (classified rule src).length
    ((classified rule src).map fun s => { s with keep := s.isProtected })
  rw [keptSentences, ← protected_of_marked hmarked]
  · rw [List.filter_map, List.map_map]
    rfl
  · intro s hs hp
    obtain ⟨s, -, rfl⟩ := List.mem_map.mp hs
    exact hp

/-! What is written. -/

theorem assemble_of_keep (cap : ℕ) (dst : Bytes) {s : Sentence} (h : s.keep = true) :
    assemble cap dst s = dst ++ separator cap dst ++
      s.text.take (cap - (dst ++ separator cap dst).length) := by
  unfold assemble separator
  rw [if_pos h]
  dsimp only
  split
  · rfl
  · rw [List.append_nil]

theorem joined_pieces (cap : ℕ) (dst : Bytes) (sents : List Sentence) :
    sents.foldl (assemble cap) dst = dst ++ joined (pieces cap dst (sents.filter Sentence.keep)) := by
  induction sents generalizing dst with
  | nil => exact (List.append_nil dst).symm
  | cons s sents ih =>
    rw [List.foldl_cons, ih, List.filter_cons]
    by_cases hkeep : s.keep = true
    · rw [if_pos hkeep, assemble_of_keep cap dst hkeep]
      simp [pieces, joined, List.append_assoc]
    · rw [if_neg hkeep, assemble, if_neg hkeep]

theorem pieces_sentence (cap : ℕ) (dst : Bytes) (ss : List Sentence) :
    (pieces cap dst ss).map Piece.sentence = ss := by
  induction ss generalizing dst with
  | nil => rfl
  | cons s ss ih => simp [pieces, ih]

theorem allSpace_separator (cap : ℕ) (dst : Bytes) : AllSpace (separator cap dst) := by
  intro c hc
  unfold separator at hc
  split at hc
  · obtain rfl := List.mem_singleton.mp hc
    rfl
  · exact nomatch hc

theorem pieces_before {cap : ℕ} {dst : Bytes} {ss : List Sentence} {p : Piece}
    (hp : p ∈ pieces cap dst ss) : AllSpace p.before := by
  induction ss generalizing dst with
  | nil => exact nomatch hp
  | cons s ss ih =>
    rcases List.mem_cons.mp hp with rfl | hp
    · exact allSpace_separator cap dst
    · exact ih hp

/-- The next sentence begins at this place, or the buffer is full and it would begin behind. -/
def At (cap : ℕ) (dst : Bytes) (o : ℕ) : Prop :=
  dst.length < cap ∧ (dst ++ separator cap dst).length = o ∨ dst.length = cap ∧ cap ≤ o

/-- A sentence is written behind the ones before. -/
theorem At.next {cap : ℕ} {dst : Bytes} {o : ℕ} (h : At cap dst o) {text : Bytes} (hne : text ≠ []) :
    text.take (cap - (dst ++ separator cap dst).length) = text.take (cap - o) ∧
      At cap (dst ++ separator cap dst ++ text.take (cap - (dst ++ separator cap dst).length))
        (o + room text) := by
  rcases h with ⟨hlt, rfl⟩ | ⟨hfull, hle⟩
  · refine ⟨rfl, ?_⟩
    have hspaced : (dst ++ separator cap dst).length ≤ cap := by
      unfold separator
      split <;> simp <;> omega
    generalize dst ++ separator cap dst = spaced at hspaced
    rcases Nat.lt_or_ge (spaced.length + text.length) cap with hroom | hroom
    · left
      rw [List.take_of_length_le (by omega)]
      refine ⟨by rw [List.length_append]; exact hroom, ?_⟩
      have hlast : (spaced ++ text).getLast? = text.getLast? := List.getLast?_append_of_ne_nil _ hne
      unfold separator room
      rw [hlast, List.length_append, List.length_append]
      by_cases hend : text.getLast? = some '\n' ∨ text.getLast? = some ' '
      · rw [if_neg (by tauto), if_pos hend]
        simp
      · rw [not_or] at hend
        rw [if_pos ⟨by simp [hne], hroom, hend⟩, if_neg (by tauto)]
        simp [Nat.add_assoc]
    · right
      unfold room
      rw [List.length_append, List.length_take]
      omega
  · have hnone : separator cap dst = [] := by
      unfold separator
      rw [if_neg (by omega)]
    rw [hnone, List.append_nil, hfull, Nat.sub_self, Nat.sub_eq_zero_of_le hle]
    refine ⟨rfl, Or.inr ⟨?_, by omega⟩⟩
    simpa using hfull

/-- What is written of the sentences, by the places at which they begin. -/
theorem pieces_eq_starts {cap : ℕ} {dst : Bytes} {o : ℕ} (h : At cap dst o) {ss : List Sentence}
    (hss : ∀ s ∈ ss, s.text ≠ []) :
    (pieces cap dst ss).map (fun p => (p.sentence, p.written)) =
      (starts o ss).map fun p => (p.2, p.2.text.take (cap - p.1)) := by
  induction ss generalizing dst o with
  | nil => rfl
  | cons s ss ih =>
    obtain ⟨hs, hss⟩ := List.forall_mem_cons.mp hss
    obtain ⟨hwritten, hnext⟩ := h.next hs
    simp only [pieces, starts, List.map_cons]
    rw [ih hnext hss, hwritten]

theorem starts_text {o : ℕ} {ss : List Sentence} {p : ℕ × Sentence} (hp : p ∈ starts o ss) :
    p.2 ∈ ss := by
  induction ss generalizing o with
  | nil => exact nomatch hp
  | cons s ss ih =>
    rcases List.mem_cons.mp hp with rfl | hp
    · exact List.mem_cons_self
    · exact List.mem_cons_of_mem _ (ih hp)

/-- A prefix is whole or empty if the bound lies behind or before the text. -/
theorem take_whole_iff {text : Bytes} (hne : text ≠ []) (cap o : ℕ) (unmarked : Prop) :
    (text.take (cap - o) = text ∨ text.take (cap - o) = [] ∧ unmarked) ↔
      o + text.length ≤ cap ∨ cap ≤ o ∧ unmarked := by
  have hlen := List.length_pos_iff.mpr hne
  have hwhole : text.take (cap - o) = text ↔ o + text.length ≤ cap := by
    rw [List.take_eq_self_iff]
    omega
  have hnone : text.take (cap - o) = [] ↔ cap ≤ o := by
    simp only [List.take_eq_nil_iff, hne, or_false]
    omega
  rw [hwhole, hnone]

theorem classified_nil (rule : CompressorRule) : classified rule [] = [] := if_pos (Or.inl rfl)

theorem keptSentences_nil (rule : CompressorRule) : keptSentences rule [] = [] := by
  unfold keptSentences
  rw [classified_nil]
  rfl

theorem prune_eq_joined (rule : CompressorRule) {src : Bytes} (hne : src ≠ [])
    (hratio : rule.ratioInRange = true) :
    compressorPruneSentenceDensity rule src =
      joined (pieces src.length [] (keptSentences rule src)) := by
  unfold compressorPruneSentenceDensity
  rw [if_neg hne, if_neg (by simp [hratio])]
  dsimp only
  rw [joined_pieces, List.nil_append]
  unfold keptSentences classified
  rw [if_neg (by simp [hne, hratio])]

theorem kept_text_ne_nil {rule : CompressorRule} {src : Bytes} {s : Sentence}
    (hs : s ∈ keptSentences rule src) (hratio : rule.ratioInRange = true) : s.text ≠ [] := by
  have hne : src ≠ [] := by
    rintro rfl
    rw [keptSentences_nil] at hs
    exact nomatch hs
  have hsub := keptSentences_sublist rule hne hratio
  exact splitSentences_ne_nil (hsub.subset (List.mem_map_of_mem hs))

/-- A copied text is pruned of nothing. -/
theorem pruned_copy {rule : CompressorRule} (src : Bytes) (hratio : rule.ratioInRange = false) :
    Pruned rule src := by
  have hpieces : resultPieces rule src = copied src.length src := if_pos hratio
  have hout : compressorPruneSentenceDensity rule src = src := by
    unfold compressorPruneSentenceDensity
    split
    · rename_i hnil
      exact hnil.symm
    · rfl
  have hnone : (copied src.length src).filter (fun p => p.sentence.isProtected) = [] := by
    apply List.filter_eq_nil_iff.mpr
    intro p hp
    simp [(copied_piece hp).2.1]
  constructor
  · rw [hpieces, hout]
    exact joined_copied (Nat.le_refl _)
  · rw [hpieces]
    exact fun p hp => (copied_piece hp).1
  · rw [hpieces, copied_map]
    exact List.Sublist.refl _
  · rw [hpieces, hnone, classified, if_pos (Or.inr hratio)]
    rfl
  · rw [hpieces]
    exact fun p hp => Or.inl (copied_piece hp).2.2

/-- The pieces are whole when the sentences end within the length of the text. -/
theorem whole_iff (rule : CompressorRule) (src : Bytes) (hratio : rule.ratioInRange = true) :
    (∀ p ∈ pieces src.length [] (keptSentences rule src),
      p.written = p.sentence.text ∨ p.written = [] ∧ p.sentence.isProtected = false) ↔
    ∀ p ∈ starts 0 (keptSentences rule src),
      p.1 + p.2.text.length ≤ src.length ∨ src.length ≤ p.1 ∧ p.2.isProtected = false := by
  have hat : At src.length [] 0 := by
    rcases Nat.eq_zero_or_pos src.length with hzero | hpos
    · exact Or.inr ⟨hzero.symm, by omega⟩
    · exact Or.inl ⟨hpos, rfl⟩
  have hne : ∀ s ∈ keptSentences rule src, s.text ≠ [] :=
    fun s hs => kept_text_ne_nil hs hratio
  have hmap := pieces_eq_starts hat hne
  have hleft : (∀ p ∈ pieces src.length [] (keptSentences rule src),
      p.written = p.sentence.text ∨ p.written = [] ∧ p.sentence.isProtected = false) ↔
      ∀ q ∈ (pieces src.length [] (keptSentences rule src)).map
        (fun p => (p.sentence, p.written)), q.2 = q.1.text ∨ q.2 = [] ∧ q.1.isProtected = false := by
    rw [List.forall_mem_map]
  rw [hleft, hmap, List.forall_mem_map]
  refine forall_congr' fun p => forall_congr' fun hp => ?_
  exact take_whole_iff (hne p.2 (starts_text hp)) _ _ _

/-- The result is made of whole sentences exactly when the selected ones and the blanks between
them fit in the length of the text, but for unprotected ones that begin behind it. -/
theorem pruned_iff (rule : CompressorRule) (src : Bytes) : Pruned rule src ↔ Fits rule src := by
  cases hratio : rule.ratioInRange with
  | false => exact iff_of_true (pruned_copy src hratio) (Or.inl hratio)
  | true =>
    have hpieces : resultPieces rule src = pieces src.length [] (keptSentences rule src) :=
      if_neg (by simp [hratio])
    have hwhole := whole_iff rule src hratio
    rw [← hpieces] at hwhole
    constructor
    · intro h
      exact Or.inr (hwhole.mp h.whole)
    · intro h
      have hfits := h.resolve_left (by simp [hratio])
      have hsentences : (resultPieces rule src).map (fun p => p.sentence) =
          keptSentences rule src := by
        rw [hpieces]
        exact pieces_sentence _ _ _
      refine ⟨⟨[], fun c hc => (nomatch hc), ?_⟩, ?_, ?_, ?_, hwhole.mpr hfits⟩
      · rw [List.append_nil, hpieces]
        rcases eq_or_ne src [] with rfl | hne
        · rw [keptSentences_nil]
          rfl
        · exact prune_eq_joined rule hne hratio
      · rw [hpieces]
        exact fun p hp => pieces_before hp
      · have htexts : (resultPieces rule src).map (fun p => p.sentence.text) =
            (keptSentences rule src).map Sentence.text := by
          rw [← hsentences, List.map_map]
          rfl
        rw [htexts]
        rcases eq_or_ne src [] with rfl | hne
        · rw [keptSentences_nil]
          exact List.nil_sublist _
        · exact (keptSentences_sublist rule hne hratio).trans
            (splitSentences_sublist (Nat.le_refl _))
      · rw [keptSentences_protected, ← hsentences, List.filter_map, List.map_map]
        rfl

/-- A rule that keeps nine tenths of a text. -/
def dense : CompressorRule :=
  ⟨true, .aggressive, 0, 8, true, fun n => n * 9 / 10, true, true, true⟩

/-- Three sentences without white space: the last one, which is protected, is cut by the two blanks
that are put between them. -/
theorem not_pruned_dense :
    compressorPruneSentenceDensity dense (ascii "ab.cd.ef.") = ascii "ab. cd. e" ∧
      ¬ Pruned dense (ascii "ab.cd.ef.") := by
  constructor
  · decide +kernel
  · intro h
    have hwhole := h.whole
    revert hwhole
    decide +kernel

end Aigate.SentencePruning
