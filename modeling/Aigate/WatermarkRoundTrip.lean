import Aigate.WatermarkCodec

/-!
# What is marked can be read and undone

A text without zero-width characters is cut into pieces at the ends of characters, and the tiles
stand between the pieces. Therefore no symbol begins within a piece, and all symbols of the
marked text are those of its tiles.
-/
namespace Aigate.Watermark
open Text TokenScan Utf8

/-- A tile that a text begins with, for a reader who knows the payload. -/
def tileAt (p : WatermarkPayload) (s : Bytes) : Option (Unit × ℕ) :=
  if (tile p).isPrefixOf s then some ((), (tile p).length) else none

/-- The text without the tiles. -/
def removeTiles (p : WatermarkPayload) (s : Bytes) : Bytes := remainder (tileAt p) s

/-- UTF-8 text with none of the zero-width characters. -/
structure Clean (s : Bytes) : Prop where
  utf8 : utf8Check s = true
  unmarked : ∀ d, ¬zwSymbol d <:+: s

theorem symbolAt_zwSymbol (d : Fin 4) (t : Bytes) :
    symbolAt (zwSymbol d ++ t) = some (d, (zwSymbol d).length) := by
  match d with
  | 0 => rfl
  | 1 => rfl
  | 2 => rfl
  | 3 => rfl

theorem zwSymbol_of_symbolAt {s : Bytes} {d : Fin 4} {n : ℕ} (h : symbolAt s = some (d, n)) :
    zwSymbol d <+: s := by
  rcases s with _ | ⟨b0, _ | ⟨b1, _ | ⟨b2, rest⟩⟩⟩
  · cases h
  · cases h
  · cases h
  · rw [symbolAt] at h
    split at h
    · rename_i hhead
      obtain ⟨rfl, rfl⟩ := hhead
      split at h
      · rename_i hb2
        cases h
        exact ⟨rest, by rw [hb2]; rfl⟩
      · split at h
        · rename_i hb2
          cases h
          exact ⟨rest, by rw [hb2]; rfl⟩
        · split at h
          · rename_i hb2
            cases h
            exact ⟨rest, by rw [hb2]; rfl⟩
          · cases h
    · split at h
      · rename_i hall
        obtain ⟨rfl, rfl, rfl⟩ := hall
        cases h
        exact ⟨rest, rfl⟩
      · cases h

/-- A part of a symbol is no text. -/
theorem not_utf8_of_zwSymbol {d : Fin 4} {u v : Bytes} (h : zwSymbol d = u ++ v) (hu : u ≠ [])
    (hv : v ≠ []) : utf8Check u = false := by
  have hcut : ∀ d, utf8Check ((zwSymbol d).take 1) = false ∧
      utf8Check ((zwSymbol d).take 2) = false := by decide
  have hlength : (zwSymbol d).length = 3 := by
    match d with
    | 0 => rfl
    | 1 => rfl
    | 2 => rfl
    | 3 => rfl
  have htake : u = (zwSymbol d).take u.length := by rw [h, List.take_left]
  rw [h, List.length_append] at hlength
  have hupos := List.length_pos_of_ne_nil hu
  have hvpos := List.length_pos_of_ne_nil hv
  rcases (by omega : u.length = 1 ∨ u.length = 2) with hone | htwo
  · rw [htake, hone]
    exact (hcut d).1
  · rw [htake, htwo]
    exact (hcut d).2

theorem zwSymbol_head (d : Fin 4) :
    ∃ x rest, zwSymbol d = x :: rest ∧ isTail x = false := by
  match d with
  | 0 => exact ⟨_, _, rfl, rfl⟩
  | 1 => exact ⟨_, _, rfl, rfl⟩
  | 2 => exact ⟨_, _, rfl, rfl⟩
  | 3 => exact ⟨_, _, rfl, rfl⟩

/-- No symbol begins within a clean text, whatever follows it. -/
theorem Clean.not_symbol {s u v t : Bytes} {d : Fin 4} (h : Clean s) (hs : s = u ++ v)
    (hv : v ≠ []) : ¬zwSymbol d <+: v ++ t := by
  rintro ⟨t', ht⟩
  rcases List.append_eq_append_iff.mp ht with ⟨a, hva, -⟩ | ⟨a, hsymbol, -⟩
  · exact h.unmarked d ⟨u, a, by rw [hs, hva, List.append_assoc]⟩
  · rcases eq_or_ne a [] with rfl | ha
    · exact h.unmarked d ⟨u, [], by rw [hs, hsymbol]; simp⟩
    · obtain ⟨x, rest, hhead, hx⟩ := zwSymbol_head d
      obtain ⟨y, v, rfl⟩ := List.exists_cons_of_ne_nil hv
      have hxy : x = y := by
        rw [hhead, List.cons_append] at hsymbol
        exact (List.cons.inj hsymbol).1
      have hutf8 := (utf8Check_split (hxy ▸ hx) (hs ▸ h.utf8)).2
      rw [not_utf8_of_zwSymbol hsymbol hv ha] at hutf8
      cases hutf8

theorem Clean.plain_symbols {s : Bytes} (h : Clean s) : Plain symbolAt s := by
  intro u v t hs hv
  cases hsymbol : symbolAt (v ++ t) with
  | none => rfl
  | some found => exact absurd (zwSymbol_of_symbolAt hsymbol) (h.not_symbol hs hv)

theorem tile_head (p : WatermarkPayload) : ∃ rest, tile p = zwSymbol 1 ++ rest := ⟨_, rfl⟩

theorem length_tile (p : WatermarkPayload) : (tile p).length = 228 := by
  have hthree : ∀ l : List (Fin 4), (l.flatMap zwSymbol).length = 3 * l.length := by
    intro l
    induction l with
    | nil => rfl
    | cons d l ih =>
      have hd : (zwSymbol d).length = 3 := by
        match d with
        | 0 => rfl
        | 1 => rfl
        | 2 => rfl
        | 3 => rfl
      rw [List.flatMap_cons, List.length_append, ih, hd, List.length_cons]
      omega
  have hsymbols := length_tileSymbols p
  unfold tileSymbols at hsymbols
  rw [tile, hthree, hsymbols]
  rfl

theorem tile_ne_nil (p : WatermarkPayload) : tile p ≠ [] := by
  apply List.ne_nil_of_length_pos
  rw [length_tile]
  decide

theorem Clean.plain_tile {s : Bytes} (h : Clean s) (p : WatermarkPayload) : Plain (tileAt p) s := by
  intro u v t hs hv
  obtain ⟨rest, htile⟩ := tile_head p
  rw [tileAt, if_neg fun hpre => ?_]
  obtain ⟨t', ht⟩ := List.isPrefixOf_iff_prefix.mp hpre
  exact h.not_symbol hs hv ⟨rest ++ t', by rw [← ht, htile, List.append_assoc]⟩

theorem tileAt_tile (p : WatermarkPayload) (t : Bytes) :
    tileAt p (tile p ++ t) = some ((), (tile p).length) :=
  if_pos (List.isPrefixOf_iff_prefix.mpr (List.prefix_append _ _))

theorem symbols_append (symbols : List (Fin 4)) (t : Bytes) :
    extractSymbols (symbols.flatMap zwSymbol ++ t) = symbols ++ extractSymbols t := by
  induction symbols with
  | nil => rfl
  | cons d symbols ih =>
    have hne : zwSymbol d ≠ [] := by
      obtain ⟨x, rest, hhead, -⟩ := zwSymbol_head d
      rw [hhead]
      exact List.cons_ne_nil _ _
    rw [List.flatMap_cons, List.append_assoc, extractSymbols,
      tokens_token hne (symbolAt_zwSymbol d _)]
    exact congrArg (d :: ·) ih

/-! Where tiles are put. -/

/-- A place between two characters. -/
structure Boundary (text : Bytes) (k : ℕ) : Prop where
  before : utf8Check (text.take k) = true
  behind : utf8Check (text.drop k) = true

/-- The characters that end a sentence. -/
def sentenceMarks : List Bytes := [['?'], ['!'], [';'], ['\n'], ['.']] ++ wideAnchors

theorem mark_of_anchorLength {s : Bytes} (h : anchorLength s ≠ 0) :
    ∃ mark r, s = mark ++ r ∧ mark.length = anchorLength s ∧ mark ∈ sentenceMarks := by
  revert h
  fun_cases anchorLength s with
  | case1 => exact fun h => absurd rfl h
  | case2 c rest hc =>
    intro h
    refine ⟨[c], rest, rfl, rfl, ?_⟩
    rcases hc with rfl | rfl | rfl | rfl <;> decide
  | case3 => exact fun h => absurd rfl h
  | case4 rest => exact fun h => ⟨['.'], rest, rfl, rfl, by decide⟩
  | case5 c rest _ _ hwide =>
    intro h
    obtain ⟨mark, hmark, hpre⟩ := List.any_eq_true.mp hwide
    obtain ⟨r, hr⟩ := List.isPrefixOf_iff_prefix.mp hpre
    have hthree : ∀ mark ∈ wideAnchors, mark.length = 3 := by decide
    exact ⟨mark, r, hr.symm, hthree mark hmark, List.mem_append_right _ hmark⟩
  | case6 => exact fun h => absurd rfl h

/-- Such a mark is a whole character. -/
theorem utf8_sentenceMark {mark : Bytes} (h : mark ∈ sentenceMarks) :
    utf8Check mark = true ∧ ∃ x m, mark = x :: m ∧ isTail x = false := by
  have hall : ∀ mark ∈ sentenceMarks, utf8Check mark = true ∧ mark.head?.any isTail = false ∧
      mark ≠ [] := by decide
  obtain ⟨hutf8, hhead, hne⟩ := hall mark h
  obtain ⟨x, m, rfl⟩ := List.exists_cons_of_ne_nil hne
  exact ⟨hutf8, x, m, rfl, hhead⟩

theorem boundary_of_mark {u mark r : Bytes} (h : utf8Check (u ++ (mark ++ r)) = true)
    (hmark : mark ∈ sentenceMarks) : Boundary (u ++ (mark ++ r)) (u.length + mark.length) := by
  obtain ⟨hutf8, x, m, rfl, hx⟩ := utf8_sentenceMark hmark
  obtain ⟨hu, hsplit⟩ := utf8Check_split hx h
  have hrest : utf8Check r = true := (utf8Check_append hutf8 r).symm.trans hsplit
  rw [← List.append_assoc, ← List.length_append]
  constructor
  · rw [List.take_left, utf8Check_append hu]
    exact hutf8
  · rw [List.drop_left]
    exact hrest

/-- Such a place is behind a mark. -/
theorem collectAnchors_mark {minInterval skip pos last n : ℕ} {u rest : Bytes}
    (hu : u.length = pos) : ∀ k ∈ collectAnchors minInterval skip pos last n rest,
      ∃ v mark r, u ++ rest = v ++ (mark ++ r) ∧ k = v.length + mark.length ∧
        mark ∈ sentenceMarks := by
  fun_induction collectAnchors minInterval skip pos last n rest generalizing u with
  | case1 => exact fun _ hk => nomatch hk
  | case2 pos last n skip c rest ih =>
    have hnext : u ++ c :: rest = (u ++ [c]) ++ rest := by simp
    rw [hnext]
    exact ih (by simp [hu])
  | case3 pos last n c rest advance hadv =>
    rename_i ih
    have hnext : u ++ c :: rest = (u ++ [c]) ++ rest := by simp
    intro k hk
    rcases List.mem_cons.mp hk with rfl | hk
    · obtain ⟨mark, r, hs, hlength, hmark⟩ := mark_of_anchorLength hadv.1
      exact ⟨u, mark, r, by rw [hs], by rw [hlength, hu], hmark⟩
    · rw [hnext]
      exact ih (by simp [hu]) k hk
  | case4 pos last n c rest advance hadv =>
    rename_i ih
    have hnext : u ++ c :: rest = (u ++ [c]) ++ rest := by simp
    rw [hnext]
    exact ih (by simp [hu])

theorem collectAnchors_boundary {minInterval skip pos last n : ℕ} {u rest : Bytes}
    (hu : u.length = pos) (h : utf8Check (u ++ rest) = true) :
    ∀ k ∈ collectAnchors minInterval skip pos last n rest, Boundary (u ++ rest) k := by
  intro k hk
  obtain ⟨v, mark, r, hs, rfl, hmark⟩ := collectAnchors_mark hu k hk
  rw [hs] at h ⊢
  exact boundary_of_mark h hmark

theorem collectAnchors_sorted (minInterval skip pos last n : ℕ) (rest : Bytes) :
    ((pos + skip) :: collectAnchors minInterval skip pos last n rest).Pairwise (· ≤ ·) := by
  have hlower : ∀ {a b : ℕ} {l : List ℕ}, (b :: l).Pairwise (· ≤ ·) → a ≤ b →
      (a :: l).Pairwise (· ≤ ·) := by
    intro a b l h hab
    rw [List.pairwise_cons] at h ⊢
    exact ⟨fun k hk => hab.trans (h.1 k hk), h.2⟩
  fun_induction collectAnchors minInterval skip pos last n rest with
  | case1 => exact List.pairwise_singleton _ _
  | case2 last n skip pos c rest ih => exact hlower ih (by omega)
  | case3 pos last n c rest advance hadv ih =>
    have hfrom := hlower (a := pos + advance) ih (by omega)
    rw [List.pairwise_cons]
    refine ⟨fun k hk => ?_, hfrom⟩
    rcases List.mem_cons.mp hk with rfl | hk
    · omega
    · exact le_trans (by omega) ((List.pairwise_cons.mp hfrom).1 k hk)
  | case4 pos last n c rest advance hadv ih => exact hlower ih (by omega)

theorem tilePlaces_sorted (minInterval : ℕ) (text : Bytes) :
    (0 :: tilePlaces minInterval text).Pairwise (· ≤ ·) := by
  unfold tilePlaces
  dsimp only
  split
  · simp
  · exact collectAnchors_sorted _ 0 0 0 0 text

theorem tilePlaces_boundary (minInterval : ℕ) {text : Bytes} (h : utf8Check text = true) :
    ∀ k ∈ tilePlaces minInterval text, Boundary text k := by
  unfold tilePlaces
  dsimp only
  split
  · intro k hk
    rw [List.mem_singleton.mp hk]
    exact ⟨by rw [List.take_length]; exact h, by rw [List.drop_length]; rfl⟩
  · exact collectAnchors_boundary (u := []) rfl h

theorem tilePlaces_ne_nil (minInterval : ℕ) (text : Bytes) : tilePlaces minInterval text ≠ [] := by
  unfold tilePlaces
  dsimp only
  split
  · exact List.cons_ne_nil _ _
  · assumption

/-- A text in clean pieces, and what becomes of it when so many tiles are put between them. -/
inductive Tiled (p : WatermarkPayload) : ℕ → Bytes → Bytes → Prop
  | last {s : Bytes} (hs : Clean s) : Tiled p 0 s s
  | tile {n : ℕ} {s text out : Bytes} (hs : Clean s) (h : Tiled p n text out) :
      Tiled p (n + 1) (s ++ text) (s ++ (tile p ++ out))

theorem Tiled.symbols {p : WatermarkPayload} {n : ℕ} {text out : Bytes} (h : Tiled p n text out) :
    extractSymbols out = (List.replicate n (tileSymbols p)).flatten := by
  induction h with
  | @last s hs =>
    have hnone := tokens_plain hs.plain_symbols []
    rw [List.append_nil] at hnone
    exact hnone
  | tile hs _ ih =>
    rw [extractSymbols, tokens_plain hs.plain_symbols]
    exact (symbols_append _ _).trans (by rw [ih, List.replicate_succ, List.flatten_cons]; rfl)

theorem Tiled.remainder {p : WatermarkPayload} {n : ℕ} {text out : Bytes}
    (h : Tiled p n text out) : removeTiles p out = text := by
  induction h with
  | @last s hs =>
    have hkeep := remainder_plain (hs.plain_tile p) []
    rw [List.append_nil] at hkeep
    exact hkeep.trans (List.append_nil s)
  | tile hs _ ih =>
    rw [removeTiles, remainder_plain (hs.plain_tile p),
      remainder_token (tile_ne_nil p) (tileAt_tile p _)]
    exact congrArg _ ih

theorem Tiled.length {p : WatermarkPayload} {n : ℕ} {text out : Bytes} (h : Tiled p n text out) :
    out.length = text.length + 228 * n := by
  induction h with
  | last hs => rfl
  | tile hs _ ih =>
    rw [List.length_append, List.length_append, List.length_append, ih, length_tile]
    omega

/-- A part of a clean text between two characters. -/
theorem Clean.part {text : Bytes} (h : Clean text) {i j : ℕ} (hij : i ≤ j) (hi : Boundary text i)
    (hj : Boundary text j) : Clean ((text.drop i).take (j - i)) where
  utf8 := by
    have htake : text.take j = text.take i ++ (text.drop i).take (j - i) := by
      rw [← List.take_add, Nat.add_sub_cancel' hij]
    have hbefore := hj.before
    rwa [htake, utf8Check_append hi.before] at hbefore
  unmarked := fun d hd =>
    h.unmarked d (hd.trans ((List.take_prefix _ _).isInfix.trans (List.drop_suffix _ _).isInfix))

theorem splice_tiled (p : WatermarkPayload) {text : Bytes} (h : Clean text) {pos : ℕ}
    {places : List ℕ} (hsorted : (pos :: places).Pairwise (· ≤ ·))
    (hcuts : ∀ k ∈ pos :: places, Boundary text k) :
    Tiled p places.length (text.drop pos) (splice (tile p) pos places (text.drop pos)) := by
  induction places generalizing pos with
  | nil =>
    exact .last ⟨(hcuts pos List.mem_cons_self).behind,
      fun d hd => h.unmarked d (hd.trans (List.drop_suffix _ _).isInfix)⟩
  | cons place places ih =>
    have hle : pos ≤ place := (List.pairwise_cons.mp hsorted).1 place List.mem_cons_self
    have hpart := h.part hle (hcuts pos List.mem_cons_self)
      (hcuts place (List.mem_cons_of_mem _ List.mem_cons_self))
    have hrest := ih (List.pairwise_cons.mp hsorted).2
      fun k hk => hcuts k (List.mem_cons_of_mem _ hk)
    have hdrop : text.drop place = (text.drop pos).drop (place - pos) := by
      rw [List.drop_drop, Nat.add_sub_cancel' hle]
    rw [hdrop] at hrest
    have htiled := Tiled.tile hpart hrest
    rw [List.take_append_drop, ← List.append_assoc] at htiled
    exact htiled

theorem inject_tiled (p : WatermarkPayload) (minInterval : ℕ) {text : Bytes} (h : Clean text) :
    Tiled p (tilePlaces minInterval text).length text
      (watermarkInjectMultiTile p minInterval text) := by
  have hzero : Boundary text 0 := ⟨rfl, h.utf8⟩
  refine @splice_tiled p text h 0 _ (tilePlaces_sorted minInterval text) fun k hk => ?_
  rcases List.mem_cons.mp hk with rfl | hk
  · exact hzero
  · exact tilePlaces_boundary minInterval h.utf8 k hk

/-- A marked text gives the payload once for every tile, up to the capacity, and without the
tiles it is the text again. -/
theorem decode_inject (p : WatermarkPayload) (minInterval : ℕ) (text : Bytes)
    (hutf8 : utf8Check text = true) (hunmarked : ∀ d, ¬zwSymbol d <:+: text) :
    (∀ cap : ℤ, watermarkDecodeAll (watermarkInjectMultiTile p minInterval text) cap =
        if cap ≤ 0 then none
        else some (List.replicate (min cap.toNat (tilePlaces minInterval text).length) p)) ∧
      removeTiles p (watermarkInjectMultiTile p minInterval text) = text ∧
      (watermarkInjectMultiTile p minInterval text).length =
        text.length + 228 * (tilePlaces minInterval text).length := by
  have htiled := inject_tiled p minInterval ⟨hutf8, hunmarked⟩
  have hpos := List.length_pos_of_ne_nil (tilePlaces_ne_nil minInterval text)
  refine ⟨fun cap => ?_, htiled.remainder, htiled.length⟩
  have hlong : ¬(watermarkInjectMultiTile p minInterval text).length < 3 := by
    rw [htiled.length]
    omega
  have hsymbols : tileSymbols p ≠ [] := by
    apply List.ne_nil_of_length_pos
    rw [length_tileSymbols]
    decide
  rw [watermarkDecodeAll, htiled.symbols, tokens_replicate hsymbols (frameAt_tileSymbols p),
    List.take_replicate]
  by_cases hcap : cap ≤ 0
  · rw [if_pos (Or.inr hcap), if_pos hcap]
  · have hsome : List.replicate (min cap.toNat (tilePlaces minInterval text).length) p ≠ [] := by
      apply List.ne_nil_of_length_pos
      rw [List.length_replicate]
      omega
    rw [if_neg (not_or.mpr ⟨hlong, hcap⟩), if_neg hcap]
    exact if_neg hsome

/-- A short text has one tile, at its end. -/
theorem decode_inject_hello :
    (∀ cap : ℤ, watermarkDecodeAll (watermarkInjectMultiTile ⟨1, 2, 3⟩ 100 ['h', 'i', '!']) cap =
        if cap ≤ 0 then none
        else some (List.replicate
          (min cap.toNat (tilePlaces 100 ['h', 'i', '!']).length) ⟨1, 2, 3⟩)) ∧
      removeTiles ⟨1, 2, 3⟩ (watermarkInjectMultiTile ⟨1, 2, 3⟩ 100 ['h', 'i', '!']) =
        ['h', 'i', '!'] ∧
      (watermarkInjectMultiTile ⟨1, 2, 3⟩ 100 ['h', 'i', '!']).length =
        3 + 228 * (tilePlaces 100 ['h', 'i', '!']).length := by
  refine decode_inject ⟨1, 2, 3⟩ 100 ['h', 'i', '!'] (by decide) fun d hd => ?_
  have hlead : Char.ofNat 0xE2 ∈ zwSymbol d ∨ Char.ofNat 0xEF ∈ zwSymbol d := by
    revert d
    decide
  have hnone : Char.ofNat 0xE2 ∉ ['h', 'i', '!'] ∧ Char.ofNat 0xEF ∉ ['h', 'i', '!'] := by decide
  rcases hlead with hlead | hlead
  · exact hnone.1 (hd.subset hlead)
  · exact hnone.2 (hd.subset hlead)

end Aigate.Watermark
