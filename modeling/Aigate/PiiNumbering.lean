import Aigate.PiiScan

/-!
# Which placeholders are handed out

The placeholders of a type are numbered from one, up to the number of entities that its pass
is the first to find. A text is restored exactly if it had none of these in it before.
-/
namespace Aigate.PiiNumbering
open Text RegexSearch PiiText PiiRestore MarkedText PiiMarks PiiRoundTrip PiiScan

/-- The placeholder of a type with a number. -/
def placeholderOf (type : PiiType) (n : ℕ) : Bytes := bracketed (type.tag ++ '_' :: decimal n)

theorem placeholderOf_injective {a b : PiiType} {n k : ℕ}
    (h : placeholderOf a n = placeholderOf b k) : a = b ∧ n = k :=
  name_injective (List.append_cancel_right (List.cons.inj h).2)

/-- Every number up to the count of a type is in use, and no other. -/
def Numbered (m : SessionMap) : Prop :=
  ∀ type n, (∃ e ∈ m.entries, e.placeholder = placeholderOf type n) ↔
    1 ≤ n ∧ n ≤ m.entries.countP (·.type = type)

/-- From one map to another, only entries of some types have come behind the others. -/
structure Adds (types : List PiiType) (m m' : SessionMap) : Prop where
  behind : ∃ new, m'.entries = m.entries ++ new ∧ ∀ e ∈ new, e.type ∈ types
  numbered : Numbered m → Numbered m'

theorem adds_refl (types : List PiiType) (m : SessionMap) : Adds types m m :=
  ⟨⟨[], (List.append_nil _).symm, by simp⟩, id⟩

theorem Adds.trans {types : List PiiType} {m m' m'' : SessionMap} (h : Adds types m m')
    (h' : Adds types m' m'') : Adds types m m'' := by
  obtain ⟨new, hnew, htypes⟩ := h.behind
  obtain ⟨new', hnew', htypes'⟩ := h'.behind
  refine ⟨⟨new ++ new', ?_, fun e he => ?_⟩, h'.numbered ∘ h.numbered⟩
  · rw [hnew', hnew, List.append_assoc]
  · rcases List.mem_append.mp he with he | he
    · exact htypes e he
    · exact htypes' e he

theorem Adds.mono {types types' : List PiiType} {m m' : SessionMap} (h : Adds types m m')
    (hsub : types ⊆ types') : Adds types' m m' := by
  obtain ⟨new, hnew, htypes⟩ := h.behind
  exact ⟨⟨new, hnew, fun e he => hsub (htypes e he)⟩, h.numbered⟩

/-- Entries of other types do not change the count of a type. -/
theorem Adds.count_eq {types : List PiiType} {m m' : SessionMap} (h : Adds types m m')
    {type : PiiType} (htype : type ∉ types) :
    m'.entries.countP (·.type = type) = m.entries.countP (·.type = type) := by
  obtain ⟨new, hnew, htypes⟩ := h.behind
  have hzero : new.countP (·.type = type) = 0 := by
    rw [List.countP_eq_zero]
    intro e he heq
    exact htype (of_decide_eq_true heq ▸ htypes e he)
  rw [hnew, List.countP_append, hzero, Nat.add_zero]

/-- All that one pass adds is of its type. -/
theorem Adds.count_add {type : PiiType} {m m' : SessionMap} (h : Adds [type] m m') :
    m'.entries.countP (·.type = type) + m.entries.length =
      m.entries.countP (·.type = type) + m'.entries.length := by
  obtain ⟨new, hnew, htypes⟩ := h.behind
  have hall : new.countP (·.type = type) = new.length := by
    rw [List.countP_eq_length]
    intro e he
    exact decide_eq_true (List.mem_singleton.mp (htypes e he))
  rw [hnew, List.countP_append, hall, List.length_append]
  omega

theorem getOrCreate_adds (m : SessionMap) (type : PiiType) (w : Bytes) :
    Adds [type] m (m.getOrCreate type w).1 := by
  unfold SessionMap.getOrCreate
  split
  · exact adds_refl _ m
  · split
    · exact adds_refl _ m
    · split
      · refine ⟨⟨_, rfl, fun e he => ?_⟩, fun hnumbered => ?_⟩
        · rw [List.mem_singleton.mp he]
          exact List.mem_singleton_self type
        · intro other n
          dsimp only
          rw [List.countP_append]
          constructor
          · rintro ⟨e, he, hname⟩
            rcases List.mem_append.mp he with he | he
            · have := (hnumbered other n).mp ⟨e, he, hname⟩
              omega
            · rw [List.mem_singleton.mp he] at hname
              obtain ⟨rfl, rfl⟩ := placeholderOf_injective (a := type) hname
              simp
          · rintro ⟨hone, hle⟩
            by_cases hold : n ≤ m.entries.countP (·.type = other)
            · obtain ⟨e, he, hname⟩ := (hnumbered other n).mpr ⟨hone, hold⟩
              exact ⟨e, List.mem_append_left _ he, hname⟩
            · refine ⟨_, List.mem_append_right _ (List.mem_singleton_self _), ?_⟩
              rw [List.countP_singleton] at hle
              dsimp only at hle
              split at hle
              · rename_i htype
                obtain rfl := of_decide_eq_true htype
                have hn : n = m.entries.countP (·.type = type) + 1 := by omega
                rw [hn]
                rfl
              · omega
      · exact adds_refl _ m

theorem replaceLoop_adds (type : PiiType) (action : PiiAction) (rounds : ℕ) (cursor : Bytes)
    {p : Pass} {m : SessionMap} (hmap : p.map = some m) :
    ∃ m', (replaceLoop type action rounds cursor p).map = some m' ∧ Adds [type] m m' := by
  induction rounds generalizing cursor p m with
  | zero => exact ⟨m, hmap, adds_refl _ m⟩
  | succ rounds ih =>
    cases cursor with
    | nil => exact ⟨m, hmap, adds_refl _ m⟩
    | cons c cursor =>
      rw [replaceLoop]
      split
      · exact ⟨m, hmap, adds_refl _ m⟩
      · exact ih _ hmap
      · rename_i so eo _
        have hrepl : ∃ m', (replacement type action p.map
            (((c :: cursor).drop so).take (eo - so))).1 = some m' ∧ Adds [type] m m' := by
          rw [hmap]
          cases action with
          | anonymizeRestore => exact ⟨_, rfl, getOrCreate_adds m type _⟩
          | off => exact ⟨m, rfl, adds_refl _ m⟩
          | maskPartial => exact ⟨m, rfl, adds_refl _ m⟩
          | redactTag => exact ⟨m, rfl, adds_refl _ m⟩
          | block => exact ⟨m, rfl, adds_refl _ m⟩
        obtain ⟨m', hm', hadds⟩ := hrepl
        obtain ⟨m'', hm'', hadds'⟩ := ih ((c :: cursor).drop eo)
          (p := ⟨_, _, _, true, _⟩) hm'
        exact ⟨m'', hm'', hadds.trans hadds'⟩

theorem foldl_adds (cfg : PiiConfig) (types : List PiiType) {t : Transformed} {m : SessionMap}
    (hmap : t.map = some m) :
    ∃ m', (types.foldl (replaceEntityRegex cfg) t).map = some m' ∧ Adds types m m' := by
  induction types generalizing t m with
  | nil => exact ⟨m, hmap, adds_refl _ m⟩
  | cons type types ih =>
    have hstep : ∃ m', (replaceEntityRegex cfg t type).map = some m' ∧ Adds [type] m m' := by
      unfold replaceEntityRegex
      split
      · exact ⟨m, hmap, adds_refl _ m⟩
      · exact replaceLoop_adds type _ _ _ hmap
    obtain ⟨m', hm', hadds⟩ := hstep
    obtain ⟨m'', hm'', hadds'⟩ := ih hm'
    exact ⟨m'', hm'', (hadds.mono (by simp)).trans (hadds'.mono (List.subset_cons_self _ _))⟩

/-- How many entities the pass of a type is the first to find in a text. -/
def foundFirst (cfg : PiiConfig) (text : Bytes) (type : PiiType) : ℕ :=
  let before := scanOrder.takeWhile (· ≠ type)
  (entitiesFound cfg (before ++ [type]) text).dedup.length -
    (entitiesFound cfg before text).dedup.length

/-- The run of the passes of some types with an empty map. -/
def passes (cfg : PiiConfig) (types : List PiiType) (text : Bytes) : Transformed :=
  types.foldl (replaceEntityRegex cfg) ⟨text, some .empty, .off, false, []⟩

theorem transformPiiText_eq (cfg : PiiConfig) (text : Bytes) :
    transformPiiText cfg (some .empty) text = passes cfg scanOrder text := by
  unfold transformPiiText
  split
  · rename_i hnil
    subst hnil
    have hstep : ∀ type t, t.text = [] → t.map = some .empty → replaceEntityRegex cfg t type = t := by
      rintro type ⟨_, _, action, changed, originals⟩ rfl rfl
      unfold replaceEntityRegex
      split
      · rfl
      · simp [replaceLoop]
    have hall : ∀ types : List PiiType, passes cfg types [] = ⟨[], some .empty, .off, false, []⟩ := by
      intro types
      unfold passes
      induction types with
      | nil => rfl
      | cons type types ih => rw [List.foldl_cons, hstep type _ rfl rfl, ih]
    rw [hall]
  · rfl

/-- The map after some passes that the whole run extends. -/
theorem passes_fits {cfg : PiiConfig} {text : Bytes} {types rest : List PiiType}
    (h : Reversible (passes cfg (types ++ rest) text).action
      (passes cfg (types ++ rest) text).originals) :
    ∃ m, (passes cfg types text).map = some m ∧ Marked text m (passes cfg types text).text ∧
      MapOk m.entries ∧ m.entries.length = (entitiesFound cfg types text).dedup.length := by
  have hextends := foldl_extends cfg rest (passes cfg types text)
  have hsplit : passes cfg (types ++ rest) text =
      rest.foldl (replaceEntityRegex cfg) (passes cfg types text) := List.foldl_append
  rw [hsplit] at h
  obtain ⟨m, hmap, hfits, hmarked⟩ :=
    foldl_stands (stands_start text) (h.of_extends hextends.1 hextends.2)
  refine ⟨m, hmap, hmarked, hfits.ok, ?_⟩
  have hok : KeepsOk (some SessionMap.empty) := by
    intro m' hm'
    rw [← Option.some.inj hm']
    exact mapOk_nil
  rw [← foldl_originals cfg types text hok]
  exact hfits.length_eq

/-- The count of a type is the number of entities that its pass is the first to find. -/
theorem count_eq_foundFirst {cfg : PiiConfig} {text : Bytes}
    (h : Reversible (passes cfg scanOrder text).action (passes cfg scanOrder text).originals)
    {m : SessionMap} (hm : (passes cfg scanOrder text).map = some m) (type : PiiType) :
    m.entries.countP (·.type = type) = foundFirst cfg text type := by
  obtain ⟨behind, hsplit, hbefore, hbehind⟩ : ∃ behind,
      scanOrder = scanOrder.takeWhile (· ≠ type) ++ type :: behind ∧
        type ∉ scanOrder.takeWhile (· ≠ type) ∧ type ∉ behind := by
    cases type <;> exact ⟨_, rfl, by decide, by decide⟩
  unfold foundFirst
  generalize scanOrder.takeWhile (· ≠ type) = before at hsplit hbefore ⊢
  rw [hsplit] at h hm
  obtain ⟨m₁, hm₁, -, -, hlength₁⟩ := passes_fits h
  rw [List.append_cons] at h hm
  obtain ⟨m₂, hm₂, -, -, hlength₂⟩ := passes_fits h
  -- none before its pass, and none behind it
  obtain ⟨m₁', hm₁', hadds₁⟩ := foldl_adds cfg before
    (t := ⟨text, some .empty, .off, false, []⟩) rfl
  obtain rfl := Option.some.inj (hm₁'.symm.trans hm₁)
  have hnone := hadds₁.count_eq hbefore
  obtain ⟨m₂', hm₂', hadds₂⟩ := foldl_adds cfg [type] hm₁
  have hpass : passes cfg (before ++ [type]) text =
      [type].foldl (replaceEntityRegex cfg) (passes cfg before text) := List.foldl_append
  rw [hpass] at hm₂
  obtain rfl := Option.some.inj (hm₂'.symm.trans hm₂)
  have hcount := hadds₂.count_add
  rw [← hpass] at hm₂
  obtain ⟨m', hm', hadds⟩ := foldl_adds cfg behind hm₂
  have hrest : passes cfg (before ++ [type] ++ behind) text =
      behind.foldl (replaceEntityRegex cfg) (passes cfg (before ++ [type]) text) :=
    List.foldl_append
  rw [hrest] at hm
  obtain rfl := Option.some.inj (hm'.symm.trans hm)
  rw [hadds.count_eq hbehind]
  have hzero : (SessionMap.empty.entries).countP (·.type = type) = 0 := rfl
  dsimp only
  omega

/-- A text is restored exactly if none of the placeholders handed out for its entities was in
it before. -/
theorem roundTrip_iff (cfg : PiiConfig) (text : Bytes)
    (h : Reversible (transformPiiText cfg (some .empty) text).action
      (transformPiiText cfg (some .empty) text).originals) :
    ∃ m, (transformPiiText cfg (some .empty) text).map = some m ∧
      (restored m (transformPiiText cfg (some .empty) text).text = text ↔
        ∀ type n, 1 ≤ n → n ≤ foundFirst cfg text type → ¬placeholderOf type n <:+: text) := by
  rw [transformPiiText_eq] at h ⊢
  have h' : Reversible (passes cfg (scanOrder ++ []) text).action
      (passes cfg (scanOrder ++ []) text).originals := h
  obtain ⟨m, hm, hmarked, hok, -⟩ := passes_fits h'
  refine ⟨m, hm, ?_⟩
  obtain ⟨m', hm', hadds⟩ := foldl_adds cfg scanOrder
    (t := ⟨text, some .empty, .off, false, []⟩) rfl
  obtain rfl := Option.some.inj (hm'.symm.trans hm)
  have hempty : Numbered .empty := fun type n => by
    simp only [SessionMap.empty, List.not_mem_nil, false_and, exists_false, List.countP_nil,
      false_iff]
    omega
  have hnumbered := hadds.numbered hempty
  rw [hmarked.restored_iff hok]
  constructor
  · intro hnone type n hone hle
    rw [← count_eq_foundFirst h hm] at hle
    obtain ⟨e, he, hname⟩ := (hnumbered type n).mpr ⟨hone, hle⟩
    rw [← hname]
    exact hnone e he
  · intro hnone e he
    obtain ⟨n, -, hname⟩ := hok.named e he
    have hn := (hnumbered e.type n).mp ⟨e, he, hname⟩
    rw [count_eq_foundFirst h hm] at hn
    have := hnone e.type n hn.1 hn.2
    rwa [← show e.placeholder = placeholderOf e.type n from hname] at this

/-- A text with a phone number, which is called `[PHONE_1]`. -/
def phoneText : Bytes := ascii "call 13812345678"

theorem roundTrip_phone :
    ∃ m, (transformPiiText defaultPiiConfig (some .empty) phoneText).map = some m ∧
      (restored m (transformPiiText defaultPiiConfig (some .empty) phoneText).text = phoneText ↔
        ∀ type n, 1 ≤ n → n ≤ foundFirst defaultPiiConfig phoneText type →
          ¬placeholderOf type n <:+: phoneText) :=
  roundTrip_iff defaultPiiConfig phoneText ⟨Or.inr (by decide +kernel), by decide +kernel⟩

/-- The same number behind its own placeholder. -/
def takenText : Bytes := ascii "[PHONE_1] 13812345678"

/-- What was written as a placeholder comes back as the number. -/
theorem not_roundTrip_taken :
    Reversible (transformPiiText defaultPiiConfig (some .empty) takenText).action
        (transformPiiText defaultPiiConfig (some .empty) takenText).originals ∧
      (transformPiiText defaultPiiConfig (some .empty) takenText).map.map
          (restored · (transformPiiText defaultPiiConfig (some .empty) takenText).text) =
        some (ascii "13812345678 13812345678") ∧
      takenText ≠ ascii "13812345678 13812345678" :=
  ⟨⟨Or.inr (by decide +kernel), by decide +kernel⟩, by decide +kernel, by decide +kernel⟩

end Aigate.PiiNumbering
