import Aigate.MarkedText
import Aigate.PiiRestore

/-!
# Placeholders in a text

No expression matches a part of a placeholder, and no entity has a bracket in it. So a text
with placeholders of a session map is the text that was given with some parts marked, and
restoring it gives that text back exactly if none of the placeholders was in it before.
-/
namespace Aigate.PiiMarks
open Text RegexSearch PiiText PiiRestore MarkedText

/-- The letters of the entities. -/
def isEntityChar (c : Char) : Bool :=
  c.isAlphanum || c = '.' || c = '_' || c = '%' || c = '+' || c = '-' || c = '@'

/-- The letters of a placeholder between its brackets. -/
def isTokenChar (c : Char) : Bool := c.isUpper || c.isDigit || c = '_'

/-- A word that is not a part of a placeholder. -/
def Foreign (w : Bytes) : Prop := (∃ c ∈ w, isTokenChar c = false) ∨ 3 ≤ w.countP Char.isDigit

theorem Foreign.append_left {w : Bytes} (h : Foreign w) (v : Bytes) : Foreign (v ++ w) := by
  rcases h with ⟨c, hc, htoken⟩ | h
  · exact Or.inl ⟨c, List.mem_append_right _ hc, htoken⟩
  · refine Or.inr ?_
    rw [List.countP_append]
    omega

theorem Foreign.append_right {w : Bytes} (h : Foreign w) (v : Bytes) : Foreign (w ++ v) := by
  rcases h with ⟨c, hc, htoken⟩ | h
  · exact Or.inl ⟨c, List.mem_append_left _ hc, htoken⟩
  · refine Or.inr ?_
    rw [List.countP_append]
    omega

/-- An expression that matches foreign words only. -/
def ForeignRegex (r : Regex Char) : Prop := ∀ w ∈ r.lang, Foreign w

theorem foreign_seq_left {r : Regex Char} (h : ForeignRegex r) (s : Regex Char) :
    ForeignRegex (.seq r s) := by
  rintro w hw
  obtain ⟨u, hu, v, -, rfl⟩ := Language.mem_mul.mp hw
  exact (h u hu).append_right v

theorem foreign_seq_right (r : Regex Char) {s : Regex Char} (h : ForeignRegex s) :
    ForeignRegex (.seq r s) := by
  rintro w hw
  obtain ⟨u, -, v, hv, rfl⟩ := Language.mem_mul.mp hw
  exact (h v hv).append_left u

theorem foreign_alt {r s : Regex Char} (hr : ForeignRegex r) (hs : ForeignRegex s) :
    ForeignRegex (.alt r s) := by
  intro w hw
  rcases (Language.mem_add _ _ _).mp hw with hw | hw
  · exact hr w hw
  · exact hs w hw

theorem foreign_one {c : Char} (h : isTokenChar c = false) : ForeignRegex (one c) := by
  rintro w ⟨a, ha, rfl⟩
  obtain rfl := of_decide_eq_true ha
  exact Or.inl ⟨a, List.mem_singleton_self a, h⟩

theorem digits_times {n : ℕ} {w : Bytes} (h : w ∈ (digit.times n).lang) :
    w.countP Char.isDigit = n := by
  induction n generalizing w with
  | zero =>
    rw [Regex.times, Regex.lang, Language.mem_one] at h
    rw [h, List.countP_nil]
  | succ n ih =>
    obtain ⟨u, ⟨a, ha, rfl⟩, v, hv, rfl⟩ := Language.mem_mul.mp h
    rw [List.singleton_append, List.countP_cons_of_pos ha, ih hv]

theorem foreign_digits {n : ℕ} (h : 3 ≤ n) : ForeignRegex (digit.times n) :=
  fun _ hw => Or.inr (h.trans (digits_times hw).ge)

/-- No expression matches a part of a placeholder. -/
theorem foreign_regex (type : PiiType) : ForeignRegex type.regex := by
  cases type with
  | phone => exact foreign_seq_right _ (foreign_seq_right _ (foreign_digits (by decide)))
  | idCard => exact foreign_seq_right _ (foreign_seq_left (foreign_digits (by decide)) _)
  | bankCard => exact foreign_seq_left (foreign_digits (by decide)) _
  | email => exact foreign_seq_right _ (foreign_seq_left (foreign_one (by decide)) _)
  | apiKey =>
    refine foreign_alt ?_ (foreign_alt ?_ ?_)
    · exact foreign_seq_left (foreign_seq_left (foreign_one (by decide)) _) _
    · exact foreign_seq_left (foreign_seq_left (foreign_one (by decide)) _) _
    · exact foreign_seq_left (foreign_seq_left (foreign_one (by decide)) _) _
  | ipAddress => exact foreign_seq_right _ (foreign_seq_left (foreign_one (by decide)) _)

theorem entityChar_of_alphanum {c : Char} (h : c.isAlphanum = true) : isEntityChar c = true := by
  simp [isEntityChar, h]

theorem entityChar_of_digit {c : Char} (h : c.isDigit = true) : isEntityChar c = true :=
  entityChar_of_alphanum (by simp [Char.isAlphanum, h])

theorem entityChar_of_range {a b c : Char} (ha : '0' ≤ a) (hb : b ≤ '9')
    (hc : (a ≤ c && c ≤ b) = true) : isEntityChar c = true := by
  rw [Bool.and_eq_true, decide_eq_true_eq, decide_eq_true_eq] at hc
  refine entityChar_of_digit ?_
  simp only [Char.isDigit, Bool.and_eq_true, decide_eq_true_eq]
  exact ⟨ha.trans hc.1, hc.2.trans hb⟩

/-- All letters of an expression are those of entities. -/
abbrev Lettered (r : Regex Char) : Prop := r.Within fun c => isEntityChar c = true

theorem lettered_one {c : Char} (h : isEntityChar c = true) : Lettered (one c) := by
  intro a ha
  rw [of_decide_eq_true ha]
  exact h

theorem lettered_literal {w : List Char} (h : w.all isEntityChar = true) : Lettered (literal w) := by
  induction w with
  | nil => trivial
  | cons c w ih =>
    simp only [List.all_cons, Bool.and_eq_true] at h
    exact ⟨lettered_one h.1, ih h.2⟩

theorem lettered_digit : Lettered digit := fun _ hc => entityChar_of_digit hc

theorem lettered_range {a b : Char} (ha : '0' ≤ a) (hb : b ≤ '9') : Lettered (range a b) :=
  fun _ hc => entityChar_of_range ha hb hc

theorem regex_within (type : PiiType) : Lettered type.regex := by
  cases type with
  | phone =>
    exact ⟨lettered_one (by decide), lettered_range (by decide) (by decide),
      within_times lettered_digit 9⟩
  | idCard =>
    refine ⟨lettered_range (by decide) (by decide), within_times lettered_digit 5,
      ⟨lettered_literal (by decide), lettered_literal (by decide), lettered_literal (by decide)⟩,
      within_times lettered_digit 2, ⟨⟨?_, ?_⟩, ?_, ?_⟩, ⟨⟨?_, ?_⟩, ⟨?_, lettered_digit⟩, ?_, ?_⟩,
      within_times lettered_digit 3, fun c hc => ?_⟩
    iterate 3
      · exact lettered_one (by decide)
      · exact lettered_range (by decide) (by decide)
    · exact lettered_range (by decide) (by decide)
    · exact lettered_one (by decide)
    · exact lettered_range (by decide) (by decide)
    · simp only [isIdDigit, Bool.or_eq_true, decide_eq_true_eq] at hc
      rcases hc with (hc | rfl) | rfl
      · exact entityChar_of_digit hc
      · decide
      · decide
  | bankCard => exact within_between lettered_digit 13 19
  | email =>
    refine ⟨within_atLeast ?_ 1, lettered_one (by decide), within_atLeast ?_ 1,
      lettered_one (by decide), within_atLeast ?_ 2⟩
    · intro c hc
      simp only [Bool.or_eq_true, decide_eq_true_eq] at hc
      simp only [isEntityChar, Bool.or_eq_true, decide_eq_true_eq]
      tauto
    · intro c hc
      simp only [Bool.or_eq_true, decide_eq_true_eq] at hc
      simp only [isEntityChar, Bool.or_eq_true, decide_eq_true_eq]
      tauto
    · exact fun c hc => entityChar_of_alphanum (by simp [Char.isAlphanum, hc])
  | apiKey =>
    have hchar : Lettered (.oneOf Char.isAlphanum) := fun _ hc => entityChar_of_alphanum hc
    have htail := within_atLeast hchar 20
    exact ⟨⟨lettered_literal (by decide), htail⟩, ⟨lettered_literal (by decide), htail⟩,
      lettered_literal (by decide), htail⟩
  | ipAddress =>
    have hpart := within_between lettered_digit 1 3
    exact ⟨hpart, lettered_one (by decide), hpart, lettered_one (by decide), hpart,
      lettered_one (by decide), hpart⟩

theorem regex_not_nullable (type : PiiType) : type.regex.nullable = false := by
  cases type <;> rfl

/-- What is known of every entity. -/
structure IsEntity (w : Bytes) : Prop where
  nonempty : w ≠ []
  letters : ∀ c ∈ w, isEntityChar c = true
  foreign : Foreign w

theorem isEntity_of_mem {type : PiiType} {w : Bytes} (h : w ∈ type.regex.lang) : IsEntity w where
  nonempty := by
    rintro rfl
    rw [← nullable_iff, regex_not_nullable] at h
    cases h
  letters := (regex_within type).forall_mem h
  foreign := foreign_regex type w h

theorem IsEntity.not_mem {w : Bytes} (h : IsEntity w) {c : Char} (hc : isEntityChar c = false) :
    c ∉ w := by
  intro hm
  rw [h.letters c hm] at hc
  cases hc

/-- What stands between the brackets of a placeholder. -/
structure IsToken (body : Bytes) : Prop where
  letters : ∀ c ∈ body, isTokenChar c = true
  digits : body.countP Char.isDigit ≤ 2
  length_le : body.length ≤ 30

theorem tag_letters (type : PiiType) :
    (∀ c ∈ type.tag, isTokenChar c = true) ∧ type.tag.countP Char.isDigit = 0 ∧
      type.tag.length ≤ 9 := by
  have htag : (type.tag.all fun c => isTokenChar c && !c.isDigit) = true ∧ type.tag.length ≤ 9 := by
    cases type <;> decide +kernel
  have hletter : ∀ c ∈ type.tag, isTokenChar c = true ∧ (!c.isDigit) = true := fun c hc =>
    Bool.and_eq_true_iff.mp (List.all_eq_true.mp htag.1 c hc)
  refine ⟨fun c hc => (hletter c hc).1, ?_, htag.2⟩
  rw [List.countP_eq_zero]
  intro c hc
  simpa using (hletter c hc).2

theorem isToken_tag (type : PiiType) : IsToken type.tag := by
  obtain ⟨hletters, hdigits, hlength⟩ := tag_letters type
  exact ⟨hletters, hdigits.trans_le (by decide), hlength.trans (by decide)⟩

theorem isToken_name (type : PiiType) {n : ℕ} (hn : n < 100) :
    IsToken (type.tag ++ '_' :: decimal n) := by
  obtain ⟨hletters, hzero, htag⟩ := tag_letters type
  have hlength : (decimal n).length ≤ 2 := decimal_length_le (by norm_num) (by omega)
  refine ⟨?_, ?_, ?_⟩
  · intro c hc
    rcases List.mem_append.mp hc with hc | hc
    · exact hletters c hc
    · rcases List.mem_cons.mp hc with rfl | hc
      · decide
      · simp [isTokenChar, decimal_digits hc]
  · have hone : ¬ Char.isDigit '_' = true := by decide
    have := List.countP_le_length (p := Char.isDigit) (l := decimal n)
    rw [List.countP_append, List.countP_cons_of_neg hone]
    omega
  · rw [List.length_append, List.length_cons]
    omega

/-- No entity is a part of a placeholder. -/
theorem Foreign.not_infix {w body : Bytes} (h : Foreign w) (hbody : IsToken body) :
    ¬w <:+: body := by
  intro hpart
  rcases h with ⟨c, hc, htoken⟩ | h
  · rw [hbody.letters c (hpart.subset hc)] at htoken
    cases htoken
  · have := (hpart.sublist.countP_le (p := Char.isDigit)).trans hbody.digits
    omega

/-- A session map as the passes leave it: the placeholders are numbered within their types,
and neither a placeholder nor an original comes twice. -/
structure MapOk (entries : List PiiEntry) : Prop where
  named : ∀ e ∈ entries, ∃ n, n ≤ entries.countP (·.type = e.type) ∧
    e.placeholder = bracketed (e.type.tag ++ '_' :: decimal n)
  distinct : (entries.map PiiEntry.placeholder).Nodup
  once : (entries.map PiiEntry.original).Nodup
  entity : ∀ e ∈ entries, IsEntity e.original

theorem placeholder_eq {m : SessionMap} (h : MapOk m.entries) {e : PiiEntry} (he : e ∈ m.entries) :
    ∃ body, IsToken body ∧ e.placeholder = '[' :: body ++ [']'] := by
  obtain ⟨n, hn, hname⟩ := h.named e he
  have hle := hn.trans (List.countP_le_length.trans m.bounded)
  exact ⟨_, isToken_name e.type (hle.trans_lt (by decide)), hname⟩

theorem isWord_of_token {c : Char} (h : isTokenChar c = true) : isWord c = true := by
  simp only [isTokenChar, isWord, Char.isAlphanum, Char.isAlpha, Bool.or_eq_true] at h ⊢
  tauto

theorem token_ne_close {body : Bytes} (h : IsToken body) : ∀ c ∈ body, c ≠ ']' ∧ c ≠ '[' := by
  intro c hc
  have htoken := h.letters c hc
  refine ⟨?_, ?_⟩
  · rintro rfl
    revert htoken
    decide
  · rintro rfl
    revert htoken
    decide

theorem ahead_token {n : ℕ} {body : Bytes} (hbody : ∀ c ∈ body, isWord c = true ∧ c ≠ ']')
    (hn : body.length < n) (rest : Bytes) : ahead n (body ++ ']' :: rest) = .closed body.length := by
  induction body generalizing n with
  | nil =>
    obtain ⟨n, rfl⟩ := Nat.exists_eq_succ_of_ne_zero (Nat.pos_iff_ne_zero.mp hn)
    simp [ahead]
  | cons c body ih =>
    obtain ⟨n, rfl⟩ := Nat.exists_eq_succ_of_ne_zero (Nat.pos_iff_ne_zero.mp (Nat.zero_lt_of_lt hn))
    obtain ⟨hword, hne⟩ := hbody c List.mem_cons_self
    have hih := ih (fun d hd => hbody d (List.mem_cons_of_mem _ hd)) (by simpa using hn)
    rw [List.cons_append, ahead, if_neg hne, if_pos hword, hih]
    rfl

theorem lookupToken_placeholder {m : SessionMap} (h : MapOk m.entries) {e : PiiEntry}
    (he : e ∈ m.entries) : m.lookupToken e.placeholder = some e.original := by
  obtain ⟨body, -, hname⟩ := placeholder_eq h he
  have hne : e.placeholder ≠ [] := by
    rw [hname]
    exact List.cons_ne_nil _ _
  unfold SessionMap.lookupToken
  rw [if_neg hne]
  have hsome : (m.entries.find? (·.placeholder = e.placeholder)).isSome = true := by
    rw [List.find?_isSome]
    exact ⟨e, he, by simp⟩
  obtain ⟨e', hfind⟩ := Option.isSome_iff_exists.mp hsome
  have hname' : e'.placeholder = e.placeholder := by simpa using List.find?_some hfind
  obtain rfl := List.inj_on_of_nodup_map h.distinct (List.mem_of_find?_eq_some hfind) he hname'
  rw [hfind]
  rfl

/-- A placeholder of the map is recognised. -/
theorem tokenAhead_placeholder {m : SessionMap} (h : MapOk m.entries) {e : PiiEntry}
    (he : e ∈ m.entries) {s rest : Bytes} (hs : '[' :: s = e.placeholder ++ rest) :
    tokenAhead m s = some (e.placeholder.length - 1, e.original) ∧
      s.drop (e.placeholder.length - 1) = rest := by
  obtain ⟨body, hbody, hname⟩ := placeholder_eq h he
  have hlookup := lookupToken_placeholder h he
  rw [hname] at hs hlookup ⊢
  have hs' : s = body ++ ']' :: rest := by simpa using hs
  have hlength : ('[' :: body ++ [']']).length - 1 = body.length + 1 := by simp
  have hahead : ahead 31 s = .closed body.length := by
    rw [hs']
    refine ahead_token (fun c hc => ?_) (by have := hbody.length_le; omega) rest
    exact ⟨isWord_of_token (hbody.letters c hc), (token_ne_close hbody c hc).1⟩
  have htake : s.take (body.length + 1) = body ++ [']'] := by
    rw [hs', List.take_append, List.take_of_length_le (Nat.le_succ _)]
    simp
  refine ⟨?_, ?_⟩
  · unfold tokenAhead
    rw [hahead]
    dsimp only
    rw [htake, hlength]
    exact congrArg (Option.map _) hlookup
  · rw [hlength, hs', List.drop_append, List.drop_of_length_le (Nat.le_succ _)]
    simp

/-- Nothing else is recognised. -/
theorem tokenAhead_some {m : SessionMap} {s original : Bytes} {skip : ℕ}
    (h : tokenAhead m s = some (skip, original)) :
    ∃ e ∈ m.entries, e.original = original ∧ ∃ rest, '[' :: s = e.placeholder ++ rest := by
  unfold tokenAhead at h
  split at h
  · rename_i letters _
    obtain ⟨o, hlookup, heq⟩ := Option.map_eq_some_iff.mp h
    obtain ⟨-, rfl⟩ := Prod.mk.inj heq
    unfold SessionMap.lookupToken at hlookup
    split at hlookup
    · cases hlookup
    · obtain ⟨e, hfind, rfl⟩ := Option.map_eq_some_iff.mp hlookup
      have hname : e.placeholder = '[' :: s.take (letters + 1) := by
        simpa using List.find?_some hfind
      refine ⟨e, List.mem_of_find?_eq_some hfind, rfl, s.drop (letters + 1), ?_⟩
      rw [hname, List.cons_append, List.take_append_drop]
  · cases h

theorem restoreLoop_drop (m : SessionMap) (skip : ℕ) (s : Bytes) :
    restoreLoop m skip s = restoreLoop m 0 (s.drop skip) := by
  induction s generalizing skip with
  | nil =>
    rw [List.drop_nil]
    cases skip <;> rfl
  | cons c s ih =>
    cases skip with
    | zero => rfl
    | succ skip => exact ih skip

/-- A text with marks is restored exactly if no placeholder is among its letters. -/
theorem restore_render {m : SessionMap} (h : MapOk m.entries) {t : List (Piece Char PiiEntry)}
    (ht : ∀ e, .mark e ∈ t → e ∈ m.entries) :
    (restoreLoop m 0 (render PiiEntry.placeholder t)).1 = render PiiEntry.original t ↔
      ∀ e ∈ m.entries, ¬letters e.placeholder <:+: t := by
  induction t with
  | nil =>
    refine iff_of_true rfl fun e he hin => ?_
    obtain ⟨body, -, hname⟩ := placeholder_eq h he
    rw [hname] at hin
    cases List.infix_nil.mp hin
  | cons piece t ih =>
    have ih := ih fun e he => ht e (List.mem_cons_of_mem _ he)
    cases piece with
    | mark e =>
      have he := ht e List.mem_cons_self
      obtain ⟨body, -, hname⟩ := placeholder_eq h he
      have hrender : '[' :: (body ++ ']' :: render PiiEntry.placeholder t) =
          e.placeholder ++ render PiiEntry.placeholder t := by
        rw [hname]
        simp
      obtain ⟨htoken, hdrop⟩ := tokenAhead_placeholder h he hrender
      rw [render, render, ← hrender, restoreLoop, if_pos rfl, htoken]
      dsimp only
      rw [restoreLoop_drop, hdrop, List.append_cancel_left_eq, ih]
      refine forall₂_congr fun e' he' => not_congr ?_
      obtain ⟨body', -, hname'⟩ := placeholder_eq h he'
      rw [List.infix_cons_iff]
      refine (or_iff_right ?_).symm
      rw [hname']
      intro hfront
      cases (List.cons_prefix_cons.mp hfront).1
    | letter c =>
      rw [render, render, restoreLoop]
      cases htoken : (if c = '[' then tokenAhead m (render PiiEntry.placeholder t) else none) with
      | none =>
        dsimp only
        rw [List.cons_inj_right, ih]
        refine forall₂_congr fun e he => not_congr ?_
        rw [List.infix_cons_iff]
        refine (or_iff_right ?_).symm
        -- a placeholder at the front would have been recognised
        rintro ⟨b, hb⟩
        obtain ⟨body, -, hname⟩ := placeholder_eq h he
        rw [hname] at hb
        obtain ⟨hc, htail⟩ := List.cons.inj hb
        obtain rfl := Piece.letter.inj hc
        have ht' : t = letters (body ++ [']']) ++ b := htail.symm
        have hrender : '[' :: render PiiEntry.placeholder t =
            e.placeholder ++ render PiiEntry.placeholder b := by
          rw [hname, ht', render_append, render_letters]
          rfl
        rw [if_pos rfl, (tokenAhead_placeholder h he hrender).1] at htoken
        cases htoken
      | some found =>
        obtain ⟨skip, original⟩ := found
        obtain ⟨rfl, hsome⟩ := Option.ite_none_right_eq_some.mp htoken
        obtain ⟨e, he, rfl, rest, hrest⟩ := tokenAhead_some hsome
        obtain ⟨body, hbody, hname⟩ := placeholder_eq h he
        refine iff_of_false (fun heq => ?_) fun hnone => ?_
        · obtain ⟨d, original, horiginal⟩ := List.exists_cons_of_ne_nil (h.entity e he).nonempty
          have hnot := (h.entity e he).not_mem (show isEntityChar '[' = false by decide)
          dsimp only at heq
          rw [horiginal] at heq hnot
          obtain ⟨rfl, -⟩ := List.cons.inj heq
          exact hnot List.mem_cons_self
        · have htail : render PiiEntry.placeholder t = (body ++ [']']) ++ rest := by
            rw [hname] at hrest
            simpa using hrest
          obtain ⟨b, rfl, -⟩ := letters_of_head htail fun e' he' => by
            obtain ⟨body', -, hname'⟩ := placeholder_eq h (ht e' (List.mem_cons_of_mem _ he'))
            refine ⟨'[', body' ++ [']'], hname', fun hm => ?_⟩
            rcases List.mem_append.mp hm with hm | hm
            · exact (token_ne_close hbody _ hm).2 rfl
            · exact absurd (List.mem_singleton.mp hm) (by decide)
          refine hnone e he ⟨[], b, ?_⟩
          rw [hname]
          rfl

/-- A placeholder in the text that was given is among the letters. -/
theorem letters_placeholder_iff {m : SessionMap} (h : MapOk m.entries)
    {t : List (Piece Char PiiEntry)} (ht : ∀ e, .mark e ∈ t → e ∈ m.entries) {e : PiiEntry}
    (he : e ∈ m.entries) :
    letters e.placeholder <:+: t ↔ e.placeholder <:+: render PiiEntry.original t := by
  refine ⟨infix_render, ?_⟩
  rintro ⟨u, v, huv⟩
  obtain ⟨body, hbody, hname⟩ := placeholder_eq h he
  have hsplit : render PiiEntry.original t = u ++ ('[' :: body ++ ']' :: v) := by
    rw [← huv, hname]
    simp
  obtain ⟨a, b, rfl⟩ := letters_of_delimited hsplit fun e' he' =>
    have hentity := h.entity e' (ht e' he')
    ⟨hentity.nonempty, hentity.not_mem (by decide), hentity.not_mem (by decide),
      hentity.foreign.not_infix hbody⟩
  refine ⟨a, b, ?_⟩
  rw [hname, List.append_assoc]

/-- The map holds the entities that have been replaced. -/
structure MapFits (m : SessionMap) (originals : List Bytes) : Prop where
  ok : MapOk m.entries
  replaced : ∀ e ∈ m.entries, e.original ∈ originals
  complete : ∀ o ∈ originals, ∃ e ∈ m.entries, e.original = o

/-- An entity is in the map once. -/
theorem MapFits.length_eq {m : SessionMap} {originals : List Bytes} (h : MapFits m originals) :
    m.entries.length = originals.dedup.length := by
  have hperm : (m.entries.map PiiEntry.original).Perm originals.dedup := by
    rw [List.perm_ext_iff_of_nodup h.ok.once (List.nodup_dedup _)]
    intro o
    rw [List.mem_map, List.mem_dedup]
    constructor
    · rintro ⟨e, he, rfl⟩
      exact h.replaced e he
    · exact h.complete o
  rw [← hperm.length_eq, List.length_map]

theorem MapFits.room {m : SessionMap} {originals final : List Bytes} (h : MapFits m originals)
    (hsub : originals ⊆ final) {w : Bytes} (hw : w ∈ final)
    (hroom : final.dedup.length ≤ maxSessionEntries) :
    (∃ e ∈ m.entries, e.original = w) ∨ m.entries.length < maxSessionEntries := by
  by_contra hnot
  rw [not_or, not_exists] at hnot
  have hnodup : (w :: m.entries.map PiiEntry.original).Nodup := by
    refine List.nodup_cons.mpr ⟨fun hm => ?_, h.ok.once⟩
    obtain ⟨e, he, hsame⟩ := List.mem_map.mp hm
    exact hnot.1 e ⟨he, hsame⟩
  have hincluded : w :: m.entries.map PiiEntry.original ⊆ final.dedup := by
    intro o ho
    rw [List.mem_dedup]
    rcases List.mem_cons.mp ho with rfl | ho
    · exact hw
    · obtain ⟨e, he, rfl⟩ := List.mem_map.mp ho
      exact hsub (h.replaced e he)
  have hle := (List.subperm_of_subset hnodup hincluded).length_le
  rw [List.length_cons, List.length_map] at hle
  omega

/-- A text stands for the one that was given: some parts, which the map knows, are marked. -/
def Marked (given : Bytes) (m : SessionMap) (text : Bytes) : Prop :=
  ∃ t : List (Piece Char PiiEntry), (∀ e, .mark e ∈ t → e ∈ m.entries) ∧
    text = render PiiEntry.placeholder t ∧ given = render PiiEntry.original t

theorem marked_start (m : SessionMap) (given : Bytes) : Marked given m given := by
  refine ⟨letters given, fun e he => ?_, (render_letters _ _).symm, (render_letters _ _).symm⟩
  obtain ⟨c, -, hc⟩ := List.mem_map.mp he
  cases hc

/-- Whether a marked text is restored. -/
theorem Marked.restored_iff {given text : Bytes} {m : SessionMap} (h : Marked given m text)
    (hok : MapOk m.entries) :
    restored m text = given ↔ ∀ e ∈ m.entries, ¬e.placeholder <:+: given := by
  obtain ⟨t, ht, rfl, rfl⟩ := h
  rw [restored_eq, restore_render hok ht]
  exact forall₂_congr fun e he => not_congr (letters_placeholder_iff hok ht he)

/-- A text between what has been written and what is left; no cut is inside a placeholder. -/
def MarkedAt (given : Bytes) (m : SessionMap) (out cursor : Bytes) : Prop :=
  ∃ a b, given = a ++ b ∧ Marked a m out ∧ Marked b m cursor

theorem Marked.append {a b u v : Bytes} {m : SessionMap} (h : Marked a m u) (h' : Marked b m v) :
    Marked (a ++ b) m (u ++ v) := by
  obtain ⟨t, ht, rfl, rfl⟩ := h
  obtain ⟨t', ht', rfl, rfl⟩ := h'
  refine ⟨t ++ t', fun e he => ?_, (render_append _ _ _).symm, (render_append _ _ _).symm⟩
  rcases List.mem_append.mp he with he | he
  · exact ht e he
  · exact ht' e he

theorem Marked.mono {given text : Bytes} {m m' : SessionMap} (h : Marked given m text)
    (hsub : ∀ e ∈ m.entries, e ∈ m'.entries) : Marked given m' text := by
  obtain ⟨t, ht, htext, hgiven⟩ := h
  exact ⟨t, fun e he => hsub e (ht e he), htext, hgiven⟩

/-- A part that a match starts is a part of the text that was given. -/
theorem Marked.split {given u w v : Bytes} {m : SessionMap} (h : Marked given m (u ++ (w ++ v)))
    (hok : MapOk m.entries) (hw : Foreign w) (hopen : '[' ∉ w) (hclose : ']' ∉ w) :
    ∃ a b, given = a ++ (w ++ b) ∧ Marked a m u ∧ Marked b m v := by
  obtain ⟨t, ht, htext, rfl⟩ := h
  obtain ⟨x, y, rfl, rfl, rfl⟩ := letters_of_apart htext.symm fun e he => by
    obtain ⟨body, hbody, hname⟩ := placeholder_eq hok (ht e he)
    exact ⟨'[', body, ']', hname, hopen, hclose, hw.not_infix hbody⟩
  refine ⟨render PiiEntry.original x, render PiiEntry.original y, by simp,
    ⟨x, fun e he => ht e (List.mem_append_left _ he), rfl, rfl⟩,
    ⟨y, fun e he => ht e ?_, rfl, rfl⟩⟩
  exact List.mem_append_right _ (List.mem_append_right _ he)

theorem marked_entry {m : SessionMap} {e : PiiEntry} (he : e ∈ m.entries) :
    Marked e.original m e.placeholder := by
  refine ⟨[.mark e], fun e' he' => ?_, by simp [render], by simp [render]⟩
  obtain rfl := Piece.mark.inj (List.mem_singleton.mp he')
  exact he

theorem MarkedAt.finish {given out cursor : Bytes} {m : SessionMap}
    (h : MarkedAt given m out cursor) : Marked given m (out ++ cursor) := by
  obtain ⟨a, b, rfl, hout, hcursor⟩ := h
  exact hout.append hcursor

/-- Parts that are passed over, and parts that are replaced. -/
theorem MarkedAt.skip {given out u w v : Bytes} {m : SessionMap}
    (h : MarkedAt given m out (u ++ (w ++ v))) (hok : MapOk m.entries) (hw : Foreign w)
    (hopen : '[' ∉ w) (hclose : ']' ∉ w) {x y : Bytes} (hxy : w = x ++ y) :
    MarkedAt given m (out ++ (u ++ x)) (y ++ v) := by
  obtain ⟨a, b, rfl, hout, hcursor⟩ := h
  obtain ⟨c, d, rfl, hu, hv⟩ := hcursor.split hok hw hopen hclose
  refine ⟨a ++ (c ++ x), y ++ d, by simp [hxy], ?_, ?_⟩
  · exact hout.append (hu.append (marked_start m x))
  · exact (marked_start m y).append hv

theorem MarkedAt.replace {given out u w v : Bytes} {m m' : SessionMap}
    (h : MarkedAt given m out (u ++ (w ++ v))) (hok : MapOk m.entries) (hw : IsEntity w)
    (hsub : ∀ e ∈ m.entries, e ∈ m'.entries) {e : PiiEntry} (he : e ∈ m'.entries)
    (horiginal : e.original = w) : MarkedAt given m' (out ++ (u ++ e.placeholder)) v := by
  obtain ⟨a, b, rfl, hout, hcursor⟩ := h
  obtain ⟨c, d, rfl, hu, hv⟩ := hcursor.split hok hw.foreign (hw.not_mem (by decide))
    (hw.not_mem (by decide))
  subst horiginal
  refine ⟨a ++ (c ++ e.original), d, by simp, ?_, hv.mono hsub⟩
  exact (hout.mono hsub).append ((hu.mono hsub).append (marked_entry he))

end Aigate.PiiMarks
