import Aigate.JsonMap
import Aigate.PiiRoundTrip
import Aigate.StreamCacheReplay

/-!
# Restoring a stream of events

The filter of a stream works on the bytes of the events, and a placeholder does not go across
the end of a JSON string. So the client reads the deltas restored one by one, which is the
restored text exactly if no placeholder is cut by the end of a delta.
-/
namespace Aigate.PiiEvents
open Text JsonTree JsonText JsonRoundtrip JsonEdit JsonUtf8 JsonMap LineBuffer Utf8 StreamCache
  StreamCacheReplay Guardrails GuardrailsEdits PiiText PiiRestore PiiMarks PiiRoundTrip

/-- A text with the placeholders of a map restored. -/
def restoreText (m : SessionMap) (s : Bytes) : Bytes := (restoreLoop m 0 s).1

theorem restoreText_nil (m : SessionMap) : restoreText m [] = [] := rfl

theorem restoreText_cons (m : SessionMap) {c : Char} (hc : c ≠ '[') (s : Bytes) :
    restoreText m (c :: s) = c :: restoreText m s := by
  rw [restoreText, restoreLoop, if_neg hc]
  rfl

theorem restoreText_append (m : SessionMap) {u : Bytes} (hu : '[' ∉ u) (s : Bytes) :
    restoreText m (u ++ s) = u ++ restoreText m s := by
  induction u with
  | nil => rfl
  | cons c u ih =>
    rw [List.mem_cons, not_or] at hu
    rw [List.cons_append, restoreText_cons m (Ne.symm hu.1), ih hu.2, List.cons_append]

/-- A bracket that starts no placeholder. -/
theorem restoreText_open (m : SessionMap) {s : Bytes} (h : tokenAhead m s = none) :
    restoreText m ('[' :: s) = '[' :: restoreText m s := by
  rw [restoreText, restoreLoop, if_pos rfl, h]
  rfl

/-- The letters that the names of the types start with. -/
theorem tag_head (type : PiiType) : ∃ c t, type.tag = c :: t ∧ c ∈ ['P', 'I', 'B', 'E', 'A'] := by
  cases type with
  | phone => exact ⟨'P', ['H', 'O', 'N', 'E'], by decide +kernel, by decide⟩
  | idCard => exact ⟨'I', ['D', '_', 'C', 'A', 'R', 'D'], by decide +kernel, by decide⟩
  | bankCard => exact ⟨'B', ['A', 'N', 'K', '_', 'C', 'A', 'R', 'D'], by decide +kernel, by decide⟩
  | email => exact ⟨'E', ['M', 'A', 'I', 'L'], by decide +kernel, by decide⟩
  | apiKey => exact ⟨'A', ['P', 'I', '_', 'K', 'E', 'Y'], by decide +kernel, by decide⟩
  | ipAddress => exact ⟨'I', ['P'], by decide +kernel, by decide⟩

theorem escapeChar_of_entity {c : Char} (h : isEntityChar c = true) : escapeChar c = [c] := by
  have hlow : ∀ n < 32, isEntityChar (Char.ofNat n) = false := by decide
  have hle : 32 ≤ c.toNat := by
    by_contra hlt
    have := hlow c.toNat (by omega)
    rw [Char.ofNat_toNat, h] at this
    cases this
  have hquote : c ≠ '"' := by
    rintro rfl
    revert h
    decide
  have hslash : c ≠ '\\' := by
    rintro rfl
    revert h
    decide
  exact escapeChar_self hle hquote hslash

theorem escaped_entity {w : Bytes} (h : ∀ c ∈ w, isEntityChar c = true) :
    w.flatMap escapeChar = w :=
  flatMap_escapeChar_self fun c hc => escapeChar_of_entity (h c hc)

theorem entity_of_token {c : Char} (h : isTokenChar c = true) : isEntityChar c = true := by
  simp only [isTokenChar, Bool.or_eq_true] at h
  rcases h with (h | h) | h
  · exact entityChar_of_alphanum (by simp [Char.isAlphanum, Char.isAlpha, h])
  · exact entityChar_of_digit h
  · simp [isEntityChar, h]

theorem escapeChar_self_or (c : Char) : escapeChar c = [c] ∨ ∃ t, escapeChar c = '\\' :: t := by
  unfold escapeChar
  split_ifs
  · exact Or.inr ⟨_, rfl⟩
  · exact Or.inr ⟨_, rfl⟩
  · exact Or.inr ⟨_, rfl⟩
  · exact Or.inr ⟨_, rfl⟩
  · exact Or.inr ⟨_, rfl⟩
  · exact Or.inr ⟨_, rfl⟩
  · exact Or.inr ⟨_, rfl⟩
  · exact Or.inr ⟨_, rfl⟩
  · exact Or.inl rfl

theorem open_mem_escapeChar {c : Char} (h : '[' ∈ escapeChar c) : c = '[' := by
  have hhex : ∀ n < 16, hexDigit n ≠ '[' := by decide
  unfold escapeChar at h
  split_ifs at h
  iterate 7
    · exact absurd h (by decide)
  · simp only [List.mem_cons, List.not_mem_nil, or_false] at h
    rcases h with h | h | h | h | h | h
    iterate 4
      · exact absurd h (by decide)
    · exact absurd h.symm (hhex _ (by omega))
    · exact absurd h.symm (hhex _ (by omega))
  · exact (List.mem_singleton.mp h).symm

/-- A word without quotes and escapes at the front of an escaped string is in the string. -/
theorem prefix_of_escaped {w s rest : Bytes} (hw : ∀ c ∈ w, c ≠ '"' ∧ c ≠ '\\')
    (h : w <+: s.flatMap escapeChar ++ '"' :: rest) : w <+: s := by
  induction w generalizing s with
  | nil => exact List.nil_prefix
  | cons c w ih =>
    obtain ⟨hquote, hslash⟩ := hw c List.mem_cons_self
    cases s with
    | nil => exact absurd (List.cons_prefix_cons.mp h).1 hquote
    | cons d s =>
      rw [List.flatMap_cons, List.append_assoc] at h
      rcases escapeChar_self_or d with hself | ⟨t, ht⟩
      · rw [hself, List.singleton_append, List.cons_prefix_cons] at h
        obtain ⟨rfl, h⟩ := h
        exact List.cons_prefix_cons.mpr
          ⟨rfl, ih (fun e he => hw e (List.mem_cons_of_mem _ he)) h⟩
      · rw [ht, List.cons_append, List.cons_prefix_cons] at h
        exact absurd h.1 hslash

theorem open_not_mem_quoted {s : Bytes} (h : '[' ∉ s) : '[' ∉ quoted s := by
  intro hm
  rcases List.mem_cons.mp hm with hm | hm
  · exact absurd hm (by decide)
  · rcases List.mem_append.mp hm with hm | hm
    · obtain ⟨c, hc, hopen⟩ := List.mem_flatMap.mp hm
      exact h (open_mem_escapeChar hopen ▸ hc)
    · exact absurd (List.mem_singleton.mp hm) (by decide)

theorem open_not_mem_digits {s : Bytes} (h : ∀ c ∈ s, c.isDigit = true) : '[' ∉ s :=
  fun hm => absurd (h _ hm) (by decide)

theorem open_not_mem_integerText (n : Int64) : '[' ∉ integerText n := by
  have hdigits := open_not_mem_digits fun c hc => decimal_digits (n := n.toInt.natAbs) hc
  unfold integerText
  split
  · rw [List.mem_cons, not_or]
    exact ⟨by decide, hdigits⟩
  · exact hdigits

theorem open_not_mem_realText (x : Decimal) : '[' ∉ realText x := by
  have hwhole := open_not_mem_digits fun c hc => decimal_digits (n := x.whole) hc
  have hfraction : '[' ∉ x.fraction := open_not_mem_digits (List.all_eq_true.mp x.digits)
  unfold realText
  rw [List.mem_append, List.mem_append, List.mem_cons, not_or, not_or, not_or]
  refine ⟨⟨?_, hwhole⟩, by decide, hfraction⟩
  split
  · decide
  · exact List.not_mem_nil

/-- No value starts like the name of a type. -/
theorem dumps_start (j : Json) : ∃ c t, dumps j = c :: t ∧ c ∉ ['P', 'I', 'B', 'E', 'A'] := by
  have hnumber : ∀ {c : Char}, c.isDigit = true ∨ c = '-' → c ∉ ['P', 'I', 'B', 'E', 'A'] := by
    rintro c (hc | rfl)
    · intro hm
      have hall : (['P', 'I', 'B', 'E', 'A'].all fun d => !d.isDigit) = true := rfl
      have hnot := List.all_eq_true.mp hall c hm
      rw [hc] at hnot
      cases hnot
    · decide
  cases j with
  | null => exact ⟨'n', _, by rw [dumps], by decide⟩
  | bool b =>
    cases b with
    | true => exact ⟨'t', _, by rw [dumps], by decide⟩
    | false => exact ⟨'f', _, by rw [dumps], by decide⟩
  | integer n =>
    obtain ⟨c, t, h, hc⟩ := integerText_head n
    exact ⟨c, t, by rw [dumps, h], hnumber hc⟩
  | real x =>
    obtain ⟨c, t, h, hc⟩ := realText_head x
    exact ⟨c, t, by rw [dumps, h], hnumber hc⟩
  | string s => exact ⟨'"', _, by rw [dumps, quoted]; rfl, by decide⟩
  | array items => exact ⟨'[', _, by rw [dumps]; rfl, by decide⟩
  | object members => exact ⟨'{', _, by rw [dumps]; rfl, by decide⟩

theorem dumpsItems_start (x : Json) (items : List Json) :
    ∃ c t, dumpsItems (x :: items) = c :: t ∧ c ∉ ['P', 'I', 'B', 'E', 'A'] := by
  obtain ⟨c, t, h, hc⟩ := dumps_start x
  cases items with
  | nil => exact ⟨c, t, by rw [dumpsItems, h], hc⟩
  | cons y ys => exact ⟨c, t ++ ',' :: dumpsItems (y :: ys), by rw [dumpsItems, h]; rfl, hc⟩

section Restored

variable {m : SessionMap} (hok : MapOk m.entries)
include hok

theorem restoreText_placeholder {e : PiiEntry} (he : e ∈ m.entries) (rest : Bytes) :
    restoreText m (e.placeholder ++ rest) = e.original ++ restoreText m rest := by
  obtain ⟨body, -, hname⟩ := placeholder_eq hok he
  have hs : '[' :: (body ++ ']' :: rest) = e.placeholder ++ rest := by
    rw [hname]
    simp
  obtain ⟨htoken, hdrop⟩ := tokenAhead_placeholder hok he hs
  rw [← hs, restoreText, restoreLoop, if_pos rfl, htoken]
  dsimp only
  rw [restoreLoop_drop, hdrop]
  rfl

/-- A placeholder starts with a bracket and one of these letters. -/
theorem tokenAhead_eq_none {c : Char} (hc : c ∉ ['P', 'I', 'B', 'E', 'A']) (s : Bytes) :
    tokenAhead m (c :: s) = none := by
  cases htoken : tokenAhead m (c :: s) with
  | none => rfl
  | some found =>
    obtain ⟨skip, original⟩ := found
    obtain ⟨e, he, -, rest, hrest⟩ := tokenAhead_some htoken
    obtain ⟨n, -, hname⟩ := hok.named e he
    obtain ⟨d, t, htag, hd⟩ := tag_head e.type
    rw [hname, bracketed, htag] at hrest
    simp only [List.cons_append, List.cons.injEq, true_and] at hrest
    exact absurd (hrest.1 ▸ hd) hc

/-- What a placeholder consists of. -/
theorem placeholder_letters {e : PiiEntry} (he : e ∈ m.entries) :
    ∃ body, e.placeholder = '[' :: (body ++ [']']) ∧ ∀ c ∈ body, isEntityChar c = true := by
  obtain ⟨body, hbody, hname⟩ := placeholder_eq hok he
  exact ⟨body, by rw [hname, List.cons_append], fun c hc => entity_of_token (hbody.letters c hc)⟩

/-- A text that starts with a bracket starts with a placeholder, or the bracket stays. -/
theorem restoreText_bracket (s : Bytes) :
    (∃ e ∈ m.entries, ∃ rest, '[' :: s = e.placeholder ++ rest) ∨
      ((∀ e ∈ m.entries, ¬e.placeholder <+: '[' :: s) ∧
        restoreText m ('[' :: s) = '[' :: restoreText m s) := by
  cases htoken : tokenAhead m s with
  | some found =>
    obtain ⟨e, he, -, rest, hrest⟩ := tokenAhead_some htoken
    exact Or.inl ⟨e, he, rest, hrest⟩
  | none =>
    refine Or.inr ⟨fun e he hfront => ?_, restoreText_open m htoken⟩
    obtain ⟨rest, hrest⟩ := hfront
    rw [(tokenAhead_placeholder hok he hrest.symm).1] at htoken
    cases htoken

/-- A quoted string is restored as the string. -/
theorem restoreText_escaped (s rest : Bytes) :
    restoreText m (s.flatMap escapeChar ++ '"' :: rest) =
      (restoreText m s).flatMap escapeChar ++ '"' :: restoreText m rest := by
  induction h : s.length using Nat.strong_induction_on generalizing s with
  | _ n ih =>
    cases s with
    | nil => exact restoreText_cons m (by decide) rest
    | cons c s =>
      by_cases hc : c = '['
      · subst hc
        have hopen : ('[' :: s).flatMap escapeChar ++ '"' :: rest =
            '[' :: (s.flatMap escapeChar ++ '"' :: rest) := rfl
        rcases restoreText_bracket hok s with ⟨e, he, tail, htail⟩ | ⟨hnone, hstay⟩
        · obtain ⟨body, hname, hletters⟩ := placeholder_letters hok he
          have hescaped : e.placeholder.flatMap escapeChar = e.placeholder := by
            rw [hname, List.flatMap_cons, List.flatMap_append, escaped_entity hletters]
            rfl
          have hshort : tail.length < n := by
            have := congrArg List.length htail
            rw [hname, List.length_append, List.length_cons, List.length_cons] at this
            rw [List.length_cons] at h
            omega
          rw [htail, List.flatMap_append, hescaped, List.append_assoc,
            restoreText_placeholder hok he, restoreText_placeholder hok he, ih _ hshort _ rfl,
            List.flatMap_append, escaped_entity (hok.entity e he).letters, List.append_assoc]
        · have hshort : s.length < n := by
            rw [← h]
            exact Nat.lt_succ_self _
          rcases restoreText_bracket hok (s.flatMap escapeChar ++ '"' :: rest) with
            ⟨e, he, tail, htail⟩ | ⟨-, hkeep⟩
          · obtain ⟨body, hname, hletters⟩ := placeholder_letters hok he
            refine absurd (@prefix_of_escaped _ _ rest (fun d hd => ?_) ?_) (hnone e he)
            · rw [hname] at hd
              rcases List.mem_cons.mp hd with rfl | hd
              · decide
              · rcases List.mem_append.mp hd with hd | hd
                · refine ⟨?_, ?_⟩
                  · rintro rfl
                    exact absurd (hletters _ hd) (by decide)
                  · rintro rfl
                    exact absurd (hletters _ hd) (by decide)
                · rw [List.mem_singleton.mp hd]
                  decide
            · rw [hopen, htail]
              exact List.prefix_append _ _
          · rw [hopen, hkeep, ih _ hshort _ rfl, hstay]
            rfl
      · have hescape : '[' ∉ escapeChar c := by
          intro hm
          exact hc (open_mem_escapeChar hm)
        rw [List.flatMap_cons, List.append_assoc, restoreText_append m hescape,
          ih s.length (by rw [← h]; exact Nat.lt_succ_self _) s rfl, restoreText_cons m hc,
          List.flatMap_cons, List.append_assoc]

theorem restoreText_quoted (s rest : Bytes) :
    restoreText m (quoted s ++ rest) = quoted (restoreText m s) ++ restoreText m rest := by
  have hsplit : quoted s ++ rest = '"' :: (s.flatMap escapeChar ++ '"' :: rest) := by
    simp [quoted]
  rw [hsplit, restoreText_cons m (by decide), restoreText_escaped hok]
  simp [quoted]

end Restored

mutual

/-- The text of a tree is restored as its strings. -/
theorem restoreText_dumps {m : SessionMap} (hok : MapOk m.entries) :
    ∀ (j : Json), (∀ k ∈ keys j, '[' ∉ k) → ∀ rest : Bytes, restoreText m (dumps j ++ rest) =
      dumps (mapStrings (restoreText m) j) ++ restoreText m rest
  | .null, _, rest => by
    rw [mapStrings, dumps]
    exact restoreText_append m (by decide) rest
  | .bool true, _, rest => by
    rw [mapStrings, dumps]
    exact restoreText_append m (by decide) rest
  | .bool false, _, rest => by
    rw [mapStrings, dumps]
    exact restoreText_append m (by decide) rest
  | .integer n, _, rest => by
    rw [mapStrings, dumps]
    exact restoreText_append m (open_not_mem_integerText n) rest
  | .real x, _, rest => by
    rw [mapStrings, dumps]
    exact restoreText_append m (open_not_mem_realText x) rest
  | .string s, _, rest => by
    rw [mapStrings, dumps, dumps]
    exact restoreText_quoted hok s rest
  | .array items, h, rest => by
    rw [keys] at h
    have hsplit : dumps (.array items) ++ rest = '[' :: (dumpsItems items ++ ']' :: rest) := by
      simp [dumps]
    have hstart : tokenAhead m (dumpsItems items ++ ']' :: rest) = none := by
      cases items with
      | nil => exact tokenAhead_eq_none hok (by decide) rest
      | cons x items =>
        obtain ⟨c, t, hdumps, hc⟩ := dumpsItems_start x items
        rw [hdumps]
        exact tokenAhead_eq_none hok hc _
    rw [hsplit, restoreText_open m hstart, restoreText_dumpsItems hok items h,
      restoreText_cons m (by decide), mapStrings]
    simp [dumps]
  | .object members, h, rest => by
    rw [keys] at h
    have hsplit : dumps (.object members) ++ rest =
        '{' :: (dumpsMembers members ++ '}' :: rest) := by
      simp [dumps]
    rw [hsplit, restoreText_cons m (by decide), restoreText_dumpsMembers hok members h,
      restoreText_cons m (by decide), mapStrings]
    simp [dumps]

theorem restoreText_dumpsItems {m : SessionMap} (hok : MapOk m.entries) :
    ∀ (items : List Json), (∀ k ∈ keysItems items, '[' ∉ k) → ∀ rest : Bytes,
      restoreText m (dumpsItems items ++ rest) =
        dumpsItems (mapItems (restoreText m) items) ++ restoreText m rest
  | [], _, rest => by
    rw [mapItems, dumpsItems]
    rfl
  | [x], h, rest => by
    rw [keysItems] at h
    rw [mapItems, mapItems, dumpsItems, dumpsItems]
    exact restoreText_dumps hok x (fun k hk => h k (List.mem_append_left _ hk)) rest
  | x :: y :: items, h, rest => by
    rw [keysItems] at h
    have hrest := restoreText_dumpsItems hok (y :: items)
      (fun k hk => h k (List.mem_append_right _ hk)) rest
    have hout : dumpsItems (mapItems (restoreText m) (x :: y :: items)) =
        dumps (mapStrings (restoreText m) x) ++
          ',' :: dumpsItems (mapItems (restoreText m) (y :: items)) := by
      simp only [mapItems, dumpsItems]
    rw [dumpsItems, List.append_assoc, List.cons_append,
      restoreText_dumps hok x (fun k hk => h k (List.mem_append_left _ hk)),
      restoreText_cons m (by decide), hrest, hout, List.append_assoc, List.cons_append]

theorem restoreText_dumpsMembers {m : SessionMap} (hok : MapOk m.entries) :
    ∀ (members : List (Bytes × Json)), (∀ k ∈ keysMembers members, '[' ∉ k) → ∀ rest : Bytes,
      restoreText m (dumpsMembers members ++ rest) =
        dumpsMembers (mapMembers (restoreText m) members) ++ restoreText m rest
  | [], _, rest => by
    rw [mapMembers, dumpsMembers]
    rfl
  | [(k, v)], h, rest => by
    rw [keysMembers] at h
    have hkey := open_not_mem_quoted (h k (List.mem_append_left _ List.mem_cons_self))
    have hvalue := restoreText_dumps hok v
      (fun k' hk => h k' (List.mem_append_left _ (List.mem_cons_of_mem _ hk))) rest
    rw [dumpsMembers, List.append_assoc, List.cons_append, restoreText_append m hkey,
      restoreText_cons m (by decide), hvalue, mapMembers, mapMembers, dumpsMembers,
      List.append_assoc, List.cons_append]
  | (k, v) :: (k', v') :: members, h, rest => by
    rw [keysMembers] at h
    have hkey := open_not_mem_quoted (h k (List.mem_append_left _ List.mem_cons_self))
    have hvalue := fun rest => restoreText_dumps hok v
      (fun k' hk => h k' (List.mem_append_left _ (List.mem_cons_of_mem _ hk))) rest
    have hrest := restoreText_dumpsMembers hok ((k', v') :: members)
      (fun k' hk => h k' (List.mem_append_right _ hk)) rest
    have hout : dumpsMembers (mapMembers (restoreText m) ((k, v) :: (k', v') :: members)) =
        quoted k ++ ':' :: dumps (mapStrings (restoreText m) v) ++
          ',' :: dumpsMembers (mapMembers (restoreText m) ((k', v') :: members)) := by
      simp only [mapMembers, dumpsMembers]
    rw [dumpsMembers, List.append_assoc, List.cons_append, List.append_assoc, List.cons_append,
      restoreText_append m hkey, restoreText_cons m (by decide), hvalue,
      restoreText_cons m (by decide), hrest, hout, List.append_assoc, List.cons_append,
      List.append_assoc, List.cons_append]

end

theorem toNat_of_entity {c : Char} (h : isEntityChar c = true) : c.toNat < 128 := by
  simp only [isEntityChar, Char.isAlphanum, Char.isAlpha, Char.isUpper, Char.isLower, Char.isDigit,
    Bool.or_eq_true, Bool.and_eq_true, decide_eq_true_eq, ge_iff_le, UInt32.le_iff_toNat_le] at h
  change c.val.toNat < 128
  rcases h with (((((((⟨-, h⟩ | ⟨-, h⟩) | ⟨-, h⟩) | rfl) | rfl) | rfl) | rfl) | rfl) | rfl
  · exact lt_of_le_of_lt h (by decide)
  · exact lt_of_le_of_lt h (by decide)
  · exact lt_of_le_of_lt h (by decide)
  all_goals decide

theorem placeholder_ascii {m : SessionMap} (hok : MapOk m.entries) {e : PiiEntry}
    (he : e ∈ m.entries) : utf8Check e.placeholder = true := by
  obtain ⟨body, hname, hletters⟩ := placeholder_letters hok he
  rw [hname]
  refine utf8Check_of_ascii fun c hc => ?_
  rcases List.mem_cons.mp hc with rfl | hc
  · decide
  · rcases List.mem_append.mp hc with hc | hc
    · exact toNat_of_entity (hletters c hc)
    · rw [List.mem_singleton.mp hc]
      decide

section Restored

variable {m : SessionMap} (hok : MapOk m.entries)
include hok

theorem utf8Check_restoreText {s : Bytes} (h : utf8Check s = true) :
    utf8Check (restoreText m s) = true := by
  induction hn : s.length using Nat.strong_induction_on generalizing s with
  | _ n ih =>
    by_cases hne : s = []
    · rw [hne]
      rfl
    · obtain ⟨u, v, rfl, hu, hfirst, hrest, hkind⟩ := utf8Check_head h hne
      have hpos := List.length_pos_of_ne_nil hu
      rw [List.length_append] at hn
      have hih := ih v.length (by omega) hrest rfl
      by_cases hopen : '[' ∈ u
      · obtain ⟨c, rfl, -⟩ : ∃ c, u = [c] ∧ c.toNat < 128 := by
          rcases hkind with hone | hhigh
          · exact hone
          · exact absurd (hhigh _ hopen) (by decide)
        obtain rfl := List.mem_singleton.mp hopen
        rcases restoreText_bracket hok v with ⟨e, he, tail, htail⟩ | ⟨-, hstay⟩
        · rw [List.singleton_append] at h ⊢
          rw [htail] at h ⊢
          rw [utf8Check_append (placeholder_ascii hok he)] at h
          have hlength := congrArg List.length htail
          obtain ⟨body, hname, -⟩ := placeholder_letters hok he
          rw [hname, List.length_append, List.length_cons, List.length_cons] at hlength
          rw [List.length_singleton] at hn
          have hentity : utf8Check e.original = true :=
            utf8Check_of_ascii fun c hc => toNat_of_entity ((hok.entity e he).letters c hc)
          rw [restoreText_placeholder hok he, utf8Check_append hentity]
          exact ih tail.length (by omega) h rfl
        · rw [List.singleton_append, hstay, utf8Check_cons (by decide)]
          exact hih
      · rw [restoreText_append m hopen, utf8Check_append hfirst]
        exact hih

theorem nonzero_restoreText {s : Bytes} (h : Char.ofNat 0 ∉ s) :
    Char.ofNat 0 ∉ restoreText m s := by
  induction hn : s.length using Nat.strong_induction_on generalizing s with
  | _ n ih =>
    cases s with
    | nil => exact h
    | cons c s =>
      rw [List.mem_cons, not_or] at h
      rw [List.length_cons] at hn
      have hih := ih s.length (by omega) h.2 rfl
      by_cases hc : c = '['
      · subst hc
        rcases restoreText_bracket hok s with ⟨e, he, tail, htail⟩ | ⟨-, hstay⟩
        · obtain ⟨body, hname, -⟩ := placeholder_letters hok he
          have hlength := congrArg List.length htail
          rw [hname, List.length_append, List.length_cons, List.length_cons] at hlength
          have htail' : Char.ofNat 0 ∉ tail := by
            intro hm
            have : Char.ofNat 0 ∈ '[' :: s := htail ▸ List.mem_append_right _ hm
            rcases List.mem_cons.mp this with hz | hz
            · exact absurd hz (by decide)
            · exact h.2 hz
          rw [htail, restoreText_placeholder hok he, List.mem_append, not_or]
          exact ⟨(hok.entity e he).not_mem (by decide), ih tail.length (by omega) htail' rfl⟩
        · rw [hstay, List.mem_cons, not_or]
          exact ⟨h.1, hih⟩
      · rw [restoreText_cons m hc, List.mem_cons, not_or]
        exact ⟨h.1, hih⟩

end Restored

/-- A placeholder of the map starts in one text and ends in the next. -/
def CutBetween (m : SessionMap) (d rest : Bytes) : Prop :=
  ∃ e ∈ m.entries, ∃ p q, e.placeholder = p ++ q ∧ p ≠ [] ∧ q ≠ [] ∧ p <:+ d ∧ q <+: rest

/-- No placeholder is cut by the end of a delta. -/
def NoneCut (m : SessionMap) : List Bytes → Prop
  | [] => True
  | d :: deltas => ¬CutBetween m d deltas.flatten ∧ NoneCut m deltas

theorem CutBetween.mono {m : SessionMap} {d rest : Bytes} (h : CutBetween m d rest) (u : Bytes) :
    CutBetween m (u ++ d) rest := by
  obtain ⟨e, he, p, q, hname, hp, hq, hsuffix, hfront⟩ := h
  exact ⟨e, he, p, q, hname, hp, hq, hsuffix.trans (List.suffix_append u d), hfront⟩

section Restored

variable {m : SessionMap} (hok : MapOk m.entries)
include hok

/-- Texts are restored one by one unless a placeholder is cut. -/
theorem restoreText_append_of_not_cut {d rest : Bytes} (h : ¬CutBetween m d rest) :
    restoreText m (d ++ rest) = restoreText m d ++ restoreText m rest := by
  induction hn : d.length using Nat.strong_induction_on generalizing d with
  | _ n ih =>
    cases d with
    | nil => rfl
    | cons c d =>
      rw [List.length_cons] at hn
      have hshort : ¬CutBetween m d rest := fun hcut => h (hcut.mono [c])
      have hih := ih d.length (by omega) hshort rfl
      by_cases hc : c = '['
      · subst hc
        rcases restoreText_bracket hok (d ++ rest) with ⟨e, he, tail, htail⟩ | ⟨hnone, hstay⟩
        · rw [← List.cons_append] at htail
          rcases List.append_eq_append_iff.mp htail with ⟨q, hq, hrest⟩ | ⟨v, hv, htail'⟩
          · by_cases hnil : q = []
            · subst hnil
              rw [List.append_nil] at hq
              rw [List.nil_append] at hrest
              have hd := restoreText_placeholder hok he []
              rw [List.append_nil, restoreText_nil, List.append_nil] at hd
              rw [htail, restoreText_placeholder hok he, ← hq, hd, hrest]
            · exact absurd ⟨e, he, '[' :: d, q, hq, List.cons_ne_nil _ _, hnil,
                List.suffix_refl _, ⟨tail, hrest.symm⟩⟩ h
          · obtain ⟨body, hname, -⟩ := placeholder_letters hok he
            have hlength := congrArg List.length hv
            rw [hname, List.length_append, List.length_cons, List.length_cons] at hlength
            have hcut : ¬CutBetween m v rest := fun hcut => h (hv ▸ hcut.mono e.placeholder)
            rw [htail, hv, restoreText_placeholder hok he, restoreText_placeholder hok he, htail',
              ih v.length (by omega) hcut rfl, List.append_assoc]
        · rw [List.cons_append, hstay, hih]
          rcases restoreText_bracket hok d with ⟨e, he, tail, htail⟩ | ⟨-, hstay'⟩
          · refine absurd ?_ (hnone e he)
            rw [← List.cons_append, htail, List.append_assoc]
            exact List.prefix_append _ _
          · rw [hstay', List.cons_append]
      · rw [List.cons_append, restoreText_cons m hc, hih, restoreText_cons m hc, List.cons_append]

/-- What is left of a placeholder behind its start. -/
theorem open_not_mem_behind {e : PiiEntry} (he : e ∈ m.entries) {p q : Bytes}
    (hname : e.placeholder = p ++ q) (hp : p ≠ []) : '[' ∉ q := by
  obtain ⟨body, hbody, hletters⟩ := placeholder_letters hok he
  obtain ⟨c, p, rfl⟩ := List.exists_cons_of_ne_nil hp
  rw [hbody, List.cons_append] at hname
  intro hq
  have hmem : '[' ∈ body ++ [']'] := (List.cons.inj hname).2 ▸ List.mem_append_right _ hq
  rcases List.mem_append.mp hmem with hmem | hmem
  · exact absurd (hletters _ hmem) (by decide)
  · exact absurd (List.mem_singleton.mp hmem) (by decide)

/-- No placeholder ends in a text that starts with a bracket. -/
theorem not_cutBetween_open (u s : Bytes) : ¬CutBetween m u ('[' :: s) := by
  rintro ⟨e, he, p, q, hname, hp, hq, -, hfront⟩
  obtain ⟨c, q, rfl⟩ := List.exists_cons_of_ne_nil hq
  obtain ⟨rfl, -⟩ := List.cons_prefix_cons.mp hfront
  exact open_not_mem_behind hok he hname hp List.mem_cons_self

/-- A placeholder that is cut is not restored. -/
theorem restoreText_append_of_cut {d rest : Bytes} (h : CutBetween m d rest) (v : Bytes) :
    restoreText m (d ++ rest) ≠ restoreText m d ++ v := by
  obtain ⟨e, he, p, q, hname, hp, hq, ⟨u, rfl⟩, ⟨tail, rfl⟩⟩ := h
  obtain ⟨body, hbody, hletters⟩ := placeholder_letters hok he
  obtain ⟨c, p, rfl⟩ := List.exists_cons_of_ne_nil hp
  have hcons := hname
  rw [hbody, List.cons_append] at hcons
  obtain ⟨rfl, hsplit⟩ := List.cons.inj hcons
  obtain ⟨q, d, rfl⟩ := (List.eq_nil_or_concat' q).resolve_left hq
  rw [← List.append_assoc] at hsplit
  obtain ⟨hsplit, -⟩ := List.append_inj' hsplit rfl
  have hpart : ∀ c ∈ p, isEntityChar c = true := fun c hc =>
    hletters c (hsplit ▸ List.mem_append_left _ hc)
  have hclose : ']' ∉ '[' :: p := by
    rw [List.mem_cons, not_or]
    exact ⟨by decide, fun hm => absurd (hpart _ hm) (by decide)⟩
  have hwhole : restoreText m (u ++ '[' :: p ++ (q ++ [d] ++ tail)) =
      restoreText m u ++ (e.original ++ restoreText m tail) := by
    have hregroup : u ++ '[' :: p ++ (q ++ [d] ++ tail) =
        u ++ '[' :: (p ++ (q ++ [d] ++ tail)) := by simp
    have hmarked : '[' :: (p ++ (q ++ [d] ++ tail)) = e.placeholder ++ tail := by
      rw [hname]
      simp
    rw [hregroup, restoreText_append_of_not_cut hok (not_cutBetween_open hok u _), hmarked,
      restoreText_placeholder hok he]
  have hstart : restoreText m (u ++ '[' :: p) = restoreText m u ++ '[' :: restoreText m p := by
    rw [restoreText_append_of_not_cut hok (not_cutBetween_open hok u p)]
    rcases restoreText_bracket hok p with ⟨e', he', tail', htail⟩ | ⟨-, hstay⟩
    · obtain ⟨body', hbody', -⟩ := placeholder_letters hok he'
      refine absurd ?_ hclose
      rw [htail, hbody']
      simp
    · rw [hstay]
  rw [hwhole, hstart, List.append_assoc, ne_eq, List.append_cancel_left_eq]
  obtain ⟨a, original, horiginal⟩ := List.exists_cons_of_ne_nil (hok.entity e he).nonempty
  have hnot := (hok.entity e he).not_mem (show isEntityChar '[' = false by decide)
  rw [horiginal] at hnot ⊢
  intro heq
  exact hnot ((List.cons.inj heq).1 ▸ List.mem_cons_self)

/-- Deltas restored one by one are the restored text exactly if none is cut. -/
theorem flatten_restoreText_iff (deltas : List Bytes) :
    (deltas.map (restoreText m)).flatten = restoreText m deltas.flatten ↔ NoneCut m deltas := by
  induction deltas with
  | nil => exact iff_of_true rfl trivial
  | cons d deltas ih =>
    rw [List.map_cons, List.flatten_cons, List.flatten_cons, NoneCut]
    by_cases hcut : CutBetween m d deltas.flatten
    · refine iff_of_false (fun h => ?_) fun h => h.1 hcut
      exact restoreText_append_of_cut hok hcut _ h.symm
    · rw [restoreText_append_of_not_cut hok hcut, List.append_cancel_left_eq, ih]
      exact (and_iff_right hcut).symm

end Restored

/-- An event of an upstream. -/
structure StreamEvent (e : Json) : Prop where
  readable : Readable e
  isObject : e.isObject = true
  utf8 : ∀ s ∈ strings e, utf8Check s = true
  keys : ∀ k ∈ keys e, '[' ∉ k

/-- The events one after the other, and the mark that ends them. -/
def eventStream (es : List Json) : Bytes :=
  es.flatMap (fun e => eventLine e ++ ['\n', '\n']) ++ (ascii "data: [DONE]" ++ ['\n', '\n'])

theorem StreamEvent.isEvent {e : Json} (h : StreamEvent e) : IsEvent e :=
  ⟨h.readable, h.isObject, utf8Check_dumps h.utf8⟩

theorem firstChoice_mapStrings (f : Bytes → Bytes) (root : Json) :
    firstChoice (mapStrings f root) = (firstChoice root).map (mapStrings f) := by
  unfold firstChoice
  rw [getArray_mapStrings]
  cases root.getArray "choices" with
  | none => rfl
  | some items => cases items <;> rfl

theorem deltaContent_mapStrings {f : Bytes → Bytes} (hf : f [] = []) (root : Json) :
    deltaContent (mapStrings f root) = f (deltaContent root) := by
  have hdelta : deltaOf (mapStrings f root) = (deltaOf root).map (mapStrings f) := by
    unfold deltaOf
    rw [firstChoice_mapStrings]
    cases firstChoice root with
    | none => rfl
    | some c0 =>
      simp only [Option.map_some, Option.bind_some, get_mapStrings]
      cases c0.get "delta" with
      | none => rfl
      | some delta =>
        simp only [Option.map_some, Option.filter_some, isObject_mapStrings]
        split <;> rfl
  unfold deltaContent
  rw [hdelta]
  cases deltaOf root with
  | none => exact hf.symm
  | some delta =>
    simp only [Option.map_some, Option.bind_some, getString_mapStrings]
    cases delta.getString "content" with
    | none => exact hf.symm
    | some s => rfl

/-- The content that a client reads is that of the deltas. -/
theorem content_eventStream {es : List Json} (hes : ∀ e ∈ es, IsEvent e) :
    (readMessage (eventStream es)).content = (es.map deltaContent).flatten := by
  have hfold : ∀ (es : List Json) (m : Message),
      (es.foldl (fun m e => (⟨m.content ++ deltaContent e, m.toolCalls ++ deltaToolCalls e,
        (choiceFinish e).or m.finishReason⟩ : Message)) m).content =
        m.content ++ (es.map deltaContent).flatten := by
    intro es
    induction es with
    | nil => simp
    | cons e es ih =>
      intro m
      rw [List.foldl_cons, ih, List.map_cons, List.flatten_cons, List.append_assoc]
  rw [readMessage, eventStream, readMessage_lines hes, hfold]
  rfl

section Restored

variable {m : SessionMap} (hok : MapOk m.entries)
include hok

theorem isEvent_mapStrings {e : Json} (h : StreamEvent e) :
    IsEvent (mapStrings (restoreText m) e) where
  readable := readable_mapStrings (fun _ hs => nonzero_restoreText hok hs) h.readable
  isObject := (isObject_mapStrings _ e).trans h.isObject
  utf8 := utf8Check_dumps
    (strings_mapStrings (P := fun s => utf8Check s = true)
      (fun _ hs => utf8Check_restoreText hok hs) e h.utf8)

/-- A stream is restored event by event. -/
theorem restoreText_eventStream {es : List Json} (hes : ∀ e ∈ es, StreamEvent e) :
    restoreText m (eventStream es) = eventStream (es.map (mapStrings (restoreText m))) := by
  unfold eventStream
  induction es with
  | nil =>
    have hdone : ascii "data: [DONE]" ++ ['\n', '\n'] =
        ascii "data: " ++ '[' :: 'D' :: ['O', 'N', 'E', ']', '\n', '\n'] := by decide +kernel
    have hdata : '[' ∉ ascii "data: " := by
      rw [data_eq]
      decide
    have hend : restoreText m ('D' :: ['O', 'N', 'E', ']', '\n', '\n']) =
        'D' :: ['O', 'N', 'E', ']', '\n', '\n'] := by
      have := restoreText_append m (u := 'D' :: ['O', 'N', 'E', ']', '\n', '\n']) (by decide) []
      rwa [List.append_nil, restoreText_nil, List.append_nil] at this
    rw [List.map_nil, List.flatMap_nil, List.nil_append, hdone, restoreText_append m hdata,
      restoreText_open m (tokenAhead_eq_none hok (by decide) _), hend]
  | cons e es ih =>
    have hdata : '[' ∉ ascii "data: " := by
      rw [data_eq]
      decide
    have hih := ih fun e' he' => hes e' (List.mem_cons_of_mem _ he')
    simp only [List.flatMap_cons, List.map_cons, eventLine, List.append_assoc] at hih ⊢
    rw [restoreText_append m hdata, restoreText_dumps hok e (hes e List.mem_cons_self).keys,
      restoreText_append m (u := ['\n', '\n']) (by decide), hih]

/-- What the client reads of the restored stream. -/
theorem content_restored {es : List Json} (hes : ∀ e ∈ es, StreamEvent e) :
    (readMessage (restoreText m (eventStream es))).content =
      ((es.map deltaContent).map (restoreText m)).flatten := by
  rw [restoreText_eventStream hok hes, content_eventStream, List.map_map, List.map_map]
  · congr 1
    exact List.map_congr_left fun e _ => deltaContent_mapStrings (restoreText_nil m) e
  · intro e he
    obtain ⟨e', he', rfl⟩ := List.mem_map.mp he
    exact isEvent_mapStrings hok (hes e' he')

end Restored

/-- A scanner leaves a session map one. -/
def KeepsMaps (s : Scanner) : Prop :=
  ∀ j scan r, s j scan = some r → KeepsOk scan.map → KeepsOk r.2.map

theorem keepsMaps_scanString (cfg : PiiConfig) (key : String) : KeepsMaps (scanString cfg key) := by
  intro j scan r h hok
  unfold scanString at h
  split at h
  · obtain rfl := Option.some.inj h
    exact hok
  · rename_i text _
    dsimp only at h
    split at h
    · cases h
    · obtain rfl := Option.some.inj h
      exact transformPiiText_ok cfg hok text

theorem keepsMaps_scanArray {s : Scanner} (hs : KeepsMaps s) (key : String) :
    KeepsMaps (scanArray key s) := by
  have hitems : ∀ (items : List Json) (scan : Scan) (r : List Json × Scan),
      scanItems s items scan = some r → KeepsOk scan.map → KeepsOk r.2.map := by
    intro items
    induction items with
    | nil =>
      intro scan r h hok
      obtain rfl := Option.some.inj h
      exact hok
    | cons item rest ih =>
      intro scan r h hok
      obtain ⟨a, ha, h⟩ := Option.bind_eq_some_iff.mp h
      obtain ⟨b, hb, rfl⟩ := Option.map_eq_some_iff.mp h
      exact ih a.2 b hb (hs _ _ _ ha hok)
  intro j scan r h hok
  unfold scanArray at h
  split at h
  · obtain rfl := Option.some.inj h
    exact hok
  · obtain ⟨a, ha, rfl⟩ := Option.map_eq_some_iff.mp h
    exact hitems _ _ _ ha hok

theorem KeepsMaps.next {s t : Scanner} (hs : KeepsMaps s) (ht : KeepsMaps t) :
    KeepsMaps (s.next t) := by
  intro j scan r h hok
  obtain ⟨a, ha, h⟩ := Option.bind_eq_some_iff.mp h
  exact ht _ _ _ h (hs _ _ _ ha hok)

theorem keepsMaps_scanMessage (cfg : PiiConfig) : KeepsMaps (scanMessage cfg) := by
  intro j scan r h hok
  unfold scanMessage at h
  split at h
  · exact keepsMaps_scanString cfg "content" _ _ _ h hok
  · exact keepsMaps_scanArray (keepsMaps_scanString cfg "text") "content" _ _ _ h hok

theorem keepsMaps_scanBody (cfg : PiiConfig) : KeepsMaps (scanBody cfg) :=
  (((keepsMaps_scanArray (keepsMaps_scanMessage cfg) "messages").next
    (keepsMaps_scanString cfg "prompt")).next (keepsMaps_scanString cfg "system")).next
    (keepsMaps_scanArray (keepsMaps_scanArray (keepsMaps_scanString cfg "text") "parts") "contents")

/-- The check of a request leaves a session map one. -/
theorem inspect_keepsOk (ctx : GuardrailsCtx) (rawBody : Bytes) {map : Option SessionMap}
    (hok : KeepsOk map) : KeepsOk (guardrailsInspectInboundWithPii ctx rawBody map).map := by
  have htext : ∀ text, KeepsOk (inspectText ctx.piiCfg map text).map := by
    intro text
    unfold inspectText
    dsimp only
    split
    · exact hok
    · exact transformPiiText_ok ctx.piiCfg hok text
  have hpii : KeepsOk (inspectPii ctx.piiCfg map rawBody).map := by
    unfold inspectPii
    split
    · split
      · unfold inspectObject
        split
        · exact hok
        · rename_i masked scan hscan
          exact keepsMaps_scanBody ctx.piiCfg _ _ _ hscan hok
      · exact htext _
    · exact htext _
  unfold guardrailsInspectInboundWithPii
  split
  · exact hok
  · split
    · exact hok
    · exact hpii

/-- The map that the check of a request leaves, and that its response is restored with. -/
def requestMap (ctx : GuardrailsCtx) (rawBody : Bytes) : SessionMap :=
  ((guardrailsInspectInboundWithPii ctx rawBody (some .empty)).map).getD .empty

theorem mapOk_requestMap (ctx : GuardrailsCtx) (rawBody : Bytes) :
    MapOk (requestMap ctx rawBody).entries := by
  have hstart : KeepsOk (some SessionMap.empty) := by
    intro m hm
    obtain rfl := Option.some.inj hm
    exact mapOk_nil
  have hok := inspect_keepsOk ctx rawBody hstart
  unfold requestMap
  revert hok
  cases (guardrailsInspectInboundWithPii ctx rawBody (some .empty)).map with
  | none => exact fun _ => mapOk_nil
  | some m => exact fun hok => hok m rfl

/-- The text that a client reads off the stream it receives. -/
def clientText (m : SessionMap) (chunks : List Bytes) : Bytes :=
  (readMessage (streamed (StreamFilter.init m) chunks)).content

/-- The client reads the text of the upstream restored. -/
def SeenRestored (m : SessionMap) (es : List Json) (chunks : List Bytes) : Prop :=
  clientText m chunks = restored m (es.map deltaContent).flatten

/-- However an upstream writes its text as events, and however their bytes arrive: the client
reads the text restored if no buffer is too short and no placeholder is cut by the end of a
delta, and where the buffers suffice it does not if one is. -/
theorem seenRestored_of_noneCut (ctx : GuardrailsCtx) (rawBody : Bytes) {es : List Json}
    (hes : ∀ e ∈ es, StreamEvent e) {chunks : List Bytes} (hchunks : chunks.flatten = eventStream es) :
    (RunFits (StreamFilter.init (requestMap ctx rawBody)) chunks ∧
        NoneCut (requestMap ctx rawBody) (es.map deltaContent) →
      SeenRestored (requestMap ctx rawBody) es chunks) ∧
    (RunFits (StreamFilter.init (requestMap ctx rawBody)) chunks →
      SeenRestored (requestMap ctx rawBody) es chunks →
      NoneCut (requestMap ctx rawBody) (es.map deltaContent)) := by
  have hok := mapOk_requestMap ctx rawBody
  have hseen : RunFits (StreamFilter.init (requestMap ctx rawBody)) chunks →
      (SeenRestored (requestMap ctx rawBody) es chunks ↔
        NoneCut (requestMap ctx rawBody) (es.map deltaContent)) := by
    intro hfits
    have hstreamed := (streamed_eq_restored_iff (requestMap ctx rawBody) chunks).mpr hfits
    rw [SeenRestored, clientText, hstreamed, hchunks, restored_eq, restored_eq]
    rw [← restoreText, ← restoreText, content_restored hok hes]
    exact flatten_restoreText_iff hok _
  exact ⟨fun h => (hseen h.1).mpr h.2, fun hfits h => (hseen hfits).mp h⟩

/-- A request with a phone number, whose placeholder is `[PHONE_1]`. -/
def phoneBody : Bytes := ascii "\x7b\"prompt\":\"13812345678\"\x7d"

def deltaEvent (content : Bytes) : Json :=
  .object [(ascii "choices", .array [.object [(ascii "delta",
    .object [(ascii "content", .string content)])]])]

theorem streamEvent_delta {content : Bytes} (hnonzero : Char.ofNat 0 ∉ content)
    (hutf8 : utf8Check content = true) : StreamEvent (deltaEvent content) where
  readable := by
    refine ⟨rfl, ?_, ?_⟩
    · simp (disch := decide) [deltaEvent, wellFormed, wellFormedItems, wellFormedMembers, hnonzero,
        nonzero_ascii]
    · simp [deltaEvent, depth, depthItems, depthMembers, maxDepth]
  isObject := rfl
  utf8 := by
    simp (disch := decide) [deltaEvent, strings, stringsItems, stringsMembers, utf8Check_ascii,
      hutf8]
  keys := by
    have hletters : ∀ key : Bytes, (key.all fun c => c ≠ '[') = true → '[' ∉ key :=
      fun key hkey hm => absurd (List.all_eq_true.mp hkey _ hm) (by decide)
    intro k hk
    simp only [deltaEvent, keys, keysItems, keysMembers, List.append_nil, List.mem_cons,
      List.not_mem_nil, or_false] at hk
    rcases hk with rfl | rfl | rfl
    · exact hletters _ (by decide +kernel)
    · exact hletters _ (by decide +kernel)
    · exact hletters _ (by decide +kernel)

/-- A placeholder in one delta is restored. -/
theorem seenRestored_whole :
    SeenRestored (requestMap guardrailsCreate phoneBody) [deltaEvent (ascii "[PHONE_1]")]
      [eventStream [deltaEvent (ascii "[PHONE_1]")]] := by
  refine (@seenRestored_of_noneCut guardrailsCreate phoneBody [deltaEvent (ascii "[PHONE_1]")]
    (fun e he => ?_) _ List.flatten_singleton).1 ⟨⟨?_, trivial⟩, ?_, trivial⟩
  · rw [List.mem_singleton.mp he]
    exact streamEvent_delta (by decide +kernel) (by decide +kernel)
  · unfold FeedFits
    decide +kernel
  · rintro ⟨e, -, p, q, -, -, hq, -, hfront⟩
    exact hq (List.prefix_nil.mp hfront)

/-- Cut into two deltas it is not. -/
theorem not_seenRestored_cut :
    ¬SeenRestored (requestMap guardrailsCreate phoneBody)
      [deltaEvent (ascii "[PHONE"), deltaEvent (ascii "_1]")]
      [eventStream [deltaEvent (ascii "[PHONE"), deltaEvent (ascii "_1]")]] := by
  unfold SeenRestored
  decide +kernel

end Aigate.PiiEvents
