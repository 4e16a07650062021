import Aigate.EventTexts
import Aigate.MaskPlacement
import Aigate.OutboundFilters
import Aigate.PiiMarks
import Aigate.WatermarkRoundTrip

/-!
# Answers with a watermark

The filter marks one text of an answer and leaves all others. Tiles are put behind whole
characters that end a sentence, so the marked text is text again and has the placeholders that
it had before.
-/
namespace Aigate.MarkedAnswers
open Text JsonTree JsonText JsonEdit JsonPath Utf8 Guardrails GuardrailsWebhook GuardrailsEdits
  MaskPlacement PiiText PiiMarks StreamCache EventTexts Watermark OutboundFilters

theorem infix_behind_gap {w gap behind : Bytes} (hgap : ∀ c ∈ gap, c ∉ w)
    (h : w <:+: gap ++ behind) : w <:+: behind := by
  induction gap with
  | nil => exact h
  | cons x gap ih =>
    rcases List.infix_cons_iff.mp h with h | h
    · rcases List.prefix_cons_iff.mp h with rfl | ⟨t, rfl, -⟩
      · exact List.nil_infix
      · exact absurd List.mem_cons_self (hgap x List.mem_cons_self)
    · exact ih (fun c hc => hgap c (List.mem_cons_of_mem _ hc)) h

/-- A word with nothing of what is put between two texts is in one of them. -/
theorem infix_of_gap {w before behind gap : Bytes} (hne : gap ≠ []) (hgap : ∀ c ∈ gap, c ∉ w)
    (h : w <:+: before ++ (gap ++ behind)) : w <:+: before ∨ w <:+: behind := by
  rcases List.infix_append_iff_ne_nil.mp h with h | h | ⟨s, t, -, ht, rfl, -, hfront⟩
  · exact Or.inl h
  · exact Or.inr (infix_behind_gap hgap h)
  · obtain ⟨x, gap, rfl⟩ := List.exists_cons_of_ne_nil hne
    rcases List.prefix_cons_iff.mp hfront with rfl | ⟨t, rfl, -⟩
    · exact absurd rfl ht
    · exact absurd (List.mem_append_right s List.mem_cons_self) (hgap x List.mem_cons_self)

/-- A word is on one side of a cut behind a character that is not in it. -/
theorem infix_of_cut {w before behind : Bytes} (h : w <:+: before ++ behind)
    (hlast : ∀ c, before.getLast? = some c → c ∉ w) : w <:+: before ∨ w <:+: behind := by
  rcases List.eq_nil_or_concat before with rfl | ⟨front, c, rfl⟩
  · exact Or.inr h
  · rw [List.concat_eq_append] at h hlast ⊢
    have hc : ∀ d ∈ [c], d ∉ w := by
      intro d hd
      rw [List.mem_singleton.mp hd]
      exact hlast c (by simp)
    rw [List.append_assoc] at h
    rcases infix_of_gap (List.cons_ne_nil c []) hc h with h | h
    · exact Or.inl (h.trans (List.prefix_append front [c]).isInfix)
    · exact Or.inr h

/-- A place that is not within a word: at the end, or behind a character that is not in it. -/
def Uncut (w text : Bytes) (k : ℕ) : Prop :=
  text.length ≤ k ∨ ∀ c, (text.take k).getLast? = some c → c ∉ w

theorem mem_splice {wm text : Bytes} {pos : ℕ} {places : List ℕ} {c : Char}
    (h : c ∈ splice wm pos places text) : c ∈ wm ∨ c ∈ text := by
  induction places generalizing pos text with
  | nil => exact Or.inr h
  | cons place places ih =>
    rcases List.mem_append.mp h with h | h
    · rcases List.mem_append.mp h with h | h
      · exact Or.inr (List.mem_of_mem_take h)
      · exact Or.inl h
    · rcases ih h with h | h
      · exact Or.inl h
      · exact Or.inr (List.mem_of_mem_drop h)

theorem infix_splice (wm text : Bytes) {pos : ℕ} {places : List ℕ} (h : places ≠ []) :
    wm <:+: splice wm pos places text := by
  obtain ⟨place, places, rfl⟩ := List.exists_cons_of_ne_nil h
  exact ⟨_, _, rfl⟩

/-- What is put in adds no word that it has nothing of. -/
theorem infix_of_splice {wm w text : Bytes} {pos : ℕ} {places : List ℕ} (hne : wm ≠ [])
    (hwm : ∀ c ∈ wm, c ∉ w) (h : w <:+: splice wm pos places text) : w <:+: text := by
  induction places generalizing pos text with
  | nil => exact h
  | cons place places ih =>
    rw [splice, List.append_assoc] at h
    rcases infix_of_gap hne hwm h with h | h
    · exact h.trans (List.take_prefix _ _).isInfix
    · exact (ih h).trans (List.drop_suffix _ _).isInfix

/-- It takes none away that it is not put into. -/
theorem infix_splice_of_uncut {wm w text : Bytes} {pos : ℕ} {places : List ℕ}
    (hsorted : (pos :: places).Pairwise (· ≤ ·)) (hcuts : ∀ k ∈ places, Uncut w text k)
    (h : w <:+: text.drop pos) : w <:+: splice wm pos places (text.drop pos) := by
  induction places generalizing pos with
  | nil => exact h
  | cons place places ih =>
    have hle : pos ≤ place := (List.pairwise_cons.mp hsorted).1 place List.mem_cons_self
    have hdrop : (text.drop pos).drop (place - pos) = text.drop place := by
      rw [List.drop_drop, Nat.add_sub_cancel' hle]
    have hparts : w <:+: (text.drop pos).take (place - pos) ∨ w <:+: text.drop place := by
      rcases hcuts place List.mem_cons_self with hend | hlast
      · rw [List.take_of_length_le]
        · exact Or.inl h
        · rw [List.length_drop]
          omega
      · rw [← List.take_append_drop (place - pos) (text.drop pos), hdrop] at h
        refine infix_of_cut h fun c hc => hlast c ?_
        have htake : text.take place = text.take pos ++ (text.drop pos).take (place - pos) := by
          rw [← List.take_add, Nat.add_sub_cancel' hle]
        rw [htake, List.getLast?_append, hc]
        rfl
    rw [splice, hdrop, List.append_assoc]
    rcases hparts with h | h
    · exact h.trans (List.prefix_append _ _).isInfix
    · have hrest := ih (List.pairwise_cons.mp hsorted).2
        (fun k hk => hcuts k (List.mem_cons_of_mem _ hk)) h
      exact hrest.trans ((List.suffix_append _ _).trans (List.suffix_append _ _)).isInfix

/-- Tiles are put between characters. -/
theorem utf8_splice {wm text : Bytes} {pos : ℕ} {places : List ℕ} (hwm : utf8Check wm = true)
    (hsorted : (pos :: places).Pairwise (· ≤ ·)) (hcuts : ∀ k ∈ pos :: places, Boundary text k) :
    utf8Check (splice wm pos places (text.drop pos)) = true := by
  induction places generalizing pos with
  | nil => exact (hcuts pos List.mem_cons_self).behind
  | cons place places ih =>
    have hle : pos ≤ place := (List.pairwise_cons.mp hsorted).1 place List.mem_cons_self
    have hdrop : (text.drop pos).drop (place - pos) = text.drop place := by
      rw [List.drop_drop, Nat.add_sub_cancel' hle]
    have htake : text.take place = text.take pos ++ (text.drop pos).take (place - pos) := by
      rw [← List.take_add, Nat.add_sub_cancel' hle]
    have hbefore := (hcuts place (List.mem_cons_of_mem _ List.mem_cons_self)).before
    rw [htake, utf8Check_append (hcuts pos List.mem_cons_self).before] at hbefore
    rw [splice, hdrop, List.append_assoc, utf8Check_append hbefore, utf8Check_append hwm]
    exact ih (List.pairwise_cons.mp hsorted).2 fun k hk => hcuts k (List.mem_cons_of_mem _ hk)

theorem mem_tile {p : WatermarkPayload} {c : Char} (h : c ∈ tile p) : 128 ≤ c.toNat := by
  have hhigh : ∀ d, (zwSymbol d).all (fun c => 128 ≤ c.toNat) = true := by decide
  obtain ⟨d, -, hd⟩ := List.mem_flatMap.mp h
  exact of_decide_eq_true (List.all_eq_true.mp (hhigh d) c hd)

theorem utf8_tile (p : WatermarkPayload) : utf8Check (tile p) = true := by
  have hsymbol : ∀ d, utf8Check (zwSymbol d) = true := by decide
  have hall : ∀ l : List (Fin 4), utf8Check (l.flatMap zwSymbol) = true := by
    intro l
    induction l with
    | nil => rfl
    | cons d l ih => rw [List.flatMap_cons, utf8Check_append (hsymbol d), ih]
  exact hall _

/-- The letters of a placeholder and its brackets. -/
def isPlaceholderChar (c : Char) : Bool := isTokenChar c || c = '[' || c = ']'

theorem placeholder_chars {m : SessionMap} (hok : MapOk m.entries) {e : PiiEntry}
    (he : e ∈ m.entries) : ∀ c ∈ e.placeholder, isPlaceholderChar c = true := by
  obtain ⟨body, hbody, hname⟩ := placeholder_eq hok he
  intro c hc
  rw [hname] at hc
  rcases List.mem_append.mp hc with hc | hc
  · rcases List.mem_cons.mp hc with rfl | hc
    · rfl
    · simp [isPlaceholderChar, hbody.letters c hc]
  · rw [List.mem_singleton.mp hc]
    rfl

theorem placeholderChar_ascii {c : Char} (h : isPlaceholderChar c = true) : c.toNat < 128 := by
  simp only [isPlaceholderChar, isTokenChar, Bool.or_eq_true, decide_eq_true_eq] at h
  rcases h with (((h | h) | rfl) | rfl) | rfl
  · simp only [Char.isUpper, decide_eq_true_eq] at h
    exact lt_of_le_of_lt (UInt32.le_iff_toNat_le.mp h.2) (by decide)
  · exact JsonUtf8Loads.isDigit_ascii h
  · decide
  · decide
  · decide

/-- No tile is put into a placeholder. -/
theorem uncut_tilePlaces (minInterval : ℕ) (text : Bytes) {w : Bytes}
    (hw : ∀ c ∈ w, isPlaceholderChar c = true) :
    ∀ k ∈ tilePlaces minInterval text, Uncut w text k := by
  have hmarks : ∀ mark ∈ sentenceMarks, mark.getLast?.any isPlaceholderChar = false ∧
      mark ≠ [] := by decide
  unfold tilePlaces
  dsimp only
  split
  · intro k hk
    rw [List.mem_singleton.mp hk]
    exact Or.inl le_rfl
  · intro k hk
    obtain ⟨v, mark, r, hs, rfl, hmark⟩ := collectAnchors_mark (u := []) rfl k hk
    rw [List.nil_append] at hs
    refine Or.inr fun c hc hmem => ?_
    obtain ⟨hlast, hne⟩ := hmarks mark hmark
    rw [hs, ← List.append_assoc, ← List.length_append, List.take_left,
      List.getLast?_append_of_ne_nil _ hne] at hc
    rw [hc, Option.any_some, hw c hmem] at hlast
    cases hlast

theorem tile_inject (p : WatermarkPayload) (text : Bytes) : tile p <:+: watermarkInject p text :=
  infix_splice _ _ (tilePlaces_ne_nil 100 text)

/-- The placeholders in a text are those in the marked text. -/
theorem placeholder_inject_iff {m : SessionMap} (hok : MapOk m.entries) {e : PiiEntry}
    (he : e ∈ m.entries) (p : WatermarkPayload) (text : Bytes) :
    e.placeholder <:+: watermarkInject p text ↔ e.placeholder <:+: text := by
  have hchars := placeholder_chars hok he
  constructor
  · refine infix_of_splice (tile_ne_nil p) fun c hc hmem => ?_
    have := mem_tile hc
    have := placeholderChar_ascii (hchars c hmem)
    omega
  · exact @infix_splice_of_uncut _ _ text 0 _ (tilePlaces_sorted 100 text)
      (uncut_tilePlaces 100 text hchars)

theorem utf8_inject (p : WatermarkPayload) {text : Bytes} (h : utf8Check text = true) :
    utf8Check (watermarkInject p text) = true := by
  refine @utf8_splice _ text 0 _ (utf8_tile p) (tilePlaces_sorted 100 text) fun k hk => ?_
  rcases List.mem_cons.mp hk with rfl | hk
  · exact ⟨rfl, h⟩
  · exact tilePlaces_boundary 100 h k hk

theorem nonzero_inject (p : WatermarkPayload) {text : Bytes} (h : Nonzero text) :
    Nonzero (watermarkInject p text) := by
  intro hc
  rcases mem_splice hc with hc | hc
  · exact absurd (mem_tile hc) (by decide)
  · exact h hc

/-! A string of a clean document is replaced by another. -/

theorem key_of_lookup {members : List (Bytes × Json)} {key : Bytes} {v : Json}
    (h : lookup members key = some v) : key ∈ members.map Prod.fst := by
  induction members with
  | nil => cases h
  | cons m rest ih =>
    rw [lookup] at h
    split at h
    · rename_i hkey
      rw [← hkey]
      exact List.mem_cons_self
    · exact List.mem_cons_of_mem _ (ih h)

theorem clean_key {members : List (Bytes × Json)} {key : Bytes} (h : Clean (.object members))
    (hkey : key ∈ members.map Prod.fst) : Nonzero key ∧ utf8Check key = true := by
  have hw := h.wellFormed
  have hu := h.utf8
  clear h
  simp only [JsonRoundtrip.wellFormed, Bool.and_eq_true] at hw
  replace hw := hw.1
  induction members with
  | nil => cases hkey
  | cons m rest ih =>
    simp only [JsonRoundtrip.wellFormedMembers, Bool.and_eq_true, decide_eq_true_eq] at hw
    rcases List.mem_cons.mp hkey with rfl | hkey
    · exact ⟨hw.1.1, hu _ List.mem_cons_self⟩
    · refine ih hkey (fun s hs => hu s ?_) hw.2
      exact List.mem_cons_of_mem _ (List.mem_append_right _ hs)

theorem mem_stringsItems {items : List Json} {s : Bytes} (h : s ∈ stringsItems items) :
    ∃ x ∈ items, s ∈ strings x := by
  induction items with
  | nil => cases h
  | cons x rest ih =>
    rcases List.mem_append.mp h with h | h
    · exact ⟨x, List.mem_cons_self, h⟩
    · obtain ⟨y, hy, hs⟩ := ih h
      exact ⟨y, List.mem_cons_of_mem _ hy, hs⟩

theorem clean_put {j v c : Json} {s : Step} (hj : Clean j) (hc : child j s = some c)
    (hv : Clean v) : Clean (put j v s) := by
  cases s with
  | member key =>
    cases j with
    | object members =>
      obtain ⟨hkey, hutf8⟩ := clean_key hj (key_of_lookup hc)
      exact ⟨wellFormed_set hkey hj.wellFormed hv.wellFormed,
        JsonUtf8Loads.strings_assign hj.utf8 hutf8 hv.utf8⟩
    | _ => cases hc
  | item i =>
    cases j with
    | array items =>
      have hall : ∀ x ∈ items.set i v, Clean x := by
        intro x hx
        rcases List.mem_or_eq_of_mem_set hx with hx | rfl
        · exact hj.item hx
        · exact hv
      refine ⟨wellFormedItems_iff.mpr fun x hx => (hall x hx).wellFormed, fun t ht => ?_⟩
      obtain ⟨x, hx, ht⟩ := mem_stringsItems ht
      exact (hall x hx).utf8 t ht
    | _ => cases hc

theorem depth_put {j v c : Json} {s : Step} (hc : child j s = some c) (hd : depth v ≤ depth c) :
    depth (put j v s) ≤ depth j := by
  cases s with
  | member key =>
    cases j with
    | object members =>
      have hle := depth_lookup_le hc
      have hbound : depth v + 1 ≤ depth (.object members) := by
        rw [depth]
        omega
      exact @depth_set (.object members) v key _ le_rfl hbound
    | _ => cases hc
  | item i =>
    cases j with
    | array items =>
      have hmem : c ∈ items := List.mem_of_getElem? hc
      have hall := depthItems_le_iff.mp (le_refl (depthItems items))
      rw [put, depth, depth, Nat.add_le_add_iff_right, depthItems_le_iff]
      intro x hx
      rcases List.mem_or_eq_of_mem_set hx with hx | rfl
      · exact hall x hx
      · exact hd.trans (hall c hmem)
    | _ => cases hc

theorem isDocument_put (j v : Json) (s : Step) : isDocument (put j v s) = isDocument j := by
  cases s <;> cases j <;> rfl

theorem clean_child {j c : Json} {s : Step} (hj : Clean j) (hc : child j s = some c) :
    Clean c := by
  cases s with
  | member key => exact hj.get hc
  | item i =>
    cases j with
    | array items => exact hj.item (List.mem_of_getElem? hc)
    | _ => cases hc

theorem clean_stringAt {j : Json} {p : Path} {text : Bytes} (hj : Clean j)
    (h : stringAt j p = some text) : utf8Check text = true ∧ Nonzero text := by
  induction p generalizing j with
  | nil => exact hj.stringValue h
  | cons s p ih =>
    obtain ⟨c, hc, htext⟩ := child_of_stringAt h
    exact ih (clean_child hj hc) htext

theorem clean_replaceAt {j : Json} {p : Path} {text new : Bytes} (hj : Clean j)
    (h : stringAt j p = some text) (hnew : Nonzero new) (hutf8 : utf8Check new = true) :
    Clean (replaceAt j p (.string new)) ∧ depth (replaceAt j p (.string new)) ≤ depth j := by
  induction p generalizing j with
  | nil =>
    refine ⟨⟨by simpa [replaceAt, JsonRoundtrip.wellFormed] using hnew, fun s hs => ?_⟩, ?_⟩
    · rw [List.mem_singleton.mp hs]
      exact hutf8
    · cases j with
      | string => exact le_rfl
      | _ => cases h
  | cons s p ih =>
    obtain ⟨c, hc, htext⟩ := child_of_stringAt h
    obtain ⟨hclean, hdepth⟩ := ih (clean_child hj hc) htext
    rw [replaceAt_cons p _ hc]
    exact ⟨clean_put hj hc hclean, depth_put hc hdepth⟩

theorem isDocument_replaceAt {j : Json} {p : Path} {text : Bytes} (new : Bytes)
    (h : stringAt j p = some text) (hj : isDocument j = true) :
    isDocument (replaceAt j p (.string new)) = true := by
  cases p with
  | nil =>
    cases j with
    | string => cases hj
    | _ => cases h
  | cons s p => rw [replaceAt, isDocument_put, hj]

/-- A string that is not empty. -/
def filled : Finder
  | .string s => if s = [] then none else some []
  | _ => none

/-- The text of a block that is not the model's thinking. -/
def blockPlace : Finder := fun block =>
  if block.getString "type" = some (ascii "thinking") then none else atMember "text" filled block

/-- The content of a choice's message. -/
def choicePlace : Finder := atMember "message" (atMember "content" filled)

/-- The place of the text that the assistant answers with, in either of two formats. -/
def answerPlace : Finder := fun root =>
  (atMember "choices" (atHead choicePlace) root).or (atMember "content" (atFirst blockPlace) root)

theorem holds_answerPlace : Holds (· ≠ []) answerPlace := by
  have hfilled : Holds (· ≠ []) filled := by
    intro j p h
    cases j with
    | string s =>
      rw [filled] at h
      split at h
      · cases h
      · rename_i hs
        cases h
        exact ⟨s, rfl, hs⟩
    | _ => cases h
  have hblock : Holds (· ≠ []) blockPlace := by
    intro j p h
    unfold blockPlace at h
    split at h
    · cases h
    · exact hfilled.atMember "text" j p h
  have hchoice := ((hfilled.atMember "content").atMember "message").atHead.atMember "choices"
  exact hchoice.or (hblock.atFirst.atMember "content")

/-- A text that is replaced by one that is not empty is found again. -/
theorem stable_answerPlace : Stable (· ≠ []) answerPlace := by
  have hfilled : Stable (· ≠ []) filled := by
    intro j p text new hnew h _
    cases j with
    | string s =>
      rw [filled] at h
      split at h
      · cases h
      · cases h
        exact if_neg hnew
    | _ => cases h
  have hblock : Stable (· ≠ []) blockPlace := by
    intro j p text new hnew h htext
    unfold blockPlace at h
    split at h
    · cases h
    · rename_i hthinking
      have hp := hfilled.atMember "text" j p text new hnew h htext
      obtain ⟨c, -, h⟩ := Option.bind_eq_some_iff.mp h
      obtain ⟨p, -, rfl⟩ := Option.map_eq_some_iff.mp h
      have htype : (replaceAt j (.member "text" :: p) (.string new)).get "type" = j.get "type" :=
        get_replaceAt_of_ne j p _ (by decide)
      rw [blockPlace, Json.getString, htype, ← Json.getString, if_neg hthinking, hp]
  have hchoice := ((hfilled.atMember "content").atMember "message").atHead.atMember "choices"
  have hcontent := hblock.atFirst.atMember "content"
  intro j p text new hnew h htext
  rcases Option.or_eq_some_iff.mp h with h | ⟨hnone, h⟩
  · rw [answerPlace, choicePlace, hchoice j p text new hnew h htext]
    rfl
  · have hp := hcontent j p text new hnew h htext
    obtain ⟨c, -, h⟩ := Option.bind_eq_some_iff.mp h
    obtain ⟨p, -, rfl⟩ := Option.map_eq_some_iff.mp h
    rw [answerPlace, atMember_replaceAt_of_ne _ _ _ _ (by decide), hnone, Option.none_or, hp]

/-- What is put in the place of a text. -/
def markedText (p : WatermarkPayload) (text : Option Bytes) : Json :=
  .string (watermarkInject p (text.getD []))

/-- The text at a place gets the tiles. -/
def markAt (p : WatermarkPayload) (root : Json) (q : Path) : Json :=
  replaceAt root q (markedText p (stringAt root q))

theorem filled_member (j : Json) (key : String) :
    atMember key filled j = (nonemptyString j key).map fun _ => [.member key] := by
  rw [atMember, nonemptyString, Json.getString]
  cases j.get key with
  | none => rfl
  | some c =>
    cases c with
    | string s =>
      rw [Option.bind_some, Option.bind_some, filled, Json.stringValue, Option.filter_some]
      by_cases hs : s = [] <;> simp [hs]
    | _ => rfl

theorem stringAt_member (j : Json) (key : String) : stringAt j [.member key] = j.getString key := by
  rw [stringAt, valueAt, child, Json.getString]
  cases j.get key <;> rfl

theorem markChoice_eq (p : WatermarkPayload) (c0 : Json) :
    (((c0.get "message").bind (nonemptyString · "content")).map fun text =>
      c0.set "message" (((c0.get "message").getD .null).set "content"
        (.string (watermarkInject p text)))) = (choicePlace c0).map (markAt p c0) := by
  rw [choicePlace, atMember]
  cases hmessage : c0.get "message" with
  | none => rfl
  | some message =>
    have hchild : child c0 (.member "message") = some message := hmessage
    rw [Option.bind_some, Option.bind_some, filled_member]
    cases htext : nonemptyString message "content" with
    | none => rfl
    | some text =>
      have hget : message.getString "content" = some text := (Option.filter_eq_some_iff.mp htext).1
      rw [Option.map_some, Option.map_some, Option.map_some, Option.map_some, Option.getD_some,
        markAt, replaceAt_cons _ _ hchild, stringAt_cons _ hchild, stringAt_member, hget]
      rfl

theorem markMessage_eq (p : WatermarkPayload) (root : Json) :
    markMessage p root = (atMember "choices" (atHead choicePlace) root).map (markAt p root) := by
  rw [markMessage, firstChoice, Json.getArray, atMember]
  cases hget : root.get "choices" with
  | none => rfl
  | some c =>
    have hroot : child root (.member "choices") = some c := hget
    rw [Option.bind_some, Option.bind_some]
    cases c with
    | array items =>
      cases items with
      | nil => rfl
      | cons c0 choices =>
        have hc0 : child (.array (c0 :: choices)) (.item 0) = some c0 := rfl
        have hhead : atHead choicePlace (.array (c0 :: choices))
            = (choicePlace c0).map (.item 0 :: ·) := rfl
        have hmark := markChoice_eq p c0
        have hedit : ∀ f,
            editFirstChoice f root = root.set "choices" (.array (f c0 :: choices)) := by
          intro f
          rw [editFirstChoice, getArray_eq_some.mpr hget]
        rw [hhead, Json.arrayItems, Option.bind_some, List.head?_cons, Option.bind_some]
        simp only [hedit]
        cases hplace : choicePlace c0 with
        | none =>
          rw [hplace, Option.map_none, Option.map_eq_none_iff] at hmark
          rw [hmark]
          rfl
        | some q =>
          rw [hplace, Option.map_some] at hmark
          obtain ⟨text, htext, heq⟩ := Option.map_eq_some_iff.mp hmark
          rw [htext, Option.map_some, heq, Option.map_some, Option.map_some, Option.map_some,
            markAt, markAt, replaceAt_cons _ _ hroot, replaceAt_cons _ _ hc0,
            stringAt_cons _ hroot, stringAt_cons _ hc0]
          rfl
    | _ => rfl

theorem blockPlace_eq (block : Json) :
    blockPlace block = if isTextBlock block then some [.member "text"] else none := by
  rw [blockPlace, filled_member, isTextBlock]
  by_cases hthinking : block.getString "type" = some (ascii "thinking")
  · simp [hthinking]
  · cases nonemptyString block "text" <;> simp [hthinking]

theorem markBlocks_eq (p : WatermarkPayload) (items : List Json) :
    (replaceFirst isTextBlock (markBlock p) items).map Json.array =
      (atFirst blockPlace (.array items)).map (markAt p (.array items)) := by
  have hfirst : atFirst blockPlace (.array items) = firstFrom blockPlace 0 items := rfl
  rw [hfirst]
  cases h : firstFrom blockPlace 0 items with
  | none =>
    have hnone : ∀ x ∈ items, isTextBlock x = false := by
      intro x hx
      have := firstFrom_eq_none.mp h x hx
      rw [blockPlace_eq] at this
      simpa using this
    rw [replaceFirst_eq_none hnone]
    rfl
  | some q =>
    obtain ⟨before, x, after, q, rfl, rfl, hq, hbefore⟩ := firstFrom_eq_some h
    have hx : isTextBlock x = true ∧ q = [.member "text"] := by
      rw [blockPlace_eq] at hq
      split at hq
      · rename_i hx
        exact ⟨hx, (Option.some.inj hq).symm⟩
      · cases hq
    have hnone : ∀ y ∈ before, isTextBlock y = false := by
      intro y hy
      have := hbefore y hy
      rw [blockPlace_eq] at this
      simpa using this
    have hchild := child_append before after x
    rw [replaceFirst_append hx.1 hnone, Option.map_some, Option.map_some, hx.2, markAt,
      replaceAt_cons _ _ hchild, stringAt_cons _ hchild, stringAt_member, put_append]
    rfl

/-- The watermark replaces the text at one place. -/
theorem watermarkAnswer_eq (p : WatermarkPayload) {body : Bytes} {root : Json}
    (hload : jsonLoads (cString body) = some root) :
    watermarkAnswer p body =
      ((answerPlace root).map fun q => dumps (markAt p root q)).getD body := by
  have hcontent : markContent p root
      = (atMember "content" (atFirst blockPlace) root).map (markAt p root) :=
    editMember_eq (g := markedText p) (fun j hj => by simp [atFirst, hj]) (markBlocks_eq p) root
      "content"
  rw [watermarkAnswer, hload, Option.bind_some, markMessage_eq, hcontent, answerPlace]
  cases atMember "choices" (atHead choicePlace) root with
  | some q => rfl
  | none => cases atMember "content" (atFirst blockPlace) root <;> rfl

end Aigate.MarkedAnswers
