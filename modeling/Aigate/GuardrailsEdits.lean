import Aigate.GuardrailsWebhook
import Aigate.JsonEdit

/-!
# What the guardrails leave of a request

A body that the guardrails or a webhook have replaced is a JSON text again. It has the members
of the body it replaces, except for those that hold the texts of the conversation.
-/
namespace Aigate.GuardrailsEdits
open Text JsonTree JsonText JsonRoundtrip JsonEdit PiiText Guardrails GuardrailsWebhook

/-- A string of the source has no zero before its end. -/
abbrev Nonzero (s : Bytes) : Prop := Char.ofNat 0 ∉ s

theorem nonzero_append {s t : Bytes} (hs : Nonzero s) (ht : Nonzero t) : Nonzero (s ++ t) := by
  rw [Nonzero, List.mem_append]
  rintro (h | h)
  · exact hs h
  · exact ht h

theorem nonzero_sublist {s t : Bytes} (h : s.Sublist t) (ht : Nonzero t) : Nonzero s :=
  fun hs => ht (h.subset hs)

theorem cString_of_nonzero {s : Bytes} (h : Nonzero s) : cString s = s :=
  cString_eq_self_iff.mpr h

theorem nonzero_cString (s : Bytes) : Nonzero (cString s) := nul_not_mem_cString s

theorem nonzero_stars (n : ℕ) : Nonzero (stars n) := by
  intro h
  have := List.eq_of_mem_replicate h
  revert this
  decide

theorem nonzero_decimal (n : ℕ) : Nonzero (decimal n) := by
  intro h
  have := decimal_digits h
  revert this
  decide

theorem nonzero_bracketed {s : Bytes} (h : Nonzero s) : Nonzero (bracketed s) := by
  rw [bracketed, Nonzero, List.mem_append, List.mem_cons]
  rintro ((h0 | h0) | h0)
  · revert h0
    decide
  · exact h h0
  · revert h0
    decide

theorem nonzero_ascii (s : String) (h : s.toList.all (fun c => c ≠ Char.ofNat 0) = true) :
    Nonzero (ascii s) := not_mem_ascii s h

theorem nonzero_tag (type : PiiType) : Nonzero type.tag := by
  cases type <;> exact nonzero_ascii _ rfl

theorem nonzero_cons {c : Char} {s : Bytes} (hc : c ≠ Char.ofNat 0) (hs : Nonzero s) :
    Nonzero (c :: s) := by
  rw [Nonzero, List.mem_cons]
  rintro (h | h)
  · exact hc h.symm
  · exact hs h

/-- What the serialiser writes is a C string. -/
theorem nonzero_dumps (j : Json) : Nonzero (dumps j) := by
  intro h
  have := printable_dumps j _ h
  revert this
  decide

theorem loads_cString_dumps {j : Json} (h : Readable j) : loads (cString (dumps j)) = some j := by
  rw [cString_of_nonzero (nonzero_dumps j)]
  exact h.loads_dumps

theorem mem_of_mem_splitOn {s piece : Bytes} {sep c : Char} (h : piece ∈ s.splitOn sep)
    (hc : c ∈ piece) : c ∈ s := by
  have hpieces : ∀ l : List Bytes, piece ∈ l → c ∈ [sep].intercalate l := by
    intro l hl
    induction l with
    | nil => cases hl
    | cons x l ih =>
      cases l with
      | nil =>
        obtain rfl := List.mem_singleton.mp hl
        simpa using hc
      | cons y l =>
        rw [List.intercalate_cons_cons, List.mem_append, List.mem_append]
        rcases List.mem_cons.mp hl with rfl | hl
        · exact Or.inl (Or.inl hc)
        · exact Or.inr (ih hl)
  have := hpieces _ h
  rwa [List.intercalate_splitOn] at this

theorem nonzero_maskPartial (type : PiiType) {s : Bytes} (h : Nonzero s) :
    Nonzero (type.maskPartial s) := by
  have htake : ∀ n, Nonzero (s.take n) := fun n => nonzero_sublist (List.take_sublist n s) h
  have hdrop : ∀ n, Nonzero (s.drop n) := fun n => nonzero_sublist (List.drop_sublist n s) h
  cases type with
  | phone =>
    simp only [PiiType.maskPartial, maskPartialPhone, lastFour]
    split_ifs
    · exact nonzero_append (nonzero_append (htake 3) (nonzero_stars 4)) (hdrop 7)
    · exact nonzero_append (nonzero_append (htake 3) (nonzero_stars 4)) (hdrop _)
    · exact nonzero_bracketed (nonzero_ascii _ rfl)
  | idCard =>
    simp only [PiiType.maskPartial, maskPartialIdCard]
    split_ifs
    · exact nonzero_append (nonzero_append (htake 6) (nonzero_stars 8)) (hdrop 14)
    · exact nonzero_bracketed (nonzero_ascii _ rfl)
  | bankCard =>
    simp only [PiiType.maskPartial, maskPartialBankCard, lastFour]
    split_ifs
    · exact nonzero_append (nonzero_append (htake 6) (nonzero_stars 6)) (hdrop _)
    · exact nonzero_bracketed (nonzero_ascii _ rfl)
  | email =>
    have huser : Nonzero (s.takeWhile (· ≠ '@')) :=
      nonzero_sublist (List.takeWhile_sublist _) h
    have hhost : Nonzero (s.dropWhile (· ≠ '@')) :=
      nonzero_sublist (List.dropWhile_sublist _) h
    simp only [PiiType.maskPartial, maskPartialEmail]
    split_ifs
    · exact nonzero_bracketed (nonzero_ascii _ rfl)
    · exact nonzero_append (nonzero_append (nonzero_append
        (nonzero_sublist (List.take_sublist 1 _) huser) (nonzero_stars 3))
        (nonzero_sublist (List.drop_sublist _ _) huser)) hhost
    · exact nonzero_append (nonzero_append
        (nonzero_sublist (List.take_sublist 1 _) huser) (nonzero_stars 3)) hhost
  | apiKey =>
    simp only [PiiType.maskPartial, maskPartialApiKey, lastFour]
    split_ifs
    · exact nonzero_append (nonzero_append (nonzero_ascii _ rfl) (nonzero_stars 6)) (hdrop _)
    · exact nonzero_append (nonzero_append (nonzero_ascii _ rfl) (nonzero_stars 6)) (hdrop _)
    · exact nonzero_append (nonzero_append (nonzero_ascii _ rfl) (nonzero_stars 6)) (hdrop _)
    · exact nonzero_append (nonzero_append (htake 4) (nonzero_stars 6)) (hdrop _)
    · exact nonzero_bracketed (nonzero_ascii _ rfl)
  | ipAddress =>
    simp only [PiiType.maskPartial, maskPartialIp]
    split
    · rename_i a b c rest hsplit
      have hpiece : ∀ p ∈ s.splitOn '.', Nonzero p :=
        fun p hp h0 => h (mem_of_mem_splitOn hp h0)
      rw [hsplit] at hpiece
      refine nonzero_append (nonzero_append (hpiece a (by simp)) ?_) (by decide)
      exact nonzero_cons (by decide) (hpiece b (by simp))
    · exact nonzero_bracketed (nonzero_ascii _ rfl)

/-- The placeholders of a session map have no zero. -/
def PlaceholdersNonzero (map : Option SessionMap) : Prop :=
  ∀ m ∈ map, ∀ e ∈ m.entries, Nonzero e.placeholder

theorem nonzero_newPlaceholder (m : SessionMap) (type : PiiType) :
    Nonzero (m.newPlaceholder type) :=
  nonzero_bracketed (nonzero_append (nonzero_tag type)
    (nonzero_cons (by decide) (nonzero_decimal _)))

theorem replacement_nonzero (type : PiiType) (action : PiiAction) {map : Option SessionMap}
    {entity : Bytes} (hmap : PlaceholdersNonzero map) (hentity : Nonzero entity) :
    PlaceholdersNonzero (replacement type action map entity).1 ∧
      Nonzero (replacement type action map entity).2 := by
  have htag : Nonzero (bracketed type.tag) := nonzero_bracketed (nonzero_tag type)
  cases action with
  | off => exact ⟨hmap, hentity⟩
  | block => exact ⟨hmap, hentity⟩
  | redactTag => exact ⟨hmap, htag⟩
  | maskPartial =>
    exact ⟨hmap, nonzero_sublist (List.take_sublist 127 _) (nonzero_maskPartial type hentity)⟩
  | anonymizeRestore =>
    cases map with
    | none => exact ⟨hmap, htag⟩
    | some m =>
      have hentries := hmap m rfl
      have hnew := nonzero_newPlaceholder m type
      simp only [replacement, SessionMap.getOrCreate]
      split
      · exact ⟨hmap, htag⟩
      · split
        · rename_i e hfind
          exact ⟨hmap, hentries e (List.mem_of_find?_eq_some hfind)⟩
        · split
          · refine ⟨?_, hnew⟩
            intro m' hm' e he
            obtain rfl := Option.some.inj hm'
            rcases List.mem_append.mp he with he | he
            · exact hentries e he
            · obtain rfl := List.mem_singleton.mp he
              exact hnew
          · exact ⟨hmap, htag⟩

theorem replaceLoop_nonzero (type : PiiType) (action : PiiAction) (rounds : ℕ) {cursor : Bytes}
    {pass : Pass} (hcursor : Nonzero cursor) (hout : Nonzero pass.out)
    (hmap : PlaceholdersNonzero pass.map) :
    Nonzero (replaceLoop type action rounds cursor pass).out ∧
      PlaceholdersNonzero (replaceLoop type action rounds cursor pass).map := by
  induction rounds generalizing cursor pass with
  | zero => exact ⟨hout, hmap⟩
  | succ rounds ih =>
    cases cursor with
    | nil => exact ⟨hout, hmap⟩
    | cons c rest =>
      have hdrop : ∀ n, Nonzero ((c :: rest).drop n) :=
        fun n => nonzero_sublist (List.drop_sublist n _) hcursor
      have htake : ∀ n, Nonzero ((c :: rest).take n) :=
        fun n => nonzero_sublist (List.take_sublist n _) hcursor
      unfold replaceLoop
      dsimp only
      split
      · exact ⟨nonzero_append hout hcursor, hmap⟩
      · exact ih (hdrop _) (nonzero_append hout (htake _)) hmap
      · rename_i so eo _
        have hentity : Nonzero (((c :: rest).drop so).take (eo - so)) :=
          nonzero_sublist (List.take_sublist _ _) (hdrop so)
        obtain ⟨hmap', hrepl⟩ := replacement_nonzero type action hmap hentity
        exact ih (hdrop eo) (nonzero_append (nonzero_append hout (htake so)) hrepl) hmap'

theorem replaceEntityRegex_nonzero (cfg : PiiConfig) {t : Transformed} (type : PiiType)
    (htext : Nonzero t.text) (hmap : PlaceholdersNonzero t.map) :
    Nonzero (replaceEntityRegex cfg t type).text ∧
      PlaceholdersNonzero (replaceEntityRegex cfg t type).map := by
  unfold replaceEntityRegex
  split
  · exact ⟨htext, hmap⟩
  · obtain ⟨hout, hmap'⟩ := @replaceLoop_nonzero type (cfg.action type) t.text.length t.text
      ⟨[], t.map, t.action, false, t.originals⟩ htext List.not_mem_nil hmap
    dsimp only
    refine ⟨?_, hmap'⟩
    split
    · exact hout
    · exact htext

/-- A transformed text is a C string when the text was one. -/
theorem transformPiiText_nonzero (cfg : PiiConfig) {map : Option SessionMap} {text : Bytes}
    (htext : Nonzero text) (hmap : PlaceholdersNonzero map) :
    Nonzero (transformPiiText cfg map text).text ∧
      PlaceholdersNonzero (transformPiiText cfg map text).map := by
  have hfold : ∀ (types : List PiiType) (t : Transformed), Nonzero t.text →
      PlaceholdersNonzero t.map →
      Nonzero (types.foldl (replaceEntityRegex cfg) t).text ∧
        PlaceholdersNonzero (types.foldl (replaceEntityRegex cfg) t).map := by
    intro types
    induction types with
    | nil => exact fun t h h' => ⟨h, h'⟩
    | cons type types ih =>
      intro t h h'
      obtain ⟨h1, h2⟩ := replaceEntityRegex_nonzero cfg type h h'
      exact ih _ h1 h2
  unfold transformPiiText
  split
  · exact ⟨htext, hmap⟩
  · exact hfold _ _ htext hmap

/-- An edit of some members of a tree. -/
structure Kept (keys : List String) (j j' : Json) : Prop where
  wellFormed : JsonRoundtrip.wellFormed j' = true
  depth_le : depth j' ≤ depth j
  isObject : j'.isObject = j.isObject
  get : ∀ key, key ∉ keys → j'.get key = j.get key

theorem Kept.refl {keys : List String} {j : Json} (h : JsonRoundtrip.wellFormed j = true) :
    Kept keys j j := ⟨h, le_refl _, rfl, fun _ _ => rfl⟩

theorem Kept.trans {keys : List String} {j j' j'' : Json} (h : Kept keys j j')
    (h' : Kept keys j' j'') : Kept keys j j'' where
  wellFormed := h'.wellFormed
  depth_le := h'.depth_le.trans h.depth_le
  isObject := h'.isObject.trans h.isObject
  get key hkey := (h'.get key hkey).trans (h.get key hkey)

theorem depth_lookup_le {members : List (Bytes × Json)} {key : Bytes} {v : Json}
    (h : lookup members key = some v) : depth v ≤ depthMembers members := by
  induction members with
  | nil => cases h
  | cons m rest ih =>
    by_cases hk : m.1 = key
    · simp only [lookup, hk, if_true, Option.some.injEq] at h
      simp [depthMembers, h]
    · simp only [lookup, hk, if_false] at h
      have := ih h
      simp only [depthMembers]
      omega

theorem wellFormed_lookup {members : List (Bytes × Json)} {key : Bytes} {v : Json}
    (h : lookup members key = some v) (hw : wellFormedMembers members = true) :
    wellFormed v = true := by
  induction members with
  | nil => cases h
  | cons m rest ih =>
    simp only [wellFormedMembers, Bool.and_eq_true] at hw
    by_cases hk : m.1 = key
    · simp only [lookup, hk, if_true, Option.some.injEq] at h
      rw [← h]
      exact hw.1.2
    · simp only [lookup, hk, if_false] at h
      exact ih h hw.2

/-- A member of a well-formed object is well formed, and less deep. -/
theorem wellFormed_get {j v : Json} {key : String} (h : j.get key = some v)
    (hw : wellFormed j = true) : wellFormed v = true ∧ depth v + 1 ≤ depth j := by
  cases j with
  | object members =>
    simp only [wellFormed, Bool.and_eq_true] at hw
    have := depth_lookup_le h
    simp only [depth]
    exact ⟨wellFormed_lookup h hw.1, by omega⟩
  | _ => cases h

/-- A member is replaced by one that is not deeper. -/
theorem Kept.set {keys : List String} {j v w : Json} {key : String} (hget : j.get key = some w)
    (hkey : key ∈ keys) (hnonzero : Char.ofNat 0 ∉ ascii key)
    (hj : JsonRoundtrip.wellFormed j = true) (hv : JsonRoundtrip.wellFormed v = true)
    (hd : depth v ≤ depth w) : Kept keys j (j.set key v) where
  wellFormed := wellFormed_set hnonzero hj hv
  depth_le := depth_set (le_refl _) (by have := (wellFormed_get hget hj).2; omega)
  isObject := isObject_set _ _ _
  get key' hkey' := Json.get_set_of_ne j v fun h => hkey' (h ▸ hkey)

/-- A scanner edits the members of some keys, and its session map stays a map to C strings. -/
def Keeps (keys : List String) (s : Scanner) : Prop :=
  ∀ j scan r, s j scan = some r → wellFormed j = true → PlaceholdersNonzero scan.map →
    Kept keys j r.1 ∧ PlaceholdersNonzero r.2.map

theorem keeps_scanString (cfg : PiiConfig) {key : String} {keys : List String} (hkey : key ∈ keys)
    (hnonzero : Char.ofNat 0 ∉ ascii key) : Keeps keys (scanString cfg key) := by
  intro j scan r h hj hmap
  unfold scanString at h
  cases hget : j.getString key with
  | none =>
    rw [hget] at h
    cases h
    exact ⟨Kept.refl hj, hmap⟩
  | some text =>
    rw [hget] at h
    dsimp only at h
    split at h
    · cases h
    · cases h
      have hget' := getString_eq_some.mp hget
      have htext : Nonzero text := by
        have := (wellFormed_get hget' hj).1
        simpa [wellFormed] using this
      obtain ⟨hnew, hmap'⟩ := transformPiiText_nonzero cfg htext hmap
      refine ⟨?_, hmap'⟩
      dsimp only
      split
      · exact Kept.set hget' hkey hnonzero hj (by simpa [wellFormed] using hnew) (le_refl _)
      · exact Kept.refl hj

theorem keeps_scanItems {keys : List String} {s : Scanner} (hs : Keeps keys s)
    {items : List Json} {scan : Scan} {r : List Json × Scan} (h : scanItems s items scan = some r)
    (hitems : wellFormedItems items = true) (hmap : PlaceholdersNonzero scan.map) :
    wellFormedItems r.1 = true ∧ depthItems r.1 ≤ depthItems items ∧
      PlaceholdersNonzero r.2.map := by
  induction items generalizing scan r with
  | nil =>
    cases h
    exact ⟨hitems, le_refl _, hmap⟩
  | cons item rest ih =>
    simp only [wellFormedItems, Bool.and_eq_true] at hitems
    obtain ⟨a, ha, h⟩ := Option.bind_eq_some_iff.mp h
    obtain ⟨b, hb, rfl⟩ := Option.map_eq_some_iff.mp h
    obtain ⟨hkept, hmapa⟩ := hs _ _ _ ha hitems.1 hmap
    obtain ⟨hw, hd, hmapb⟩ := ih hb hitems.2 hmapa
    have := hkept.depth_le
    refine ⟨?_, ?_, hmapb⟩
    · simp [wellFormedItems, hkept.wellFormed, hw]
    · simp only [depthItems]
      omega

theorem getArray_eq_some {j : Json} {key : String} {items : List Json} :
    j.getArray key = some items ↔ j.get key = some (.array items) := by
  unfold Json.getArray
  cases h : j.get key with
  | none => simp
  | some v => cases v <;> simp [Json.arrayItems]

theorem keeps_scanArray {keys keys' : List String} {key : String} {s : Scanner}
    (hs : Keeps keys' s) (hkey : key ∈ keys) (hnonzero : Char.ofNat 0 ∉ ascii key) :
    Keeps keys (scanArray key s) := by
  intro j scan r h hj hmap
  unfold scanArray at h
  cases hget : j.getArray key with
  | none =>
    rw [hget] at h
    cases h
    exact ⟨Kept.refl hj, hmap⟩
  | some items =>
    rw [hget] at h
    obtain ⟨a, ha, rfl⟩ := Option.map_eq_some_iff.mp h
    have hget' := getArray_eq_some.mp hget
    have hitems : wellFormedItems items = true := (wellFormed_get hget' hj).1
    obtain ⟨hw, hd, hmap'⟩ := keeps_scanItems hs ha hitems hmap
    refine ⟨Kept.set hget' hkey hnonzero hj hw ?_, hmap'⟩
    simp only [depth]
    omega

theorem Keeps.next {keys : List String} {s t : Scanner} (hs : Keeps keys s) (ht : Keeps keys t) :
    Keeps keys (Scanner.next s t) := by
  intro j scan r h hj hmap
  obtain ⟨a, ha, h⟩ := Option.bind_eq_some_iff.mp h
  obtain ⟨hkept, hmapa⟩ := hs _ _ _ ha hj hmap
  obtain ⟨hkept', hmapr⟩ := ht _ _ _ h hkept.wellFormed hmapa
  exact ⟨hkept.trans hkept', hmapr⟩

theorem keeps_scanMessage (cfg : PiiConfig) : Keeps ["content"] (scanMessage cfg) := by
  have hcontent : Nonzero (ascii "content") := nonzero_ascii _ rfl
  have htext : Keeps ["text"] (scanString cfg "text") :=
    keeps_scanString cfg (List.mem_singleton_self _) (nonzero_ascii _ rfl)
  intro j scan r h
  unfold scanMessage at h
  split at h
  · exact keeps_scanString cfg (List.mem_singleton_self _) hcontent j scan r h
  · exact keeps_scanArray htext (List.mem_singleton_self _) hcontent j scan r h

/-- The members of a request that hold texts. -/
def textKeys : List String := ["messages", "prompt", "system", "contents"]

theorem keeps_scanBody (cfg : PiiConfig) : Keeps textKeys (scanBody cfg) := by
  have htext : Keeps ["text"] (scanString cfg "text") :=
    keeps_scanString cfg (List.mem_singleton_self _) (nonzero_ascii _ rfl)
  have hparts : Keeps ["parts"] (scanContents cfg) :=
    keeps_scanArray htext (List.mem_singleton_self _) (nonzero_ascii _ rfl)
  have hmessages : Keeps textKeys (scanArray "messages" (scanMessage cfg)) :=
    keeps_scanArray (keeps_scanMessage cfg) (by simp [textKeys]) (nonzero_ascii _ rfl)
  have hcontents : Keeps textKeys (scanArray "contents" (scanContents cfg)) :=
    keeps_scanArray hparts (by simp [textKeys]) (nonzero_ascii _ rfl)
  have hprompt : Keeps textKeys (scanString cfg "prompt") :=
    keeps_scanString cfg (by simp [textKeys]) (nonzero_ascii _ rfl)
  have hsystem : Keeps textKeys (scanString cfg "system") :=
    keeps_scanString cfg (by simp [textKeys]) (nonzero_ascii _ rfl)
  exact ((hmessages.next hprompt).next hsystem).next hcontents

/-- A body that is put in the place of another: when that is an object, so is the new one, and
other members than those of the texts are the same. -/
def Edited (body body' : Bytes) : Prop :=
  ∀ root, loads (cString body) = some root → root.isObject = true →
    ∃ root', loads (cString body') = some root' ∧ root'.isObject = true ∧
      ∀ key, key ∉ textKeys → root'.get key = root.get key

theorem Edited.refl (body : Bytes) : Edited body body :=
  fun root h hobj => ⟨root, h, hobj, fun _ _ => rfl⟩

theorem Edited.trans {a b c : Bytes} (h : Edited a b) (h' : Edited b c) : Edited a c := by
  intro root hload hobj
  obtain ⟨root', hload', hobj', hget⟩ := h root hload hobj
  obtain ⟨root'', hload'', hobj'', hget'⟩ := h' root' hload' hobj'
  exact ⟨root'', hload'', hobj'', fun key hkey => (hget' key hkey).trans (hget key hkey)⟩

theorem isDocument_of_isObject {j : Json} (h : j.isObject = true) : isDocument j = true := by
  cases j <;> first | rfl | cases h

theorem Kept.readable {keys : List String} {j j' : Json} (h : Kept keys j j')
    (hobj : j.isObject = true) (hj : Readable j) : Readable j' where
  document := isDocument_of_isObject (h.isObject.trans hobj)
  wellFormed := h.wellFormed
  depth_le := h.depth_le.trans hj.depth_le

theorem edited_inspectPii (cfg : PiiConfig) {body body' : Bytes} {map : Option SessionMap}
    (hmap : PlaceholdersNonzero map) (h : (inspectPii cfg map body).verdict = .masked body') :
    Edited body body' := by
  intro root hload hobj
  unfold inspectPii at h
  rw [hload] at h
  dsimp only at h
  rw [if_pos hobj] at h
  unfold inspectObject at h
  split at h
  · cases h
  · rename_i masked scan hscan
    dsimp only at h
    split at h
    · cases h
      have hroot := Readable.of_loads hload
      obtain ⟨hkept, -⟩ := keeps_scanBody cfg _ _ _ hscan hroot.wellFormed hmap
      exact ⟨masked, loads_cString_dumps (hkept.readable hobj hroot),
        hkept.isObject.trans hobj, hkept.get⟩
    · cases h

theorem mem_replaceFirst {p : Json → Bool} {f : Json → Json} {items items' : List Json} {x : Json}
    (h : replaceFirst p f items = some items') (hx : x ∈ items') :
    x ∈ items ∨ ∃ y ∈ items, x = f y := by
  induction items generalizing items' with
  | nil => cases h
  | cons y rest ih =>
    unfold replaceFirst at h
    split at h
    · cases h
      rcases List.mem_cons.mp hx with rfl | hx
      · exact Or.inr ⟨y, List.mem_cons_self, rfl⟩
      · exact Or.inl (List.mem_cons_of_mem _ hx)
    · obtain ⟨rest', hrest, rfl⟩ := Option.map_eq_some_iff.mp h
      rcases List.mem_cons.mp hx with rfl | hx
      · exact Or.inl List.mem_cons_self
      · rcases ih hrest hx with hx | ⟨z, hz, rfl⟩
        · exact Or.inl (List.mem_cons_of_mem _ hx)
        · exact Or.inr ⟨z, List.mem_cons_of_mem _ hz, rfl⟩

/-- A value that may stand in a list of texts: well formed, and no deeper than `n`. -/
def Fits (n : ℕ) (j : Json) : Prop := wellFormed j = true ∧ depth j ≤ n

theorem Fits.set_string {n : ℕ} {j : Json} {key : String} {s : Bytes} (h : Fits n j) (hn : 2 ≤ n)
    (hkey : Char.ofNat 0 ∉ ascii key) (hs : Nonzero s) : Fits n (j.set key (.string s)) :=
  ⟨wellFormed_set hkey h.1 (by simpa [wellFormed] using hs), depth_set h.2 hn⟩

theorem fits_items {n : ℕ} {items : List Json} (h : Fits (n + 1) (.array items)) :
    ∀ x ∈ items, Fits n x := by
  intro x hx
  refine ⟨wellFormedItems_iff.mp h.1 x hx, ?_⟩
  have := h.2
  rw [depth, Nat.add_le_add_iff_right, depthItems_le_iff] at this
  exact this x hx

theorem fits_array {n : ℕ} {items : List Json} (h : ∀ x ∈ items, Fits n x) :
    Fits (n + 1) (.array items) := by
  refine ⟨wellFormedItems_iff.mpr fun x hx => (h x hx).1, ?_⟩
  rw [depth, Nat.add_le_add_iff_right, depthItems_le_iff]
  exact fun x hx => (h x hx).2

theorem fits_get {n : ℕ} {j v : Json} {key : String} (h : Fits (n + 1) j)
    (hget : j.get key = some v) : Fits n v := by
  obtain ⟨hw, hd⟩ := wellFormed_get hget h.1
  have := h.2
  exact ⟨hw, by omega⟩

theorem fits_maskMessages {n : ℕ} {content : Bytes} {messages messages' : List Json} (hn : 2 ≤ n)
    (hcontent : Nonzero content) (hmessages : ∀ m ∈ messages, Fits n m)
    (h : maskMessages content messages = some messages') : ∀ m ∈ messages', Fits n m := by
  have hkey : Nonzero (ascii "content") := nonzero_ascii _ rfl
  have hmask : ∀ m ∈ messages, Fits n (m.set "content" (.string content)) :=
    fun m hm => (hmessages m hm).set_string hn hkey hcontent
  unfold maskMessages at h
  dsimp only at h
  intro m hm
  rcases Option.or_eq_some_iff.mp h with h | ⟨-, h⟩
  · obtain ⟨items, hitems, rfl⟩ := Option.map_eq_some_iff.mp h
    rcases mem_replaceFirst hitems (List.mem_reverse.mp hm) with hm | ⟨y, hy, rfl⟩
    · exact hmessages m (List.mem_reverse.mp hm)
    · exact hmask y (List.mem_reverse.mp hy)
  · split at h
    · rename_i last before hreverse
      split at h
      · cases h
        have hmem : ∀ x, x ∈ messages ↔ x = last ∨ x ∈ before := by
          intro x
          rw [← List.mem_reverse, hreverse, List.mem_cons]
        rcases List.mem_cons.mp (List.mem_reverse.mp hm) with rfl | hm
        · exact hmask last ((hmem last).mpr (Or.inl rfl))
        · exact hmessages m ((hmem m).mpr (Or.inr hm))
      · cases h
    · cases h

theorem fits_maskContents {n : ℕ} {content : Bytes} {contents contents' : List Json}
    (hcontent : Nonzero content) (hcontents : ∀ m ∈ contents, Fits (n + 4) m)
    (h : maskContents content contents = some contents') : ∀ m ∈ contents', Fits (n + 4) m := by
  have hparts : Nonzero (ascii "parts") := nonzero_ascii _ rfl
  have htext : Nonzero (ascii "text") := nonzero_ascii _ rfl
  unfold maskContents at h
  split at h
  · cases h
  · rename_i item before hreverse
    have hmem : ∀ x, x ∈ contents ↔ x = item ∨ x ∈ before := by
      intro x
      rw [← List.mem_reverse, hreverse, List.mem_cons]
    have hitem : Fits (n + 4) item := hcontents item ((hmem item).mpr (Or.inl rfl))
    split at h
    · rename_i part parts hget
      split at h
      · cases h
        have hall := fits_items (fits_get hitem (getArray_eq_some.mp hget))
        have hnew : Fits (n + 3) (.array (part.set "text" (.string content) :: parts)) := by
          apply fits_array
          intro x hx
          rcases List.mem_cons.mp hx with rfl | hx
          · exact (hall part List.mem_cons_self).set_string (by omega) htext hcontent
          · exact hall x (List.mem_cons_of_mem _ hx)
        intro m hm
        rcases List.mem_cons.mp (List.mem_reverse.mp hm) with rfl | hm
        · exact ⟨wellFormed_set hparts hitem.1 hnew.1,
            depth_set hitem.2 (Nat.add_le_add_right hnew.2 1)⟩
        · exact hcontents m ((hmem m).mpr (Or.inr hm))
      · cases h
    · cases h

theorem edited_set {body : Bytes} {root v : Json} {key : String}
    (hload : loads (cString body) = some root) (hkey : key ∈ textKeys)
    (hnonzero : Char.ofNat 0 ∉ ascii key) (hv : Fits 2047 v) :
    Edited body (dumps (root.set key v)) := by
  intro root' hload' hobj
  obtain rfl := Option.some.inj (hload.symm.trans hload')
  refine ⟨_, loads_cString_dumps ((Readable.of_loads hload).set hnonzero hv.1 ?_), ?_, ?_⟩
  · exact Nat.add_le_add_right hv.2 1
  · rw [isObject_set, hobj]
  · exact fun key' hkey' => Json.get_set_of_ne root v fun h => hkey' (h ▸ hkey)

theorem edited_applyInboundMask (body : Bytes) {content : Bytes} (hcontent : Nonzero content) :
    Edited body (applyInboundMask body content) := by
  intro root hload hobj
  have hroot := Readable.of_loads hload
  have hfits : Fits 2048 root := ⟨hroot.wellFormed, hroot.depth_le⟩
  unfold applyInboundMask
  rw [hload]
  simp only [hobj, Bool.not_true, Bool.false_eq_true, if_false]
  split
  · rename_i messages' hmessages
    obtain ⟨messages, hget, hmask⟩ := Option.bind_eq_some_iff.mp hmessages
    have hall := fits_items (fits_get hfits (getArray_eq_some.mp hget))
    exact edited_set hload (by simp [textKeys]) (nonzero_ascii _ rfl)
      (fits_array (fits_maskMessages (by omega) hcontent hall hmask)) root hload hobj
  · split
    · exact edited_set hload (by simp [textKeys]) (nonzero_ascii _ rfl)
        ⟨by simpa [wellFormed] using hcontent, by simp [depth]⟩ root hload hobj
    · split
      · rename_i contents' hcontents
        obtain ⟨contents, hget, hmask⟩ := Option.bind_eq_some_iff.mp hcontents
        have hall := fits_items (fits_get hfits (getArray_eq_some.mp hget))
        exact edited_set hload (by simp [textKeys]) (nonzero_ascii _ rfl)
          (fits_array (fits_maskContents hcontent hall hmask)) root hload hobj
      · exact ⟨root, loads_cString_dumps hroot, hobj, fun _ _ => rfl⟩

theorem readAnswer_masked_nonzero {rule : WebhookRule} {answer : Option HttpAnswer}
    {content : Bytes} (h : readAnswer rule answer = .masked content) : Nonzero content := by
  have hfailure : ∀ reason, onFailure rule reason ≠ .masked content := by
    intro reason
    unfold onFailure
    split <;> simp
  unfold readAnswer at h
  split at h
  · exact absurd h (hfailure _)
  · split at h
    · exact absurd h (hfailure _)
    · split at h
      · exact absurd h (hfailure _)
      · rename_i resp hload
        split at h
        · exact absurd h (hfailure _)
        · dsimp only at h
          split at h
          · cases h
          · split at h
            · split at h
              · rename_i text hget
                cases h
                have hw := (Readable.of_loads hload).wellFormed
                have := (wellFormed_get (getString_eq_some.mp hget) hw).1
                simpa [wellFormed] using this
              · cases h
            · cases h

theorem edited_inspectWebhooks (network : Network) (model : Bytes) (keyId timestamp : Int64)
    (rules : List WebhookRule) {body body' : Bytes} {anyMasked : Bool}
    (h : (inspectWebhooks network model keyId timestamp rules body anyMasked).decision =
      .masked body') : Edited body body' := by
  induction rules generalizing body anyMasked with
  | nil =>
    simp only [inspectWebhooks] at h
    split at h
    · cases h
      exact Edited.refl _
    · cases h
  | cons rule rules ih =>
    simp only [inspectWebhooks] at h
    split at h
    · cases h
    · rename_i content hanswer
      exact (edited_applyInboundMask _ (readAnswer_masked_nonzero hanswer)).trans (ih h)
    · exact ih h

end Aigate.GuardrailsEdits
