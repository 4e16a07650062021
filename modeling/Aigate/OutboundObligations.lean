import Aigate.MarkedAnswers
import Aigate.PiiEvents
import Aigate.TenantCache

/-!
# What the outbound filters owe an answer

An answer that is delivered should carry the watermark of its key and have the placeholders of
its request restored. Both are done on one way through the filters only: a webhook that masks
the answer, and a plugin that replaces it, have the last word.
-/
namespace Aigate.OutboundObligations
open Text JsonTree JsonText JsonEdit JsonPath JsonMap Utf8 Guardrails GuardrailsWebhook
  GuardrailsEdits PiiText PiiMarks PiiRestore PiiRoundTrip PiiEvents MarkedText ChatBody
  StreamCache EventTexts Watermark OutboundFilters MarkedAnswers

/-- No string of a document has a placeholder of the map in it. -/
def NoPlaceholder (m : SessionMap) (doc : Json) : Prop :=
  ∀ q text, stringAt doc q = some text → ∀ e ∈ m.entries, ¬e.placeholder <:+: text

/-- A body with both obligations met: the text of the assistant has a tile, and no placeholder
is left. -/
def Served (p : WatermarkPayload) (m : SessionMap) (delivered : Bytes) : Prop :=
  ∃ doc q text, jsonLoads (cString delivered) = some doc ∧ answerPlace doc = some q ∧
    stringAt doc q = some text ∧ tile p <:+: text ∧ NoPlaceholder m doc

/-- A body that restoring leaves a document with a text and without placeholders. -/
def Restorable (m : SessionMap) (body : Bytes) : Prop :=
  ∃ doc, jsonLoads (cString (restored m body)) = some doc ∧ (answerPlace doc).isSome = true ∧
    NoPlaceholder m doc

theorem noPlaceholder_markAt_iff {m : SessionMap} (hok : MapOk m.entries) (p : WatermarkPayload)
    {root : Json} {q : Path} {text : Bytes} (h : stringAt root q = some text) :
    NoPlaceholder m (markAt p root q) ↔ NoPlaceholder m root := by
  have hself : stringAt (markAt p root q) q = some (watermarkInject p text) := by
    rw [markAt, h]
    exact stringAt_replaceAt_self _ h
  have hother : ∀ q', q' ≠ q → stringAt (markAt p root q) q' = stringAt root q' := by
    intro q' hq'
    rw [markAt, h]
    exact stringAt_replaceAt_of_ne _ h hq'
  constructor
  · intro hnone q' s hs e he
    by_cases hq' : q' = q
    · subst hq'
      obtain rfl := Option.some.inj (h.symm.trans hs)
      rw [← placeholder_inject_iff hok he p text]
      exact hnone _ _ hself e he
    · exact hnone q' s (by rw [hother q' hq', hs]) e he
  · intro hnone q' s hs e he
    by_cases hq' : q' = q
    · subst hq'
      obtain rfl := Option.some.inj (hself.symm.trans hs)
      rw [placeholder_inject_iff hok he p text]
      exact hnone _ _ h e he
    · exact hnone q' s (by rw [← hother q' hq', hs]) e he

theorem inject_ne_nil (p : WatermarkPayload) (text : Bytes) : watermarkInject p text ≠ [] := by
  intro h
  have htile := tile_inject p text
  rw [h] at htile
  exact tile_ne_nil p (List.infix_nil.mp htile)

/-- The marked document is read back. -/
theorem jsonLoads_markAt (p : WatermarkPayload) {body text : Bytes} {root : Json} {q : Path}
    (hload : jsonLoads (cString body) = some root) (h : stringAt root q = some text) :
    jsonLoads (cString (dumps (markAt p root q))) = some (markAt p root q) := by
  have hread := StreamCacheStore.jsonLoads_readable hload
  have hroot := clean_jsonLoads hload
  obtain ⟨hutf8, hnonzero⟩ := clean_stringAt hroot h
  obtain ⟨hclean, hdepth⟩ := clean_replaceAt hroot h (nonzero_inject p hnonzero)
    (utf8_inject p hutf8)
  rw [cString_of_nonzero (nonzero_dumps _), markAt, h]
  exact hclean.jsonLoads_dumps (isDocument_replaceAt _ h hread.document)
    (hdepth.trans hread.depth_le)

/-- The watermark filter meets the obligations exactly for a document with a text and without
placeholders. -/
theorem served_watermarkAnswer_iff {m : SessionMap} (hok : MapOk m.entries) (p : WatermarkPayload)
    (body : Bytes) : Served p m (watermarkAnswer p body) ↔
      ∃ doc, jsonLoads (cString body) = some doc ∧ (answerPlace doc).isSome = true ∧
        NoPlaceholder m doc := by
  cases hload : jsonLoads (cString body) with
  | none =>
    have hbody : watermarkAnswer p body = body := by
      rw [watermarkAnswer, hload]
      rfl
    rw [hbody]
    constructor
    · rintro ⟨doc, q, text, hdoc, -⟩
      rw [hload] at hdoc
      cases hdoc
    · rintro ⟨doc, hdoc, -⟩
      cases hdoc
  | some root =>
    rw [watermarkAnswer_eq p hload]
    cases hplace : answerPlace root with
    | none =>
      rw [Option.map_none, Option.getD_none]
      constructor
      · rintro ⟨doc, q, text, hdoc, hq, -⟩
        obtain rfl := Option.some.inj (hload.symm.trans hdoc)
        rw [hplace] at hq
        cases hq
      · rintro ⟨doc, hdoc, hsome, -⟩
        obtain rfl := Option.some.inj hdoc
        rw [hplace] at hsome
        cases hsome
    | some q =>
      obtain ⟨text, htext, -⟩ := holds_answerPlace root q hplace
      have hdumps := jsonLoads_markAt p hload htext
      have hnone := noPlaceholder_markAt_iff hok p htext
      rw [Option.map_some, Option.getD_some]
      constructor
      · rintro ⟨doc, -, -, hdoc, -, -, -, hplain⟩
        obtain rfl := Option.some.inj (hdumps.symm.trans hdoc)
        exact ⟨root, rfl, by rw [hplace]; rfl, hnone.mp hplain⟩
      · rintro ⟨doc, hdoc, -, hplain⟩
        obtain rfl := Option.some.inj hdoc
        refine ⟨_, q, watermarkInject p text, hdumps, ?_, ?_, tile_inject p text,
          hnone.mpr hplain⟩
        · rw [markAt, htext]
          exact stable_answerPlace root q text _ (inject_ne_nil p text) hplace htext
        · rw [markAt, htext]
          exact stringAt_replaceAt_self _ htext

/-! What restoring leaves. -/

section Restored

variable {m : SessionMap} (hok : MapOk m.entries)
include hok

/-- A text as letters and placeholders, none of which is spelled by the letters. -/
theorem exists_pieces (s : Bytes) : ∃ t : List (Piece Char PiiEntry),
    render PiiEntry.placeholder t = s ∧ render PiiEntry.original t = restoreText m s ∧
      (∀ e, .mark e ∈ t → e ∈ m.entries) ∧
      ∀ e ∈ m.entries, ¬letters e.placeholder <:+: t := by
  induction hn : s.length using Nat.strong_induction_on generalizing s with
  | _ n ih =>
    cases s with
    | nil =>
      refine ⟨[], rfl, rfl, nofun, fun e he hin => ?_⟩
      obtain ⟨body, hname, -⟩ := placeholder_letters hok he
      rw [hname] at hin
      cases List.infix_nil.mp hin
    | cons c s =>
      rw [List.length_cons] at hn
      have hletter : (∀ e ∈ m.entries, ¬e.placeholder <+: c :: s) →
          restoreText m (c :: s) = c :: restoreText m s → ∃ t : List (Piece Char PiiEntry),
            render PiiEntry.placeholder t = c :: s ∧
            render PiiEntry.original t = restoreText m (c :: s) ∧
            (∀ e, .mark e ∈ t → e ∈ m.entries) ∧
            ∀ e ∈ m.entries, ¬letters e.placeholder <:+: t := by
        intro hfront hstay
        obtain ⟨t, hrender, horiginal, hmarks, hnone⟩ := ih s.length (by omega) s rfl
        refine ⟨.letter c :: t, by rw [render, hrender], by rw [render, horiginal, hstay], ?_, ?_⟩
        · intro e he
          rcases List.mem_cons.mp he with he | he
          · cases he
          · exact hmarks e he
        · intro e he hin
          rcases List.infix_cons_iff.mp hin with ⟨b, hb⟩ | hin
          · refine hfront e he ⟨render PiiEntry.placeholder b, ?_⟩
            rw [← hrender]
            have := congrArg (render PiiEntry.placeholder) hb
            rwa [render_append, render_letters, render] at this
          · exact hnone e he hin
      by_cases hc : c = '['
      · subst hc
        rcases restoreText_bracket hok s with ⟨e, he, tail, htail⟩ | ⟨hfront, hstay⟩
        · obtain ⟨body, hname, -⟩ := placeholder_letters hok he
          have hlength := congrArg List.length htail
          rw [hname, List.length_append, List.length_cons, List.length_cons] at hlength
          obtain ⟨t, hrender, horiginal, hmarks, hnone⟩ := ih tail.length (by omega) tail rfl
          refine ⟨.mark e :: t, by rw [render, hrender, htail],
            by rw [render, horiginal, htail, restoreText_placeholder hok he], ?_, ?_⟩
          · intro e' he'
            rcases List.mem_cons.mp he' with he' | he'
            · cases he'
              exact he
            · exact hmarks e' he'
          · intro e' he' hin
            obtain ⟨body', hname', -⟩ := placeholder_letters hok he'
            rcases List.infix_cons_iff.mp hin with hin | hin
            · rw [hname'] at hin
              cases (List.cons_prefix_cons.mp hin).1
            · exact hnone e' he' hin
        · exact hletter hfront hstay
      · refine hletter (fun e he hfront => ?_) (restoreText_cons m hc s)
        obtain ⟨body, hname, -⟩ := placeholder_letters hok he
        rw [hname] at hfront
        exact hc (List.cons_prefix_cons.mp hfront).1.symm

/-- No placeholder is left in a restored text, and none comes into being. -/
theorem not_placeholder_restoreText (s : Bytes) :
    ∀ e ∈ m.entries, ¬e.placeholder <:+: restoreText m s := by
  intro e he hin
  obtain ⟨t, -, horiginal, hmarks, hnone⟩ := exists_pieces hok s
  rw [← horiginal, ← letters_placeholder_iff hok hmarks he] at hin
  exact hnone e he hin

theorem restoreText_eq_nil_iff (s : Bytes) : restoreText m s = [] ↔ s = [] := by
  constructor
  · intro h
    cases s with
    | nil => rfl
    | cons c s =>
      by_cases hc : c = '['
      · subst hc
        rcases restoreText_bracket hok s with ⟨e, he, tail, htail⟩ | ⟨-, hstay⟩
        · rw [htail, restoreText_placeholder hok he] at h
          exact absurd (List.append_eq_nil_iff.mp h).1 (hok.entity e he).nonempty
        · rw [hstay] at h
          cases h
      · rw [restoreText_cons m hc] at h
        cases h
  · rintro rfl
    rfl

end Restored

theorem stringAt_mapStrings (f : Bytes → Bytes) (j : Json) (q : Path) :
    stringAt (mapStrings f j) q = (stringAt j q).map f := by
  induction q generalizing j with
  | nil => exact stringValue_mapStrings f j
  | cons s q ih =>
    have hchild : child (mapStrings f j) s = (child j s).map (mapStrings f) := by
      cases s with
      | member key => exact get_mapStrings f j key
      | item i =>
        rw [child, child, arrayItems_mapStrings]
        cases j.arrayItems with
        | none => rfl
        | some items => simp
    cases hc : child j s with
    | none =>
      rw [stringAt, valueAt, hchild, hc, stringAt, valueAt, hc]
      rfl
    | some c =>
      rw [stringAt_cons q hc, stringAt_cons q (by rw [hchild, hc]; rfl), ih]

theorem choicePlace_mapStrings {f : Bytes → Bytes} (hf : ∀ s, f s = [] ↔ s = []) (root : Json) :
    atMember "choices" (atHead choicePlace) (mapStrings f root)
      = atMember "choices" (atHead choicePlace) root := by
  have hmember : ∀ (key : String) (g : Finder), (∀ j, g (mapStrings f j) = g j) →
      ∀ j, atMember key g (mapStrings f j) = atMember key g j := by
    intro key g hg j
    rw [atMember, atMember, get_mapStrings]
    cases j.get key with
    | none => rfl
    | some c => rw [Option.map_some, Option.bind_some, Option.bind_some, hg]
  have hfilled : ∀ j, filled (mapStrings f j) = filled j := by
    intro j
    cases j with
    | string s => simp [mapStrings, filled, hf]
    | _ => rfl
  have hhead : ∀ j, atHead choicePlace (mapStrings f j) = atHead choicePlace j := by
    intro j
    rw [atHead, atHead, arrayItems_mapStrings]
    cases j.arrayItems with
    | none => rfl
    | some items =>
      cases items with
      | nil => rfl
      | cons c0 choices =>
        exact congrArg (Option.map _) (hmember _ _ (hmember _ _ hfilled) c0)
  exact hmember _ _ hhead root

/-- An answer that the gateway has serialised is restored as it should be. -/
theorem restorable_dumps {m : SessionMap} (hok : MapOk m.entries) {doc : Json} (hdoc : Clean doc)
    (hdocument : isDocument doc = true) (hdepth : depth doc ≤ maxDepth)
    (hkeys : ∀ k ∈ keys doc, '[' ∉ k)
    (htext : (atMember "choices" (atHead choicePlace) doc).isSome = true) :
    Restorable m (dumps doc) := by
  have hrestored : restored m (dumps doc) = dumps (mapStrings (restoreText m) doc) := by
    have := restoreText_dumps hok doc hkeys []
    rwa [List.append_nil, restoreText_nil, List.append_nil, restoreText, ← restored_eq] at this
  have hclean : Clean (mapStrings (restoreText m) doc) :=
    ⟨wellFormed_mapStrings (fun _ hs => nonzero_restoreText hok hs) doc hdoc.wellFormed,
      strings_mapStrings (P := fun s => utf8Check s = true)
        (fun _ hs => utf8Check_restoreText hok hs) doc hdoc.utf8⟩
  refine ⟨mapStrings (restoreText m) doc, ?_, ?_, ?_⟩
  · rw [hrestored, cString_of_nonzero (nonzero_dumps _)]
    exact hclean.jsonLoads_dumps (by rw [isDocument_mapStrings, hdocument])
      (by rw [depth_mapStrings]; exact hdepth)
  · obtain ⟨q, hq⟩ := Option.isSome_iff_exists.mp htext
    rw [answerPlace, choicePlace_mapStrings (restoreText_eq_nil_iff hok), hq]
    rfl
  · intro q text h
    rw [stringAt_mapStrings] at h
    obtain ⟨s, -, rfl⟩ := Option.map_eq_some_iff.mp h
    exact not_placeholder_restoreText hok s

/-! The map of a request. -/

theorem piiMap_reasoning (spent : Bool) (q : ChatQuery) :
    (chatApplyReasoningQuotaAndDegradation spent q).piiMap = q.piiMap := by
  unfold chatApplyReasoningQuotaAndDegradation
  split
  · rfl
  · split
    · split <;> rfl
    · rfl

theorem piiMap_template (r : ChatRequest) (route : ModelRec) (q : ChatQuery) :
    (filterPromptTemplate r route q).piiMap = q.piiMap := by
  unfold filterPromptTemplate
  dsimp only
  split <;> rfl

theorem piiMap_plugins {g : Gateway} {q q' : ChatQuery}
    (h : filterLuaPluginsInbound g q = some q') : q'.piiMap = q.piiMap := by
  unfold filterLuaPluginsInbound at h
  split at h
  · cases h
    rfl
  · split at h
    · cases h
    · cases h
      rfl
    · cases h
      rfl

theorem mapOk_filterGuardrails {g : Gateway} {r : ChatRequest} {q q' : ChatQuery}
    (hq : MapOk q.piiMap.entries) (h : filterGuardrails g r q = some q') :
    MapOk q'.piiMap.entries := by
  unfold filterGuardrails at h
  split at h
  · cases h
    exact hq
  · rename_i gr _
    split at h
    · cases h
      exact hq
    · obtain ⟨masked, -, h⟩ := Option.bind_eq_some_iff.mp h
      obtain ⟨body, -, rfl⟩ := Option.map_eq_some_iff.mp h
      exact mapOk_requestMap gr r.body

/-- The map that an answer is restored with is one that the passes leave. -/
theorem mapOk_outgoing {g : Gateway} {r : ChatRequest} {q : ChatQuery} {route : ModelRec}
    (h : outgoing g r = some (q, route)) : MapOk q.piiMap.entries := by
  obtain ⟨⟨q₁, route₁⟩, hinbound, hq⟩ := Option.map_eq_some_iff.mp h
  obtain ⟨⟨q₀, route₀⟩, hresolve, hinbound⟩ := Option.bind_eq_some_iff.mp hinbound
  obtain ⟨q₂, hchain, hq₁⟩ := Option.map_eq_some_iff.mp hinbound
  obtain ⟨q₃, hguardrails, hchain⟩ := Option.bind_eq_some_iff.mp hchain
  obtain ⟨q₄, hjailbreak, hplugins⟩ := Option.bind_eq_some_iff.mp hchain
  have hstart : MapOk q₀.piiMap.entries := by
    unfold resolveChatTarget at hresolve
    dsimp only at hresolve
    split at hresolve
    · cases hresolve
    · obtain ⟨route, -, heq⟩ := Option.map_eq_some_iff.mp hresolve
      cases heq
      exact mapOk_nil
  have hok := mapOk_filterGuardrails hstart hguardrails
  obtain rfl := RoutedModel.filterJailbreak_eq hjailbreak
  cases hq
  cases hq₁
  rw [piiMap_reasoning]
  dsimp only
  rw [piiMap_reasoning, piiMap_plugins hplugins, piiMap_template]
  exact hok

/-- The watermark of an answer. -/
def markOf (o : Outbound) (r : ChatRequest) (now : Int64) : WatermarkPayload :=
  answerPayload r.key.keyId now o.traceId

/-- Both obligations of an answer that is delivered. -/
def ObligationsMet (g : Gateway) (o : Outbound) (r : ChatRequest) (q : ChatQuery) (now : Int64)
    (body : Bytes) : Prop :=
  ∀ delivered, filterChainExecuteOutbound g o r q now body = some delivered →
    Served (markOf o r now) q.piiMap delivered

/-- Whoever puts a body in the place of the answer has put in what is owed; else restoring leaves
a document with a text and without placeholders. -/
def LastWordKeeps (g : Gateway) (o : Outbound) (r : ChatRequest) (q : ChatQuery) (now : Int64)
    (body : Bytes) : Prop :=
  match outboundDecision g r q now body with
  | .blocked _ => True
  | .masked masked => Served (markOf o r now) q.piiMap masked
  | .pass =>
    match o.plugins with
    | none => Restorable q.piiMap body
    | some run =>
      match run q.model (watermarkAnswer (markOf o r now) (restored q.piiMap body)) with
      | .abort => True
      | .proceed none => Restorable q.piiMap body
      | .proceed (some newBody) => Served (markOf o r now) q.piiMap newBody

/-- An answer with one text. -/
def answerDocument (text : String) : Json :=
  .object [(ascii "choices", .array [.object [(ascii "message",
    .object [(ascii "content", .string (ascii text))])]])]

def marking : Outbound := ⟨true, [], none⟩

/-- A webhook for answers. -/
def maskingRule : WebhookRule := ⟨1, ascii "http://m", [], 500, ascii "open", ascii "outbound"⟩

def maskingGuardrails : GuardrailsCtx where
  __ := Guardrails.guardrailsCreate
  webhooks := [maskingRule]
  bounded := by decide

/-- The webhook puts its own words in the place of every answer. -/
def maskingGateway : Gateway where
  __ := TenantCache.mailGateway
  guardrails := some maskingGuardrails
  network _ _ := some ⟨200, ascii "\x7b\"action\":\"mask\",\"masked_content\":\"ok\"\x7d"⟩

end Aigate.OutboundObligations
