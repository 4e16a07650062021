import Aigate.GuardrailsEdits
import Aigate.ProviderRequests

/-!
# The model that an upstream is told

The adapters for the OpenAI family and for Anthropic copy the model of the body they are
given, and have a default where it has none; the adapter for Gemini writes the name of the
route into the URL. So the upstream is told the name of the route when the body names it.
-/
namespace Aigate.ProviderModel
open Text JsonTree JsonText JsonRoundtrip JsonEdit Guardrails GuardrailsEdits
  ModelRouter Pipelines ChatBody ProviderRequests

theorem lookup_updateMembers {members other : List (Bytes × Json)} (key : Bytes)
    (h : (other.map Prod.fst).Nodup) :
    lookup (updateMembers members other) key = (lookup other key).or (lookup members key) := by
  unfold updateMembers
  induction other generalizing members with
  | nil => rfl
  | cons m rest ih =>
    obtain ⟨hm, hrest⟩ := List.nodup_cons.mp h
    rw [List.foldl_cons, ih hrest]
    by_cases hk : m.1 = key
    · subst hk
      have hnone : lookup rest m.1 = none := by
        clear ih h hrest
        induction rest with
        | nil => rfl
        | cons x xs ihx =>
          simp only [List.map_cons, List.mem_cons, not_or] at hm
          simp [lookup, Ne.symm hm.1, ihx hm.2]
      rw [hnone, Option.none_or, lookup_assign_self]
      simp [lookup]
    · rw [lookup_assign_of_ne _ (Ne.symm hk)]
      simp [lookup, hk]

/-- The keys of an object are distinct. -/
def Distinct : Json → Prop
  | .object members => (members.map Prod.fst).Nodup
  | _ => True

theorem distinct_of_wellFormed {j : Json} (h : wellFormed j = true) : Distinct j := by
  cases j with
  | object members =>
    simp only [wellFormed, Bool.and_eq_true, decide_eq_true_eq] at h
    exact h.2
  | _ => trivial

theorem Distinct.set {j : Json} (h : Distinct j) (key : String) (v : Json) :
    Distinct (j.set key v) := by
  cases j with
  | object members => exact nodup_keys_assign h
  | _ => trivial

theorem Distinct.setSome {j : Json} (h : Distinct j) (key : String) (v : Option Json) :
    Distinct (Json.setSome j key v) := by
  cases v with
  | none => exact h
  | some v => exact h.set key v

theorem get_setSome_of_ne (j : Json) (v : Option Json) {key key' : String} (h : key' ≠ key) :
    (Json.setSome j key v).get key' = j.get key' := by
  cases v with
  | none => rfl
  | some v => exact Json.get_set_of_ne j v h

theorem distinct_update {j other : Json} (h : Distinct j) : Distinct (Json.update j other) := by
  cases j with
  | object members =>
    cases other with
    | object os =>
      change ((updateMembers members os).map Prod.fst).Nodup
      unfold updateMembers
      induction os generalizing members with
      | nil => exact h
      | cons m rest ih => exact ih _ (nodup_keys_assign h)
    | _ => exact h
  | _ => cases other <;> trivial

theorem isObject_update (j other : Json) : (Json.update j other).isObject = j.isObject := by
  cases j <;> cases other <;> rfl

theorem get_update {j other : Json} (hj : j.isObject = true) (hother : Distinct other)
    (key : String) : (Json.update j other).get key = (other.get key).or (j.get key) := by
  cases j with
  | object members =>
    cases other with
    | object os => exact lookup_updateMembers (ascii key) hother
    | _ => rfl
  | _ => cases hj

theorem parsedBody_wellFormed (inBody : Bytes) : wellFormed (parsedBody inBody) = true := by
  unfold parsedBody
  cases h : loads (cString inBody) with
  | none => rfl
  | some j => exact (Readable.of_loads h).wellFormed

/-- The member of the default parameters. -/
def defaultParam (route : ModelRec) (key : String) : Option Json :=
  if route.defaultParamsJson = [] then none
  else (loads (cString route.defaultParamsJson)).bind (·.get key)

theorem get_mergeDefaults (route : ModelRec) {req : Json} (h : Distinct req) (key : String) :
    (mergeDefaults route req).get key = (req.get key).or (defaultParam route key) := by
  unfold mergeDefaults defaultParam
  split
  · simp
  · cases hload : loads (cString route.defaultParamsJson) with
    | none => simp
    | some defaults =>
      have hd := distinct_of_wellFormed (Readable.of_loads hload).wellFormed
      rw [get_update (by rw [isObject_update]; rfl) h, get_update rfl hd]
      simp [emptyObject, Json.get, lookup]

/-- The member of a body, as an adapter reads it. -/
def bodyMember (inBody : Bytes) (key : String) : Option Json :=
  (loads (cString inBody)).bind (·.get key)

theorem get_parsedBody (inBody : Bytes) (key : String) :
    (parsedBody inBody).get key = bodyMember inBody key := by
  unfold parsedBody bodyMember
  cases loads (cString inBody) with
  | none => rfl
  | some j => rfl

theorem get_withStreamOptions (req : Json) :
    (withStreamOptions req).get "model" = req.get "model" := by
  unfold withStreamOptions
  split
  · split
    · exact Json.get_set_of_ne _ _ (by simp)
    · split
      · exact Json.get_set_of_ne _ _ (by simp)
      · rfl
  · rfl

theorem get_withReasoningEffort (rcfg : ReasoningConfig) (req : Json) :
    (withReasoningEffort rcfg req).get "model" = req.get "model" := by
  unfold withReasoningEffort
  split
  · rfl
  · rename_i eff _
    dsimp only
    have hknown : (if knownEffort eff = true then req
        else req.set "reasoning_effort" (jsonString (ascii "medium"))).get "model" =
          req.get "model" := by
      split
      · rfl
      · exact Json.get_set_of_ne _ _ (by simp)
    split
    · rw [Json.get_del_of_ne _ (by simp), hknown]
    · exact hknown

theorem get_withCompletionTokens (oSeries : Bool) (req : Json) :
    (withCompletionTokens oSeries req).get "model" = req.get "model" := by
  unfold withCompletionTokens
  split
  · split
    · rw [Json.get_del_of_ne _ (by simp), Json.get_set_of_ne _ _ (by simp)]
    · rfl
  · rfl

/-- The OpenAI family passes the model of the body on; the default parameters may supply one. -/
theorem openai_model (route : ModelRec) (upPath inBody : Bytes) :
    (providerOpenaiBuild route upPath inBody).body.get "model" =
      (bodyMember inBody "model").or (defaultParam route "model") := by
  have hparsed := distinct_of_wellFormed (parsedBody_wellFormed inBody)
  have hreq : Distinct (Json.update emptyObject (parsedBody inBody)) :=
    distinct_update List.nodup_nil
  have hmodel : (Json.update emptyObject (parsedBody inBody)).get "model" =
      bodyMember inBody "model" := by
    rw [get_update rfl hparsed, get_parsedBody]
    simp [emptyObject, Json.get, lookup]
  unfold providerOpenaiBuild
  dsimp only
  rw [get_withCompletionTokens, get_withReasoningEffort, get_withStreamOptions]
  split
  · rw [get_mergeDefaults route hreq, hmodel]
  · rw [Json.get_del_of_ne _ (by simp), get_mergeDefaults route hreq, hmodel]

/-- Anthropic is told the model of the body, or else the name of the route. -/
theorem anthropic_model (route : ModelRec) (inBody : Bytes) :
    (providerAnthropicBuild route inBody).body.get "model" =
      some (jsonString (antModel route (parsedBody inBody))) := by
  have hempty : Distinct emptyObject := List.nodup_nil
  unfold providerAnthropicBuild
  dsimp only
  rw [get_mergeDefaults route]
  · iterate 6 rw [get_setSome_of_ne _ _ (by simp)]
    rw [Json.get_set_of_ne _ _ (by simp), get_setSome_of_ne _ _ (by simp),
      Json.get_set_of_ne _ _ (by simp), get_setSome_of_ne _ _ (by simp),
      Json.get_set_self rfl, Option.some_or]
  · iterate 6 apply Distinct.setSome
    exact (((((hempty.set _ _).setSome _ _).set _ _).setSome _ _).set _ _)

/-- Gemini is told no model in the body. -/
theorem gemini_model (route : ModelRec) (inBody : Bytes) :
    (providerGeminiBuild route inBody).body.get "model" = none := by
  unfold providerGeminiBuild
  dsimp only
  iterate 3 rw [get_setSome_of_ne _ _ (by simp)]
  rw [Json.get_set_of_ne _ _ (by simp), get_setSome_of_ne _ _ (by simp)]
  rfl

theorem geminiBase_length (endpoint : Bytes) : (geminiBase endpoint).length ≤ 511 := by
  unfold geminiBase
  dsimp only
  generalize (if endpoint = [] ∨ endpoint = ['/'] then
    ascii "https://generativelanguage.googleapis.com" else endpoint) = ep
  have hlen : (ep.take 511).length ≤ 511 := List.length_take_le _ _
  split
  · rw [List.length_dropLast]
    omega
  · exact hlen

/-- The segment of a Gemini URL that names a model. -/
def modelSegment (model : Bytes) : Bytes := ascii "/v1beta/models/" ++ model ++ [':']

/-- The URL for Gemini names the route. -/
theorem gemini_url (route : ModelRec) (inBody : Bytes) :
    modelSegment route.name <:+: (providerGeminiBuild route inBody).url := by
  have hbase := geminiBase_length route.endpoint
  have hname := route.name_le
  have hurl : ∀ streaming, ∃ rest, geminiUrl route streaming =
      geminiBase route.endpoint ++ modelSegment route.name ++ rest ∧ rest.length ≤ 29 := by
    intro streaming
    unfold geminiUrl modelSegment
    cases streaming with
    | true =>
      refine ⟨ascii "streamGenerateContent?alt=sse", ?_, by rw [ascii_length]; decide⟩
      have : ascii ":streamGenerateContent?alt=sse" =
          [':'] ++ ascii "streamGenerateContent?alt=sse" := by
        unfold ascii
        rfl
      simp [this]
    | false =>
      refine ⟨ascii "generateContent", ?_, by rw [ascii_length]; decide⟩
      have : ascii ":generateContent" = [':'] ++ ascii "generateContent" := by
        unfold ascii
        rfl
      simp [this]
  unfold providerGeminiBuild
  dsimp only
  obtain ⟨rest, hrest, hlen⟩ := hurl
    (((parsedBody inBody).get "stream").any ProviderRequests.Json.isTrue)
  have hprefix : (ascii "/v1beta/models/").length = 15 := by
    rw [ascii_length]
    decide
  have hsegment : (modelSegment route.name).length = route.name.length + 16 := by
    simp only [modelSegment, List.length_append, hprefix, List.length_singleton]
    omega
  rw [hrest, List.take_of_length_le]
  · exact ⟨geminiBase route.endpoint, rest, rfl⟩
  · simp only [List.length_append, hsegment]
    omega

/-- A request to an upstream names a model: in its body, for Gemini in its URL only. -/
def NamesModel (adapter : Adapter) (u : UpstreamRequest) (model : Bytes) : Prop :=
  match adapter with
  | .gemini => u.body.get "model" = none ∧ modelSegment model <:+: u.url
  | _ => u.body.get "model" = some (.string model)

/-- What an adapter makes of the model that a body names, if any. -/
def Agrees (adapter : Adapter) (route : ModelRec) (named : Option Json) : Prop :=
  match adapter with
  | .openai => named.or (defaultParam route "model") = some (.string route.name)
  | .anthropic => ∀ s, named = some (.string s) → s = route.name
  | .gemini => True

theorem jsonString_name (route : ModelRec) : jsonString route.name = .string route.name := by
  rw [jsonString, cString_of_nonzero route.name_nonzero]

theorem bodyMember_nonzero {inBody s : Bytes} {key : String}
    (h : bodyMember inBody key = some (.string s)) : Nonzero s := by
  obtain ⟨j, hload, hget⟩ := Option.bind_eq_some_iff.mp h
  have := (wellFormed_get hget (Readable.of_loads hload).wellFormed).1
  simpa [wellFormed] using this

/-- The model that an adapter names is the route's exactly when the body's is. -/
theorem namesModel_iff (adapter : Adapter) (route : ModelRec) (t : Target) (inBody : Bytes) :
    NamesModel adapter (buildChat adapter (fillCurRoute route t) inBody) route.name ↔
      Agrees adapter route (bodyMember inBody "model") := by
  cases adapter with
  | openai =>
    change (providerOpenaiBuild _ _ _).body.get "model" = _ ↔ _
    rw [openai_model]
    exact Iff.rfl
  | anthropic =>
    change (providerAnthropicBuild _ _).body.get "model" = _ ↔ _
    have hname := jsonString_name route
    rw [anthropic_model, Option.some.injEq, antModel, Json.getString, get_parsedBody]
    change jsonString (((bodyMember inBody "model").bind Json.stringValue).getD route.name) = _ ↔
      ∀ s, bodyMember inBody "model" = some (.string s) → s = route.name
    cases hmember : bodyMember inBody "model" with
    | none => simp [hname]
    | some v =>
      cases v with
      | string s =>
        have hs : jsonString s = .string s := by
          rw [jsonString, cString_of_nonzero (bodyMember_nonzero hmember)]
        simp [Json.stringValue, hs]
      | _ => simp [Json.stringValue, hname]
  | gemini =>
    refine iff_of_true ⟨gemini_model _ _, ?_⟩ trivial
    exact gemini_url (fillCurRoute route t) inBody

end Aigate.ProviderModel
