import Aigate.JsonEdit
import Aigate.ResponseCacheKey

/-!
# What the cache key says about a request

The canonical text reads six fields of the request and cuts every text content to 256
bytes. Whatever lies outside may differ between two requests with the same key.
-/
namespace Aigate.ResponseCacheKeyFaithful
open Text JsonTree JsonText JsonRoundtrip JsonEdit ResponseCacheKey

/-- A request body that the key builder accepts. -/
structure ChatBody where
  body : Bytes
  root : Json
  parsed : loads body = some root
  isObject : root.isObject = true

/-- The body that a tree is serialised to. -/
def ChatBody.ofTree (root : Json) (hobj : root.isObject = true)
    (hw : wellFormed root = true) (hd : depth root ≤ maxDepth) : ChatBody :=
  ⟨dumps root, root, loads_dumps (by cases root <;> simp_all [Json.isObject, isDocument]) hw hd,
    hobj⟩

/-- The fields of a chat request that determine its answer, next to the model. -/
def answerFields : List String :=
  ["messages", "contents", "system", "tools", "tool_choice", "max_tokens", "stop", "n",
    "response_format", "seed", "temperature", "top_p", "top_k", "frequency_penalty",
    "presence_penalty", "logit_bias"]

/-- The fields that the key builder reads. -/
def keyFields : List String := ["temperature", "top_p", "system", "messages", "contents", "tools"]

/-- Two requests agree on everything that determines the answer. -/
def SameAnswer (model model' : Bytes) (root root' : Json) : Prop :=
  model = model' ∧ ∀ key ∈ answerFields, root.get key = root'.get key

/-- Every request with the same canonical text asks for the same answer. -/
def Faithful (model : Bytes) (b : ChatBody) : Prop :=
  ∀ (model' : Bytes) (b' : ChatBody),
    (buildKey model b.root).text = (buildKey model' b'.root).text →
      SameAnswer model model' b.root b'.root

/-- The key builder does not see any other field. -/
theorem buildKey_set (model : Bytes) (root v : Json) {key : String} (h : key ∉ keyFields) :
    buildKey model (root.set key v) = buildKey model root := by
  have hget : ∀ k ∈ keyFields, (root.set key v).get k = root.get k := by
    intro k hk
    refine Json.get_set_of_ne root v ?_
    rintro rfl
    exact h hk
  simp only [keyFields, List.mem_cons, List.not_mem_nil, or_false, forall_eq_or_imp,
    forall_eq] at hget
  obtain ⟨h1, h2, h3, h4, h5, h6⟩ := hget
  have htemp (b : KeyBuffer) : putNumber b (root.set key v) "temperature" "temp:" =
      putNumber b root "temperature" "temp:" := by unfold putNumber; rw [h1]
  have htopp (b : KeyBuffer) : putNumber b (root.set key v) "top_p" "topp:" =
      putNumber b root "top_p" "topp:" := by unfold putNumber; rw [h2]
  have hsys (b : KeyBuffer) : putSystem b (root.set key v) = putSystem b root := by
    unfold putSystem Json.getString; rw [h3]
  have hmsgs : requestMessages (root.set key v) = requestMessages root := by
    unfold requestMessages Json.getArray; rw [h4, h5]
  have htools (b : KeyBuffer) : putTools b (root.set key v) = putTools b root := by
    unfold putTools Json.getArray; rw [h6]
  rw [buildKey, buildKey, keyHead, keyHead, htemp, htopp, hsys, hmsgs, htools]

/-- Every accepted body has a companion with the same key and another value of a field. -/
theorem exists_same_key (model : Bytes) (b : ChatBody) (key : String) (h : key ∉ keyFields)
    (hkey : Char.ofNat 0 ∉ ascii key) :
    ∃ b' : ChatBody, (buildKey model b'.root).text = (buildKey model b.root).text ∧
      b'.root.get key ≠ b.root.get key := by
  obtain ⟨-, hw, hd⟩ := loads_wellFormed b.parsed
  -- One of the two scalars differs from the value that the field has.
  have hval : ∃ v, wellFormed v = true ∧ depth v = 1 ∧ some v ≠ b.root.get key := by
    by_cases hn : b.root.get key = some .null
    · exact ⟨.bool true, rfl, rfl, by rw [hn]; simp⟩
    · exact ⟨.null, rfl, rfl, Ne.symm hn⟩
  obtain ⟨v, hvw, hvd, hv⟩ := hval
  refine ⟨ChatBody.ofTree (b.root.set key v) ?_ (wellFormed_set hkey hw hvw)
    (depth_set hd (by rw [hvd, maxDepth]; omega)), ?_, ?_⟩
  · rw [isObject_set]
    exact b.isObject
  · simp only [ChatBody.ofTree, buildKey_set model b.root v h]
  · simp only [ChatBody.ofTree, Json.get_set_self b.isObject]
    exact hv

/-- No request is identified by its key: `max_tokens` is not part of it. -/
theorem key_not_faithful (model : Bytes) (b : ChatBody) : ¬ Faithful model b := by
  intro hf
  obtain ⟨b', hkey, hne⟩ := exists_same_key model b "max_tokens"
    (by decide) (by decide +kernel)
  exact hne ((hf model b' hkey.symm).2 "max_tokens" (by decide)).symm

/-- A request with one user message. -/
def userRequest (content : Bytes) : Json :=
  .object [(ascii "messages", .array [.object [(ascii "role", .string (ascii "user")),
    (ascii "content", .string content)]])]

def userBody (content : Bytes) (h : Char.ofNat 0 ∉ content) : ChatBody :=
  ChatBody.ofTree (userRequest content) rfl
    (by
      have h1 : Char.ofNat 0 ∉ ascii "messages" := by decide +kernel
      have h2 : Char.ofNat 0 ∉ ascii "role" := by decide +kernel
      have h3 : Char.ofNat 0 ∉ ascii "content" := by decide +kernel
      have h4 : Char.ofNat 0 ∉ ascii "user" := by decide +kernel
      have h5 : ascii "role" ≠ ascii "content" := ascii_ne (by decide)
      simp [userRequest, wellFormed, wellFormedItems, wellFormedMembers, h, h1, h2, h3, h4, h5])
    (by simp [userRequest, depth, depthItems, depthMembers, maxDepth])

/-- The first 256 bytes of a prompt. -/
def longPrompt : Bytes := List.replicate 256 'a'

theorem longPrompt_nonzero (tail : Bytes) (h : Char.ofNat 0 ∉ tail) :
    Char.ofNat 0 ∉ longPrompt ++ tail := by
  simp only [longPrompt, List.mem_append, not_or]
  exact ⟨fun hmem => absurd (List.eq_of_mem_replicate hmem) (by decide), h⟩

/-- Two prompts that differ after their first 256 bytes get the same key. -/
theorem key_ignores_prompt_tail : ¬ ∀ (model : Bytes) (b : ChatBody), Faithful model b := by
  intro h
  have hyes := longPrompt_nonzero (ascii "yes?") (by decide +kernel)
  have hno := longPrompt_nonzero (ascii "no?") (by decide +kernel)
  have hkey : (buildKey (ascii "gpt-4o") (userRequest (longPrompt ++ ascii "yes?"))).text =
      (buildKey (ascii "gpt-4o") (userRequest (longPrompt ++ ascii "no?"))).text := by
    decide +kernel
  have hsame := (h (ascii "gpt-4o") (userBody _ hyes) (ascii "gpt-4o") (userBody _ hno)
    hkey).2 "messages" (by decide)
  simp only [userBody, ChatBody.ofTree, userRequest, Json.get, lookup, if_true, Option.some.injEq,
    Json.array.injEq, List.cons.injEq, Json.object.injEq, Prod.mk.injEq, Json.string.injEq,
    List.append_cancel_left_eq, and_true, true_and] at hsame
  exact absurd (ascii_injective hsame) (by decide)

end Aigate.ResponseCacheKeyFaithful
