import Aigate.GuardrailsEdits
import Aigate.JsonPath

/-!
# Where the mask of a webhook is written

A webhook is sent one text of a request, and the mask that it answers with is written to one
place of the request. The two are found by different searches.
-/
namespace Aigate.MaskPlacement
open Text JsonTree JsonText JsonEdit JsonPath Guardrails GuardrailsWebhook GuardrailsEdits

/-- The text of a content: the content itself, or that of its first part with one. -/
def contentPlace : Finder := fun c => (atString c).or (atFirst (atMember "text" atString) c)

def userPlace : Finder := fun m =>
  if isUserMessage m then atMember "content" contentPlace m else none

/-- The place of the text that `extract_inbound_info` finds. -/
def inspectedPlace : Finder := fun root =>
  (atMember "messages" (atLast userPlace) root).or ((atMember "prompt" atString root).or
    (atMember "contents" (atLast (atMember "parts" (atFirst (atMember "text" atString)))) root))

def userContent : Finder := fun m => if isUserMessage m then atKey "content" m else none

/-- The place that `apply_inbound_mask` writes to. -/
def maskedPlace : Finder := fun root =>
  (atMember "messages" (fun ms => (atLast userContent ms).or (atEnd (atKey "content") ms)) root).or
    ((atMember "prompt" (fun _ => some []) root).or
      (atMember "contents" (atEnd (atMember "parts" (atHead (atKey "text")))) root))

/-- The document that `apply_inbound_mask` serialises. -/
def maskTree (root : Json) (content : Bytes) : Json :=
  match maskedPlace root with
  | some q => replaceAt root q (.string content)
  | none => root

/-- The text that is sent to the webhooks, when the document has one. -/
def inspectedText (root : Json) : Option Bytes :=
  ((root.getArray "messages").bind fun ms => ms.reverse.findSome? userText).or
    ((root.getString "prompt").or
      ((root.getArray "contents").bind fun cs =>
        cs.reverse.findSome? fun item => (item.getArray "parts").bind partText))

theorem finds_userPlace : Finds userPlace userText := by
  have htext : Finds (atMember "text" atString) fun part => part.getString "text" :=
    finds_atString.atMember "text"
  have hcontent := (finds_atString.or htext.atFirst).atMember "content"
  have huser : ∀ m, isUserMessage m = true → userText m = (m.get "content").bind fun c =>
      c.stringValue.or (c.arrayItems.bind (·.findSome? fun part => part.getString "text")) := by
    intro m hm
    have hrole : m.getString "role" = some (ascii "user") := of_decide_eq_true hm
    rw [userText, if_pos hrole, Json.getString, Json.getArray]
    cases m.get "content" <;> rfl
  constructor
  · intro m p h
    unfold userPlace at h
    split at h
    · rename_i hm
      rw [huser m hm]
      exact hcontent.found h
    · cases h
  · intro m h
    unfold userPlace at h
    split at h
    · rename_i hm
      rw [huser m hm]
      exact hcontent.missed h
    · rename_i hm
      exact if_neg fun hrole => hm (decide_eq_true hrole)

/-- The inspected place is that of the inspected text. -/
theorem finds_inspectedPlace : Finds inspectedPlace inspectedText := by
  have htext : Finds (atMember "text" atString) fun part => part.getString "text" :=
    finds_atString.atMember "text"
  have hmessages := finds_userPlace.atLast.atMember "messages"
  have hcontents := (htext.atFirst.atMember "parts").atLast.atMember "contents"
  have h := hmessages.or ((finds_atString.atMember "prompt").or hcontents)
  have heq : inspectedText = fun root =>
      ((root.get "messages").bind fun j => j.arrayItems.bind
        fun items => items.reverse.findSome? userText).or
      (((root.get "prompt").bind Json.stringValue).or
        ((root.get "contents").bind fun j => j.arrayItems.bind fun items =>
          items.reverse.findSome? fun j => (j.get "parts").bind fun j =>
            j.arrayItems.bind (·.findSome? fun part => part.getString "text"))) := by
    funext root
    simp only [inspectedText, Json.getArray, Json.getString, Option.bind_assoc]
    rfl
  rw [heq]
  exact h

theorem inboundContent_eq {body : Bytes} {root : Json} (hload : loads (cString body) = some root) :
    inboundContent body = (inspectedText root).getD (cString body) := by
  rw [inboundContent, hload]
  rfl

variable {P : Bytes → Prop}

theorem stable_contentPlace : Stable P contentPlace := by
  intro c p text new hnew h htext
  have hfirst : Stable P (atFirst (atMember "text" atString)) :=
    (stable_atString.atMember "text").atFirst
  cases c with
  | string s =>
    cases h
    rfl
  | array items =>
    have h' : atFirst (atMember "text" atString) (.array items) = some p := h
    have hp := hfirst _ p text new hnew h' htext
    obtain ⟨before, x, after, p, rfl, rfl, -⟩ := firstFrom_eq_some h'
    have hchild := child_append before after x
    rw [contentPlace, hp, replaceAt_cons p _ hchild, put_append]
    rfl
  | _ => cases h

theorem stable_userPlace : Stable P userPlace := by
  intro m p text new hnew h htext
  unfold userPlace at h
  split at h
  · rename_i hm
    have hp := (stable_contentPlace.atMember "content") m p text new hnew h htext
    obtain ⟨c, -, h⟩ := Option.bind_eq_some_iff.mp h
    obtain ⟨p, -, rfl⟩ := Option.map_eq_some_iff.mp h
    have hrole : (replaceAt m (.member "content" :: p) (.string new)).get "role"
        = m.get "role" := get_replaceAt_of_ne m p _ (by decide)
    have huser : isUserMessage (replaceAt m (.member "content" :: p) (.string new)) = true := by
      rw [isUserMessage, Json.getString, hrole]
      exact hm
    rw [userPlace, if_pos huser, hp]
  · cases h

/-- The inspected place is found again when its text was replaced. -/
theorem stable_inspectedPlace : Stable P inspectedPlace := by
  have hmessages : Stable P (atMember "messages" (atLast userPlace)) :=
    stable_userPlace.atLast.atMember "messages"
  have hprompt : Stable P (atMember "prompt" atString) := stable_atString.atMember "prompt"
  have hcontents := (((stable_atString (P := P)).atMember "text").atFirst.atMember
    "parts").atLast.atMember "contents"
  intro root p text new hnew h htext
  rcases Option.or_eq_some_iff.mp h with h | ⟨hnone, h⟩
  · rw [inspectedPlace, hmessages root p text new hnew h htext]
    rfl
  · rcases Option.or_eq_some_iff.mp h with h | ⟨hnone', h⟩
    · have hp := hprompt root p text new hnew h htext
      obtain ⟨c, -, h⟩ := Option.bind_eq_some_iff.mp h
      obtain ⟨p, -, rfl⟩ := Option.map_eq_some_iff.mp h
      rw [inspectedPlace, hp, atMember_replaceAt_of_ne _ _ _ _ (by decide), hnone]
      rfl
    · have hp := hcontents root p text new hnew h htext
      obtain ⟨c, -, h⟩ := Option.bind_eq_some_iff.mp h
      obtain ⟨p, -, rfl⟩ := Option.map_eq_some_iff.mp h
      rw [inspectedPlace, hp, atMember_replaceAt_of_ne _ _ _ _ (by decide), hnone,
        atMember_replaceAt_of_ne _ _ _ _ (by decide), hnone']
      rfl

theorem settable_maskedPlace : Settable maskedPlace := by
  have huser : Settable userContent := by
    intro m p new h
    unfold userContent at h
    split at h
    · exact settable_atKey "content" m p new h
    · cases h
  have hhere : Settable fun _ => some [] := by
    intro j p new h
    cases h
    rfl
  have hmessages := (huser.atLast.or (settable_atKey "content").atEnd).atMember "messages"
  have hcontents := (((settable_atKey "text").atHead.atMember "parts").atEnd).atMember "contents"
  exact hmessages.or ((hhere.atMember "prompt").or hcontents)

theorem isObject_of_user {m : Json} (h : isUserMessage m = true) : m.isObject = true := by
  have hrole : m.getString "role" = some (ascii "user") := of_decide_eq_true h
  exact isObject_of_get (getString_eq_some.mp hrole)

theorem userContent_of_user {m : Json} (h : isUserMessage m = true) :
    userContent m = some [.member "content"] := by
  rw [userContent, if_pos h, atKey, if_pos (isObject_of_user h)]

theorem userContent_eq_none {m : Json} : userContent m = none ↔ isUserMessage m = false := by
  cases h : isUserMessage m with
  | true => simp [userContent_of_user h]
  | false => simp [userContent, h]

theorem userPlace_of_not_user {m : Json} (h : isUserMessage m = false) : userPlace m = none := by
  simp [userPlace, h]

theorem replaceFirst_append {p : Json → Bool} {f : Json → Json} {before after : List Json}
    {x : Json} (hx : p x = true) (h : ∀ y ∈ before, p y = false) :
    replaceFirst p f (before ++ x :: after) = some (before ++ f x :: after) := by
  induction before with
  | nil => simp [replaceFirst, hx]
  | cons y before ih =>
    rw [List.cons_append, replaceFirst, h y List.mem_cons_self, if_neg Bool.false_ne_true,
      ih fun z hz => h z (List.mem_cons_of_mem _ hz)]
    rfl

theorem replaceFirst_eq_none {p : Json → Bool} {f : Json → Json} {items : List Json}
    (h : ∀ y ∈ items, p y = false) : replaceFirst p f items = none := by
  induction items with
  | nil => rfl
  | cons y items ih =>
    rw [replaceFirst, h y List.mem_cons_self, if_neg Bool.false_ne_true,
      ih fun z hz => h z (List.mem_cons_of_mem _ hz)]
    rfl

theorem replaceLast_append {p : Json → Bool} {f : Json → Json} {before after : List Json}
    {x : Json} (hx : p x = true) (h : ∀ y ∈ after, p y = false) :
    replaceLast p f (before ++ x :: after) = some (before ++ f x :: after) := by
  have hreverse : (before ++ x :: after).reverse = after.reverse ++ x :: before.reverse := by
    simp
  rw [replaceLast, hreverse, replaceFirst_append hx fun y hy => h y (List.mem_reverse.mp hy)]
  simp

theorem atEnd_append (f : Finder) (before : List Json) (x : Json) :
    atEnd f (.array (before ++ [x])) = (f x).map (.item (0 + before.length) :: ·) := by
  simp [atEnd, Json.arrayItems]

/-- The messages are masked at one place. -/
theorem maskMessages_eq (content : Bytes) (items : List Json) :
    (maskMessages content items).map Json.array =
      ((atLast userContent (.array items)).or (atEnd (atKey "content") (.array items))).map
        fun q => replaceAt (.array items) q (.string content) := by
  have hlast : atLast userContent (.array items) = lastFrom userContent 0 items := rfl
  rw [hlast]
  cases h : lastFrom userContent 0 items with
  | none =>
    have hnone : ∀ m ∈ items.reverse, isUserMessage m = false := fun m hm =>
      userContent_eq_none.mp (lastFrom_eq_none.mp h m (List.mem_reverse.mp hm))
    rw [maskMessages, replaceLast, replaceFirst_eq_none hnone, Option.map_none, Option.none_or,
      Option.none_or]
    rcases List.eq_nil_or_concat items with rfl | ⟨before, x, rfl⟩
    · rfl
    · rw [List.concat_eq_append, atEnd_append, atKey]
      by_cases hobj : x.isObject = true
      · rw [if_pos hobj, Option.map_some, Option.map_some,
          replaceAt_cons _ _ (child_append before [] x), put_append]
        simp [hobj, replaceAt, put]
      · simp [hobj]
  | some q =>
    obtain ⟨before, x, after, p, rfl, rfl, hp, hafter⟩ := lastFrom_eq_some h
    have hx : isUserMessage x = true := by
      cases hx : isUserMessage x with
      | true => rfl
      | false =>
        rw [userContent_eq_none.mpr hx] at hp
        cases hp
    rw [userContent_of_user hx] at hp
    cases hp
    rw [maskMessages, replaceLast_append hx fun y hy => userContent_eq_none.mp (hafter y hy),
      Option.some_or, Option.some_or, Option.map_some, Option.map_some,
      replaceAt_cons _ _ (child_append before after x), put_append]
    rfl

/-- The contents are masked at one place. -/
theorem maskContents_eq (content : Bytes) (items : List Json) :
    (maskContents content items).map Json.array =
      (atEnd (atMember "parts" (atHead (atKey "text"))) (.array items)).map
        fun q => replaceAt (.array items) q (.string content) := by
  rcases List.eq_nil_or_concat items with rfl | ⟨before, x, rfl⟩
  · rfl
  · rw [List.concat_eq_append, atEnd_append, maskContents]
    have hreverse : (before ++ [x]).reverse = x :: before.reverse := by simp
    rw [hreverse]
    dsimp only
    cases hparts : x.getArray "parts" with
    | none =>
      have hnone : atMember "parts" (atHead (atKey "text")) x = none := by
        rw [atMember, Option.bind_eq_none_iff]
        intro c hc
        rw [Json.getArray, hc, Option.bind_some] at hparts
        rw [atHead, hparts]
        rfl
      rw [hnone]
      rfl
    | some parts =>
      have hget := getArray_eq_some.mp hparts
      cases parts with
      | nil =>
        rw [atMember, hget]
        rfl
      | cons part parts =>
        have hhead : atHead (atKey "text") (.array (part :: parts))
            = (atKey "text" part).map (.item 0 :: ·) := rfl
        rw [atMember, hget, Option.bind_some, hhead, atKey]
        by_cases hobj : part.isObject = true
        · have hchild : child x (.member "parts") = some (.array (part :: parts)) := hget
          have hpart : child (.array (part :: parts)) (.item 0) = some part := rfl
          simp only [if_pos hobj, Option.map_some]
          rw [replaceAt_cons _ _ (child_append before [] x), put_append, replaceAt_cons _ _ hchild,
            replaceAt_cons _ _ hpart]
          simp [put, replaceAt]
        · simp [hobj]

/-- The document that is serialised, which is read back as it was. -/
theorem applyInboundMask_spec {body content : Bytes} {root : Json}
    (hload : loads (cString body) = some root) (hobj : root.isObject = true)
    (hcontent : Nonzero content) :
    applyInboundMask body content = dumps (maskTree root content) ∧
      Readable (maskTree root content) := by
  have hroot := Readable.of_loads hload
  have hfits : Fits 2048 root := ⟨hroot.wellFormed, hroot.depth_le⟩
  have hset : ∀ {key v}, Char.ofNat 0 ∉ ascii key → Fits 2047 v → Readable (root.set key v) :=
    fun hkey hv => hroot.set hkey hv.1 (Nat.add_le_add_right hv.2 1)
  have hmessages := editMember_eq
    (f := fun ms => (atLast userContent ms).or (atEnd (atKey "content") ms))
    (g := fun _ => .string content) (fun j hj => by simp [atLast, atEnd, hj])
    (maskMessages_eq content) root "messages"
  have hcontents := editMember_eq (f := atEnd (atMember "parts" (atHead (atKey "text"))))
    (g := fun _ => .string content) (fun j hj => by simp [atEnd, hj])
    (maskContents_eq content) root "contents"
  rw [applyInboundMask, hload, maskTree, maskedPlace]
  simp only [hobj, Bool.not_true, Bool.false_eq_true, if_false]
  split
  · rename_i messages' h
    obtain ⟨messages, hget, hmask⟩ := Option.bind_eq_some_iff.mp h
    have hall := fits_items (fits_get hfits (getArray_eq_some.mp hget))
    have hread := hset (nonzero_ascii "messages" rfl)
      (fits_array (fits_maskMessages (by omega) hcontent hall hmask))
    rw [h, Option.map_some] at hmessages
    obtain ⟨q, hq, heq⟩ := Option.map_eq_some_iff.mp hmessages.symm
    rw [hq, Option.some_or]
    dsimp only
    rw [heq]
    exact ⟨rfl, hread⟩
  · rename_i h
    rw [h, Option.map_none] at hmessages
    rw [Option.map_eq_none_iff.mp hmessages.symm, Option.none_or]
    cases hprompt : root.get "prompt" with
    | some c =>
      have hv : Fits 2047 (.string content) :=
        ⟨by simpa [JsonRoundtrip.wellFormed] using hcontent, by simp [depth]⟩
      rw [atMember, hprompt]
      exact ⟨rfl, hset (nonzero_ascii "prompt" rfl) hv⟩
    | none =>
      have hnone : atMember "prompt" (fun _ => some []) root = none := by
        rw [atMember, hprompt]
        rfl
      rw [hnone, Option.none_or, Option.isSome_none, if_neg Bool.false_ne_true]
      split
      · rename_i contents' h
        obtain ⟨contents, hget, hmask⟩ := Option.bind_eq_some_iff.mp h
        have hall := fits_items (fits_get hfits (getArray_eq_some.mp hget))
        have hread := hset (nonzero_ascii "contents" rfl)
          (fits_array (fits_maskContents hcontent hall hmask))
        rw [h, Option.map_some] at hcontents
        obtain ⟨q, hq, heq⟩ := Option.map_eq_some_iff.mp hcontents.symm
        rw [hq]
        dsimp only
        rw [heq]
        exact ⟨rfl, hread⟩
      · rename_i h
        rw [h, Option.map_none] at hcontents
        rw [Option.map_eq_none_iff.mp hcontents.symm]
        exact ⟨rfl, hroot⟩

/-- A mask replaces the text that was inspected: the one at its place, or else the body. -/
def MaskLands (root : Json) (body content : Bytes) : Prop :=
  inboundContent (applyInboundMask body content) = content ∧
    match inspectedPlace root with
    | some p =>
      loads (cString (applyInboundMask body content)) = some (replaceAt root p (.string content))
    | none => applyInboundMask body content = content

/-- The first part of the last contents. -/
def lastPart (root : Json) : Option Json :=
  (((root.getArray "contents").bind List.getLast?).bind (·.getArray "parts")).bind List.head?

/-- The last message, when there is one. -/
def lastMessage (root : Json) : Option Json := (root.getArray "messages").bind List.getLast?

/-- A document has the text that is inspected where the mask is written. -/
def writesInspected (root : Json) : Bool :=
  match (root.getArray "messages").bind fun ms => ms.reverse.find? isUserMessage with
  | some user => (user.getString "content").isSome
  | none =>
    !(lastMessage root).any Json.isObject &&
    match root.get "prompt" with
    | some prompt => prompt.stringValue.isSome
    | none => (lastPart root).any fun part => (part.getString "text").isSome

theorem dumps_ne_nil (j : Json) : dumps j ≠ [] := by
  intro h
  obtain ⟨c, rest, hdumps, -⟩ := JsonRoundtrip.dumps_head j
  rw [h] at hdumps
  cases hdumps

theorem inspectedPlace_of_not_object {root : Json} (h : root.isObject = false) :
    inspectedPlace root = none := by
  cases root with
  | object => cases h
  | _ => rfl

/-- A document with a text as its prompt. -/
def promptDocument (text : Bytes) : Json := .object [(ascii "prompt", .string text)]

theorem readable_promptDocument {text : Bytes} (h : Nonzero text) :
    Readable (promptDocument text) where
  document := rfl
  wellFormed := by
    have hkey : Nonzero (ascii "prompt") := nonzero_ascii _ rfl
    simp [promptDocument, JsonRoundtrip.wellFormed, JsonRoundtrip.wellFormedMembers, hkey, h]
  depth_le := by simp [promptDocument, depth, depthMembers, maxDepth]

/-- A mask may be a document itself, of which another text is then inspected. -/
theorem inboundContent_promptDocument {text : Bytes} (h : Nonzero text) :
    inboundContent (dumps (promptDocument text)) = text := by
  have hget : ∀ key : String, (promptDocument text).get key
      = if ascii "prompt" = ascii key then some (.string text) else none := fun _ => rfl
  have hmessages : (promptDocument text).get "messages" = none := by
    rw [hget, if_neg (ascii_ne (by decide))]
  have hprompt : (promptDocument text).get "prompt" = some (.string text) := by
    rw [hget, if_pos rfl]
  rw [inboundContent_eq (loads_cString_dumps (readable_promptDocument h)), inspectedText,
    Json.getArray, hmessages, Json.getString, hprompt]
  rfl

/-- A mask that lands is the document with the inspected text replaced. -/
theorem maskTree_of_lands {body content : Bytes} {root : Json} {p : Path}
    (hload : loads (cString body) = some root) (hobj : root.isObject = true)
    (hcontent : Nonzero content) (hp : inspectedPlace root = some p)
    (h : MaskLands root body content) :
    maskTree root content = replaceAt root p (.string content) := by
  obtain ⟨hdumps, hread⟩ := applyInboundMask_spec hload hobj hcontent
  have hlands := h.2
  rw [hp] at hlands
  dsimp only at hlands
  rw [hdumps, loads_cString_dumps hread] at hlands
  exact Option.some.inj hlands

theorem stringAt_inspectedPlace {root : Json} {p : Path} (hp : inspectedPlace root = some p) :
    ∃ text, stringAt root p = some text := by
  obtain ⟨hsome, heq⟩ := finds_inspectedPlace.found hp
  rw [heq]
  exact Option.isSome_iff_exists.mp hsome

/-- A mask that lands and is written elsewhere was there before. -/
theorem stringAt_of_lands {body content : Bytes} {root : Json} {p q : Path}
    (hload : loads (cString body) = some root) (hobj : root.isObject = true)
    (hcontent : Nonzero content) (hp : inspectedPlace root = some p)
    (hq : maskedPlace root = some q) (hqp : q ≠ p) (h : MaskLands root body content) :
    stringAt root q = some content := by
  have htree := maskTree_of_lands hload hobj hcontent hp h
  obtain ⟨text, htext⟩ := stringAt_inspectedPlace hp
  rw [maskTree, hq] at htree
  dsimp only at htree
  rw [← stringAt_replaceAt_of_ne content htext hqp, ← htree,
    settable_maskedPlace root q content hq]

/-- A mask lands, whatever it is, when what is inspected and what is written are one place. -/
theorem maskLands_iff_places {body : Bytes} {root : Json}
    (hload : loads (cString body) = some root) :
    (∀ content, Nonzero content → MaskLands root body content) ↔
      ∃ p, inspectedPlace root = some p ∧ maskedPlace root = some p := by
  have hempty : Nonzero [] := List.not_mem_nil
  have hletter : Nonzero ['x'] := by decide
  constructor
  · intro h
    cases hobj : root.isObject with
    | false =>
      -- the mask becomes the body, and may be a document
      have hmask : ∀ content, applyInboundMask body content = content := by
        intro content
        rw [applyInboundMask, hload]
        simp [hobj]
      have hlands := (h _ (nonzero_dumps (promptDocument []))).1
      rw [hmask, inboundContent_promptDocument hempty] at hlands
      exact absurd hlands.symm (dumps_ne_nil _)
    | true =>
      cases hp : inspectedPlace root with
      | none =>
        have hlands := (h [] hempty).2
        rw [hp] at hlands
        dsimp only at hlands
        rw [(applyInboundMask_spec hload hobj hempty).1] at hlands
        exact absurd hlands (dumps_ne_nil _)
      | some p =>
        -- what is read at a place cannot be every mask
        have hread : ∀ q, ¬ ∀ content, Nonzero content → stringAt root q = some content := by
          intro q hq
          have := (hq [] hempty).symm.trans (hq ['x'] hletter)
          cases this
        refine ⟨p, rfl, ?_⟩
        cases hq : maskedPlace root with
        | none =>
          obtain ⟨text, htext⟩ := stringAt_inspectedPlace hp
          refine absurd (fun content hc => ?_) (hread p)
          have htree := maskTree_of_lands hload hobj hc hp (h content hc)
          rw [maskTree, hq] at htree
          dsimp only at htree
          rw [htree, stringAt_replaceAt_self content htext]
        | some q =>
          by_contra hne
          have hqp : q ≠ p := fun h => hne (congrArg some h)
          exact hread q fun content hc => stringAt_of_lands hload hobj hc hp hq hqp (h content hc)
  · rintro ⟨p, hp, hq⟩ content hc
    have hobj : root.isObject = true := by
      cases hobj : root.isObject with
      | true => rfl
      | false =>
        rw [inspectedPlace_of_not_object hobj] at hp
        cases hp
    obtain ⟨text, htext⟩ := stringAt_inspectedPlace hp
    obtain ⟨hdumps, hread⟩ := applyInboundMask_spec hload hobj hc
    have htree : maskTree root content = replaceAt root p (.string content) := by
      rw [maskTree, hq]
    have hloads : loads (cString (applyInboundMask body content))
        = some (replaceAt root p (.string content)) := by
      rw [hdumps, loads_cString_dumps hread, htree]
    constructor
    · have hstable :=
        stable_inspectedPlace (P := fun _ => True) root p text content trivial hp htext
      have hfound := finds_inspectedPlace.found hstable
      rw [inboundContent_eq hloads, ← hfound.2, stringAt_replaceAt_self content htext]
      rfl
    · rw [hp]
      exact hloads

theorem atLast_eq_none {f : Finder} {j : Json} :
    atLast f j = none ↔ ∀ items, j.arrayItems = some items → ∀ x ∈ items, f x = none := by
  rw [atLast, Option.bind_eq_none_iff]
  exact forall₂_congr fun items _ => lastFrom_eq_none

/-- The last user message, among the other messages. -/
theorem messages_of_user {root user : Json}
    (h : (root.getArray "messages").bind (fun ms => ms.reverse.find? isUserMessage) = some user) :
    ∃ before after, root.get "messages" = some (.array (before ++ user :: after)) ∧
      isUserMessage user = true ∧ ∀ m ∈ after, isUserMessage m = false := by
  obtain ⟨ms, hms, hfind⟩ := Option.bind_eq_some_iff.mp h
  obtain ⟨huser, after, before, hreverse, hafter⟩ := List.find?_eq_some_iff_append.mp hfind
  refine ⟨before.reverse, after.reverse, ?_, huser, ?_⟩
  · rw [getArray_eq_some.mp hms, ← List.reverse_reverse ms, hreverse]
    simp
  · intro m hm
    simpa using hafter m (List.mem_reverse.mp hm)

theorem maskedPlace_of_user {root user : Json} {before after : List Json}
    (hget : root.get "messages" = some (.array (before ++ user :: after)))
    (huser : isUserMessage user = true) (hafter : ∀ m ∈ after, isUserMessage m = false) :
    maskedPlace root
      = some [.member "messages", .item (0 + before.length), .member "content"] := by
  have hlast : atLast userContent (.array (before ++ user :: after))
      = some [.item (0 + before.length), .member "content"] :=
    lastFrom_append (userContent_of_user huser) fun m hm => userContent_eq_none.mpr (hafter m hm)
  rw [maskedPlace, atMember, hget, Option.bind_some, hlast]
  rfl

/-- With a user message, the places agree when the last one has a string for its content. -/
theorem places_of_user {root user : Json}
    (h : (root.getArray "messages").bind (fun ms => ms.reverse.find? isUserMessage) = some user) :
    (user.getString "content").isSome = true ↔
      ∃ p, inspectedPlace root = some p ∧ maskedPlace root = some p := by
  obtain ⟨before, after, hget, huser, hafter⟩ := messages_of_user h
  have hmasked := maskedPlace_of_user hget huser hafter
  have hroot : child root (.member "messages") = some (.array (before ++ user :: after)) := hget
  constructor
  · intro hsome
    obtain ⟨text, htext⟩ := Option.isSome_iff_exists.mp hsome
    have hplace : userPlace user = some [.member "content"] := by
      rw [userPlace, if_pos huser, atMember, getString_eq_some.mp htext]
      rfl
    have hlast : atLast userPlace (.array (before ++ user :: after))
        = some [.item (0 + before.length), .member "content"] :=
      lastFrom_append hplace fun m hm => userPlace_of_not_user (hafter m hm)
    refine ⟨_, ?_, hmasked⟩
    rw [inspectedPlace, atMember, hget, Option.bind_some, hlast]
    rfl
  · rintro ⟨p, hp, hq⟩
    obtain rfl := Option.some.inj (hmasked.symm.trans hq)
    obtain ⟨hsome, heq⟩ := finds_inspectedPlace.found hp
    rw [← heq, stringAt_cons _ hroot, stringAt_cons _ (child_append before after user)] at hsome
    simpa [stringAt, valueAt, child, Json.getString] using hsome

theorem isSome_atEnd (f : Finder) (j : Json) :
    (atEnd f j).isSome = (j.arrayItems.bind List.getLast?).any fun x => (f x).isSome := by
  cases j with
  | array items =>
    rcases List.eq_nil_or_concat items with rfl | ⟨before, x, rfl⟩
    · rfl
    · rw [List.concat_eq_append, atEnd_append]
      simp [Json.arrayItems]
  | _ => rfl

theorem isSome_atMember (key : String) (f : Finder) (root : Json) :
    (atMember key f root).isSome = (root.get key).any fun c => (f c).isSome := by
  rw [atMember]
  cases root.get key <;> simp

theorem head_of_atMember {key : String} {f : Finder} {root : Json} {p : Path}
    (h : atMember key f root = some p) : ∃ q, p = .member key :: q := by
  obtain ⟨c, -, h⟩ := Option.bind_eq_some_iff.mp h
  obtain ⟨q, -, rfl⟩ := Option.map_eq_some_iff.mp h
  exact ⟨q, rfl⟩

/-- The last message is masked, if it is an object, when there is no user message. -/
theorem isSome_lastMessage (root : Json) :
    (atMember "messages" (atEnd (atKey "content")) root).isSome
      = (lastMessage root).any Json.isObject := by
  have hkey : ∀ x : Json, (atKey "content" x).isSome = x.isObject := by
    intro x
    cases x <;> rfl
  rw [isSome_atMember, lastMessage, Json.getArray]
  cases root.get "messages" with
  | none => rfl
  | some c =>
    rw [Option.any_some, Option.bind_some, isSome_atEnd]
    simp only [hkey]

theorem lastPart_eq_some {root part : Json} (h : lastPart root = some part) :
    ∃ before item parts, root.get "contents" = some (.array (before ++ [item])) ∧
      item.get "parts" = some (.array (part :: parts)) := by
  obtain ⟨parts, hparts, hhead⟩ := Option.bind_eq_some_iff.mp h
  obtain ⟨item, hitem, hparts⟩ := Option.bind_eq_some_iff.mp hparts
  obtain ⟨contents, hcontents, hlast⟩ := Option.bind_eq_some_iff.mp hitem
  obtain ⟨before, rfl⟩ := List.getLast?_eq_some_iff.mp hlast
  obtain ⟨rest, rfl⟩ := List.head?_eq_some_iff.mp hhead
  exact ⟨before, item, rest, getArray_eq_some.mp hcontents, getArray_eq_some.mp hparts⟩

/-- In the contents, the places agree when the first part of the last one has a text. -/
theorem places_of_contents (root : Json) :
    (lastPart root).any (fun part => (part.getString "text").isSome) = true ↔
      ∃ p, atMember "contents" (atLast (atMember "parts" (atFirst (atMember "text" atString)))) root
          = some p ∧
        atMember "contents" (atEnd (atMember "parts" (atHead (atKey "text")))) root = some p := by
  have htext : Finds (atMember "text" atString) fun part => part.getString "text" :=
    finds_atString.atMember "text"
  have hfinds := (htext.atFirst.atMember "parts").atLast.atMember "contents"
  constructor
  · intro hany
    obtain ⟨part, hpart, hsome⟩ := (Option.any_eq_true _ _).mp hany
    obtain ⟨before, item, parts, hcontents, hparts⟩ := lastPart_eq_some hpart
    obtain ⟨text, hget⟩ := Option.isSome_iff_exists.mp hsome
    have hget := getString_eq_some.mp hget
    refine ⟨[.member "contents", .item (0 + before.length), .member "parts", .item 0,
      .member "text"], ?_, ?_⟩
    · have hfirst : atFirst (atMember "text" atString) (.array (part :: parts))
          = some [.item 0, .member "text"] := by
        refine @firstFrom_append _ 0 [] parts part _ ?_ nofun
        rw [atMember, hget]
        rfl
      have hitem : atMember "parts" (atFirst (atMember "text" atString)) item
          = some [.member "parts", .item 0, .member "text"] := by
        rw [atMember, hparts, Option.bind_some, hfirst]
        rfl
      have hlast := @lastFrom_append _ 0 before [] item _ hitem nofun
      rw [atMember, hcontents, Option.bind_some, atLast, Json.arrayItems, Option.bind_some, hlast]
      rfl
    · rw [atMember, hcontents, Option.bind_some, atEnd_append, atMember, hparts, Option.bind_some,
        atHead, Json.arrayItems]
      dsimp only
      rw [atKey, if_pos (isObject_of_get hget)]
      rfl
  · rintro ⟨p, hp, hq⟩
    obtain ⟨hsome, heq⟩ := hfinds.found hp
    rw [← heq] at hsome
    obtain ⟨c, hcontents, hq⟩ := Option.bind_eq_some_iff.mp hq
    obtain ⟨q, hend, rfl⟩ := Option.map_eq_some_iff.mp hq
    obtain ⟨before, item, q, rfl, rfl, hitem⟩ := atEnd_eq_some hend
    obtain ⟨c, hparts, hitem⟩ := Option.bind_eq_some_iff.mp hitem
    obtain ⟨q, hhead, rfl⟩ := Option.map_eq_some_iff.mp hitem
    unfold atHead at hhead
    split at hhead
    · rename_i part parts hitems
      obtain ⟨q, hkey, rfl⟩ := Option.map_eq_some_iff.mp hhead
      unfold atKey at hkey
      split at hkey
      · cases hkey
        cases c with
        | array =>
          cases hitems
          have h1 : child root (.member "contents") = some (.array (before ++ [item])) := hcontents
          have h2 : child item (.member "parts") = some (.array (part :: parts)) := hparts
          have h3 : child (.array (part :: parts)) (.item 0) = some part := rfl
          rw [stringAt_cons _ h1, stringAt_cons _ (child_append before [] item),
            stringAt_cons _ h2, stringAt_cons _ h3] at hsome
          have hpart : lastPart root = some part := by
            rw [lastPart, getArray_eq_some.mpr hcontents, Option.bind_some,
              List.getLast?_append_cons, List.getLast?_singleton, Option.bind_some,
              getArray_eq_some.mpr hparts]
            rfl
          rw [hpart, Option.any_some]
          simpa [stringAt, valueAt, child, Json.getString] using hsome
        | _ => cases hitems
      · cases hkey
    · cases hhead

section NoUser

variable {root : Json}
  (h : (root.getArray "messages").bind (fun ms => ms.reverse.find? isUserMessage) = none)
include h

theorem not_user_of_mem {items : List Json} (hget : root.get "messages" = some (.array items)) :
    ∀ m ∈ items, isUserMessage m = false := by
  rw [getArray_eq_some.mpr hget, Option.bind_some, List.find?_eq_none] at h
  intro m hm
  simpa using h m (List.mem_reverse.mpr hm)

theorem inspectedPlace_of_no_user : inspectedPlace root =
    (atMember "prompt" atString root).or
      (atMember "contents" (atLast (atMember "parts" (atFirst (atMember "text" atString))))
        root) := by
  have hnone : atMember "messages" (atLast userPlace) root = none := by
    rw [atMember, Option.bind_eq_none_iff]
    intro c hc
    rw [Option.map_eq_none_iff, atLast_eq_none]
    intro items hitems m hm
    cases c with
    | array =>
      cases hitems
      exact userPlace_of_not_user (not_user_of_mem h hc m hm)
    | _ => cases hitems
  rw [inspectedPlace, hnone, Option.none_or]

theorem maskedPlace_of_no_user : maskedPlace root =
    (atMember "messages" (atEnd (atKey "content")) root).or
      ((atMember "prompt" (fun _ => some []) root).or
        (atMember "contents" (atEnd (atMember "parts" (atHead (atKey "text")))) root)) := by
  have hnone : ∀ c, root.get "messages" = some c → atLast userContent c = none := by
    intro c hc
    rw [atLast_eq_none]
    intro items hitems m hm
    cases c with
    | array =>
      cases hitems
      exact userContent_eq_none.mpr (not_user_of_mem h hc m hm)
    | _ => cases hitems
  have hmessages : atMember "messages"
      (fun ms => (atLast userContent ms).or (atEnd (atKey "content") ms)) root
      = atMember "messages" (atEnd (atKey "content")) root := by
    rw [atMember, atMember]
    cases hget : root.get "messages" with
    | none => rfl
    | some c => rw [Option.bind_some, Option.bind_some, hnone c hget, Option.none_or]
  rw [maskedPlace, hmessages]

/-- Without one, the last message must not be there to be masked, and a prompt must be a string;
without a prompt, the first part of the last contents must have a text. -/
theorem places_of_no_user :
    (!(lastMessage root).any Json.isObject &&
      match root.get "prompt" with
      | some prompt => prompt.stringValue.isSome
      | none => (lastPart root).any fun part => (part.getString "text").isSome) = true ↔
      ∃ p, inspectedPlace root = some p ∧ maskedPlace root = some p := by
  have hinspected := inspectedPlace_of_no_user h
  have hmasked := maskedPlace_of_no_user h
  have hlast := isSome_lastMessage root
  cases hmessages : atMember "messages" (atEnd (atKey "content")) root with
  | some q =>
    rw [hmessages, Option.isSome_some] at hlast
    rw [← hlast, Bool.not_true, Bool.false_and]
    refine ⟨nofun, ?_⟩
    rintro ⟨p, hp, hq⟩
    rw [hmasked, hmessages, Option.some_or] at hq
    rw [hinspected] at hp
    obtain rfl := Option.some.inj hq
    obtain ⟨q', rfl⟩ := head_of_atMember hmessages
    rcases Option.or_eq_some_iff.mp hp with hp | ⟨-, hp⟩
    · obtain ⟨q', hq'⟩ := head_of_atMember hp
      exact absurd (List.cons.inj hq').1 (by decide)
    · obtain ⟨q', hq'⟩ := head_of_atMember hp
      exact absurd (List.cons.inj hq').1 (by decide)
  | none =>
    rw [hmessages, Option.isSome_none] at hlast
    rw [hmessages, Option.none_or] at hmasked
    rw [← hlast, Bool.not_false, Bool.true_and]
    cases hprompt : root.get "prompt" with
    | some c =>
      have hplace : maskedPlace root = some [.member "prompt"] := by
        rw [hmasked, atMember, hprompt]
        rfl
      have hchild : child root (.member "prompt") = some c := hprompt
      constructor
      · intro hsome
        refine ⟨_, ?_, hplace⟩
        rw [hinspected, atMember, hprompt]
        cases c with
        | string => rfl
        | _ => cases hsome
      · rintro ⟨p, hp, hq⟩
        obtain rfl := Option.some.inj (hplace.symm.trans hq)
        obtain ⟨hsome, heq⟩ := finds_inspectedPlace.found hp
        rwa [← heq, stringAt_cons _ hchild] at hsome
    | none =>
      have hnone : ∀ f, atMember "prompt" f root = none := by
        intro f
        rw [atMember, hprompt]
        rfl
      rw [hnone, Option.none_or] at hinspected hmasked
      rw [hinspected, hmasked]
      exact places_of_contents root

end NoUser

/-- A mask lands whatever it is when the last user message has a string for its content; or there
is no user message, and the last message is not an object, and the prompt is a string or else, with
no prompt, the first part of the last contents has a text. -/
theorem maskLands_iff {body : Bytes} {root : Json} (hload : loads (cString body) = some root) :
    (∀ content, Nonzero content → MaskLands root body content) ↔ writesInspected root = true := by
  rw [maskLands_iff_places hload, writesInspected]
  split
  · rename_i h
    exact (places_of_user h).symm
  · rename_i h
    exact (places_of_no_user h).symm

theorem maskLands_prompt :
    MaskLands (promptDocument (ascii "hi")) (dumps (promptDocument (ascii "hi")))
      (ascii "[removed]") :=
  (maskLands_iff (loads_cString_dumps (readable_promptDocument (nonzero_ascii _ rfl)))).mpr
    (by decide +kernel) _ (nonzero_ascii _ rfl)

/-- A text in one message of the user, followed by a picture in another. -/
def pictureDocument : Json :=
  .object [(ascii "messages", .array [
    .object [(ascii "role", .string (ascii "user")), (ascii "content", .string (ascii "secret"))],
    .object [(ascii "role", .string (ascii "user")),
      (ascii "content", .array [.object [(ascii "type", .string (ascii "image_url"))]])]])]

theorem readable_pictureDocument : Readable pictureDocument where
  document := rfl
  wellFormed := by decide +kernel
  depth_le := by decide +kernel

/-- The picture is overwritten with the mask, and the text stays. -/
theorem not_maskLands_picture :
    ¬ MaskLands pictureDocument (dumps pictureDocument) (ascii "[removed]") := by
  have hp : inspectedPlace pictureDocument
      = some [.member "messages", .item 0, .member "content"] := by decide +kernel
  have hq : maskedPlace pictureDocument
      = some [.member "messages", .item 1, .member "content"] := by decide +kernel
  have hread : stringAt pictureDocument [.member "messages", .item 1, .member "content"]
      = none := by decide +kernel
  intro h
  have := stringAt_of_lands (loads_cString_dumps readable_pictureDocument) rfl
    (nonzero_ascii _ rfl) hp hq (by decide) h
  rw [hread] at this
  cases this

end Aigate.MaskPlacement
