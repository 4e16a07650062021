import Aigate.AuditLog
import Aigate.ChatBody
import Aigate.MaskPlacement
import Aigate.StreamCacheStore

/-!
# Templates of the system prompt

A template is put in front of or behind the text of the first system message, or becomes a
message of its own. The text of a message is read where it is a string; the parts of a content
array are not.
-/
namespace Aigate.SystemTemplates
open Text JsonTree JsonText JsonRoundtrip JsonEdit PiiText Guardrails GuardrailsWebhook
  GuardrailsEdits MaskPlacement Utf8
open AuditLog (jsonString setNew)
open ChatBody (PromptMode Clock promptTemplateExpandVars isSystemMessage)

/-- `prompt_template_t`. -/
structure PromptTemplate where
  systemTemplate : Bytes
  mode : PromptMode
  prefixUserPrompt : Option Bytes
  suffixUserPrompt : Option Bytes

/-- A request of a model with a key at some time. -/
structure Caller where
  clock : Clock
  model : Bytes
  keyName : Bytes

/-- The system template with its variables replaced. -/
def PromptTemplate.expanded (tmpl : PromptTemplate) (c : Caller) : Bytes :=
  let template := cString tmpl.systemTemplate
  cString (promptTemplateExpandVars c.clock c.model c.keyName template.length template)

/-- The template and the text that it found. -/
def combined (mode : PromptMode) (expanded orig : Bytes) : Bytes :=
  match mode with
  | .override => expanded
  | .append => orig ++ '\n' :: '\n' :: expanded
  | .prepend => expanded ++ '\n' :: '\n' :: orig

/-- A content that is not a string counts as no text. -/
def mergeSystem (mode : PromptMode) (expanded : Bytes) (sysMsg : Json) : Json :=
  setNew sysMsg "content"
    (jsonString (combined mode expanded ((sysMsg.getString "content").getD [])))

def newSystem (expanded : Bytes) : Json :=
  setNew (setNew (.object []) "role" (jsonString (ascii "system"))) "content" (jsonString expanded)

/-- The first system message gets the template, or there is a new one in front. -/
def systemMessages (mode : PromptMode) (expanded : Bytes) (messages : List Json) : List Json :=
  (replaceFirst isSystemMessage (mergeSystem mode expanded) messages).getD
    (newSystem expanded :: messages)

/-- `%s` of a string that may be missing. -/
def affix (s : Option Bytes) : Bytes := cString (s.getD [])

def PromptTemplate.userText (tmpl : PromptTemplate) (orig : Bytes) : Bytes :=
  affix tmpl.prefixUserPrompt ++ orig ++ affix tmpl.suffixUserPrompt

def affixUser (tmpl : PromptTemplate) (m : Json) : Json :=
  match m.getString "content" with
  | some orig => setNew m "content" (jsonString (tmpl.userText orig))
  | none => m

/-- The last user message gets the prefix and the suffix. -/
def affixLastUser (tmpl : PromptTemplate) (messages : List Json) : List Json :=
  if tmpl.prefixUserPrompt = none ∧ tmpl.suffixUserPrompt = none then messages
  else (replaceLast isUserMessage (affixUser tmpl) messages).getD messages

def applyMessages (tmpl : PromptTemplate) (c : Caller) (messages : List Json) : List Json :=
  affixLastUser tmpl (systemMessages tmpl.mode (tmpl.expanded c) messages)

/-- `prompt_template_apply`: the edited request. -/
def promptTemplateApply (tmpl : PromptTemplate) (c : Caller) (jbody : Json) : Option Json :=
  if cString tmpl.systemTemplate = [] then none
  else (jbody.getArray "messages").map fun messages =>
    jbody.set "messages" (.array (applyMessages tmpl c messages))

/-- The texts of the parts, one behind the other. -/
def partsText (parts : List Json) : Bytes := parts.flatMap fun p => (p.getString "text").getD []

/-- The text of a message, in either shape. -/
def contentText (m : Json) : Bytes :=
  match m.get "content" with
  | some (.string s) => s
  | some (.array parts) => partsText parts
  | _ => []

/-- The first system message has all of its text, or there is a new one, and the others are
where they were. -/
inductive Conservative (messages : List Json) : List Json → Prop where
  | merged {before after : List Json} {sysMsg sysMsg' : Json}
      (hmessages : messages = before ++ sysMsg :: after)
      (hfirst : ∀ m ∈ before, isSystemMessage m = false) (hsystem : isSystemMessage sysMsg = true)
      (hsystem' : isSystemMessage sysMsg' = true)
      (htext : contentText sysMsg <:+: contentText sysMsg') :
      Conservative messages (before ++ sysMsg' :: after)
  | added {sysMsg : Json} (hnone : ∀ m ∈ messages, isSystemMessage m = false)
      (hsystem : isSystemMessage sysMsg = true) : Conservative messages (sysMsg :: messages)

/-- A template that is applied edits the messages only, and these as it should. -/
def Keeps (tmpl : PromptTemplate) (c : Caller) (jbody : Json) : Prop :=
  ∀ edited, promptTemplateApply tmpl c jbody = some edited →
    ∃ messages result, jbody.getArray "messages" = some messages ∧
      edited = jbody.set "messages" (.array result) ∧ Conservative messages result

/-- The content of the first system message is not an array, or the text of the array occurs in
the template, or the template is no text that can be written. -/
def SystemKept (mode : PromptMode) (expanded : Bytes) (messages : List Json) : Prop :=
  ∀ sysMsg, messages.find? isSystemMessage = some sysMsg →
    ∀ parts, sysMsg.get "content" = some (.array parts) →
      utf8Check (combined mode expanded []) = true → partsText parts <:+: combined mode expanded []

/-- The last user message has no string as content, or there is neither a prefix nor a suffix, or
what these make of it is no text that can be written. -/
def UserKept (tmpl : PromptTemplate) (messages : List Json) : Prop :=
  ∀ user, messages.reverse.find? isUserMessage = some user →
    ∀ orig, user.getString "content" = some orig → utf8Check (tmpl.userText orig) = true →
      affix tmpl.prefixUserPrompt = [] ∧ affix tmpl.suffixUserPrompt = []

section messages

theorem isUser_of_system {m : Json} (h : isSystemMessage m = true) : isUserMessage m = false := by
  have hrole : m.getString "role" = some (ascii "system") := of_decide_eq_true h
  rw [isUserMessage, hrole]
  exact decide_eq_false fun h => ascii_ne (by decide) (Option.some.inj h)

theorem isSystemMessage_setNew (m : Json) (v : Option Json) :
    isSystemMessage (setNew m "content" v) = isSystemMessage m := by
  cases v with
  | none => rfl
  | some v =>
    have hrole := Json.get_set_of_ne m v (show "role" ≠ "content" by decide)
    rw [setNew, isSystemMessage, isSystemMessage, Json.getString, Json.getString, hrole]

theorem isSystem_newSystem (expanded : Bytes) : isSystemMessage (newSystem expanded) = true := by
  rw [newSystem, isSystemMessage_setNew]
  decide +kernel

theorem isObject_of_system {m : Json} (h : isSystemMessage m = true) : m.isObject = true := by
  cases m with
  | object members => rfl
  | _ => cases h

/-- What is in front of or behind the template is in the text. -/
theorem infix_combined {mode : PromptMode} (hmode : mode ≠ .override) (expanded orig : Bytes) :
    orig <:+: combined mode expanded orig := by
  cases mode with
  | override => exact absurd rfl hmode
  | append => exact (List.prefix_append _ _).isInfix
  | prepend => exact ⟨expanded ++ ['\n', '\n'], [], by simp [combined]⟩

theorem nonzero_combined (mode : PromptMode) {expanded orig : Bytes}
    (hexpanded : Char.ofNat 0 ∉ expanded) (horig : Char.ofNat 0 ∉ orig) :
    Char.ofNat 0 ∉ combined mode expanded orig := by
  have hnewline : Char.ofNat 0 ≠ '\n' := by decide
  cases mode <;> simp [combined, hexpanded, horig, hnewline]

/-- The first system message of some messages, or none. -/
theorem split_system (messages : List Json) :
    (∀ m ∈ messages, isSystemMessage m = false) ∧ messages.find? isSystemMessage = none ∨ ∃ before sysMsg after,
      messages = before ++ sysMsg :: after ∧ (∀ m ∈ before, isSystemMessage m = false) ∧
        isSystemMessage sysMsg = true ∧ messages.find? isSystemMessage = some sysMsg := by
  cases hfind : messages.find? isSystemMessage with
  | none =>
    exact Or.inl ⟨fun m hm => by simpa using List.find?_eq_none.mp hfind m hm, rfl⟩
  | some sysMsg =>
    obtain ⟨hsystem, before, after, hsplit, hfirst⟩ := List.find?_eq_some_iff_append.mp hfind
    exact Or.inr ⟨before, sysMsg, after, hsplit, fun m hm => by simpa using hfirst m hm, hsystem, rfl⟩

/-- The text of a system message after the template, if it is text that can be written. -/
theorem contentText_mergeSystem {mode : PromptMode} {expanded : Bytes}
    (hexpanded : Char.ofNat 0 ∉ expanded) {m : Json} (hm : isSystemMessage m = true)
    (hw : wellFormed m = true) : contentText (mergeSystem mode expanded m) =
      if utf8Check (combined mode expanded ((m.getString "content").getD [])) = true then
        combined mode expanded ((m.getString "content").getD [])
      else contentText m := by
  have horig : Char.ofNat 0 ∉ (m.getString "content").getD [] := by
    cases hcontent : m.getString "content" with
    | none => exact List.not_mem_nil
    | some s => exact StreamCacheStore.nonzero_getString hw hcontent
  rw [mergeSystem, jsonString, cString_of_nonzero (nonzero_combined mode hexpanded horig)]
  split_ifs with hutf8
  · rw [setNew, contentText, Json.get_set_self (isObject_of_system hm)]
  · rfl

/-- The text is kept exactly if it is not that of an array, or occurs in the template. -/
theorem infix_mergeSystem_iff {mode : PromptMode} (hmode : mode ≠ .override) {expanded : Bytes}
    (hexpanded : Char.ofNat 0 ∉ expanded) {m : Json} (hm : isSystemMessage m = true)
    (hw : wellFormed m = true) : contentText m <:+: contentText (mergeSystem mode expanded m) ↔
      ∀ parts, m.get "content" = some (.array parts) →
        utf8Check (combined mode expanded []) = true →
          partsText parts <:+: combined mode expanded [] := by
  have hnew := @contentText_mergeSystem mode _ hexpanded _ hm hw
  cases hcontent : m.get "content" with
  | none =>
    have htext : contentText m = [] := by rw [contentText, hcontent]
    simp [htext]
  | some v =>
    cases v with
    | string s =>
      have horig : m.getString "content" = some s := getString_eq_some.mpr hcontent
      have htext : contentText m = s := by rw [contentText, hcontent]
      rw [horig, Option.getD_some, htext] at hnew
      simp only [Option.some.injEq, reduceCtorEq, false_implies, implies_true, iff_true]
      rw [hnew, htext]
      split
      · exact infix_combined hmode expanded s
      · exact List.infix_refl s
    | array parts =>
      have horig : m.getString "content" = none := by rw [Json.getString, hcontent]; rfl
      have htext : contentText m = partsText parts := by rw [contentText, hcontent]
      rw [horig, Option.getD_none, htext] at hnew
      simp only [Option.some.injEq, Json.array.injEq, forall_eq']
      rw [hnew, htext]
      split_ifs with hutf8
      · simp [hutf8]
      · simp [hutf8]
    | _ =>
      have htext : contentText m = [] := by rw [contentText, hcontent]
      simp [htext]

end messages

section users
variable {tmpl : PromptTemplate}

/-- The last user message keeps its content. -/
theorem affixUser_eq_iff {m : Json} (hm : m.isObject = true) (hw : wellFormed m = true) :
    affixUser tmpl m = m ↔
      ∀ orig, m.getString "content" = some orig → utf8Check (tmpl.userText orig) = true →
        affix tmpl.prefixUserPrompt = [] ∧ affix tmpl.suffixUserPrompt = [] := by
  unfold affixUser
  cases hcontent : m.getString "content" with
  | none => simp
  | some orig =>
    have hnonzero : Char.ofNat 0 ∉ tmpl.userText orig := by
      have horig := StreamCacheStore.nonzero_getString hw hcontent
      simp only [PromptTemplate.userText, List.mem_append, not_or]
      exact ⟨⟨nonzero_cString _, horig⟩, nonzero_cString _⟩
    simp only [Option.some.injEq, forall_eq']
    rw [jsonString, cString_of_nonzero hnonzero]
    split_ifs with hutf8
    · simp only [setNew, hutf8, true_implies]
      have hget := getString_eq_some.mp hcontent
      constructor
      · intro hset
        have hsame : (m.set "content" (.string (tmpl.userText orig))).get "content" =
            some (.string (tmpl.userText orig)) := Json.get_set_self hm
        rw [hset, hget, Option.some.injEq, Json.string.injEq] at hsame
        have hlength := congrArg List.length hsame
        simp only [PromptTemplate.userText, List.length_append] at hlength
        exact ⟨List.length_eq_zero_iff.mp (by omega), List.length_eq_zero_iff.mp (by omega)⟩
      · intro ⟨hbegin, hend⟩
        rw [PromptTemplate.userText, hbegin, hend, List.nil_append, List.append_nil]
        exact set_get_self hget
    · simp [setNew, hutf8]

/-- The last user message of some messages, or none. -/
theorem split_user (messages : List Json) :
    (∀ m ∈ messages, isUserMessage m = false) ∧ messages.reverse.find? isUserMessage = none ∨
      ∃ before user after, messages = before ++ user :: after ∧ isUserMessage user = true ∧
        (∀ m ∈ after, isUserMessage m = false) ∧
          messages.reverse.find? isUserMessage = some user := by
  cases hfind : messages.reverse.find? isUserMessage with
  | none =>
    refine Or.inl ⟨fun m hm => ?_, rfl⟩
    simpa using List.find?_eq_none.mp hfind m (List.mem_reverse.mpr hm)
  | some user =>
    obtain ⟨huser, after, before, hsplit, hlast⟩ := List.find?_eq_some_iff_append.mp hfind
    refine Or.inr ⟨before.reverse, user, after.reverse, ?_, huser, fun m hm => ?_, rfl⟩
    · rw [← List.reverse_reverse messages, hsplit]
      simp
    · simpa using hlast m (List.mem_reverse.mp hm)

theorem isObject_of_user {m : Json} (h : isUserMessage m = true) : m.isObject = true := by
  cases m with
  | object members => rfl
  | _ => cases h

/-- Two lists that differ at one place from a third are at every other place as it is. -/
theorem replaced_eq {α : Type*} {before before' after after' : List α} {s x u v : α}
    (hold : before ++ s :: after = before' ++ u :: after')
    (hnew : before ++ x :: after = before' ++ v :: after') (hne : s ≠ u) : v = u := by
  induction before generalizing before' with
  | nil =>
    cases before' with
    | nil => exact absurd (List.cons.inj hold).1 hne
    | cons b before' =>
      have hrest := (List.cons.inj hnew).2.symm.trans (List.cons.inj hold).2
      exact (List.cons.inj (List.append_cancel_left hrest)).1
  | cons a before ih =>
    cases before' with
    | nil => exact (List.cons.inj hnew).1.symm.trans (List.cons.inj hold).1
    | cons b before' => exact ih (List.cons.inj hold).2 (List.cons.inj hnew).2

theorem affixLastUser_of_not {messages : List Json}
    (h : ∀ m ∈ messages, isUserMessage m = false) : affixLastUser tmpl messages = messages := by
  have hreverse : ∀ m ∈ messages.reverse, isUserMessage m = false := fun m hm =>
    h m (List.mem_reverse.mp hm)
  rw [affixLastUser, replaceLast, replaceFirst_eq_none hreverse]
  split <;> rfl

/-- The last user message is written to, or left as it is. -/
theorem affixLastUser_append {before after : List Json} {user : Json}
    (huser : isUserMessage user = true) (hw : wellFormed user = true)
    (hlast : ∀ m ∈ after, isUserMessage m = false) :
    affixLastUser tmpl (before ++ user :: after) = before ++ affixUser tmpl user :: after := by
  rw [affixLastUser, replaceLast_append huser hlast]
  split_ifs with hnone
  · have hkeeps : affixUser tmpl user = user :=
      (affixUser_eq_iff (isObject_of_user huser) hw).mpr fun _ _ _ => by
        rw [hnone.1, hnone.2]
        exact ⟨rfl, rfl⟩
    rw [hkeeps]
  · rfl

theorem affixLastUser_eq_iff {messages : List Json} (hw : ∀ m ∈ messages, wellFormed m = true) :
    affixLastUser tmpl messages = messages ↔ UserKept tmpl messages := by
  rcases split_user messages with ⟨hnone, hfind⟩ | ⟨before, user, after, rfl, huser, hlast, hfind⟩
  · refine iff_of_true (affixLastUser_of_not hnone) fun user hfound => ?_
    rw [hfind] at hfound
    cases hfound
  · have hwuser : wellFormed user = true := hw user (by simp)
    rw [affixLastUser_append huser hwuser hlast, List.append_cancel_left_eq, List.cons.injEq,
      and_iff_left rfl, affixUser_eq_iff (isObject_of_user huser) hwuser, UserKept, hfind]
    simp only [Option.some.injEq, forall_eq']

/-- If only the message at one place has changed, and that is no user message, none has. -/
theorem affixLastUser_replaced {before after : List Json} {s x : Json}
    (hs : isUserMessage s = false) (hw : ∀ m ∈ before ++ s :: after, wellFormed m = true)
    (hx : affixLastUser tmpl (before ++ s :: after) = before ++ x :: after) :
    affixLastUser tmpl (before ++ s :: after) = before ++ s :: after := by
  rcases split_user (before ++ s :: after) with
    ⟨hnone, -⟩ | ⟨before', user, after', hsplit, huser, hlast, -⟩
  · exact affixLastUser_of_not hnone
  · have hne : s ≠ user := fun heq => by
      rw [heq, huser] at hs
      cases hs
    have hnew := @affixLastUser_append tmpl before' after' user huser
      (hw user (by rw [hsplit]; simp)) hlast
    rw [hsplit] at hx ⊢
    rw [hnew] at hx ⊢
    rw [replaced_eq hsplit hx.symm hne]

end users

section apply
variable {tmpl : PromptTemplate} {c : Caller}

theorem wellFormed_setNew {j : Json} (hw : wellFormed j = true) {key : String}
    (hkey : Nonzero (ascii key)) (s : Bytes) : wellFormed (setNew j key (jsonString s)) = true := by
  unfold jsonString
  split
  · exact wellFormed_set hkey hw (decide_eq_true (nonzero_cString _))
  · exact hw

theorem wellFormed_mergeSystem (mode : PromptMode) (expanded : Bytes) {m : Json}
    (hw : wellFormed m = true) : wellFormed (mergeSystem mode expanded m) = true :=
  wellFormed_setNew hw (nonzero_ascii _ rfl) _

theorem first_unique {α : Type*} {p : α → Bool} {before before' after after' : List α} {x x' : α}
    (h : before ++ x :: after = before' ++ x' :: after') (hbefore : ∀ y ∈ before, p y = false)
    (hbefore' : ∀ y ∈ before', p y = false) (hx : p x = true) (hx' : p x' = true) :
    before = before' ∧ x = x' ∧ after = after' := by
  induction before generalizing before' with
  | nil =>
    cases before' with
    | nil =>
      obtain ⟨rfl, rfl⟩ := List.cons.inj h
      exact ⟨rfl, rfl, rfl⟩
    | cons b before' =>
      have hb := hbefore' b List.mem_cons_self
      rw [← (List.cons.inj h).1, hx] at hb
      cases hb
  | cons a before ih =>
    have ha := hbefore a List.mem_cons_self
    cases before' with
    | nil =>
      rw [(List.cons.inj h).1, hx'] at ha
      cases ha
    | cons b before' =>
      obtain ⟨rfl, hrest⟩ := List.cons.inj h
      obtain ⟨rfl, rfl, rfl⟩ := ih hrest (fun y hy => hbefore y (List.mem_cons_of_mem _ hy))
        fun y hy => hbefore' y (List.mem_cons_of_mem _ hy)
      exact ⟨rfl, rfl, rfl⟩

theorem conservative_append_iff {before after result : List Json} {sysMsg : Json}
    (hfirst : ∀ m ∈ before, isSystemMessage m = false) (hsystem : isSystemMessage sysMsg = true) :
    Conservative (before ++ sysMsg :: after) result ↔
      ∃ sysMsg', result = before ++ sysMsg' :: after ∧ isSystemMessage sysMsg' = true ∧
        contentText sysMsg <:+: contentText sysMsg' := by
  constructor
  · intro h
    cases h with
    | merged hmessages hfirst' hsystem₂ hsystem' htext =>
      obtain ⟨rfl, rfl, rfl⟩ := first_unique hmessages hfirst hfirst' hsystem hsystem₂
      exact ⟨_, rfl, hsystem', htext⟩
    | added hnone _ =>
      have hnot := hnone sysMsg (by simp)
      rw [hsystem] at hnot
      cases hnot
  · intro ⟨sysMsg', hresult, hsystem', htext⟩
    subst hresult
    exact .merged rfl hfirst hsystem hsystem' htext

theorem conservative_none_iff {messages result : List Json}
    (hnone : ∀ m ∈ messages, isSystemMessage m = false) :
    Conservative messages result ↔ ∃ sysMsg, result = sysMsg :: messages ∧
      isSystemMessage sysMsg = true := by
  constructor
  · intro h
    cases h with
    | merged hmessages _ hsystem _ _ =>
      have hnot := hnone _ (by rw [hmessages]; exact List.mem_append_right _ List.mem_cons_self)
      rw [hsystem] at hnot
      cases hnot
    | added _ hsystem => exact ⟨_, rfl, hsystem⟩
  · intro ⟨sysMsg, hresult, hsystem⟩
    subst hresult
    exact .added hnone hsystem

/-- The last user message is that of the messages before the template. -/
theorem userKept_congr {messages messages' : List Json}
    (h : messages'.reverse.find? isUserMessage = messages.reverse.find? isUserMessage) :
    UserKept tmpl messages' ↔ UserKept tmpl messages := by
  rw [UserKept, UserKept, h]

theorem find_user_append (before after : List Json) {s : Json} (hs : isUserMessage s = false) :
    (before ++ s :: after).reverse.find? isUserMessage =
      (after.reverse.find? isUserMessage).or (before.reverse.find? isUserMessage) := by
  simp [hs]

theorem isSystem_mergeSystem (mode : PromptMode) (expanded : Bytes) (m : Json) :
    isSystemMessage (mergeSystem mode expanded m) = isSystemMessage m :=
  isSystemMessage_setNew _ _

theorem wellFormed_newSystem (expanded : Bytes) : wellFormed (newSystem expanded) = true :=
  wellFormed_setNew (wellFormed_setNew rfl (nonzero_ascii _ rfl) _) (nonzero_ascii _ rfl) _

/-- The messages around the system message are kept exactly if the last user message is. -/
theorem conservative_iff_userKept {messages before after : List Json} {s : Json}
    (hs : isSystemMessage s = true) (hw : ∀ m ∈ before ++ s :: after, wellFormed m = true)
    (huser : (before ++ s :: after).reverse.find? isUserMessage =
      messages.reverse.find? isUserMessage) {p : Json → Prop} :
    (∃ x, affixLastUser tmpl (before ++ s :: after) = before ++ x :: after ∧
      isSystemMessage x = true ∧ p x) ↔ p s ∧ UserKept tmpl messages := by
  rw [← userKept_congr huser, ← affixLastUser_eq_iff hw]
  constructor
  · intro ⟨x, hx, _, hp⟩
    have hself := affixLastUser_replaced (isUser_of_system hs) hw hx
    rw [hself, List.append_cancel_left_eq, List.cons.injEq] at hx
    exact ⟨hx.1 ▸ hp, hself⟩
  · intro ⟨hp, hself⟩
    exact ⟨s, hself, hs, hp⟩

/-- The messages of a request are kept exactly if the two conditions hold. -/
theorem conservative_applyMessages (hmode : tmpl.mode ≠ .override) {messages : List Json}
    (hw : ∀ m ∈ messages, wellFormed m = true) :
    Conservative messages (applyMessages tmpl c messages) ↔
      SystemKept tmpl.mode (tmpl.expanded c) messages ∧ UserKept tmpl messages := by
  have hexpanded : Char.ofNat 0 ∉ tmpl.expanded c := nonzero_cString _
  rw [applyMessages, systemMessages, SystemKept]
  rcases split_system messages with
    ⟨hnone, hfind⟩ | ⟨before, sysMsg, after, rfl, hfirst, hsystem, hfind⟩
  · have hnew := isSystem_newSystem (tmpl.expanded c)
    have huser : ([] ++ newSystem (tmpl.expanded c) :: messages).reverse.find? isUserMessage =
        messages.reverse.find? isUserMessage := by
      rw [find_user_append _ _ (isUser_of_system hnew)]
      simp
    have hwnew : ∀ m ∈ [] ++ newSystem (tmpl.expanded c) :: messages, wellFormed m = true :=
      List.forall_mem_cons.mpr ⟨wellFormed_newSystem _, hw⟩
    have hiff := @conservative_iff_userKept tmpl _ _ _ _ hnew hwnew huser fun _ => True
    rw [conservative_none_iff hnone, replaceFirst_eq_none hnone, hfind]
    simpa using hiff
  · have hmerged : isSystemMessage (mergeSystem tmpl.mode (tmpl.expanded c) sysMsg) = true := by
      rw [isSystem_mergeSystem, hsystem]
    have huser : (before ++ mergeSystem tmpl.mode (tmpl.expanded c) sysMsg :: after).reverse.find?
        isUserMessage = (before ++ sysMsg :: after).reverse.find? isUserMessage := by
      rw [find_user_append _ _ (isUser_of_system hmerged),
        find_user_append _ _ (isUser_of_system hsystem)]
    have hwsys : wellFormed sysMsg = true := hw sysMsg (by simp)
    have hwmerged : ∀ m ∈ before ++ mergeSystem tmpl.mode (tmpl.expanded c) sysMsg :: after,
        wellFormed m = true := by
      intro m hm
      rcases List.mem_append.mp hm with hm | hm
      · exact hw m (List.mem_append_left _ hm)
      · rcases List.mem_cons.mp hm with rfl | hm
        · exact wellFormed_mergeSystem _ _ hwsys
        · exact hw m (List.mem_append_right _ (List.mem_cons_of_mem _ hm))
    rw [conservative_append_iff hfirst hsystem, replaceFirst_append hsystem hfirst,
      Option.getD_some, conservative_iff_userKept hmerged hwmerged huser,
      infix_mergeSystem_iff hmode hexpanded hsystem hwsys, hfind]
    simp only [Option.some.injEq, forall_eq']

/-- The messages are those of the model of the whole request, in which every text can be
written. -/
theorem systemMessages_eq_templateMessages {mode : PromptMode} {expanded : Bytes}
    {messages : List Json} (hexpanded : utf8Check (cString expanded) = true)
    (hutf8 : ∀ m ∈ messages,
      utf8Check (cString (combined mode expanded ((m.getString "content").getD []))) = true) :
    systemMessages mode expanded messages = ChatBody.templateMessages mode expanded messages := by
  have hcontent : ∀ m, ChatBody.systemContent mode expanded m =
      combined mode expanded ((m.getString "content").getD []) := fun m => by
    cases mode <;> rfl
  have hwritten : ∀ {s}, utf8Check (cString s) = true → jsonString s = some (ChatBody.jsonString s) :=
    fun h => if_pos h
  rw [systemMessages, ChatBody.templateMessages]
  rcases split_system messages with ⟨hnone, -⟩ | ⟨before, sysMsg, after, rfl, hfirst, hsystem, -⟩
  · rw [replaceFirst_eq_none hnone, replaceFirst_eq_none hnone, newSystem, hwritten hexpanded,
      hwritten (by decide +kernel)]
    simp [setNew, Json.set, assign, ascii_ne]
  · rw [replaceFirst_append hsystem hfirst, replaceFirst_append hsystem hfirst, mergeSystem,
      hwritten (hutf8 sysMsg (by simp)), hcontent]
    rfl

/-- What is asked of a request is asked of its messages. -/
theorem keeps_iff_conservative {jbody : Json} {messages : List Json}
    (htemplate : cString tmpl.systemTemplate ≠ [])
    (hmessages : jbody.getArray "messages" = some messages) :
    Keeps tmpl c jbody ↔ Conservative messages (applyMessages tmpl c messages) := by
  have happly : promptTemplateApply tmpl c jbody =
      some (jbody.set "messages" (.array (applyMessages tmpl c messages))) := by
    rw [promptTemplateApply, if_neg htemplate, hmessages, Option.map_some]
  have hobject : jbody.isObject = true := by
    cases jbody with
    | object members => rfl
    | _ => cases hmessages
  constructor
  · intro h
    obtain ⟨messages', result, hsame, hresult, hkeeps⟩ := h _ happly
    obtain rfl := Option.some.inj (hmessages.symm.trans hsame)
    have hget := congrArg (Json.get · "messages") hresult
    simp only [Json.get_set_self hobject, Option.some.injEq, Json.array.injEq] at hget
    rwa [hget]
  · intro hkeeps edited hedited
    obtain rfl := Option.some.inj (happly.symm.trans hedited)
    exact ⟨messages, _, hmessages, rfl, hkeeps⟩

end apply

/-- A template keeps the text of the first system message and all other messages exactly if that
text is no array of parts, and nothing is written around the last user message. -/
theorem keeps_iff (tmpl : PromptTemplate) (hmode : tmpl.mode ≠ .override) (c : Caller)
    (jbody : Json) (hw : wellFormed jbody = true) :
    Keeps tmpl c jbody ↔ (cString tmpl.systemTemplate ≠ [] →
      ∀ messages, jbody.getArray "messages" = some messages →
        SystemKept tmpl.mode (tmpl.expanded c) messages ∧ UserKept tmpl messages) := by
  by_cases hempty : cString tmpl.systemTemplate = []
  · simp [Keeps, promptTemplateApply, hempty]
  cases hmessages : jbody.getArray "messages" with
  | none => simp [Keeps, promptTemplateApply, hmessages]
  | some messages =>
    have hitems : ∀ m ∈ messages, wellFormed m = true :=
      wellFormedItems_iff.mp (wellFormed_get (getArray_eq_some.mp hmessages) hw).1
    rw [keeps_iff_conservative hempty hmessages, conservative_applyMessages hmode hitems]
    simp [hempty]

def assistantTemplate : PromptTemplate where
  systemTemplate := ascii "Answer briefly."
  mode := .prepend
  prefixUserPrompt := none
  suffixUserPrompt := none

def someCaller : Caller where
  clock := ⟨ascii "2026-10-01", ascii "12:00:00", 1790856000⟩
  model := ascii "gpt-4o"
  keyName := ascii "k"

def message (role : String) (content : Json) : Json :=
  .object [(ascii "role", .string (ascii role)), (ascii "content", content)]

def greeting (system : Json) : List Json :=
  [message "system" system, message "user" (.string (ascii "Hello"))]

def chat (system : Json) : Json := .object [(ascii "messages", .array (greeting system))]

theorem keeps_iff_string :
    Keeps assistantTemplate someCaller (chat (.string (ascii "Be polite."))) ↔
      (cString assistantTemplate.systemTemplate ≠ [] → ∀ messages,
        (chat (.string (ascii "Be polite."))).getArray "messages" = some messages →
          SystemKept assistantTemplate.mode (assistantTemplate.expanded someCaller) messages ∧
            UserKept assistantTemplate messages) :=
  keeps_iff assistantTemplate (by decide) someCaller _ (by decide +kernel)

/-- A system message with one part of text, of which nothing is left. -/
def politeParts : List Json :=
  [.object [(ascii "type", .string (ascii "text")), (ascii "text", .string (ascii "Be polite."))]]

theorem not_keeps_parts : ¬Keeps assistantTemplate someCaller (chat (.array politeParts)) := by
  have hmessages : (chat (.array politeParts)).getArray "messages" =
      some (greeting (.array politeParts)) := by
    simp [chat, Json.getArray, Json.get, lookup, Json.arrayItems]
  have hfind : (greeting (.array politeParts)).find? isSystemMessage =
      some (message "system" (.array politeParts)) :=
    List.find?_cons_of_pos (by decide +kernel)
  have hcontent : (message "system" (.array politeParts)).get "content" = some (.array politeParts) := by
    simp [message, Json.get, lookup, ascii_ne]
  rw [keeps_iff_conservative (by decide +kernel) hmessages,
    conservative_applyMessages (by decide) (by decide +kernel)]
  intro hkeeps
  have hinfix := hkeeps.1 _ hfind _ hcontent (by decide +kernel)
  revert hinfix
  decide +kernel

end Aigate.SystemTemplates
