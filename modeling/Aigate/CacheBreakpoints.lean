import Aigate.CacheOptimizer
import Aigate.GuardrailsEdits

/-!
# How many blocks are marked

An upstream takes four marks in a request. The optimiser counts the marks that it sets, not
those that the request came with, so that a block with a mark is free and any other costs one.
-/
namespace Aigate.CacheBreakpoints
open Text JsonTree JsonText JsonEdit GuardrailsEdits CacheOptimizer JailbreakDetector
open ChatBody (isSystemMessage)

mutual

/-- The members of a tree that are marks. -/
def markers : Json → ℕ
  | .array items => markersItems items
  | .object members => markersMembers members
  | _ => 0

def markersItems : List Json → ℕ
  | [] => 0
  | x :: rest => markers x + markersItems rest

def markersMembers : List (Bytes × Json) → ℕ
  | [] => 0
  | (k, v) :: rest =>
    (if k = ascii "cache_control" then 1 else markers v) + markersMembers rest

end

def keyMarkers (root : Json) (key : String) : ℕ := ((root.get key).map markers).getD 0

/-- The marks in the tools, the system prompt and the messages of a request. -/
def requestMarkers (root : Json) : ℕ :=
  keyMarkers root "tools" + keyMarkers root "system" + keyMarkers root "messages"

def toolsOf (root : Json) : List Json := (root.getArray "tools").getD []

def unmark (j : Json) : Json := j.del "cache_control"

/-- The texts of a content, in either shape. -/
def blockTexts : Json → List (Option Bytes)
  | .string text => [some text]
  | .array blocks => blocks.map fun block => block.getString "text"
  | _ => []

def systemTexts (root : Json) : List (Option Bytes) := ((root.get "system").map blockTexts).getD []

def messageText (msg : Json) : List (Option Bytes) := ((msg.get "content").map blockTexts).getD []

def messageTexts (root : Json) : List (List (Option Bytes)) :=
  ((root.getArray "messages").getD []).map messageText

/-- What is asked of an optimised request. -/
structure Optimized (before after : Json) : Prop where
  markers_le : requestMarkers after ≤ anthropicMaxBreakpoints
  tools_perm : ((toolsOf after).map unmark).Perm ((toolsOf before).map unmark)
  tools_sorted : ((toolsOf after).map toolName).Pairwise (· ≤ ·)
  system_texts : systemTexts after = systemTexts before
  message_texts : messageTexts after = messageTexts before

/-- The marks that marking the last of some blocks adds, if it can be marked. -/
def blocksGain (blocks : List Json) : Option ℕ :=
  blocks.getLast?.bind fun last =>
    if last.isObject then some (if (last.get "cache_control").isSome then 0 else 1) else none

def toolsGain (minTokens : UInt32) (tools : List Json) : Option ℕ :=
  if minTokens ≤ estimateTokensLen (dumps (.array tools)).length then blocksGain tools else none

def contentGain (minTokens : UInt32) : Json → Option ℕ
  | .string text => if minTokens ≤ estimateTokensLen text.length then some 1 else none
  | .array blocks => blocksGain blocks
  | _ => none

def messageGain (minTokens : UInt32) (role : String) (msg : Json) : Option ℕ :=
  if msg.getString "role" = some (ascii role) then (msg.get "content").bind (contentGain minTokens)
  else none

def inner (messages : List Json) : List Json := messages.tail.dropLast

/-- The marks that are set on blocks without one: the last tool, the last system block, that of
the first system message that can be marked, and that of the last such turn of the assistant
before the last message. -/
def fresh (minTokens : UInt32) (root : Json) : ℕ :=
  ((root.getArray "tools").bind (toolsGain minTokens)).getD 0 +
    ((root.get "system").bind (contentGain minTokens)).getD 0 +
    ((root.getArray "messages").bind fun messages =>
      messages.findSome? (messageGain minTokens "system")).getD 0 +
    ((root.getArray "messages").bind fun messages =>
      (inner messages).reverse.findSome? (messageGain minTokens "assistant")).getD 0

section markers

theorem markersItems_append (xs ys : List Json) :
    markersItems (xs ++ ys) = markersItems xs + markersItems ys := by
  induction xs with
  | nil => simp [markersItems]
  | cons x xs ih => simp [markersItems, ih, Nat.add_assoc]

theorem markersItems_perm {xs ys : List Json} (h : xs.Perm ys) :
    markersItems xs = markersItems ys := by
  induction h with
  | nil => rfl
  | cons x _ ih => simp [markersItems, ih]
  | swap x y xs =>
    simp only [markersItems]
    omega
  | trans _ _ ih ih' => exact ih.trans ih'

theorem markersMembers_assign {members : List (Bytes × Json)} {key : Bytes} {old : Json}
    (hkey : key ≠ ascii "cache_control") (hold : lookup members key = some old) (new : Json) :
    markersMembers (assign members key new) + markers old = markersMembers members + markers new := by
  induction members with
  | nil => cases hold
  | cons m rest ih =>
    obtain ⟨k, v⟩ := m
    by_cases hk : k = key
    · simp only [lookup, hk, if_true, Option.some.injEq] at hold
      subst hold
      simp only [assign, hk, if_true, markersMembers, hkey, if_false]
      omega
    · simp only [lookup, hk, if_false] at hold
      have hrest := ih hold
      simp only [assign, hk, if_false, markersMembers]
      omega

/-- A member that is no mark is replaced. -/
theorem markers_set {j old : Json} {key : String} (hkey : key ≠ "cache_control")
    (hold : j.get key = some old) (new : Json) :
    markers (j.set key new) + markers old = markers j + markers new := by
  cases j with
  | object members => exact markersMembers_assign (ascii_ne hkey) hold new
  | _ => cases hold

theorem markersMembers_mark (members : List (Bytes × Json)) (mark : Json) :
    markersMembers (assign members (ascii "cache_control") mark) =
      markersMembers members +
        if (lookup members (ascii "cache_control")).isSome then 0 else 1 := by
  induction members with
  | nil => simp [assign, markersMembers, lookup]
  | cons m rest ih =>
    obtain ⟨k, v⟩ := m
    by_cases hk : k = ascii "cache_control"
    · simp [assign, markersMembers, lookup, hk]
    · simp [assign, markersMembers, lookup, hk, ih, Nat.add_assoc]

theorem markers_mark {j : Json} (hj : j.isObject = true) (mark : Json) :
    markers (j.set "cache_control" mark) =
      markers j + if (j.get "cache_control").isSome then 0 else 1 := by
  cases j with
  | object members => exact markersMembers_mark members mark
  | _ => cases hj

theorem erase_assign (members : List (Bytes × Json)) (key : Bytes) (v : Json) :
    erase (assign members key v) key = erase members key := by
  induction members with
  | nil => simp [assign, erase]
  | cons m rest ih =>
    by_cases hk : m.1 = key <;> simp [assign, erase, hk, ih]

theorem unmark_mark (j mark : Json) : unmark (j.set "cache_control" mark) = unmark j := by
  cases j with
  | object members => exact congrArg Json.object (erase_assign members _ mark)
  | _ => rfl

theorem getString_mark (j mark : Json) {key : String} (hkey : key ≠ "cache_control") :
    (j.set "cache_control" mark).getString key = j.getString key := by
  rw [Json.getString, Json.getString, Json.get_set_of_ne _ _ hkey]

theorem toolName_mark (j mark : Json) : toolName (j.set "cache_control" mark) = toolName j := by
  rw [toolName, toolName, Json.get_set_of_ne _ _ (by decide), getString_mark _ _ (by decide)]

end markers

section marks
variable {minTokens : UInt32}

/-- The last of some blocks is marked, if it can be. -/
theorem markBlocks_cases (blocks : List Json) :
    (markBlocks blocks = none ∧ blocksGain blocks = none) ∨
      ∃ before last g, blocks = before ++ [last] ∧ last.isObject = true ∧
        markBlocks blocks = some (before ++ [last.set "cache_control" ephemeral]) ∧
        blocksGain blocks = some g ∧ g = if (last.get "cache_control").isSome then 0 else 1 := by
  rcases List.eq_nil_or_concat' blocks with rfl | ⟨before, last, rfl⟩
  · exact Or.inl ⟨rfl, rfl⟩
  · cases hobject : last.isObject with
    | false => exact Or.inl (by simp [markBlocks, blocksGain, hobject])
    | true =>
      refine Or.inr ⟨before, last, _, rfl, hobject, ?_, ?_, rfl⟩
      · simp [markBlocks, hobject]
      · simp [blocksGain, hobject]

/-- What marking some blocks does to them. -/
structure BlocksMarked (blocks marked : List Json) (g : ℕ) : Prop where
  markers : markersItems marked = markersItems blocks + g
  unmarked : marked.map unmark = blocks.map unmark
  names : marked.map toolName = blocks.map toolName
  texts : blockTexts (.array marked) = blockTexts (.array blocks)

theorem blocksMarked_last (before : List Json) {last : Json} (h : last.isObject = true) :
    BlocksMarked (before ++ [last]) (before ++ [last.set "cache_control" ephemeral])
      (if (last.get "cache_control").isSome then 0 else 1) where
  markers := by
    simp only [markersItems_append, markersItems, markers_mark h]
    omega
  unmarked := by simp [unmark_mark]
  names := by simp [toolName_mark]
  texts := by simp [blockTexts, getString_mark]

/-- A step that may mark something, and what it adds. -/
def Steps {α : Type*} (result : Option α) (gain : Option ℕ) (marks : α → ℕ → Prop) : Prop :=
  (result = none ∧ gain = none) ∨ ∃ new g, result = some new ∧ gain = some g ∧ marks new g

theorem steps_markBlocks (blocks : List Json) :
    Steps (markBlocks blocks) (blocksGain blocks) (BlocksMarked blocks) := by
  rcases markBlocks_cases blocks with hnone | ⟨before, last, g, rfl, hobject, hmark, hgain, rfl⟩
  · exact Or.inl hnone
  · exact Or.inr ⟨_, _, hmark, hgain, blocksMarked_last before hobject⟩

theorem steps_markContent (content : Json) :
    Steps (markContent minTokens content) (contentGain minTokens content) fun new g =>
      markers new = markers content + g ∧ blockTexts new = blockTexts content := by
  cases content with
  | string text =>
    rw [markContent, contentGain]
    split_ifs with hlong
    · refine Or.inr ⟨_, _, rfl, rfl, ?_, ?_⟩
      · simp [markers, markersItems, markersMembers, markedText, ascii_ne]
      · simp [blockTexts, markedText, Json.getString, Json.get, lookup, ascii_ne, Json.stringValue]
    · exact Or.inl ⟨rfl, rfl⟩
  | array blocks =>
    rcases steps_markBlocks blocks with ⟨hmark, hgain⟩ | ⟨marked, g, hmark, hgain, hmarked⟩
    · exact Or.inl ⟨by rw [markContent, hmark]; rfl, hgain⟩
    · exact Or.inr ⟨.array marked, g, by rw [markContent, hmark]; rfl, hgain, hmarked.markers,
        hmarked.texts⟩
  | _ => exact Or.inl ⟨rfl, rfl⟩

/-- What marking a message does to it. -/
structure MessageMarked (minTokens : UInt32) (role : String) (msg new : Json) (g : ℕ) : Prop where
  markers : markers new = CacheBreakpoints.markers msg + g
  text : messageText new = messageText msg
  others : ∀ role', role' ≠ role → messageGain minTokens role' new = messageGain minTokens role' msg

theorem steps_markMessage (role : String) (msg : Json) :
    Steps (markMessage minTokens role msg) (messageGain minTokens role msg)
      (MessageMarked minTokens role msg) := by
  unfold markMessage messageGain
  split_ifs with hrole
  · cases hcontent : msg.get "content" with
    | none => exact Or.inl ⟨rfl, rfl⟩
    | some content =>
      have hobject : msg.isObject = true := by
        cases msg with
        | object members => rfl
        | _ => cases hcontent
      rcases @steps_markContent minTokens content with
        ⟨hmark, hgain⟩ | ⟨new, g, hmark, hgain, hmarkers, htexts⟩
      · exact Or.inl ⟨by simp [hmark], by simp [hgain]⟩
      · refine Or.inr ⟨msg.set "content" new, g, by simp [hmark], by simp [hgain], ?_, ?_, ?_⟩
        · have hset := markers_set (by decide) hcontent new
          omega
        · simp [messageText, Json.get_set_self hobject, hcontent, htexts]
        · intro role' hne
          have hrole' : (msg.set "content" new).getString "role" = msg.getString "role" := by
            rw [Json.getString, Json.getString, Json.get_set_of_ne _ _ (by decide)]
          rw [messageGain, messageGain, hrole', hrole]
          simp [ascii_ne hne.symm]
  · exact Or.inl ⟨rfl, rfl⟩

/-- What marking one of some messages does to them. -/
structure OneMarked (minTokens : UInt32) (role : String) (messages new : List Json) (g : ℕ) :
    Prop where
  markers : markersItems new = markersItems messages + g
  texts : new.map messageText = messages.map messageText
  others : ∀ role', role' ≠ role →
    new.map (messageGain minTokens role') = messages.map (messageGain minTokens role')

theorem oneMarked_append {role : String} {msg new : Json} {g : ℕ}
    (h : MessageMarked minTokens role msg new g) (before after : List Json) :
    OneMarked minTokens role (before ++ msg :: after) (before ++ new :: after) g where
  markers := by
    simp only [markersItems_append, markersItems, h.markers]
    omega
  texts := by simp [h.text]
  others := fun role' hne => by simp [h.others role' hne]

/-- The first message that can be marked is. -/
theorem steps_updateFirst (role : String) (messages : List Json) :
    Steps (updateFirst (markMessage minTokens role) messages)
      (messages.findSome? (messageGain minTokens role)) (OneMarked minTokens role messages) := by
  induction messages with
  | nil => exact Or.inl ⟨rfl, rfl⟩
  | cons msg rest ih =>
    rcases @steps_markMessage minTokens role msg with
      ⟨hmark, hgain⟩ | ⟨new, g, hmark, hgain, hmarked⟩
    · rcases ih with ⟨hrest, hnone⟩ | ⟨new, g, hrest, hsome, hmarked⟩
      · refine Or.inl ⟨?_, by simp [hgain, hnone]⟩
        rw [updateFirst] at hrest ⊢
        simp [updateAt, hmark, hrest]
      · refine Or.inr ⟨msg :: new, g, ?_, by simp [hgain, hsome], ?_, ?_, ?_⟩
        · rw [updateFirst] at hrest ⊢
          simp [updateAt, hmark, hrest]
        · simp only [markersItems, hmarked.markers]
          omega
        · simp [hmarked.texts]
        · intro role' hne
          simp [hmarked.others role' hne]
    · refine Or.inr ⟨new :: rest, g, by simp [updateFirst, updateAt, hmark], by simp [hgain], ?_⟩
      exact oneMarked_append hmarked [] rest

theorem steps_editInner (role : String) (messages : List Json) :
    Steps (editInner (updateFirst (markMessage minTokens role)) messages)
      ((inner messages).reverse.findSome? (messageGain minTokens role))
      (OneMarked minTokens role messages) := by
  cases messages with
  | nil => exact Or.inl ⟨rfl, rfl⟩
  | cons first rest =>
    rcases List.eq_nil_or_concat' rest with rfl | ⟨middle, last, rfl⟩
    · exact Or.inl ⟨rfl, rfl⟩
    · have hinner : inner (first :: (middle ++ [last])) = middle := by simp [inner]
      rw [hinner]
      rcases @steps_updateFirst minTokens role middle.reverse with
        ⟨hmark, hgain⟩ | ⟨new, g, hmark, hgain, hmarked⟩
      · exact Or.inl ⟨by simp [editInner, hmark], hgain⟩
      · refine Or.inr ⟨first :: (new.reverse ++ [last]), g, by simp [editInner, hmark], hgain, ?_,
          ?_, ?_⟩
        · have hmarkers := hmarked.markers
          rw [markersItems_perm (List.reverse_perm middle)] at hmarkers
          simp only [markersItems, markersItems_append, markersItems_perm (List.reverse_perm new),
            hmarkers]
          omega
        · have htexts := congrArg List.reverse hmarked.texts
          rw [List.map_reverse, List.reverse_reverse, ← List.map_reverse] at htexts
          simp only [List.map_cons, List.map_append, htexts]
        · intro role' hne
          have hothers := congrArg List.reverse (hmarked.others role' hne)
          rw [List.map_reverse, List.reverse_reverse, ← List.map_reverse] at hothers
          simp only [List.map_cons, List.map_append, hothers]

end marks

section passes
variable {minTokens : UInt32}

/-- The request after a pass that may leave it as it is. -/
def orSelf (pass : Json → Option Json) (root : Json) : Json := (pass root).getD root

/-- A pass that edits one member. -/
def EditsKey (key : String) (pass : Json → Option Json) : Prop :=
  ∀ root root', pass root = some root' → ∃ v, root' = root.set key v

theorem EditsKey.get_of_ne {key key' : String} {pass : Json → Option Json} (h : EditsKey key pass)
    (hne : key' ≠ key) (root : Json) : (orSelf pass root).get key' = root.get key' := by
  unfold orSelf
  cases hpass : pass root with
  | none => rfl
  | some root' =>
    obtain ⟨v, rfl⟩ := h root root' hpass
    exact Json.get_set_of_ne root v hne

theorem editsKey_injectTools : EditsKey "tools" (injectTools minTokens) := by
  intro root root' h
  obtain ⟨tools, -, hmark⟩ := Option.bind_eq_some_iff.mp h
  split_ifs at hmark
  obtain ⟨marked, -, rfl⟩ := Option.map_eq_some_iff.mp hmark
  exact ⟨_, rfl⟩

theorem editsKey_injectSystem : EditsKey "system" (injectSystem minTokens) := by
  intro root root' h
  obtain ⟨content, -, rfl⟩ := Option.map_eq_some_iff.mp h
  exact ⟨_, rfl⟩

theorem editsKey_editMessages (edit : List Json → Option (List Json)) :
    EditsKey "messages" (editMessages edit) := by
  intro root root' h
  obtain ⟨messages, -, rfl⟩ := Option.map_eq_some_iff.mp h
  exact ⟨_, rfl⟩

theorem isObject_of_get {root v : Json} {key : String} (h : root.get key = some v) :
    root.isObject = true := by
  cases root with
  | object members => rfl
  | _ => cases h

/-- The last tool is marked. -/
theorem orSelf_injectTools (root : Json) :
    keyMarkers (orSelf (injectTools minTokens) root) "tools" =
        keyMarkers root "tools" + ((root.getArray "tools").bind (toolsGain minTokens)).getD 0 ∧
      (toolsOf (orSelf (injectTools minTokens) root)).map unmark = (toolsOf root).map unmark ∧
      (toolsOf (orSelf (injectTools minTokens) root)).map toolName =
        (toolsOf root).map toolName := by
  cases htools : root.getArray "tools" with
  | none => simp [orSelf, injectTools, htools]
  | some tools =>
    have hget := getArray_eq_some.mp htools
    have hobject := isObject_of_get hget
    by_cases hlong : minTokens ≤ estimateTokensLen (dumps (.array tools)).length
    · rcases steps_markBlocks tools with ⟨hmark, hgain⟩ | ⟨marked, g, hmark, hgain, hmarked⟩
      · simp [orSelf, injectTools, htools, hlong, hmark, toolsGain, hgain]
      · have hnew : orSelf (injectTools minTokens) root = root.set "tools" (.array marked) := by
          simp [orSelf, injectTools, htools, hlong, hmark]
        have harray : (root.set "tools" (.array marked)).getArray "tools" = some marked :=
          getArray_eq_some.mpr (Json.get_set_self hobject)
        rw [hnew]
        refine ⟨?_, ?_, ?_⟩
        · simp [keyMarkers, Json.get_set_self hobject, hget, markers, hmarked.markers, toolsGain,
            hlong, hgain]
        · simp [toolsOf, harray, htools, hmarked.unmarked]
        · simp [toolsOf, harray, htools, hmarked.names]
    · simp [orSelf, injectTools, htools, hlong, toolsGain]

/-- The last block of the system prompt is marked. -/
theorem orSelf_injectSystem (root : Json) :
    keyMarkers (orSelf (injectSystem minTokens) root) "system" =
        keyMarkers root "system" + ((root.get "system").bind (contentGain minTokens)).getD 0 ∧
      systemTexts (orSelf (injectSystem minTokens) root) = systemTexts root := by
  cases hget : root.get "system" with
  | none => simp [orSelf, injectSystem, hget]
  | some content =>
    have hobject := isObject_of_get hget
    rcases @steps_markContent minTokens content with
      ⟨hmark, hgain⟩ | ⟨new, g, hmark, hgain, hmarkers, htexts⟩
    · simp [orSelf, injectSystem, hget, hmark, hgain]
    · have hnew : orSelf (injectSystem minTokens) root = root.set "system" new := by
        simp [orSelf, injectSystem, hget, hmark]
      rw [hnew]
      constructor
      · simp [keyMarkers, Json.get_set_self hobject, hget, hmarkers, hgain]
      · simp [systemTexts, Json.get_set_self hobject, hget, htexts]

/-- One of the messages is marked. -/
theorem orSelf_editMessages {edit : List Json → Option (List Json)} (gain : List Json → Option ℕ)
    {role : String}
    (h : ∀ messages, Steps (edit messages) (gain messages) (OneMarked minTokens role messages))
    (root : Json) :
    keyMarkers (orSelf (editMessages edit) root) "messages" =
        keyMarkers root "messages" + ((root.getArray "messages").bind gain).getD 0 ∧
      messageTexts (orSelf (editMessages edit) root) = messageTexts root ∧
      ∀ role', role' ≠ role →
        ((orSelf (editMessages edit) root).getArray "messages").map
            (List.map (messageGain minTokens role')) =
          (root.getArray "messages").map (List.map (messageGain minTokens role')) := by
  cases hmessages : root.getArray "messages" with
  | none => simp [orSelf, editMessages, hmessages]
  | some messages =>
    have hget := getArray_eq_some.mp hmessages
    have hobject := isObject_of_get hget
    rcases h messages with ⟨hedit, hgain⟩ | ⟨new, g, hedit, hgain, hmarked⟩
    · simp [orSelf, editMessages, hmessages, hedit, hgain]
    · have hnew : orSelf (editMessages edit) root = root.set "messages" (.array new) := by
        simp [orSelf, editMessages, hmessages, hedit]
      have harray : (root.set "messages" (.array new)).getArray "messages" = some new :=
        getArray_eq_some.mpr (Json.get_set_self hobject)
      rw [hnew]
      refine ⟨?_, ?_, fun role' hne => ?_⟩
      · simp [keyMarkers, Json.get_set_self hobject, hget, markers, hmarked.markers, hgain]
      · simp [messageTexts, harray, hmessages, hmarked.texts]
      · simp [harray, hmarked.others role' hne]

theorem markPass_of_lt (pass : Json → Option Json) {s : Json × ℕ}
    (h : s.2 < anthropicMaxBreakpoints) :
    (markPass pass s).1 = orSelf pass s.1 ∧ (markPass pass s).2 ≤ s.2 + 1 := by
  rw [markPass, if_pos h, orSelf]
  cases pass s.1 with
  | none => exact ⟨rfl, Nat.le_succ _⟩
  | some root => exact ⟨rfl, le_rfl⟩

/-- No pass is left out: there are four, and each marks one block. -/
theorem injectAnthropicBreakpoints_eq (root : Json) :
    (injectAnthropicBreakpoints root minTokens).1 =
      orSelf (injectAssistantTurn minTokens) (orSelf (injectSystemMessage minTokens)
        (orSelf (injectSystem minTokens) (orSelf (injectTools minTokens) root))) := by
  have hmax : anthropicMaxBreakpoints = 4 := rfl
  obtain ⟨htools, hone⟩ := markPass_of_lt (injectTools minTokens) (s := (root, 0))
    (show 0 < anthropicMaxBreakpoints by decide)
  obtain ⟨hsystem, htwo⟩ := markPass_of_lt (injectSystem minTokens)
    (s := markPass (injectTools minTokens) (root, 0)) (by omega)
  obtain ⟨hmessage, hthree⟩ := markPass_of_lt (injectSystemMessage minTokens)
    (s := markPass (injectSystem minTokens) (markPass (injectTools minTokens) (root, 0))) (by omega)
  rw [injectAnthropicBreakpoints, (markPass_of_lt _ (by omega)).1, hmessage, hsystem, htools]

theorem findSome_inner_congr {α : Type*} {g : Json → Option α} {xs ys : List Json}
    (h : xs.map g = ys.map g) :
    (inner xs).reverse.findSome? g = (inner ys).reverse.findSome? g := by
  have hmap : ∀ zs : List Json, (inner zs).reverse.findSome? g =
      (zs.map g).tail.dropLast.reverse.findSome? id := fun zs => by
    rw [← List.map_tail, ← List.map_dropLast, ← List.map_reverse, List.findSome?_map]
    rfl
  rw [hmap, hmap, h]

/-- What the marks change in a request, and what they leave. -/
structure Injected (minTokens : UInt32) (root root' : Json) : Prop where
  markers : requestMarkers root' = requestMarkers root + fresh minTokens root
  unmarked : (toolsOf root').map unmark = (toolsOf root).map unmark
  names : (toolsOf root').map toolName = (toolsOf root).map toolName
  system_texts : systemTexts root' = systemTexts root
  message_texts : messageTexts root' = messageTexts root

theorem injected (root : Json) :
    Injected minTokens root (injectAnthropicBreakpoints root minTokens).1 := by
  rw [injectAnthropicBreakpoints_eq]
  set r₁ := orSelf (injectTools minTokens) root with hr₁
  set r₂ := orSelf (injectSystem minTokens) r₁ with hr₂
  set r₃ := orSelf (injectSystemMessage minTokens) r₂ with hr₃
  set r₄ := orSelf (injectAssistantTurn minTokens) r₃ with hr₄
  have hget₁ : ∀ {key}, key ≠ "tools" → r₁.get key = root.get key := fun hne =>
    editsKey_injectTools.get_of_ne hne root
  have hget₂ : ∀ {key}, key ≠ "system" → r₂.get key = r₁.get key := fun hne =>
    editsKey_injectSystem.get_of_ne hne r₁
  have hget₃ : ∀ {key}, key ≠ "messages" → r₃.get key = r₂.get key := fun hne =>
    (editsKey_editMessages _).get_of_ne hne r₂
  have hget₄ : ∀ {key}, key ≠ "messages" → r₄.get key = r₃.get key := fun hne =>
    (editsKey_editMessages _).get_of_ne hne r₃
  have htools : r₄.get "tools" = r₁.get "tools" :=
    (hget₄ (by decide)).trans ((hget₃ (by decide)).trans (hget₂ (by decide)))
  have hsystem : r₄.get "system" = r₂.get "system" := (hget₄ (by decide)).trans (hget₃ (by decide))
  have hmessages : r₂.get "messages" = root.get "messages" :=
    (hget₂ (by decide)).trans (hget₁ (by decide))
  obtain ⟨htoolMarkers, hunmarked, hnames⟩ := @orSelf_injectTools minTokens root
  obtain ⟨hsystemMarkers, hsystemTexts⟩ := @orSelf_injectSystem minTokens r₁
  obtain ⟨hmessageMarkers, hmessageTexts, hothers⟩ :=
    orSelf_editMessages (fun messages => messages.findSome? (messageGain minTokens "system"))
      (steps_updateFirst "system") r₂
  obtain ⟨hturnMarkers, hturnTexts, -⟩ :=
    orSelf_editMessages _ (@steps_editInner minTokens "assistant") r₃
  have harray : r₂.getArray "messages" = root.getArray "messages" := by
    rw [Json.getArray, Json.getArray, hmessages]
  have hturn : (r₃.getArray "messages").bind (fun messages =>
        (inner messages).reverse.findSome? (messageGain minTokens "assistant")) =
      (root.getArray "messages").bind fun messages =>
        (inner messages).reverse.findSome? (messageGain minTokens "assistant") := by
    have hmap := hothers "assistant" (by decide)
    change (r₃.getArray "messages").map _ = _ at hmap
    rw [harray] at hmap
    cases h₃ : r₃.getArray "messages" with
    | none =>
      cases h₀ : root.getArray "messages" with
      | none => rfl
      | some messages => simp [h₃, h₀] at hmap
    | some messages' =>
      cases h₀ : root.getArray "messages" with
      | none => simp [h₃, h₀] at hmap
      | some messages =>
        simp only [h₃, h₀, Option.map_some, Option.some.injEq] at hmap
        exact findSome_inner_congr hmap
  have hkey : ∀ {a b : Json} {key : String}, a.get key = b.get key →
      keyMarkers a key = keyMarkers b key := fun h => by rw [keyMarkers, keyMarkers, h]
  have htoolsOf : toolsOf r₄ = toolsOf r₁ := by
    rw [toolsOf, toolsOf, Json.getArray, Json.getArray, htools]
  refine ⟨?_, ?_, ?_, ?_, ?_⟩
  · change keyMarkers r₁ "tools" = _ at htoolMarkers
    change keyMarkers r₂ "system" = _ at hsystemMarkers
    change keyMarkers r₃ "messages" = _ at hmessageMarkers
    change keyMarkers r₄ "messages" = _ at hturnMarkers
    rw [hturn] at hturnMarkers
    rw [harray, hkey hmessages] at hmessageMarkers
    rw [hkey (hget₁ (by decide)), hget₁ (by decide)] at hsystemMarkers
    rw [requestMarkers, requestMarkers, fresh, hkey htools, hkey hsystem]
    omega
  · rw [htoolsOf]
    exact hunmarked
  · rw [htoolsOf]
    exact hnames
  · have hsame : systemTexts r₁ = systemTexts root := by
      rw [systemTexts, systemTexts, hget₁ (by decide)]
    rw [systemTexts, hsystem]
    exact hsystemTexts.trans hsame
  · have hsame : messageTexts r₂ = messageTexts root := by
      rw [messageTexts, messageTexts, harray]
    exact hturnTexts.trans (hmessageTexts.trans hsame)

end passes

section sort
variable {qsort : Qsort}

theorem sortedTools_cases (tools : List Json) :
    (sortedTools qsort tools = none ∧ (tools.map toolName).Pairwise (· ≤ ·)) ∨
      ∃ sorted, sortedTools qsort tools = some sorted ∧ sorted.Perm tools ∧
        (sorted.map toolName).Pairwise (· ≤ ·) := by
  unfold sortedTools
  split_ifs with hsorted
  · refine Or.inl ⟨rfl, ?_⟩
    rcases hsorted with hshort | hchain
    · rcases tools with _ | ⟨tool, _ | ⟨_, _⟩⟩
      · exact List.Pairwise.nil
      · exact List.pairwise_singleton _ _
      · simp at hshort
    · exact List.isChain_iff_pairwise.mp hchain
  · set entries := tools.map fun item => (toolName item, item) with hentries
    have hperm := qsort.perm entries
    have hnames : ∀ e ∈ qsort.sort entries, e.1 = toolName e.2 := by
      intro e he
      obtain ⟨item, -, rfl⟩ := List.mem_map.mp (hperm.mem_iff.mp he)
      rfl
    refine Or.inr ⟨_, rfl, ?_, ?_⟩
    · simpa [hentries, Function.comp_def] using hperm.map Prod.snd
    · have hfst : (qsort.sort entries).map (toolName ∘ Prod.snd) =
          (qsort.sort entries).map Prod.fst :=
        List.map_congr_left fun e he => (hnames e he).symm
      rw [List.map_map, hfst]
      exact List.pairwise_map.mpr (qsort.sorted entries)

/-- What sorting changes in a request, and what it leaves. -/
structure Sorted (root root' : Json) : Prop where
  tools_perm : (toolsOf root').Perm (toolsOf root)
  tools_sorted : ((toolsOf root').map toolName).Pairwise (· ≤ ·)
  markers : requestMarkers root' = requestMarkers root
  system : root'.get "system" = root.get "system"
  messages : root'.get "messages" = root.get "messages"

theorem sorted_of_get {root root' : Json} (hsorted : ((toolsOf root).map toolName).Pairwise (· ≤ ·))
    (h : ∀ key ∈ ["tools", "system", "messages"], root'.get key = root.get key) :
    Sorted root root' := by
  have htools := h "tools" (by simp)
  have hsystem := h "system" (by simp)
  have hmessages := h "messages" (by simp)
  have hsame : toolsOf root' = toolsOf root := by
    rw [toolsOf, toolsOf, Json.getArray, Json.getArray, htools]
  refine ⟨hsame ▸ List.Perm.refl _, hsame ▸ hsorted, ?_, hsystem, hmessages⟩
  simp [requestMarkers, keyMarkers, htools, hsystem, hmessages]

theorem sorted_sortTools (root : Json) : Sorted root (orSelf (sortTools qsort) root) := by
  cases htools : root.getArray "tools" with
  | some tools =>
    have hget := getArray_eq_some.mp htools
    have hobject := isObject_of_get hget
    rcases @sortedTools_cases qsort tools with ⟨hnone, hsorted⟩ | ⟨sorted, hsome, hperm, hsorted⟩
    · have hself : orSelf (sortTools qsort) root = root := by
        simp [orSelf, sortTools, htools, hnone]
      rw [hself]
      refine sorted_of_get ?_ fun key _ => rfl
      simpa [toolsOf, htools] using hsorted
    · have hnew : orSelf (sortTools qsort) root = root.set "tools" (.array sorted) := by
        simp [orSelf, sortTools, htools, hsome]
      have hset : (root.set "tools" (.array sorted)).get "tools" = some (.array sorted) :=
        Json.get_set_self hobject
      have hofSome : toolsOf (root.set "tools" (.array sorted)) = sorted := by
        rw [toolsOf, getArray_eq_some.mpr hset, Option.getD_some]
      have hof : toolsOf root = tools := by rw [toolsOf, htools, Option.getD_some]
      rw [hnew]
      refine ⟨?_, ?_, ?_, Json.get_set_of_ne _ _ (by decide), Json.get_set_of_ne _ _ (by decide)⟩
      · rw [hofSome, hof]
        exact hperm
      · rw [hofSome]
        exact hsorted
      · simp [requestMarkers, keyMarkers, hset, hget, Json.get_set_of_ne, markers,
          markersItems_perm hperm]
  | none =>
    have hof : toolsOf root = [] := by rw [toolsOf, htools, Option.getD_none]
    refine sorted_of_get (by rw [hof]; exact List.Pairwise.nil) fun key hkey => ?_
    have hne : key ≠ "functions" := by
      rintro rfl
      revert hkey
      decide
    have hedits : EditsKey "functions" fun root => (root.getArray "functions").bind fun functions =>
        (sortedTools qsort functions).map fun sorted => root.set "functions" (.array sorted) := by
      intro root root' h
      obtain ⟨functions, -, hmap⟩ := Option.bind_eq_some_iff.mp h
      obtain ⟨sorted, -, rfl⟩ := Option.map_eq_some_iff.mp hmap
      exact ⟨_, rfl⟩
    have hget := hedits.get_of_ne hne root
    rw [orSelf] at hget ⊢
    rw [sortTools, htools]
    exact hget

end sort

section sink

/-- What a text without periods and white space has in common with one that is moved about. -/
def solid (text : Bytes) : ℕ := text.countP fun c => !isTrimmed c

theorem solid_append (a b : Bytes) : solid (a ++ b) = solid a + solid b := List.countP_append

theorem solid_dropWhile (text : Bytes) : solid (text.dropWhile isSpaceC) = solid text := by
  induction text with
  | nil => rfl
  | cons c rest ih =>
    cases hc : isSpaceC c with
    | false => rw [List.dropWhile_cons_of_neg (by simp [hc])]
    | true =>
      rw [List.dropWhile_cons_of_pos hc, ih]
      simp [solid, isTrimmed, hc]

theorem solid_rdropWhile (text : Bytes) : solid (text.rdropWhile isTrimmed) = solid text := by
  induction text using List.reverseRecOn with
  | nil => rfl
  | append_singleton rest c ih =>
    cases hc : isTrimmed c with
    | false => rw [List.rdropWhile_concat_neg _ _ _ (by simp [hc])]
    | true =>
      rw [List.rdropWhile_concat_pos _ _ _ hc, ih]
      simp [solid, hc]

theorem cutSentence_append (text : Bytes) : (cutSentence text).1 ++ (cutSentence text).2 = text := by
  induction text with
  | nil => rfl
  | cons c rest ih =>
    rw [cutSentence]
    split_ifs
    · rfl
    · rfl
    · simp [ih]

/-- The new text has the words of a label more. -/
theorem sinkDynamicSystem_ne {text new : Bytes} (h : sinkDynamicSystem text = some new) :
    new ≠ text := by
  unfold sinkDynamicSystem at h
  dsimp only at h
  split_ifs at h
  obtain rfl := Option.some.inj h
  intro heq
  have hsolid := congrArg solid heq
  have hcut := congrArg solid (cutSentence_append (text.dropWhile isSpaceC))
  have hlabel : solid (ascii "\n\n[Runtime Context: ") = 16 := by decide +kernel
  rw [solid_append, solid_dropWhile] at hcut
  rw [solid_append, solid_append, solid_append, solid_dropWhile, solid_rdropWhile, hlabel] at hsolid
  omega

/-- The new text of the system prompt, if it has a header that is moved. -/
def volatileSystem (root : Json) : Option Bytes := (root.getString "system").bind sinkDynamicSystem

/-- The new text of the first system message. -/
def volatileMessage (root : Json) : Option Bytes :=
  ((root.getArray "messages").bind fun messages => messages.find? isSystemMessage).bind fun msg =>
    (msg.getString "content").bind sinkDynamicSystem

/-- No header is moved. -/
def Still (root : Json) : Prop := volatileSystem root = none ∧ volatileMessage root = none

theorem orSelf_sinkSystem (root : Json) :
    (volatileSystem root = none → orSelf (sinkString "system") root = root) ∧
      (volatileSystem root ≠ none →
        systemTexts (orSelf (sinkString "system") root) ≠ systemTexts root) := by
  unfold orSelf sinkString
  rw [← volatileSystem]
  cases hnew : volatileSystem root with
  | none => simp
  | some new =>
    obtain ⟨text, htext, hsink⟩ := Option.bind_eq_some_iff.mp hnew
    have hget := getString_eq_some.mp htext
    have hne := sinkDynamicSystem_ne hsink
    simp [systemTexts, Json.get_set_self (isObject_of_get hget), hget, blockTexts, hne]

theorem updateAt_system (messages : List Json) :
    ((messages.find? isSystemMessage).bind fun msg => (msg.getString "content").bind
        sinkDynamicSystem) = none ∧ updateAt isSystemMessage (sinkString "content") messages = none ∨
      ∃ new, updateAt isSystemMessage (sinkString "content") messages = some new ∧
        new.map messageText ≠ messages.map messageText ∧
          ((messages.find? isSystemMessage).bind fun msg => (msg.getString "content").bind
            sinkDynamicSystem) ≠ none := by
  induction messages with
  | nil => exact Or.inl ⟨rfl, rfl⟩
  | cons msg rest ih =>
    cases hsystem : isSystemMessage msg with
    | false =>
      rcases ih with ⟨hfind, hrest⟩ | ⟨new, hrest, hne, hfind⟩
      · refine Or.inl ⟨?_, by simp [updateAt, hsystem, hrest]⟩
        rw [List.find?_cons_of_neg (by simp [hsystem])]
        exact hfind
      · exact Or.inr ⟨msg :: new, by simp [updateAt, hsystem, hrest], by simpa using hne,
          by simpa [hsystem] using hfind⟩
    | true =>
      cases hnew : (msg.getString "content").bind sinkDynamicSystem with
      | none => exact Or.inl (by simp [updateAt, hsystem, sinkString, hnew])
      | some new =>
        obtain ⟨text, htext, hsink⟩ := Option.bind_eq_some_iff.mp hnew
        have hget := getString_eq_some.mp htext
        have hne := sinkDynamicSystem_ne hsink
        refine Or.inr ⟨msg.set "content" (.string new) :: rest, ?_, ?_, ?_⟩
        · simp [updateAt, hsystem, sinkString, hnew]
        · simp [messageText, Json.get_set_self (isObject_of_get hget), hget, blockTexts, hne]
        · simp [hsystem, hnew]

theorem orSelf_sinkMessages (root : Json) :
    (volatileMessage root = none → orSelf sinkMessages root = root) ∧
      (volatileMessage root ≠ none →
        messageTexts (orSelf sinkMessages root) ≠ messageTexts root) := by
  cases hmessages : root.getArray "messages" with
  | none => simp [volatileMessage, orSelf, sinkMessages, hmessages]
  | some messages =>
    have hobject := isObject_of_get (getArray_eq_some.mp hmessages)
    rcases updateAt_system messages with ⟨hfind, hnone⟩ | ⟨new, hsome, hne, hfind⟩
    · simp [volatileMessage, orSelf, sinkMessages, hmessages, hfind, hnone]
    · have hnew : orSelf sinkMessages root = root.set "messages" (.array new) := by
        simp [orSelf, sinkMessages, hmessages, hsome]
      have harray : (root.set "messages" (.array new)).getArray "messages" = some new :=
        getArray_eq_some.mpr (Json.get_set_self hobject)
      rw [hnew]
      constructor
      · intro hstill
        rw [volatileMessage, hmessages] at hstill
        exact absurd hstill hfind
      · intro _
        simpa [messageTexts, harray, hmessages] using hne

theorem editsKey_sinkMessages : EditsKey "messages" sinkMessages :=
  editsKey_editMessages (updateAt isSystemMessage (sinkString "content"))

theorem editsKey_sinkSystem : EditsKey "system" (sinkString "system") := by
  intro root root' h
  obtain ⟨text, -, rfl⟩ := Option.map_eq_some_iff.mp h
  exact ⟨_, rfl⟩

def sunk (root : Json) : Json := orSelf (sinkString "system") (orSelf sinkMessages root)

theorem sunk_of_still {root : Json} (h : Still root) : sunk root = root := by
  rw [sunk, (orSelf_sinkMessages root).1 h.2, (orSelf_sinkSystem root).1 h.1]

/-- A header that is moved changes a text. -/
theorem still_of_texts {root : Json} (hsystem : systemTexts (sunk root) = systemTexts root)
    (hmessages : messageTexts (sunk root) = messageTexts root) : Still root := by
  have hget := editsKey_sinkMessages.get_of_ne (show "system" ≠ "messages" by decide) root
  have hget' := editsKey_sinkSystem.get_of_ne (show "messages" ≠ "system" by decide)
    (orSelf sinkMessages root)
  have hvolatile : volatileSystem (orSelf sinkMessages root) = volatileSystem root := by
    rw [volatileSystem, volatileSystem, Json.getString, Json.getString, hget]
  have htexts : systemTexts (orSelf sinkMessages root) = systemTexts root := by
    rw [systemTexts, systemTexts, hget]
  constructor
  · by_contra hne
    rw [← hvolatile] at hne
    exact (orSelf_sinkSystem _).2 hne (hsystem.trans htexts.symm)
  · by_contra hne
    refine (orSelf_sinkMessages root).2 hne ?_
    rw [← hmessages, messageTexts, messageTexts, Json.getArray, Json.getArray, sunk, hget']

end sink

/-- The request with its tools sorted, if the rule says so. -/
def sortedRoot (qsort : Qsort) (rule : Rule) (root : Json) : Json :=
  if rule.sortTools then orSelf (sortTools qsort) root else root

/-- The rule sorts, or the tools are sorted; it moves no header, or there is none to move; it
sets no marks, or there is room for those that it adds. -/
structure Fits (qsort : Qsort) (rule : Rule) (root : Json) : Prop where
  sorted : rule.sortTools = true ∨ ((toolsOf root).map toolName).Pairwise (· ≤ ·)
  still : rule.sinkDynamicSystem = true → Still root
  room : rule.injectAnthropicBreakpoints = true →
    requestMarkers root + fresh rule.minTokensThreshold (sortedRoot qsort rule root) ≤
      anthropicMaxBreakpoints

section optimize
variable {qsort : Qsort} {rule : Rule}

theorem editPass_fst (on : Bool) (pass : Json → Option Json) (s : Json × Bool) :
    (editPass on pass s).1 = if on then orSelf pass s.1 else s.1 := by
  unfold editPass orSelf
  cases on with
  | false => rfl
  | true => cases pass s.1 <;> rfl

theorem optimize_fst (root : Json) : (optimize qsort rule root).1 =
    let sunkRoot := if rule.sinkDynamicSystem then sunk (sortedRoot qsort rule root)
      else sortedRoot qsort rule root
    if rule.injectAnthropicBreakpoints then
      (injectAnthropicBreakpoints sunkRoot rule.minTokensThreshold).1
    else sunkRoot := by
  have hsunk : (editPass rule.sinkDynamicSystem (sinkString "system")
      (editPass rule.sinkDynamicSystem sinkMessages
        (editPass rule.sortTools (sortTools qsort) (root, false)))).1 =
      if rule.sinkDynamicSystem then sunk (sortedRoot qsort rule root)
      else sortedRoot qsort rule root := by
    rw [editPass_fst, editPass_fst, editPass_fst, sortedRoot, sunk]
    split_ifs <;> rfl
  rw [optimize]
  dsimp only
  rw [← hsunk]
  split_ifs <;> rfl

theorem sortedRoot_cases (root : Json) :
    (rule.sortTools = true ∧ Sorted root (sortedRoot qsort rule root)) ∨
      (rule.sortTools = false ∧ sortedRoot qsort rule root = root) := by
  unfold sortedRoot
  cases rule.sortTools with
  | false => exact Or.inr ⟨rfl, rfl⟩
  | true => exact Or.inl ⟨rfl, sorted_sortTools root⟩

/-- What both cases leave. -/
theorem sortedRoot_keeps (root : Json) :
    (toolsOf (sortedRoot qsort rule root)).Perm (toolsOf root) ∧
      requestMarkers (sortedRoot qsort rule root) = requestMarkers root ∧
      (sortedRoot qsort rule root).get "system" = root.get "system" ∧
      (sortedRoot qsort rule root).get "messages" = root.get "messages" := by
  rcases @sortedRoot_cases qsort rule root with ⟨-, h⟩ | ⟨-, h⟩
  · exact ⟨h.tools_perm, h.markers, h.system, h.messages⟩
  · rw [h]
    exact ⟨List.Perm.refl _, rfl, rfl, rfl⟩

theorem pairwise_sortedRoot_iff (root : Json) :
    ((toolsOf (sortedRoot qsort rule root)).map toolName).Pairwise (· ≤ ·) ↔
      rule.sortTools = true ∨ ((toolsOf root).map toolName).Pairwise (· ≤ ·) := by
  rcases @sortedRoot_cases qsort rule root with ⟨hon, h⟩ | ⟨hoff, h⟩
  · exact iff_of_true h.tools_sorted (Or.inl hon)
  · rw [h, hoff]
    simp

theorem toolsOf_sunk (root : Json) : toolsOf (sunk root) = toolsOf root := by
  rw [toolsOf, toolsOf, Json.getArray, Json.getArray, sunk,
    editsKey_sinkSystem.get_of_ne (by decide), editsKey_sinkMessages.get_of_ne (by decide)]

theorem texts_of_get {root root' : Json} (hsystem : root'.get "system" = root.get "system")
    (hmessages : root'.get "messages" = root.get "messages") :
    systemTexts root' = systemTexts root ∧ messageTexts root' = messageTexts root ∧
      (Still root' ↔ Still root) := by
  simp [systemTexts, messageTexts, Still, volatileSystem, volatileMessage, Json.getString,
    Json.getArray, hsystem, hmessages]

/-- What the last pass makes of a request, whether it is on or not. -/
theorem injected_if (on : Bool) (minTokens : UInt32) (root : Json) :
    let root' := if on then (injectAnthropicBreakpoints root minTokens).1 else root
    requestMarkers root' = requestMarkers root + (if on then fresh minTokens root else 0) ∧
      (toolsOf root').map unmark = (toolsOf root).map unmark ∧
      (toolsOf root').map toolName = (toolsOf root).map toolName ∧
      systemTexts root' = systemTexts root ∧ messageTexts root' = messageTexts root := by
  cases on with
  | false => exact ⟨rfl, rfl, rfl, rfl, rfl⟩
  | true =>
    have h := @injected minTokens root
    exact ⟨h.markers, h.unmarked, h.names, h.system_texts, h.message_texts⟩

end optimize

/-- A request with at most four marks is optimised as it should be exactly if its tools get
sorted, none of its headers is moved, and there is room for the new marks. -/
theorem optimized_iff (qsort : Qsort) (rule : Rule) (root : Json)
    (hle : requestMarkers root ≤ anthropicMaxBreakpoints) :
    Optimized root (optimize qsort rule root).1 ↔ Fits qsort rule root := by
  obtain ⟨hperm, hmarkers, hsystem, hmessages⟩ :=
    @sortedRoot_keeps qsort rule root
  have hsortedIff := @pairwise_sortedRoot_iff qsort rule root
  obtain ⟨hsystemTexts, hmessageTexts, hstill⟩ := texts_of_get hsystem hmessages
  rw [optimize_fst]
  dsimp only
  set sorted := sortedRoot qsort rule root with hsorted
  set moved := if rule.sinkDynamicSystem then sunk sorted else sorted with hmoved
  have htools : toolsOf moved = toolsOf sorted := by
    rw [hmoved]
    split_ifs
    · exact toolsOf_sunk sorted
    · rfl
  have hmovedStill : (rule.sinkDynamicSystem = true → Still root) → moved = sorted := by
    intro h
    rw [hmoved]
    split_ifs with hon
    · exact sunk_of_still (hstill.mpr (h hon))
    · rfl
  obtain ⟨hcount, hunmark, hnames, hsys, hmsg⟩ :=
    injected_if rule.injectAnthropicBreakpoints rule.minTokensThreshold moved
  constructor
  · intro h
    have hstillRoot : rule.sinkDynamicSystem = true → Still root := by
      intro hon
      have hsunk : moved = sunk sorted := if_pos hon
      refine hstill.mp (still_of_texts ?_ ?_)
      · rw [← hsunk, ← hsys, h.system_texts, hsystemTexts]
      · rw [← hsunk, ← hmsg, h.message_texts, hmessageTexts]
    refine ⟨hsortedIff.mp ?_, hstillRoot, fun hon => ?_⟩
    · rw [← htools, ← hnames]
      exact h.tools_sorted
    · have hfour := h.markers_le
      rw [hcount, if_pos hon, hmovedStill hstillRoot, hmarkers] at hfour
      exact hfour
  · intro h
    have hsame := hmovedStill h.still
    refine ⟨?_, ?_, ?_, ?_, ?_⟩
    · rw [hcount, hsame, hmarkers]
      split_ifs with hon
      · exact h.room hon
      · exact hle
    · rw [hunmark, htools]
      exact hperm.map unmark
    · rw [hnames, htools]
      exact hsortedIff.mpr h.sorted
    · rw [hsys, hsame, hsystemTexts]
    · rw [hmsg, hsame, hmessageTexts]

/-- A sort by insertion. -/
def insertionQsort : Qsort where
  sort := List.insertionSort fun a b => a.1 ≤ b.1
  perm := List.perm_insertionSort _
  sorted := fun entries => by
    have : Std.Total fun a b : Bytes × Json => a.1 ≤ b.1 := ⟨fun a b => le_total a.1 b.1⟩
    have : IsTrans (Bytes × Json) fun a b => a.1 ≤ b.1 := ⟨fun _ _ _ h h' => le_trans h h'⟩
    exact List.pairwise_insertionSort _ entries

def defaultRule : Rule := ⟨true, true, true, 1024⟩

def userMessage (text : String) : Json :=
  .object [(ascii "role", .string (ascii "user")), (ascii "content", .array [markedText (ascii text)])]

/-- A request with a block of system prompt and some marked messages. -/
def chatRequest (texts : List String) : Json :=
  .object [(ascii "system", .array [.object [(ascii "type", .string (ascii "text")),
      (ascii "text", .string (ascii "Be polite."))]]),
    (ascii "messages", .array (texts.map userMessage))]

theorem optimized_iff_two :
    Optimized (chatRequest ["a", "b"]) (optimize insertionQsort defaultRule (chatRequest ["a", "b"])).1 ↔
      Fits insertionQsort defaultRule (chatRequest ["a", "b"]) :=
  optimized_iff insertionQsort defaultRule _ (by decide +kernel)

/-- The four marks of the messages stay, and the system prompt gets a fifth. -/
theorem not_optimized_fifth :
    requestMarkers (chatRequest ["a", "b", "c", "d"]) ≤ anthropicMaxBreakpoints ∧
      ¬Optimized (chatRequest ["a", "b", "c", "d"])
        (optimize insertionQsort defaultRule (chatRequest ["a", "b", "c", "d"])).1 := by
  refine ⟨by decide +kernel, fun h => ?_⟩
  have hfour := h.markers_le
  revert hfour
  decide +kernel

end Aigate.CacheBreakpoints
