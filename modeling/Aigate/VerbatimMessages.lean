import Aigate.EventStreams
import Aigate.PromptHistory
import Aigate.SentencePruning
import Aigate.TextPasses

/-!
# Texts that compression leaves as they are

The last question of a compressed conversation, and the code in its messages: when the new payload
has them byte for byte.
-/
namespace Aigate.VerbatimMessages
open Text JsonTree JsonText JsonRoundtrip JsonEdit JsonUtf8 JsonUtf8Loads Utf8 Guardrails
open JailbreakDetector GuardrailsEdits EventTexts EventStreams PromptCompressor PromptHistory
open SentencePruning TextPasses
open StreamCache (jsonLoads)

/-- The messages of a request. -/
def messagesOf (body : Bytes) : Option (List Json) :=
  ((jsonLoads (cString body)).filter Json.isObject).bind (·.getArray "messages")

/-- The content of the last message of the user. -/
def lastUserContent (msgs : List Json) : Option Json :=
  ((lastUserIdx msgs).bind (msgs[·]?)).bind (·.get "content")

/-- The text of the last message of the user is one that collapsing white space leaves as it is. -/
def QuestionCollapsed (rule : CompressorRule) (msgs : List Json) : Prop :=
  ∀ (u : ℕ) (msg : Json) (text : Bytes), lastUserIdx msgs = some u → msgs[u]? = some msg →
    msg.getString "content" = some text → Collapsed rule.preserveCode text

/-- The sentences of the message are thinned out. -/
def Thinned (rule : CompressorRule) (msg : Json) (text : Bytes) : Prop :=
  rule.level = .aggressive ∧ rule.ratioInRange = true ∧ role msg = some (ascii "assistant") ∧
    120 < (compressorSanitizeWhitespace rule.preserveCode text).length

/-- No message that goes on and is thinned out has code in it. -/
def NoCodeThinned (rule : CompressorRule) (msgs : List Json) : Prop :=
  ∀ (i : ℕ) (msg : Json) (text : Bytes), i ∈ survivors rule msgs → msgs[i]? = some msg →
    msg.getString "content" = some text → Thinned rule msg text → codeBlocks text = []

/-- The code of every message that goes on stands in the new message at its place, and a message
whose content is no text is the same. -/
structure CodeKept (rule : CompressorRule) (msgs msgs' : List Json) : Prop where
  text : ∀ (k i : ℕ) (msg : Json) (text : Bytes), (survivors rule msgs)[k]? = some i →
    msgs[i]? = some msg → msg.getString "content" = some text →
    ∃ (msg' : Json) (text' : Bytes), msgs'[k]? = some msg' ∧
      msg'.getString "content" = some text' ∧ Keeps (codeBlocks text) text'
  other : ∀ (k i : ℕ) (msg : Json), (survivors rule msgs)[k]? = some i → msgs[i]? = some msg →
    msg.getString "content" = none → msgs'[k]? = some msg

/-! ### One message -/

theorem compressText_eq {rule : CompressorRule} {msg : Json} {text : Bytes}
    (h : ¬ Thinned rule msg text) :
    compressText rule msg text = compressorSanitizeWhitespace rule.preserveCode text := by
  unfold compressText
  dsimp only
  split
  · rename_i hlong
    have hratio : rule.ratioInRange = false := by
      by_contra hin
      exact h ⟨hlong.1, by simpa using hin, hlong.2.1, hlong.2.2⟩
    unfold compressorPruneSentenceDensity
    split
    · rename_i hnil
      exact hnil.symm
    · rfl
  · rfl

/-- The content of a message that is not thinned out. -/
theorem content_compressContent {rule : CompressorRule} {msg : Json} (hmsg : Clean msg)
    {text : Bytes} (htext : msg.getString "content" = some text) (h : ¬ Thinned rule msg text) :
    (compressContent rule msg).get "content" =
      some (.string (compressorSanitizeWhitespace rule.preserveCode text)) := by
  have hutf8 := utf8Check_sanitizeWhitespace rule.preserveCode (hmsg.getString htext).1
  unfold compressContent
  rw [htext]
  dsimp only
  rw [compressText_eq h, if_pos hutf8]
  exact Json.get_set_self (isObject_of_get (getString_eq_some.mp htext))

theorem content_of_not_string {rule : CompressorRule} {msg : Json}
    (h : msg.getString "content" = none) : compressContent rule msg = msg := by
  unfold compressContent
  rw [h]

theorem get_compressContent (rule : CompressorRule) (msg : Json) {key : String}
    (h : key ≠ "content") : (compressContent rule msg).get key = msg.get key := by
  unfold compressContent
  split
  · dsimp only
    split
    · exact Json.get_set_of_ne _ _ h
    · rfl
  · rfl

theorem role_compressContent (rule : CompressorRule) (msg : Json) :
    role (compressContent rule msg) = role msg := by
  unfold role Json.getString
  rw [get_compressContent rule msg (by decide)]

/-- A text member that is there stays one. -/
theorem getString_compressContent (rule : CompressorRule) {msg : Json} {text : Bytes}
    (h : msg.getString "content" = some text) :
    ∃ text', (compressContent rule msg).getString "content" = some text' := by
  unfold compressContent
  rw [h]
  dsimp only
  split
  · exact ⟨_, getString_eq_some.mpr (Json.get_set_self (isObject_of_get (getString_eq_some.mp h)))⟩
  · exact ⟨text, h⟩

theorem Clean.set {j v : Json} {key : String} (hj : Clean j) (hkey : Clean (.string (ascii key)))
    (hv : Clean v) : Clean (j.set key v) := by
  have hnonzero : Char.ofNat 0 ∉ ascii key := of_decide_eq_true hkey.wellFormed
  refine ⟨wellFormed_set hnonzero hj.wellFormed hv.wellFormed, ?_⟩
  cases j with
  | object members =>
    exact strings_assign hj.utf8 (hkey.utf8 _ (List.mem_singleton_self _)) hv.utf8
  | _ => exact hj.utf8

/-! ### The new document -/

theorem mem_sanitize {preserveCode : Bool} {text : Bytes} {skip : ℕ} {start code : Bool}
    {newlines : ℕ} {run : Bool} {d : Char}
    (h : d ∈ sanitize preserveCode skip start code newlines run text) : d ∈ text ∨ d = ' ' := by
  induction text generalizing skip start code newlines run with
  | nil => cases skip <;> exact nomatch h
  | cons c rest ih =>
    have hpush : ∀ {skip start code newlines run},
        d ∈ c :: sanitize preserveCode skip start code newlines run rest → d ∈ c :: rest ∨ d = ' ' := by
      intro skip start code newlines run hd
      rcases List.mem_cons.mp hd with rfl | hd
      · exact Or.inl List.mem_cons_self
      · exact (ih hd).imp_left (List.mem_cons_of_mem c)
    have hdrop : ∀ {skip start code newlines run},
        d ∈ sanitize preserveCode skip start code newlines run rest → d ∈ c :: rest ∨ d = ' ' :=
      fun hd => (ih hd).imp_left (List.mem_cons_of_mem c)
    cases skip with
    | succ skip => exact hpush h
    | zero =>
      by_cases hfence : fenceAt preserveCode start (c :: rest)
      · rw [sanitize_fence code newlines run hfence] at h
        exact hpush h
      cases code with
      | true =>
        rw [sanitize_code newlines run hfence] at h
        exact hpush h
      | false =>
        rw [sanitize_plain newlines run hfence] at h
        split_ifs at h with hr hn hlt hblank hrun
        · exact hdrop h
        · rw [← hn] at h
          exact hpush h
        · exact hdrop h
        · exact hdrop h
        · rcases List.mem_cons.mp h with rfl | h
          · exact Or.inr rfl
          · exact hdrop h
        · exact hpush h

theorem mem_splitSentences {n : ℕ} {text t : Bytes} (ht : t ∈ splitSentences n text) {d : Char}
    (hd : d ∈ t) : d ∈ text := by
  induction n generalizing text with
  | zero => exact nomatch ht
  | succ n ih =>
    have hsub : (text.dropWhile isSpaceC).Sublist text := (List.dropWhile_suffix _).sublist
    rw [splitSentences_succ] at ht
    split at ht
    · exact nomatch ht
    · rcases List.mem_cons.mp ht with rfl | ht
      · exact hsub.subset (List.mem_of_mem_take hd)
      · exact hsub.subset (List.mem_of_mem_drop (ih ht))

theorem mem_joined_pieces {cap : ℕ} {dst : Bytes} {ss : List Sentence} {d : Char}
    (h : d ∈ joined (pieces cap dst ss)) : (∃ s ∈ ss, d ∈ s.text) ∨ d = ' ' := by
  induction ss generalizing dst with
  | nil => cases h
  | cons s ss ih =>
    rw [pieces, joined, List.flatMap_cons, List.mem_append, List.mem_append] at h
    rcases h with (h | h) | h
    · right
      unfold separator at h
      split at h
      · exact List.mem_singleton.mp h
      · cases h
    · exact Or.inl ⟨s, List.mem_cons_self, List.mem_of_mem_take h⟩
    · refine (ih h).imp_left fun hmem => ?_
      obtain ⟨t, ht, hd⟩ := hmem
      exact ⟨t, List.mem_cons_of_mem s ht, hd⟩

theorem mem_prune {rule : CompressorRule} {src : Bytes} {d : Char}
    (h : d ∈ compressorPruneSentenceDensity rule src) : d ∈ src ∨ d = ' ' := by
  rcases eq_or_ne src [] with rfl | hne
  · exact nomatch h
  cases hratio : rule.ratioInRange with
  | false =>
    left
    rwa [compressorPruneSentenceDensity, if_neg hne, if_pos hratio] at h
  | true =>
    rw [prune_eq_joined rule hne hratio] at h
    refine (mem_joined_pieces h).imp_left fun ⟨s, hs, hd⟩ => ?_
    have hsub := keptSentences_sublist rule hne hratio
    exact mem_splitSentences (hsub.subset (List.mem_map_of_mem hs)) hd

theorem nonzero_compressText (rule : CompressorRule) (msg : Json) {text : Bytes}
    (h : Nonzero text) : Nonzero (compressText rule msg text) := by
  intro hzero
  have hsanitized : Char.ofNat 0 ∈ compressorSanitizeWhitespace rule.preserveCode text := by
    unfold compressText at hzero
    dsimp only at hzero
    split at hzero
    · exact (mem_prune hzero).resolve_right (by decide)
    · exact hzero
  exact h ((mem_sanitize hsanitized).resolve_right (by decide))

theorem clean_compressContent (rule : CompressorRule) {msg : Json} (h : Clean msg) :
    Clean (compressContent rule msg) := by
  cases htext : msg.getString "content" with
  | none =>
    rw [content_of_not_string htext]
    exact h
  | some text =>
    unfold compressContent
    rw [htext]
    dsimp only
    split
    · rename_i hutf8
      have hnonzero := nonzero_compressText rule msg (h.getString htext).2
      exact Clean.set h (clean_ascii "content" (by decide))
        (clean_string ⟨hutf8, hnonzero⟩)
    · exact h

theorem depth_compressContent (rule : CompressorRule) {msg : Json} {n : ℕ} (h : depth msg ≤ n) :
    depth (compressContent rule msg) ≤ n := by
  unfold compressContent
  split
  · rename_i text htext
    dsimp only
    split
    · apply depth_set h
      have hget := getString_eq_some.mp htext
      cases msg with
      | object members =>
        have hle := depth_lookup_le hget
        simp only [depth] at h hle ⊢
        omega
      | _ => cases htext
    · exact h
  · exact h

/-- The messages of a compressed payload are read again as they were written. -/
theorem messagesOf_output {rule : CompressorRule} {payload out : Bytes}
    (h : promptCompressorProcessPayload payload rule = some (some out)) :
    ∃ msgs, messagesOf payload = some msgs ∧ (∀ msg ∈ msgs, Clean msg) ∧
      messagesOf out = some (compressMessages rule msgs) := by
  unfold promptCompressorProcessPayload at h
  split at h
  · cases h
  split at h
  · cases h
  split at h
  · cases h
  cases hroot : (jsonLoads (cString payload)).filter Json.isObject with
  | none =>
    rw [hroot] at h
    cases h
  | some root =>
    rw [hroot] at h
    dsimp only at h
    cases hmsgs : root.getArray "messages" with
    | none =>
      rw [hmsgs] at h
      cases h
    | some msgs =>
      rw [hmsgs] at h
      dsimp only at h
      split at h
      · cases h
      split at h
      swap
      · cases h
      obtain rfl := Option.some.inj (Option.some.inj h)
      obtain ⟨hloads, hobject⟩ := Option.filter_eq_some_iff.mp hroot
      have hreadable := StreamCacheStore.jsonLoads_readable hloads
      have hclean : Clean root := by
        unfold jsonLoads at hloads
        split at hloads
        · rename_i hutf8
          exact ⟨hreadable.wellFormed, loads_utf8 hutf8 hloads⟩
        · cases hloads
      have hget := getArray_eq_some.mp hmsgs
      have hitems : ∀ msg ∈ msgs, Clean msg := fun msg hmsg => (hclean.get hget).item hmsg
      have hdepth : depthItems msgs + 1 + 1 ≤ maxDepth := by
        have hle := hreadable.depth_le
        cases root with
        | object members =>
          have hlookup := depth_lookup_le hget
          simp only [depth] at hle hlookup
          omega
        | _ => cases hobject
      have hnew : ∀ msg ∈ compressMessages rule msgs, Clean msg ∧ depth msg ≤ depthItems msgs := by
        intro msg hmsg
        obtain ⟨i, -, hi⟩ := List.mem_filterMap.mp hmsg
        obtain ⟨old, hold, rfl⟩ := Option.map_eq_some_iff.mp hi
        have hmem := List.mem_of_getElem? hold
        exact ⟨clean_compressContent rule (hitems old hmem),
          depth_compressContent rule (depthItems_le_iff.mp (Nat.le_refl _) old hmem)⟩
      have hcleanArray : Clean (.array (compressMessages rule msgs)) :=
        clean_array fun msg hmsg => (hnew msg hmsg).1
      have hkey : Clean (.string (ascii "messages")) := clean_ascii _ (by decide)
      have hout : Clean (root.set "messages" (.array (compressMessages rule msgs))) :=
        Clean.set hclean hkey hcleanArray
      have hread : Readable (root.set "messages" (.array (compressMessages rule msgs))) := by
        refine hreadable.set (of_decide_eq_true hkey.wellFormed) hcleanArray.wellFormed ?_
        have hle : depthItems (compressMessages rule msgs) ≤ depthItems msgs :=
          depthItems_le_iff.mpr fun msg hmsg => (hnew msg hmsg).2
        simp only [depth]
        omega
      refine ⟨msgs, ?_, hitems, ?_⟩
      · rw [messagesOf, hroot, Option.bind_some, hmsgs]
      · rw [messagesOf, cString_of_nonzero (nonzero_dumps _), jsonLoads,
          if_pos (utf8Check_dumps hout.utf8), hread.loads_dumps, Option.filter_some, isObject_set,
          hobject, if_pos rfl, Option.bind_some]
        exact getArray_eq_some.mpr (Json.get_set_self hobject)

/-! ### The places of the messages -/

theorem survivors_pairwise (rule : CompressorRule) (msgs : List Json) :
    (survivors rule msgs).Pairwise (· < ·) := by
  unfold survivors
  split
  · exact List.pairwise_lt_range
  · exact List.pairwise_lt_range.filter _

theorem survivors_lt {rule : CompressorRule} {msgs : List Json} {i : ℕ}
    (h : i ∈ survivors rule msgs) : i < msgs.length := by
  by_cases hinactive : rule.Inactive
  · exact (survives_inactive hinactive).mp h
  · exact ((survives_iff hinactive).mp h).1

theorem getElem?_filterMap {α β : Type*} {f : α → Option β} {xs : List α}
    (h : ∀ x ∈ xs, (f x).isSome = true) (k : ℕ) : (xs.filterMap f)[k]? = xs[k]?.bind f := by
  induction xs generalizing k with
  | nil => rfl
  | cons x xs ih =>
    obtain ⟨hx, hxs⟩ := List.forall_mem_cons.mp h
    obtain ⟨y, hy⟩ := Option.isSome_iff_exists.mp hx
    rw [List.filterMap_cons, hy]
    cases k with
    | zero => exact hy.symm
    | succ k => exact ih hxs k

/-- The new message at a place is made of the survivor at that place. -/
theorem compressMessages_getElem? (rule : CompressorRule) (msgs : List Json) (k : ℕ) :
    (compressMessages rule msgs)[k]? =
      (survivors rule msgs)[k]?.bind fun i => msgs[i]?.map (compressContent rule) := by
  apply getElem?_filterMap
  intro i hi
  rw [List.getElem?_eq_getElem (survivors_lt hi)]
  rfl

theorem roleAt_compressMessages (rule : CompressorRule) (msgs : List Json) (k : ℕ) :
    roleAt (compressMessages rule msgs) k = (survivors rule msgs)[k]?.bind (roleAt msgs) := by
  rw [roleAt, compressMessages_getElem?]
  cases (survivors rule msgs)[k]? with
  | none => rfl
  | some i =>
    rw [Option.bind_some, Option.bind_some, roleAt, Option.bind_map]
    congr 1
    funext msg
    exact role_compressContent rule msg

theorem lastUserIdx_max {msgs : List Json} {u j : ℕ} (h : lastUserIdx msgs = some u)
    (hj : roleAt msgs j = some (ascii "user")) : j ≤ u := by
  obtain ⟨-, before, behind, hsplit, hnone⟩ := List.find?_eq_some_iff_append.mp h
  have hmem : j ∈ before ++ u :: behind := by
    rw [← hsplit, List.mem_reverse, List.mem_range]
    exact lt_of_roleAt hj
  have hsorted : (before ++ u :: behind).Pairwise (fun a b => b < a) := by
    rw [← hsplit, List.pairwise_reverse]
    exact List.pairwise_lt_range
  rcases List.mem_append.mp hmem with hj' | hj'
  · have hfalse := hnone j hj'
    simp [hj] at hfalse
  · rcases List.mem_cons.mp hj' with rfl | hj'
    · exact Nat.le_refl _
    · have hlt := (List.pairwise_cons.mp (List.pairwise_append.mp hsorted).2.1).1 j hj'
      exact hlt.le

theorem lastUserIdx_of_roleAt {msgs : List Json} {k : ℕ} (hk : roleAt msgs k = some (ascii "user"))
    (hmax : ∀ j, roleAt msgs j = some (ascii "user") → j ≤ k) : lastUserIdx msgs = some k := by
  cases h : lastUserIdx msgs with
  | none =>
    have hnone := List.find?_eq_none.mp h k (by simpa using lt_of_roleAt hk)
    exact absurd (decide_eq_true hk) hnone
  | some v =>
    have hle := hmax v (lastUserIdx_eq_some h).2
    have hge := lastUserIdx_max h hk
    rw [Nat.le_antisymm hle hge]

theorem mem_survivors_last (rule : CompressorRule) {msgs : List Json} {u : ℕ}
    (hu : lastUserIdx msgs = some u) : u ∈ survivors rule msgs := by
  have hlt := (lastUserIdx_eq_some hu).1
  by_cases hinactive : rule.Inactive
  · exact (survives_inactive hinactive).mpr hlt
  · exact (survives_iff hinactive).mpr ⟨hlt, keepFlags_last hu⟩

/-- The last question stays the last one. -/
theorem lastUserIdx_compressMessages (rule : CompressorRule) {msgs : List Json} {u : ℕ}
    (hu : lastUserIdx msgs = some u) :
    ∃ k, (survivors rule msgs)[k]? = some u ∧
      lastUserIdx (compressMessages rule msgs) = some k := by
  obtain ⟨k, hk⟩ := List.mem_iff_getElem?.mp (mem_survivors_last rule hu)
  refine ⟨k, hk, lastUserIdx_of_roleAt ?_ fun j hj => ?_⟩
  · rw [roleAt_compressMessages, hk, Option.bind_some]
    exact (lastUserIdx_eq_some hu).2
  · rw [roleAt_compressMessages] at hj
    obtain ⟨i, hi, hrole⟩ := Option.bind_eq_some_iff.mp hj
    have hle := lastUserIdx_max hu hrole
    by_contra hlt
    obtain ⟨hjlen, rfl⟩ := List.getElem?_eq_some_iff.mp hi
    obtain ⟨hklen, rfl⟩ := List.getElem?_eq_some_iff.mp hk
    have hless := List.pairwise_iff_getElem.mp (survivors_pairwise rule msgs) k j hklen hjlen
      (not_le.mp hlt)
    omega

theorem lastUserIdx_none {rule : CompressorRule} {msgs : List Json}
    (h : lastUserIdx msgs = none) : lastUserIdx (compressMessages rule msgs) = none := by
  cases hk : lastUserIdx (compressMessages rule msgs) with
  | none => rfl
  | some k =>
    have hrole := (lastUserIdx_eq_some hk).2
    rw [roleAt_compressMessages] at hrole
    obtain ⟨i, -, hi⟩ := Option.bind_eq_some_iff.mp hrole
    have hnone := List.find?_eq_none.mp h i (by simpa using lt_of_roleAt hi)
    exact absurd (decide_eq_true hi) hnone

/-! ### The result -/

theorem lastUserContent_of_some {msgs : List Json} {u : ℕ} {msg : Json}
    (hu : lastUserIdx msgs = some u) (hmsg : msgs[u]? = some msg) :
    lastUserContent msgs = msg.get "content" := by
  rw [lastUserContent, hu, Option.bind_some, hmsg, Option.bind_some]

/-- The last question is unchanged exactly when its white space is collapsed already. -/
theorem question_iff (rule : CompressorRule) {msgs : List Json} (hmsgs : ∀ msg ∈ msgs, Clean msg) :
    lastUserContent (compressMessages rule msgs) = lastUserContent msgs ↔
      QuestionCollapsed rule msgs := by
  cases hu : lastUserIdx msgs with
  | none =>
    have hleft : lastUserContent (compressMessages rule msgs) = lastUserContent msgs := by
      rw [lastUserContent, lastUserContent, lastUserIdx_none hu, hu]
      rfl
    refine iff_of_true hleft fun u msg text hsome => ?_
    rw [hu] at hsome
    cases hsome
  | some u =>
    obtain ⟨k, hk, hlast⟩ := lastUserIdx_compressMessages rule hu
    obtain ⟨msg, hmsg, hrole⟩ := Option.bind_eq_some_iff.mp (lastUserIdx_eq_some hu).2
    have hclean := hmsgs msg (List.mem_of_getElem? hmsg)
    have hnew : (compressMessages rule msgs)[k]? = some (compressContent rule msg) := by
      rw [compressMessages_getElem?, hk, Option.bind_some, hmsg, Option.map_some]
    rw [lastUserContent_of_some hlast hnew, lastUserContent_of_some hu hmsg]
    cases htext : msg.getString "content" with
    | none =>
      rw [content_of_not_string htext]
      refine iff_of_true rfl fun v msg' text hv hmsg' htext' => ?_
      obtain rfl := Option.some.inj (hu.symm.trans hv)
      obtain rfl := Option.some.inj (hmsg.symm.trans hmsg')
      rw [htext] at htext'
      cases htext'
    | some text =>
      have hplain : ¬ Thinned rule msg text := by
        intro hthin
        have hboth := Option.some.inj (hrole.symm.trans hthin.2.2.1)
        simp [ascii_inj] at hboth
      rw [content_compressContent hclean htext hplain, getString_eq_some.mp htext, Option.some_inj,
        Json.string.injEq, sanitizeWhitespace_eq_self_iff]
      constructor
      · intro hcollapsed v msg' text' hv hmsg' htext'
        obtain rfl := Option.some.inj (hu.symm.trans hv)
        obtain rfl := Option.some.inj (hmsg.symm.trans hmsg')
        obtain rfl := Option.some.inj (htext.symm.trans htext')
        exact hcollapsed
      · intro h
        exact h u msg text hu hmsg htext

/-- Code is kept where no message with code is thinned out. -/
theorem codeKept_of_noCodeThinned {rule : CompressorRule} {msgs : List Json}
    (hmsgs : ∀ msg ∈ msgs, Clean msg) (hpreserve : rule.preserveCode = true)
    (h : NoCodeThinned rule msgs) : CodeKept rule msgs (compressMessages rule msgs) := by
  have hnew : ∀ {k i : ℕ} {msg : Json}, (survivors rule msgs)[k]? = some i →
      msgs[i]? = some msg → (compressMessages rule msgs)[k]? = some (compressContent rule msg) := by
    intro k i msg hk hmsg
    rw [compressMessages_getElem?, hk, Option.bind_some, hmsg, Option.map_some]
  constructor
  · intro k i msg text hk hmsg htext
    by_cases hthin : Thinned rule msg text
    · obtain ⟨text', htext'⟩ := getString_compressContent rule htext
      have hnone := h i msg text (List.mem_of_getElem? hk) hmsg htext hthin
      refine ⟨_, text', hnew hk hmsg, htext', ?_⟩
      rw [hnone]
      exact Keeps.nil text'
    · have hclean := hmsgs msg (List.mem_of_getElem? hmsg)
      have hcontent := content_compressContent hclean htext hthin
      rw [hpreserve] at hcontent
      exact ⟨_, _, hnew hk hmsg, getString_eq_some.mpr hcontent, keeps_sanitizeWhitespace text⟩
  · intro k i msg hk hmsg hnone
    rw [hnew hk hmsg, content_of_not_string hnone]

/-- In a compressed payload the last question is as it was exactly when its white space was
collapsed, and with code preserved every block of code is, if no message with code is thinned
out. -/
theorem verbatim_output {rule : CompressorRule} {payload out : Bytes}
    (h : promptCompressorProcessPayload payload rule = some (some out)) :
    ∃ msgs msgs', messagesOf payload = some msgs ∧ messagesOf out = some msgs' ∧
      (lastUserContent msgs' = lastUserContent msgs ↔ QuestionCollapsed rule msgs) ∧
      (rule.preserveCode = true → NoCodeThinned rule msgs → CodeKept rule msgs msgs') := by
  obtain ⟨msgs, hmsgs, hclean, hout⟩ := messagesOf_output h
  exact ⟨msgs, compressMessages rule msgs, hmsgs, hout, question_iff rule hclean,
    codeKept_of_noCodeThinned hclean⟩

/-- The first block stands in the text. -/
theorem within_of_keeps {block text : Bytes} {blocks : List Bytes} (h : Keeps (block :: blocks) text) :
    block <:+: text := by
  cases h with
  | cons before _ hrest => exact ⟨before, _, rfl⟩

def thinningRule : CompressorRule where
  enabled := true
  level := .aggressive
  minTokens := 0
  maxHistoryTurns := 4
  ratioInRange := true
  targetLen := fun n => n * 6 / 10
  preserveSystem := true
  preserveCode := true
  preserveTools := true

/-- A long answer with an indented line of code. -/
def codeAnswer : String :=
  "```\n  x = 1\n```\nThis is how. It sets x. As an AI I am pleased to assist you. " ++
    "Please feel free to ask me more about it at any time."

/-- The same without the indentation. -/
def thinnedAnswer : String :=
  "```\nx = 1\n```\nThis is how. It sets x. As an AI I am pleased to assist you. " ++
    "Please feel free to ask me more about it at any time."

/-- A question with two blanks behind the answer. -/
def askedAgain : List Json := [message "assistant" codeAnswer, message "user" "why  x"]

def compressedAgain : List Json := [message "assistant" thinnedAnswer, message "user" "why x"]

def requestWith (msgs : List Json) : Bytes := dumps (.object [(ascii "messages", .array msgs)])

theorem ascii_ofList (l : List Char) : ascii (String.ofList l) = l := by
  unfold ascii
  exact String.toList_ofList

theorem ascii_append (s t : String) : ascii (s ++ t) = ascii s ++ ascii t := by
  unfold ascii
  exact String.toList_append

theorem compressed_askedAgain :
    promptCompressorProcessPayload (requestWith askedAgain) thinningRule =
      some (some (requestWith compressedAgain)) := by
  unfold askedAgain compressedAgain message codeAnswer thinnedAnswer
  rw [ascii_append, ascii_append]
  repeat rw [ascii_ofList]
  decide +kernel

theorem verbatim_output_askedAgain :
    ∃ msgs msgs', messagesOf (requestWith askedAgain) = some msgs ∧
      messagesOf (requestWith compressedAgain) = some msgs' ∧
      (lastUserContent msgs' = lastUserContent msgs ↔ QuestionCollapsed thinningRule msgs) ∧
      (thinningRule.preserveCode = true → NoCodeThinned thinningRule msgs →
        CodeKept thinningRule msgs msgs') :=
  verbatim_output compressed_askedAgain

theorem messagesOf_requestWith {msgs : List Json}
    (hread : Readable (.object [(ascii "messages", .array msgs)]))
    (hutf8 : utf8Check (requestWith msgs) = true) : messagesOf (requestWith msgs) = some msgs := by
  unfold requestWith at hutf8 ⊢
  rw [messagesOf, cString_of_nonzero (nonzero_dumps _), jsonLoads, if_pos hutf8, hread.loads_dumps,
    Option.filter_some]
  simp [Json.isObject, Json.getArray, Json.get, lookup, Json.arrayItems]

theorem messagesOf_again :
    ∀ msgs ∈ [askedAgain, compressedAgain], messagesOf (requestWith msgs) = some msgs := by
  unfold askedAgain compressedAgain message codeAnswer thinnedAnswer
  rw [ascii_append, ascii_append]
  repeat rw [ascii_ofList]
  refine List.forall_mem_cons.mpr ⟨?_, List.forall_mem_singleton.mpr ?_⟩ <;>
    exact messagesOf_requestWith ⟨rfl, by decide +kernel, by decide +kernel⟩ (by decide +kernel)

theorem getString_message (role text : String) :
    (message role text).getString "content" = some (ascii text) := by
  simp [message, Json.getString, Json.get, lookup, Json.stringValue, ascii_inj]

/-- The question loses a blank, and the code its indentation. -/
theorem not_verbatim_askedAgain :
    promptCompressorProcessPayload (requestWith askedAgain) thinningRule =
        some (some (requestWith compressedAgain)) ∧
      messagesOf (requestWith askedAgain) = some askedAgain ∧
      messagesOf (requestWith compressedAgain) = some compressedAgain ∧
      lastUserContent compressedAgain ≠ lastUserContent askedAgain ∧
      ¬ CodeKept thinningRule askedAgain compressedAgain := by
  refine ⟨compressed_askedAgain, messagesOf_again askedAgain List.mem_cons_self,
    messagesOf_again compressedAgain (List.mem_cons_of_mem _ List.mem_cons_self), ?_, fun h => ?_⟩
  · have hold : lastUserIdx askedAgain = some 1 := by decide +kernel
    have hnew : lastUserIdx compressedAgain = some 1 := by decide +kernel
    rw [lastUserContent_of_some hold rfl, lastUserContent_of_some hnew rfl,
      getString_eq_some.mp (getString_message _ _), getString_eq_some.mp (getString_message _ _)]
    simp [ascii_inj]
  · obtain ⟨msg', text', hmsg', htext', hkeeps⟩ := h.text 0 0 (message "assistant" codeAnswer)
      (ascii codeAnswer) (by decide +kernel) rfl (getString_message _ _)
    obtain rfl := Option.some.inj hmsg'
    obtain rfl := Option.some.inj ((getString_message _ _).symm.trans htext')
    have hblocks : codeBlocks (ascii codeAnswer) = [ascii "\n  x = 1\n"] := by
      unfold codeAnswer
      rw [ascii_append, ascii_ofList, ascii_ofList]
      decide +kernel
    rw [hblocks] at hkeeps
    refine absurd (within_of_keeps hkeeps) ?_
    unfold thinnedAnswer
    rw [ascii_append, ascii_ofList, ascii_ofList, ascii_ofList]
    decide +kernel

end Aigate.VerbatimMessages
