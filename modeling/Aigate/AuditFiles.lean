import Aigate.AuditLog
import Aigate.GuardrailsEdits
import Aigate.JsonUtf8

/-!
# Files that the verifier accepts

A signed line is read as the entry that was signed. So a file stays acceptable as long as the
chain that goes on in it is the one that the file ends with, and every line fits in the buffer.
-/
namespace Aigate.AuditFiles
open Text JsonTree JsonText JsonRoundtrip JsonEdit JsonSort JsonUtf8 Utf8 LineBuffer SignedChains
  Guardrails GuardrailsEdits StreamCache AuditHashChain AuditLog

/-- An object of a depth that is written and read back. -/
structure Written (n : ℕ) (root : Json) : Prop where
  object : root.isObject = true
  wellFormed : wellFormed root = true
  depth_le : depth root ≤ n
  utf8 : ∀ s ∈ strings root, utf8Check s = true

/-- A key of ASCII characters. -/
def PlainKey (key : String) : Prop :=
  key.toList.all (fun c => 0 < c.toNat ∧ c.toNat < 128) = true

theorem PlainKey.nonzero {key : String} (h : PlainKey key) : Char.ofNat 0 ∉ ascii key := by
  unfold ascii
  intro h0
  have := of_decide_eq_true (List.all_eq_true.mp h _ h0)
  revert this
  decide

theorem PlainKey.utf8 {key : String} (h : PlainKey key) : utf8Check (ascii key) = true := by
  refine utf8Check_of_ascii fun c hc => ?_
  unfold ascii at hc
  exact (of_decide_eq_true (List.all_eq_true.mp h c hc)).2

theorem mem_stringsMembers_assign {members : List (Bytes × Json)} {key s : Bytes} {v : Json}
    (h : s ∈ stringsMembers (assign members key v)) :
    s ∈ stringsMembers members ∨ s = key ∨ s ∈ strings v := by
  induction members with
  | nil =>
    rw [assign, stringsMembers, stringsMembers, List.append_nil] at h
    exact Or.inr (List.mem_cons.mp h)
  | cons m rest ih =>
    obtain ⟨k, w⟩ := m
    rw [assign] at h
    split at h
    · rename_i hk
      simp only [stringsMembers, List.cons_append, List.mem_cons, List.mem_append] at h ⊢
      rcases h with rfl | h | h
      · exact Or.inl (Or.inl rfl)
      · exact Or.inr (Or.inr h)
      · exact Or.inl (Or.inr (Or.inr h))
    · simp only [stringsMembers, List.cons_append, List.mem_cons, List.mem_append] at h ⊢
      rcases h with rfl | h | h
      · exact Or.inl (Or.inl rfl)
      · exact Or.inl (Or.inr (Or.inl h))
      · rcases ih h with h | h
        · exact Or.inl (Or.inr (Or.inr h))
        · exact Or.inr h

theorem Written.set {n : ℕ} {root v : Json} (h : Written n root) (key : String)
    (hkey : PlainKey key) (hv : JsonRoundtrip.wellFormed v = true) (hd : depth v + 1 ≤ n)
    (hs : ∀ s ∈ strings v, utf8Check s = true) : Written n (root.set key v) where
  object := by rw [isObject_set, h.object]
  wellFormed := wellFormed_set hkey.nonzero h.wellFormed hv
  depth_le := depth_set h.depth_le hd
  utf8 := by
    have hobject := h.object
    have hutf8 := h.utf8
    cases root with
    | object members =>
      intro s hm
      rcases mem_stringsMembers_assign hm with hm | rfl | hm
      · exact hutf8 s hm
      · exact hkey.utf8
      · exact hs s hm
    | _ => cases hobject

/-- The members that the chain adds. -/
def metadataKeys : List String := ["seq", "prev_hash", "hash"]

/-- A key of an event. -/
abbrev EventKey (key : String) : Prop := PlainKey key ∧ key ∉ metadataKeys

/-- An object that has none of the members of the chain. -/
structure Signable (n : ℕ) (root : Json) : Prop extends Written n root where
  unsigned : ∀ key ∈ metadataKeys, root.get key = none

theorem Signable.set {n : ℕ} {root v : Json} (h : Signable n root) (key : String)
    (hkey : EventKey key) (hv : JsonRoundtrip.wellFormed v = true) (hd : depth v + 1 ≤ n)
    (hs : ∀ s ∈ strings v, utf8Check s = true) : Signable n (root.set key v) where
  toWritten := h.toWritten.set key hkey.1 hv hd hs
  unsigned := by
    intro k hk
    have hne : k ≠ key := fun heq => hkey.2 (heq ▸ hk)
    rw [Json.get_set_of_ne root v hne]
    exact h.unsigned k hk

theorem signable_empty {n : ℕ} (h : 1 ≤ n) : Signable n (.object []) where
  object := rfl
  wellFormed := rfl
  depth_le := h
  utf8 := by simp [strings, stringsMembers]
  unsigned := fun _ _ => rfl

theorem Signable.setString {n : ℕ} {root : Json} (h : Signable n root) (hn : 2 ≤ n) (key : String)
    (hkey : EventKey key) (s : Bytes) : Signable n (setNew root key (jsonString s)) := by
  unfold jsonString
  split
  · rename_i hutf8
    refine h.set key hkey ?_ hn ?_
    · exact decide_eq_true (nonzero_cString s)
    · intro t ht
      rw [List.mem_singleton.mp ht]
      exact hutf8
  · exact h

theorem Signable.setStringUnlessEmpty {n : ℕ} {root : Json} (h : Signable n root) (hn : 2 ≤ n)
    (key : String) (hkey : EventKey key) (s : Bytes) :
    Signable n (setNewUnlessEmpty root key s) := by
  unfold setNewUnlessEmpty
  split
  · exact h
  · exact h.setString hn key hkey s

theorem Signable.setInteger {n : ℕ} {root : Json} (h : Signable n root) (hn : 2 ≤ n) (key : String)
    (hkey : EventKey key) (i : Int64) : Signable n (setNew root key (integerOf i)) :=
  h.set key hkey rfl hn (by simp [strings])

theorem signable_violation (ev : AuditEvent) : Signable 2 (violationObject ev) := by
  have h := signable_empty (n := 2) (by decide)
  have h := h.setString le_rfl "type" ⟨rfl, by decide⟩ ev.violationType
  exact h.setString le_rfl "detail" ⟨rfl, by decide⟩ ev.ruleDetail

/-- The object of an event is written, and has none of the members of the chain. -/
theorem signable_event (ev : AuditEvent) : Signable 3 (eventObject ev) := by
  have hn : 2 ≤ 3 := by decide
  have h := signable_empty (n := 3) (by decide)
  have h := h.setString hn "ts" ⟨rfl, by decide⟩ (formatIso8601Ms ev.timestampMs)
  have h := h.setString hn "trace_id" ⟨rfl, by decide⟩ ev.traceId
  have h := h.setString hn "severity" ⟨rfl, by decide⟩ (auditSeverityStr ev.severity)
  have h := h.setInteger hn "key_id" ⟨rfl, by decide⟩ ev.keyId
  have h := h.setString hn "client_ip" ⟨rfl, by decide⟩ ev.clientIp
  have h := h.setString hn "model" ⟨rfl, by decide⟩ ev.model
  have h := h.setStringUnlessEmpty hn "routed_model" ⟨rfl, by decide⟩ ev.routedModel
  have h := h.setStringUnlessEmpty hn "fallback_reason" ⟨rfl, by decide⟩ ev.fallbackReason
  have h := h.setString hn "provider" ⟨rfl, by decide⟩ ev.provider
  have h := h.setInteger hn "status" ⟨rfl, by decide⟩ ev.httpStatus.toInt64
  have h := h.setInteger hn "prompt_tokens" ⟨rfl, by decide⟩ ev.promptTokens.toUInt64.toInt64
  have h := h.setInteger hn "completion_tokens" ⟨rfl, by decide⟩ ev.completionTokens.toUInt64.toInt64
  have h := h.setInteger hn "latency_us" ⟨rfl, by decide⟩ (ev.latencyNs / 1000).toInt64
  have hif : ∀ {p : Prop} [Decidable p] {a b : Json}, Signable 3 a → Signable 3 b →
      Signable 3 (if p then a else b) := by
    intro p _ a b ha hb
    split
    · exact ha
    · exact hb
  have h := hif (p := ev.ttftNs > 0)
    (h.setInteger hn "ttft_us" ⟨rfl, by decide⟩ (ev.ttftNs / 1000).toInt64) h
  have hviolation := signable_violation ev
  have h := hif (p := cString ev.violationType = [] ∧ cString ev.ruleDetail = []) h
    (h.set "violation" ⟨rfl, by decide⟩ hviolation.wellFormed
      (Nat.succ_le_succ hviolation.depth_le) hviolation.utf8)
  unfold eventObject
  cases ev.promptSnapshot with
  | none => exact h
  | some prompt => exact h.setString hn "prompt" ⟨rfl, by decide⟩ prompt

theorem erase_assign_new {members : List (Bytes × Json)} {key : Bytes} (v : Json)
    (h : key ∉ members.map Prod.fst) : erase (assign members key v) key = members := by
  induction members with
  | nil => simp [assign, erase]
  | cons m rest ih =>
    rw [List.map_cons, List.mem_cons, not_or] at h
    simp [assign, erase, Ne.symm h.1, ih h.2]

theorem erase_assign_comm {members : List (Bytes × Json)} {key key' : Bytes} (v : Json)
    (h : key' ≠ key) : erase (assign members key v) key' = assign (erase members key') key v := by
  induction members with
  | nil => simp [assign, erase, h.symm]
  | cons m rest ih =>
    obtain ⟨k, w⟩ := m
    by_cases hk : k = key
    · subst hk
      simp [assign, erase, h.symm]
    · by_cases hk' : k = key'
      · subst hk'
        simp [assign, erase, hk, ih]
      · simp [assign, erase, hk, hk', ih]

theorem del_set_new {root : Json} {key : String} (h : root.get key = none) (v : Json) :
    (root.set key v).del key = root := by
  cases root with
  | object members => exact congrArg Json.object (erase_assign_new v (not_mem_keys_of_lookup h))
  | _ => rfl

theorem del_set_comm (root : Json) {key key' : String} (h : key' ≠ key) (v : Json) :
    (root.set key v).del key' = (root.del key').set key v := by
  cases root with
  | object members => exact congrArg Json.object (erase_assign_comm v (ascii_ne h))
  | _ => rfl

theorem del_of_get_none {root : Json} {key : String} (h : root.get key = none) :
    root.del key = root := by
  cases root with
  | object members =>
    refine congrArg Json.object ?_
    rw [erase_eq_filter, List.filter_eq_self]
    intro m hm
    exact decide_eq_true fun heq => not_mem_keys_of_lookup h (heq ▸ List.mem_map_of_mem hm)
  | _ => rfl

variable {n : ℕ} {root : Json}

/-- What is removed before signing is not there. -/
theorem Signable.removeMetadata_eq (h : Signable n root) : removeMetadata root = root := by
  rw [removeMetadata, del_of_get_none (h.unsigned "seq" (by decide)),
    del_of_get_none (h.unsigned "prev_hash" (by decide)),
    del_of_get_none (h.unsigned "hash" (by decide))]

/-- What is removed before verifying is what was embedded. -/
theorem Signable.removeMetadata_embed (h : Signable n root) (seq : UInt64) (prevHash hash : Bytes) :
    removeMetadata (embed root seq prevHash hash) = root := by
  have hseq := h.unsigned "seq" (by decide)
  have hprev := h.unsigned "prev_hash" (by decide)
  have hhash := h.unsigned "hash" (by decide)
  have hfirst : (embed root seq prevHash hash).del "seq" =
      (root.set "prev_hash" (.string prevHash)).set "hash" (.string hash) := by
    rw [embed, del_set_comm _ (show "seq" ≠ "hash" by decide),
      del_set_comm _ (show "seq" ≠ "prev_hash" by decide), del_set_new hseq]
  rw [removeMetadata, hfirst, del_set_comm _ (show "prev_hash" ≠ "hash" by decide),
    del_set_new hprev, del_set_new hhash]

/-- A text of letters and digits. -/
structure IsHash (s : Bytes) : Prop where
  letters : ∀ c ∈ s, c.isAlphanum = true
  length_eq : s.length = 64

theorem isHash_computeHmacHex (hmac : Hmac) (key data : Bytes) :
    IsHash (computeHmacHex hmac key data) :=
  ⟨fun _ => isAlphanum_hex, length_computeHmacHex hmac key data⟩

theorem toNat_of_alphanum {c : Char} (h : c.isAlphanum = true) : 48 ≤ c.toNat ∧ c.toNat < 128 := by
  simp only [Char.isAlphanum, Char.isAlpha, Char.isUpper, Char.isLower, Char.isDigit,
    Bool.or_eq_true, Bool.and_eq_true, decide_eq_true_eq, ge_iff_le] at h
  rcases h with (⟨hlow, hhigh⟩ | ⟨hlow, hhigh⟩) | ⟨hlow, hhigh⟩
  all_goals
    rw [UInt32.le_iff_toNat_le] at hlow hhigh
    exact ⟨le_trans (by decide) hlow, lt_of_le_of_lt hhigh (by decide)⟩

theorem IsHash.nonzero {s : Bytes} (h : IsHash s) : Char.ofNat 0 ∉ s := by
  intro h0
  have := (toNat_of_alphanum (h.letters _ h0)).1
  revert this
  decide

theorem IsHash.utf8 {s : Bytes} (h : IsHash s) : utf8Check s = true :=
  utf8Check_of_ascii fun c hc => (toNat_of_alphanum (h.letters c hc)).2

/-- The object with its number and hashes is written too. -/
theorem Signable.written_embed (h : Signable n root) (hn : 2 ≤ n) (seq : UInt64)
    {prevHash hash : Bytes} (hprev : IsHash prevHash) (hhash : IsHash hash) :
    Written n (embed root seq prevHash hash) := by
  have hstring : ∀ {s : Bytes}, IsHash s → JsonRoundtrip.wellFormed (.string s) = true ∧
      ∀ t ∈ strings (.string s), utf8Check t = true := by
    intro s hs
    refine ⟨decide_eq_true hs.nonzero, fun t ht => ?_⟩
    rw [List.mem_singleton.mp ht]
    exact hs.utf8
  have h1 := h.toWritten.set "seq" rfl (v := .integer seq.toInt64) rfl hn (by simp [strings])
  have h2 := h1.set "prev_hash" rfl (hstring hprev).1 hn (hstring hprev).2
  exact h2.set "hash" rfl (hstring hhash).1 hn (hstring hhash).2

theorem Written.readable (h : Written n root) (hn : n ≤ maxDepth) : Readable root where
  document := by
    have hobject := h.object
    cases root <;> first | exact hobject | rfl
  wellFormed := h.wellFormed
  depth_le := h.depth_le.trans hn

/-- What is written with sorted keys is read with sorted keys. -/
theorem Written.jsonLoads_dumpsSorted (h : Written n root) (hn : n ≤ maxDepth) :
    jsonLoads (cString (dumpsSorted root)) = some (sortKeys root) := by
  have hutf8 : utf8Check (dumpsSorted root) = true :=
    utf8Check_dumps fun s hs => h.utf8 s (mem_strings_sortKeys root hs)
  have hsorted := readable_sortKeys (h.readable hn)
  rw [jsonLoads, dumpsSorted, cString_of_nonzero (nonzero_dumps _)]
  rw [dumpsSorted] at hutf8
  rw [hutf8, if_pos rfl, hsorted.loads_dumps]

theorem isObject_sortKeys (j : Json) : (sortKeys j).isObject = j.isObject := by
  cases j <;> rfl

theorem wellFormed_del {j : Json} (h : JsonRoundtrip.wellFormed j = true) (key : String) :
    JsonRoundtrip.wellFormed (j.del key) = true := by
  cases j with
  | object members =>
    rw [JsonRoundtrip.wellFormed, Bool.and_eq_true, decide_eq_true_eq] at h
    rw [Json.del, JsonRoundtrip.wellFormed, Bool.and_eq_true, decide_eq_true_eq]
    exact ⟨wellFormedMembers_erase h.1,
      h.2.sublist ((erase_sublist members (ascii key)).map Prod.fst)⟩
  | _ => exact h

/-- A signed line is read as the entry that was signed. -/
theorem Signable.readLine_embed (h : Signable n root) (hn : 2 ≤ n) (hmax : n ≤ maxDepth)
    (seq : UInt64) {prevHash hash : Bytes} (hprev : IsHash prevHash) (hhash : IsHash hash) :
    readLine (dumpsSorted (embed root seq prevHash hash)) =
      .entry ⟨seq, prevHash, dumpsSorted root, hash⟩ := by
  have hwritten := h.written_embed hn seq hprev hhash
  have hwf := hwritten.wellFormed
  have hseq : (embed root seq prevHash hash).get "seq" = some (.integer seq.toInt64) := by
    rw [embed, Json.get_set_of_ne _ _ (by decide), Json.get_set_of_ne _ _ (by decide),
      Json.get_set_self h.object]
  have hprev' : (embed root seq prevHash hash).get "prev_hash" = some (.string prevHash) := by
    rw [embed, Json.get_set_of_ne _ _ (by decide), Json.get_set_self]
    rw [isObject_set, h.object]
  have hhash' : (embed root seq prevHash hash).get "hash" = some (.string hash) := by
    rw [embed, Json.get_set_self]
    rw [isObject_set, isObject_set, h.object]
  have hpayload : dumpsSorted (removeMetadata (sortKeys (embed root seq prevHash hash))) =
      dumpsSorted root := by
    rw [removeMetadata, ← sortKeys_del hwf, ← sortKeys_del (wellFormed_del hwf _),
      ← sortKeys_del (wellFormed_del (wellFormed_del hwf _) _), dumpsSorted, sortKeys_idem,
      ← removeMetadata, h.removeMetadata_embed]
    rfl
  rw [readLine, hwritten.jsonLoads_dumpsSorted hmax]
  dsimp only
  rw [isObject_sortKeys, hwritten.object, if_pos rfl, get_sortKeys hwf, get_sortKeys hwf,
    get_sortKeys hwf, hseq, hprev', hhash', hpayload]
  simp only [Option.map_some, sortKeys, Json.stringValue, integerValue, UInt64.toUInt64_toInt64]
  rw [List.take_of_length_le hprev.length_eq.le, List.take_of_length_le hhash.length_eq.le]

end Aigate.AuditFiles
