import Aigate.AuditRuns
import Aigate.JsonUtf8Loads

/-!
# Calls of the signer that fail

A call that fails before the hash is taken leaves the chain as it was, and the next line that is
signed continues the file. The chain moves on before the line is written, so that a line that
does not fit, or that there is no memory for, leaves a gap behind it.
-/
namespace Aigate.SigningAtomicity
open Text JsonTree JsonText JsonEdit JsonSort JsonUtf8 JsonUtf8Loads Utf8 SignedChains Guardrails
  GuardrailsEdits StreamCache AuditHashChain AuditFiles AuditTamper AuditRuns

/-- Which of the allocations that a call checks are granted: for the object, for its canonical
text, for what the hash is taken of, and for the line. -/
structure Memory where
  root : Bool
  canonicalPayload : Bool
  toSign : Bool
  finalJson : Bool

def enough : Memory := ⟨true, true, true, true⟩

/-- `audit_hash_chain_sign` with the memory that there is. -/
def signWithMemory (hmac : Hmac) (ctx : HashChainCtx) (mem : Memory) (call : SignCall) :
    HashChainCtx × Option Bytes :=
  if mem.root && mem.canonicalPayload && mem.toSign then
    let signed := auditHashChainSign hmac ctx call.eventJson call.outSz
    (signed.1, if mem.finalJson then signed.2 else none)
  else (ctx, none)

/-- A chain after some calls. -/
def signAll (hmac : Hmac) (secret : Option Bytes) (calls : List (Memory × SignCall)) :
    HashChainCtx :=
  calls.foldl (fun ctx c => (signWithMemory hmac ctx c.1 c.2).1) (auditHashChainCreate hmac secret)

/-- A call that fails leaves the chain as it was, and whatever is signed next is accepted behind
a file that ends where the chain was. -/
structure Atomic (hmac : Hmac) (ctx : HashChainCtx) (mem : Memory) (call : SignCall) : Prop where
  unchanged : (signWithMemory hmac ctx mem call).2 = none →
    (signWithMemory hmac ctx mem call).1.currentSeq = ctx.currentSeq ∧
      (signWithMemory hmac ctx mem call).1.lastHash = ctx.lastHash
  next : (signWithMemory hmac ctx mem call).2 = none →
    ∀ content, Tracks hmac ctx.secretKey content ctx.chain →
      ∀ (mem' : Memory) (call' : SignCall) (line : Bytes),
        (signWithMemory hmac (signWithMemory hmac ctx mem call).1 mem' call').2 = some line →
          ∃ n, auditHashChainVerifyFile hmac ctx (some (content ++ (line ++ ['\n']))) = .valid n

/-- The bytes of a line, without its end. -/
def signedLength (root : Json) (seq : UInt64) : ℕ :=
  (dumps root).length + 160 + (integerText seq.toInt64).length - noComma root

/-- The event is not an object, or the memory ends before the hash is taken, or the line gets
its memory and its buffer. -/
def Clean (ctx : HashChainCtx) (mem : Memory) (call : SignCall) : Prop :=
  call.outSz = 0 ∨ ¬(mem.root && mem.canonicalPayload && mem.toSign) = true ∨
    ∀ root, eventRoot call.eventJson = some root →
      mem.finalJson = true ∧ signedLength root (ctx.currentSeq + 1) < call.outSz

theorem get_del_self (j : Json) (key : String) : (j.del key).get key = none := by
  cases j with
  | object members =>
    rw [Json.del, Json.get, erase_eq_filter]
    induction members with
    | nil => rfl
    | cons m rest ih =>
      by_cases hm : m.1 = ascii key
      · simpa [hm] using ih
      · simpa [hm, lookup] using ih
  | _ => rfl

theorem mem_strings_del {j : Json} {key : String} {s : Bytes} (h : s ∈ strings (j.del key)) :
    s ∈ strings j := by
  cases j with
  | object members =>
    obtain ⟨m, hm, hs⟩ := mem_stringsMembers_iff.mp h
    exact mem_stringsMembers_iff.mpr ⟨m, (erase_sublist members (ascii key)).mem hm, hs⟩
  | _ => exact h

theorem isObject_del (j : Json) (key : String) : (j.del key).isObject = j.isObject := by
  cases j <;> rfl

/-- What is left of an event is an object without the members of the chain. -/
theorem signable_eventRoot {event : Bytes} {root : Json} (h : eventRoot event = some root) :
    Signable maxDepth root := by
  obtain ⟨given, hgiven, hobject⟩ := Option.bind_eq_some_iff.mp h
  split_ifs at hobject with hisObject
  obtain rfl := Option.some.inj hobject
  have hreadable : Readable (removeMetadata given) :=
    (((readable_of_jsonLoads hgiven).del "seq").del "prev_hash").del "hash"
  refine ⟨⟨?_, hreadable.wellFormed, hreadable.depth_le, fun s hs => ?_⟩, ?_⟩
  · rw [removeMetadata, isObject_del, isObject_del, isObject_del, hisObject]
  · unfold jsonLoads at hgiven
    split_ifs at hgiven with hutf8
    exact loads_utf8 hutf8 hgiven s (mem_strings_del (mem_strings_del (mem_strings_del hs)))
  · simp [metadataKeys, removeMetadata, get_del_self, Json.get_del_of_ne]

section call
variable {hmac : Hmac} {ctx : HashChainCtx}

theorem signWithMemory_of_not {mem : Memory}
    (h : ¬(mem.root && mem.canonicalPayload && mem.toSign) = true) (call : SignCall) :
    signWithMemory hmac ctx mem call = (ctx, none) := by
  rw [signWithMemory, if_neg h]

theorem signWithMemory_of_none (mem : Memory) {call : SignCall}
    (h : call.outSz = 0 ∨ eventRoot call.eventJson = none) :
    signWithMemory hmac ctx mem call = (ctx, none) := by
  have hsign : auditHashChainSign hmac ctx call.eventJson call.outSz = (ctx, none) := by
    rw [auditHashChainSign]
    rcases h with hzero | hnone
    · rw [if_pos hzero]
    · rw [hnone]
      split <;> rfl
  rw [signWithMemory, hsign]
  dsimp only
  split_ifs <;> rfl

/-- A call that comes to the hash takes the next number, whatever becomes of the line. -/
theorem signWithMemory_of_some {mem : Memory} {call : SignCall} {root : Json}
    (hmem : (mem.root && mem.canonicalPayload && mem.toSign) = true) (hsize : call.outSz ≠ 0)
    (hroot : eventRoot call.eventJson = some root) (hhash : IsHash ctx.lastHash) :
    (signWithMemory hmac ctx mem call).1.currentSeq = ctx.currentSeq + 1 ∧
      ((signWithMemory hmac ctx mem call).2 = none ↔
        ¬(mem.finalJson = true ∧ signedLength root (ctx.currentSeq + 1) < call.outSz)) := by
  have hlength := length_embed (signable_eventRoot hroot) (ctx.currentSeq + 1) hhash
    (isHash_computeHmacHex hmac ctx.secretKey
      (toSign ctx.lastHash (ctx.currentSeq + 1) (dumpsSorted root)))
  rw [signWithMemory, if_pos hmem, auditHashChainSign, if_neg hsize, hroot, signedLength, ← hlength,
    Nat.add_sub_cancel]
  refine ⟨rfl, ?_⟩
  cases mem.finalJson with
  | false => simp
  | true => simp

theorem isHash_signWithMemory (h : IsHash ctx.lastHash) (mem : Memory) (call : SignCall) :
    IsHash (signWithMemory hmac ctx mem call).1.lastHash := by
  unfold signWithMemory
  split
  · unfold auditHashChainSign
    split
    · exact h
    · cases eventRoot call.eventJson with
      | none => exact h
      | some root => exact isHash_computeHmacHex hmac _ _
  · exact h

/-- What a call signs is accepted behind a file that ends where its chain does. -/
theorem verifies_next (hhash : IsHash ctx.lastHash) {content : Bytes}
    (h : Tracks hmac ctx.secretKey content ctx.chain) {mem : Memory} {call : SignCall} {line : Bytes}
    (hline : (signWithMemory hmac ctx mem call).2 = some line) :
    ∃ n, auditHashChainVerifyFile hmac ctx (some (content ++ (line ++ ['\n']))) = .valid n := by
  cases hroot : eventRoot call.eventJson with
  | none =>
    rw [signWithMemory_of_none mem (Or.inr hroot)] at hline
    cases hline
  | some root =>
    rw [signWithMemory] at hline
    split_ifs at hline with hmem hfinal
    have htracks := h.signed hhash hroot (signable_eventRoot hroot) (by decide) le_rfl hline
    exact htracks.verifies

/-- A call is atomic exactly if it stops before the hash or gets through to the end. -/
theorem atomic_iff_clean (hhash : IsHash ctx.lastHash) (mem : Memory) (call : SignCall) :
    Atomic hmac ctx mem call ↔ Clean ctx mem call := by
  constructor
  · intro h
    by_contra hclean
    simp only [Clean, not_or, not_not, not_forall] at hclean
    obtain ⟨hsize, hmem, root, hroot, hfails⟩ := hclean
    obtain ⟨hseq, hnone⟩ := signWithMemory_of_some hmem hsize hroot hhash
    have hsame := (h.unchanged (hnone.mpr hfails)).1
    rw [hseq, add_eq_left] at hsame
    exact absurd hsame (by decide)
  · intro h
    have hunchanged : (signWithMemory hmac ctx mem call).2 = none →
        (signWithMemory hmac ctx mem call).1 = ctx := by
      intro hfails
      by_cases hmem : (mem.root && mem.canonicalPayload && mem.toSign) = true
      · by_cases hsize : call.outSz = 0
        · rw [signWithMemory_of_none mem (Or.inl hsize)]
        · cases hroot : eventRoot call.eventJson with
          | none => rw [signWithMemory_of_none mem (Or.inr hroot)]
          | some root =>
            have hgets := (h.resolve_left hsize).resolve_left (not_not.mpr hmem) root hroot
            obtain ⟨-, hnone⟩ := signWithMemory_of_some hmem hsize hroot hhash
            exact absurd hgets (hnone.mp hfails)
      · rw [signWithMemory_of_not hmem]
    refine ⟨fun hfails => ?_, fun hfails content htracks mem' call' line hline => ?_⟩
    · rw [hunchanged hfails]
      exact ⟨rfl, rfl⟩
    · rw [hunchanged hfails] at hline
      exact verifies_next hhash htracks hline

end call

theorem isHash_signAll (hmac : Hmac) (secret : Option Bytes) (calls : List (Memory × SignCall)) :
    IsHash (signAll hmac secret calls).lastHash := by
  induction calls using List.reverseRecOn with
  | nil => exact isHash_computeHmacHex hmac _ _
  | append_singleton calls c ih =>
    rw [signAll, List.foldl_append]
    exact isHash_signWithMemory ih c.1 c.2

end Aigate.SigningAtomicity
