import Aigate.JsonSort
import Aigate.LineBuffer
import Aigate.SignedChains
import Aigate.StreamCache

/-!
# The hash chain of the audit log

An event is written with a number, the hash of the event before it, and a hash over both and
its canonical text. The verifier reads a file line by line and takes every hash again.
-/
namespace Aigate.AuditHashChain
open Text JsonTree JsonText JsonSort LineBuffer SignedChains Guardrails StreamCache

/-- `HMAC` with `EVP_sha256()`, of a key and data. -/
abbrev Hmac := Bytes → Bytes → Vector UInt8 32

/-- A lower-case hexadecimal digit. -/
def hexLower (n : ℕ) : Char := if n < 10 then Char.ofNat (48 + n) else Char.ofNat (87 + n)

/-- `%02x`. -/
def hexByte (b : UInt8) : Bytes := [hexLower (b.toNat / 16), hexLower (b.toNat % 16)]

def computeHmacHex (hmac : Hmac) (key data : Bytes) : Bytes :=
  (hmac key data).toList.flatMap hexByte

structure HashChainCtx where
  secretKey : Bytes
  lastHash : Bytes
  genesisHash : Bytes
  currentSeq : UInt64
  deriving DecidableEq

def genesisData : Bytes := ascii "AIGATE_AUDIT_GENESIS"

def defaultSecret : Bytes := ascii "aigate_default_audit_chain_secret_2026"

/-- `audit_hash_chain_create`; the key has a buffer of 128 bytes. -/
def auditHashChainCreate (hmac : Hmac) (secret : Option Bytes) : HashChainCtx :=
  let secret := if secret.getD [] = [] then defaultSecret else secret.getD []
  let key := secret.take 127
  let genesis := computeHmacHex hmac key genesisData
  { secretKey := key, lastHash := genesis, genesisHash := genesis, currentSeq := 0 }

/-- An object without the members of the chain. -/
def removeMetadata (root : Json) : Json := ((root.del "seq").del "prev_hash").del "hash"

/-- The object of an event that is to be signed. -/
def eventRoot (eventJson : Bytes) : Option Json :=
  (jsonLoads (cString eventJson)).bind fun root =>
    if root.isObject then some (removeMetadata root) else none

/-- `prev_hash:seq:canonical_payload`. -/
def toSign (prevHash : Bytes) (seq : UInt64) (payload : Bytes) : Bytes :=
  prevHash ++ ':' :: (decimal seq.toNat ++ ':' :: payload)

/-- The object with its number and the two hashes. -/
def embed (root : Json) (seq : UInt64) (prevHash hash : Bytes) : Json :=
  ((root.set "seq" (.integer seq.toInt64)).set "prev_hash" (.string prevHash)).set "hash"
    (.string hash)

/-- `audit_hash_chain_sign`. The chain moves on before the size of the line is known. -/
def auditHashChainSign (hmac : Hmac) (ctx : HashChainCtx) (eventJson : Bytes) (outSz : ℕ) :
    HashChainCtx × Option Bytes :=
  if outSz = 0 then (ctx, none)
  else
    match eventRoot eventJson with
    | none => (ctx, none)
    | some root =>
      let seq := ctx.currentSeq + 1
      let hash := computeHmacHex hmac ctx.secretKey (toSign ctx.lastHash seq (dumpsSorted root))
      let final := dumpsSorted (embed root seq ctx.lastHash hash)
      ({ ctx with lastHash := hash, currentSeq := seq },
        if final.length ≥ outSz then none else some final)

/-- The lines that `getline` reads; the last one may have no end. -/
def fileLines (content : Bytes) : List Bytes :=
  (split '\n' [] content).1 ++
    if (split '\n' [] content).2 = [] then [] else [(split '\n' [] content).2]

/-- A line without white space at its end. -/
def stripLine (line : Bytes) : Bytes :=
  line.rdropWhile fun c => c = '\n' || c = '\r' || c = ' '

/-- The lines that are not blank. -/
def records (content : Bytes) : List Bytes := ((fileLines content).map stripLine).filter (· ≠ [])

/-- `json_integer_value` as an unsigned number, 0 on a value that is not an integer. -/
def integerValue : Json → UInt64
  | .integer n => n.toUInt64
  | _ => 0

/-- What the verifier reads of a line. A hash that is not a string is copied from a null
pointer. -/
inductive LineRead where
  | malformed
  | unsigned
  | nullHash
  | entry (e : Entry Bytes UInt64 Bytes)
  deriving DecidableEq

def readLine (line : Bytes) : LineRead :=
  match jsonLoads (cString line) with
  | none => .malformed
  | some root =>
    if root.isObject then
      match root.get "seq", root.get "prev_hash", root.get "hash" with
      | some seq, some prev, some hash =>
        match prev.stringValue, hash.stringValue with
        | some prev, some hash =>
          .entry ⟨integerValue seq, prev.take 64, dumpsSorted (removeMetadata root), hash.take 64⟩
        | _, _ => .nullHash
      | _, _, _ => .unsigned
    else .malformed

/-- The outcome of a verification: how many lines were verified, or the number of the broken
one and the error message. -/
inductive Verified where
  | valid (count : UInt64)
  | broken (seq : UInt64) (errorMsg : Bytes)
  | crashed
  deriving DecidableEq

def number (n : UInt64) : Bytes := decimal n.toNat

/-- The loop of `audit_hash_chain_verify_file`. -/
def verifyLines (hmac : Hmac) (key : Bytes) : Bytes → UInt64 → UInt64 → List Bytes → Verified
  | _, _, verified, [] => .valid verified
  | prevHash, expectedSeq, verified, line :: rest =>
    match readLine line with
    | .malformed => .broken expectedSeq (ascii "Malformed JSON on line " ++ number expectedSeq)
    | .unsigned =>
      .broken expectedSeq (ascii "Missing signature fields on sequence " ++ number expectedSeq)
    | .nullHash => .crashed
    | .entry e =>
      if e.seq ≠ expectedSeq then
        .broken expectedSeq (ascii "Sequence break: expected " ++ number expectedSeq ++
          ascii ", got " ++ number e.seq ++ ascii " (line deleted or out of order)")
      else if e.prev ≠ prevHash then
        .broken e.seq (ascii "Broken hash chain at seq " ++ number e.seq ++
          ascii ": prev_hash mismatch")
      else if computeHmacHex hmac key (toSign e.prev e.seq e.payload) ≠ e.tag then
        .broken e.seq (ascii "Tamper detected at seq " ++ number e.seq ++
          ascii ": hash verification failed")
      else verifyLines hmac key e.tag (expectedSeq + 1) (verified + 1) rest

/-- `audit_hash_chain_verify_file`, on a file that may be missing. -/
def auditHashChainVerifyFile (hmac : Hmac) (ctx : HashChainCtx) (file : Option Bytes) : Verified :=
  match file with
  | none => .broken 0 (ascii "Cannot open audit log file")
  | some content =>
    verifyLines hmac ctx.secretKey (computeHmacHex hmac ctx.secretKey genesisData) 1 0
      (records content)

section Hex

theorem hexLower_injective : ∀ a < 16, ∀ b < 16, hexLower a = hexLower b → a = b := by decide

theorem hexByte_injective {a b : UInt8} (h : hexByte a = hexByte b) : a = b := by
  have ha := a.toNat_lt
  have hb := b.toNat_lt
  obtain ⟨hhigh, hrest⟩ := List.cons.inj h
  have hhigh := hexLower_injective _ (by omega) _ (by omega) hhigh
  have hlow := hexLower_injective _ (by omega) _ (by omega) (List.cons.inj hrest).1
  exact UInt8.toNat_inj.mp (by omega)

theorem flatMap_hexByte_injective {xs ys : List UInt8}
    (h : xs.flatMap hexByte = ys.flatMap hexByte) : xs = ys := by
  induction xs generalizing ys with
  | nil =>
    cases ys with
    | nil => rfl
    | cons y ys => cases h
  | cons x xs ih =>
    cases ys with
    | nil => cases h
    | cons y ys =>
      obtain ⟨hbyte, hrest⟩ := List.append_inj h rfl
      rw [hexByte_injective hbyte, ih hrest]

theorem computeHmacHex_inj {hmac : Hmac} {key a b : Bytes} :
    computeHmacHex hmac key a = computeHmacHex hmac key b ↔ hmac key a = hmac key b :=
  ⟨fun h => Vector.toList_inj.mp (flatMap_hexByte_injective h), fun h => by
    unfold computeHmacHex
    rw [h]⟩

theorem length_computeHmacHex (hmac : Hmac) (key data : Bytes) :
    (computeHmacHex hmac key data).length = 64 := by
  have hbytes : ∀ xs : List UInt8, (xs.flatMap hexByte).length = 2 * xs.length := by
    intro xs
    induction xs with
    | nil => rfl
    | cons x xs ih =>
      rw [List.flatMap_cons, List.length_append, ih, List.length_cons]
      change 2 + _ = _
      omega
  rw [computeHmacHex, hbytes, Vector.length_toList]

/-- Hexadecimal digits are letters and digits. -/
theorem isAlphanum_hex {hmac : Hmac} {key data : Bytes} {c : Char}
    (h : c ∈ computeHmacHex hmac key data) : c.isAlphanum = true := by
  have hdigit : ∀ n < 16, (hexLower n).isAlphanum = true := by decide
  obtain ⟨b, -, hc⟩ := List.mem_flatMap.mp h
  have hb := b.toNat_lt
  simp only [hexByte, List.mem_cons, List.not_mem_nil, or_false] at hc
  rcases hc with rfl | rfl
  · exact hdigit _ (by omega)
  · exact hdigit _ (by omega)

theorem colon_not_mem_hex (hmac : Hmac) (key data : Bytes) : ':' ∉ computeHmacHex hmac key data :=
  fun h => absurd (isAlphanum_hex h) (by decide)

end Hex

/-- What is signed tells the previous hash, the number and the payload. -/
theorem toSign_injective {p p' : Bytes} {s s' : UInt64} {x x' : Bytes} (hp : ':' ∉ p)
    (hp' : ':' ∉ p') (h : toSign p s x = toSign p' s' x') : p = p' ∧ s = s' ∧ x = x' := by
  have hcut : ∀ {u u' v v' : Bytes}, ':' ∉ u → ':' ∉ u' → u ++ ':' :: v = u' ++ ':' :: v' →
      u = u' ∧ v = v' := by
    intro u u' v v' hu hu' heq
    have hsplit := (split_line hu v).symm.trans ((congrArg (split ':' []) heq).trans (split_line hu' v'))
    have hword := (List.cons.inj (Prod.mk.inj hsplit).1).1
    rw [hword, List.append_cancel_left_eq] at heq
    exact ⟨hword, (List.cons.inj heq).2⟩
  have hdigits : ∀ n, ':' ∉ decimal n := fun n h => absurd (decimal_digits h) (by decide)
  obtain ⟨rfl, hrest⟩ := hcut hp hp' h
  obtain ⟨hseq, rfl⟩ := hcut (hdigits _) (hdigits _) hrest
  exact ⟨rfl, UInt64.toNat_inj.mp (decimal_injective hseq), rfl⟩

theorem toSign_ne_genesis (prevHash : Bytes) (seq : UInt64) (payload : Bytes) :
    toSign prevHash seq payload ≠ genesisData := by
  intro h
  have hcolon : ':' ∈ genesisData := h ▸ List.mem_append_right _ List.mem_cons_self
  revert hcolon
  decide +kernel

/-- The tag of a message. -/
def macOf (hmac : Hmac) (key : Bytes) (m : Bytes × UInt64 × Bytes) : Bytes :=
  computeHmacHex hmac key (toSign m.1 m.2.1 m.2.2)

/-- The chain of a context. -/
def HashChainCtx.chain (ctx : HashChainCtx) : Chain Bytes UInt64 := ⟨ctx.lastHash, ctx.currentSeq⟩

/-- The chain that the verifier starts with. -/
def startChain (hmac : Hmac) (key : Bytes) : Chain Bytes UInt64 :=
  ⟨computeHmacHex hmac key genesisData, 0⟩

/-- The verifier reads a chain of entries. -/
theorem verifyLines_valid {hmac : Hmac} {key : Bytes} {c : Chain Bytes UInt64}
    {verified n : UInt64} {lines : List Bytes}
    (h : verifyLines hmac key c.last (c.seq + 1) verified lines = .valid n) :
    ∃ es c', lines.map readLine = es.map .entry ∧
      c.Reads (macOf hmac key) (· + 1) es c' ∧ n = verified + UInt64.ofNat es.length := by
  induction lines generalizing c verified with
  | nil =>
    obtain rfl := Verified.valid.inj h
    exact ⟨[], c, rfl, .nil c, (UInt64.add_zero _).symm⟩
  | cons line rest ih =>
    rw [verifyLines] at h
    cases hread : readLine line with
    | malformed => simp [hread] at h
    | unsigned => simp [hread] at h
    | nullHash => simp [hread] at h
    | entry e =>
      simp only [hread] at h
      split_ifs at h with hseq hprev htag
      rw [not_ne_iff] at hseq hprev htag
      have hrest : verifyLines hmac key e.tag (e.seq + 1) (verified + 1) rest = .valid n := by
        rw [hseq]
        exact h
      obtain ⟨es, c', hlines, hreads, hn⟩ := ih (c := ⟨e.tag, e.seq⟩) hrest
      refine ⟨e :: es, c', ?_, .cons ⟨hseq, hprev, htag.symm⟩ hreads, ?_⟩
      · rw [List.map_cons, List.map_cons, hread, hlines]
      · rw [hn, List.length_cons, UInt64.ofNat_add, UInt64.add_assoc, UInt64.add_comm 1]
        rfl

end Aigate.AuditHashChain
