import Aigate.AuditHashChain

/-!
# Tamper evidence

A file that the verifier accepts has, in order, the first of the payloads that were signed since
the chain was created. What is assumed of the keyed hash is that it tells apart what the signer
asked for, and that no line has the hash of something that the signer has not asked for.
-/
namespace Aigate.AuditTamper
open Text JsonTree JsonText JsonEdit JsonSort LineBuffer SignedChains Guardrails StreamCache AuditHashChain

/-- A call of the signer with an event and the size of the output buffer. -/
structure SignCall where
  eventJson : Bytes
  outSz : ℕ

/-- The payload that a call signs, with its members in order. -/
def signedPayload (call : SignCall) : Option Json :=
  if call.outSz = 0 then none else (eventRoot call.eventJson).map sortKeys

/-- The state after some calls. -/
def signCalls (hmac : Hmac) (ctx : HashChainCtx) (calls : List SignCall) : HashChainCtx :=
  calls.foldl (fun ctx call => (auditHashChainSign hmac ctx call.eventJson call.outSz).1) ctx

/-- What the signer takes hashes of in some calls. -/
def queries (hmac : Hmac) (ctx : HashChainCtx) : List SignCall → List Bytes
  | [] => []
  | call :: rest =>
    ((signedPayload call).map fun p => toSign ctx.lastHash (ctx.currentSeq + 1) (dumps p)).toList ++
      queries hmac (auditHashChainSign hmac ctx call.eventJson call.outSz).1 rest

/-- The payload of a line: its object without the members of the chain, the others in order. -/
def linePayload (line : Bytes) : Option Json :=
  (jsonLoads (cString line)).map fun root => sortKeys (removeMetadata root)

def filePayloads (content : Bytes) : List Json := (records content).filterMap linePayload

/-- What a line is signed over. -/
def lineMessage (e : Entry Bytes UInt64 Bytes) : Bytes := toSign e.prev e.seq e.payload

/-- The hash tells the queries of the signer apart, and every line of the file with the right
hash is over one of them. -/
structure Unforged (hmac : Hmac) (key : Bytes) (queries : List Bytes) (content : Bytes) : Prop where
  injective : Set.InjOn (hmac key) { m | m ∈ queries }
  issued : ∀ line ∈ records content, ∀ e, readLine line = .entry e →
    e.tag = computeHmacHex hmac key (lineMessage e) → lineMessage e ∈ queries

/-- What a call does to the chain. -/
theorem sign_chain (hmac : Hmac) (ctx : HashChainCtx) (call : SignCall) :
    (auditHashChainSign hmac ctx call.eventJson call.outSz).1.secretKey = ctx.secretKey ∧
      (auditHashChainSign hmac ctx call.eventJson call.outSz).1.chain =
        ((signedPayload call).toList.map dumps).foldl (Chain.advance (macOf hmac ctx.secretKey) (· + 1))
          ctx.chain := by
  unfold auditHashChainSign signedPayload
  split
  · exact ⟨rfl, rfl⟩
  · cases eventRoot call.eventJson with
    | none => exact ⟨rfl, rfl⟩
    | some root => exact ⟨rfl, rfl⟩

theorem signCalls_key (hmac : Hmac) (ctx : HashChainCtx) (calls : List SignCall) :
    (signCalls hmac ctx calls).secretKey = ctx.secretKey := by
  induction calls generalizing ctx with
  | nil => rfl
  | cons call rest ih => exact (ih _).trans (sign_chain hmac ctx call).1

theorem queries_eq (hmac : Hmac) (ctx : HashChainCtx) (calls : List SignCall) :
    queries hmac ctx calls =
      (ctx.chain.messages (macOf hmac ctx.secretKey) (· + 1)
        ((calls.filterMap signedPayload).map dumps)).map fun m => toSign m.1 m.2.1 m.2.2 := by
  induction calls generalizing ctx with
  | nil => rfl
  | cons call rest ih =>
    obtain ⟨hkey, hchain⟩ := sign_chain hmac ctx call
    rw [queries, ih, hkey, hchain]
    cases hpayload : signedPayload call with
    | none =>
      rw [List.filterMap_cons_none hpayload]
      rfl
    | some payload =>
      rw [List.filterMap_cons_some hpayload]
      rfl

/-- The previous hash of everything that is signed is a hash. -/
theorem colon_not_mem_messages {hmac : Hmac} {key : Bytes} {c : Chain Bytes UInt64}
    (hc : ':' ∉ c.last) {ps : List Bytes} {m : Bytes × UInt64 × Bytes}
    (h : m ∈ c.messages (macOf hmac key) (· + 1) ps) : ':' ∉ m.1 := by
  induction ps generalizing c with
  | nil => cases h
  | cons p ps ih =>
    rcases List.mem_cons.mp h with rfl | h
    · exact hc
    · exact ih (colon_not_mem_hex hmac key _) h

theorem colon_not_mem_reads {hmac : Hmac} {key : Bytes} {c c' : Chain Bytes UInt64}
    {es : List (Entry Bytes UInt64 Bytes)} (h : c.Reads (macOf hmac key) (· + 1) es c')
    (hc : ':' ∉ c.last) : ∀ e ∈ es, ':' ∉ e.prev := by
  induction h with
  | nil c => simp
  | cons hfirst _ ih =>
    refine List.forall_mem_cons.mpr ⟨hfirst.prev ▸ hc, ih ?_⟩
    dsimp only
    rw [hfirst.tag]
    exact colon_not_mem_hex hmac key _

theorem readable_removeMetadata {root : Json} (h : Readable root) :
    Readable (sortKeys (removeMetadata root)) :=
  readable_sortKeys (((h.del "seq").del "prev_hash").del "hash")

theorem readable_of_jsonLoads {t : Bytes} {root : Json} (h : jsonLoads t = some root) :
    Readable root := by
  unfold jsonLoads at h
  split_ifs at h
  exact Readable.of_loads h

theorem readable_signedPayload {call : SignCall} {p : Json} (h : signedPayload call = some p) :
    Readable p := by
  unfold signedPayload at h
  split_ifs at h
  obtain ⟨root, hroot, rfl⟩ := Option.map_eq_some_iff.mp h
  obtain ⟨given, hgiven, hobject⟩ := Option.bind_eq_some_iff.mp hroot
  split_ifs at hobject
  obtain rfl := Option.some.inj hobject
  exact readable_removeMetadata (readable_of_jsonLoads hgiven)

/-- An entry is read from the text of the payload. -/
theorem linePayload_of_entry {line : Bytes} {e : Entry Bytes UInt64 Bytes}
    (h : readLine line = .entry e) :
    ∃ p, linePayload line = some p ∧ Readable p ∧ dumps p = e.payload := by
  unfold readLine at h
  split at h
  · cases h
  · rename_i root hroot
    refine ⟨sortKeys (removeMetadata root), ?_,
      readable_removeMetadata (readable_of_jsonLoads hroot), ?_⟩
    · rw [linePayload, hroot]
      rfl
    · split_ifs at h
      split at h
      · split at h
        · obtain rfl := LineRead.entry.inj h
          rfl
        · cases h
      · cases h

theorem map_dumps_linePayload {lines : List Bytes} {es : List (Entry Bytes UInt64 Bytes)}
    (h : lines.map readLine = es.map .entry) :
    (∀ p ∈ lines.filterMap linePayload, Readable p) ∧
      (lines.filterMap linePayload).map dumps = es.map Entry.payload := by
  induction lines generalizing es with
  | nil =>
    cases es with
    | nil => exact ⟨by simp, rfl⟩
    | cons e es => cases h
  | cons line rest ih =>
    cases es with
    | nil => cases h
    | cons e es =>
      obtain ⟨hline, hrest⟩ := List.cons.inj h
      obtain ⟨p, hp, hreadable, hdumps⟩ := linePayload_of_entry hline
      obtain ⟨hall, hmap⟩ := ih hrest
      rw [List.filterMap_cons_some hp]
      refine ⟨List.forall_mem_cons.mpr ⟨hreadable, hall⟩, ?_⟩
      rw [List.map_cons, List.map_cons, hdumps, hmap]

/-- Documents are known from their texts. -/
theorem eq_of_map_dumps {ps qs : List Json} (hps : ∀ p ∈ ps, Readable p)
    (hqs : ∀ q ∈ qs, Readable q) (h : ps.map dumps = qs.map dumps) : ps = qs := by
  have hloads : ∀ {ps : List Json}, (∀ p ∈ ps, Readable p) →
      (ps.map dumps).map loads = ps.map some := by
    intro ps hps
    rw [List.map_map]
    exact List.map_congr_left fun p hp => (hps p hp).loads_dumps
  refine List.map_injective_iff.mpr (Option.some_injective Json) ?_
  rw [← hloads hps, ← hloads hqs, h]

/-- What the signer was asked for is told apart. -/
theorem distinct_of_injOn {hmac : Hmac} {key : Bytes} {ps : List Bytes}
    (h : Set.InjOn (hmac key) { m | m ∈ genesisData ::
      ((startChain hmac key).messages (macOf hmac key) (· + 1) ps).map fun m =>
        toSign m.1 m.2.1 m.2.2 }) :
    (startChain hmac key).Distinct (macOf hmac key) (· + 1) ps where
  injective := by
    intro m hm m' hm' heq
    have hsame := h (List.mem_cons_of_mem _ (List.mem_map_of_mem hm))
      (List.mem_cons_of_mem _ (List.mem_map_of_mem hm')) (computeHmacHex_inj.mp heq)
    obtain ⟨hprev, hseq, hpayload⟩ := toSign_injective
      (colon_not_mem_messages (colon_not_mem_hex hmac key _) hm)
      (colon_not_mem_messages (colon_not_mem_hex hmac key _) hm') hsame
    exact Prod.ext hprev (Prod.ext hseq hpayload)
  start := by
    intro m hm heq
    have hsame := h (List.mem_cons_of_mem _ (List.mem_map_of_mem hm)) List.mem_cons_self
      (computeHmacHex_inj.mp heq)
    exact toSign_ne_genesis _ _ _ hsame

/-- The payloads of a file that is accepted are the first that were signed. -/
theorem payloads_of_valid (hmac : Hmac) (secret : Option Bytes) (calls : List SignCall)
    (content : Bytes) (n : UInt64)
    (hunforged : Unforged hmac (auditHashChainCreate hmac secret).secretKey
      (genesisData :: queries hmac (auditHashChainCreate hmac secret) calls) content)
    (hvalid : auditHashChainVerifyFile hmac (signCalls hmac (auditHashChainCreate hmac secret) calls)
      (some content) = .valid n) :
    ∃ k, n = UInt64.ofNat k ∧ (records content).length = k ∧
      k ≤ (calls.filterMap signedPayload).length ∧
      filePayloads content = (calls.filterMap signedPayload).take k := by
  set key := (auditHashChainCreate hmac secret).secretKey with hkey
  have hchain : (auditHashChainCreate hmac secret).chain = startChain hmac key := rfl
  have hverify : verifyLines hmac key (startChain hmac key).last ((startChain hmac key).seq + 1) 0
      (records content) = .valid n := by
    rw [auditHashChainVerifyFile, signCalls_key] at hvalid
    exact hvalid
  obtain ⟨es, c', hlines, hreads, hn⟩ := verifyLines_valid hverify
  rw [queries_eq, hchain, ← hkey] at hunforged
  have hdistinct := distinct_of_injOn hunforged.injective
  have hstart : ':' ∉ (startChain hmac key).last := colon_not_mem_hex hmac key _
  have hfront := hdistinct.payloads_prefix hreads fun e he => by
    obtain ⟨line, hline, hread⟩ := List.mem_map.mp (hlines ▸ List.mem_map_of_mem he)
    have htag : e.tag = computeHmacHex hmac key (lineMessage e) := hreads.tag_eq e he
    rcases List.mem_cons.mp (hunforged.issued line hline e hread htag) with hgenesis | hmem
    · exact absurd hgenesis (toSign_ne_genesis _ _ _)
    · obtain ⟨m, hm, hsame⟩ := List.mem_map.mp hmem
      obtain ⟨hprev, hseq, hpayload⟩ := toSign_injective (colon_not_mem_messages hstart hm)
        (colon_not_mem_reads hreads hstart e he) hsame
      have hmessage : m = e.message := Prod.ext hprev (Prod.ext hseq hpayload)
      exact hmessage ▸ hm
  have hlength : (records content).length = es.length := by
    rw [← List.length_map (f := readLine), hlines, List.length_map]
  obtain ⟨hreadable, hpayloads⟩ := map_dumps_linePayload hlines
  rw [← hpayloads] at hfront
  have hcount : (filePayloads content).length = es.length := by
    rw [← List.length_map (f := dumps), filePayloads, hpayloads, List.length_map]
  refine ⟨es.length, ?_, hlength, ?_, ?_⟩
  · rw [hn, UInt64.zero_add]
  · have hle := hfront.length_le
    rw [List.length_map, List.length_map] at hle
    exact hcount.ge.trans hle
  · refine eq_of_map_dumps hreadable (fun q hq => ?_) ?_
    · obtain ⟨call, -, hcall⟩ := List.mem_filterMap.mp (List.mem_of_mem_take hq)
      exact readable_signedPayload hcall
    · rw [List.map_take, ← hcount, ← List.length_map (f := dumps)]
      exact List.prefix_iff_eq_take.mp hfront

def infoEvent : Bytes := ascii "\x7b\"severity\":\"INFO\"\x7d"

def warnEvent : Bytes := ascii "\x7b\"severity\":\"WARN\"\x7d"

/-- The digest with these hexadecimal digits. -/
def digest (hex : Bytes) : Vector UInt8 32 :=
  Vector.ofFn fun i => UInt8.ofNat (((hexValue (hex.getD (2 * i) '0')).getD 0) * 16 +
    (hexValue (hex.getD (2 * i + 1) '0')).getD 0)

def genesisHex : Bytes := ascii "18dd27546351fabe1622807f1f4de52027631c03d31d54809544d60ba547e0c3"

def infoHex : Bytes := ascii "db8374b77f2007b190daf0eb68028df7285c4a08706f027984cba51da6bcaa7c"

def warnHex : Bytes := ascii "ce224fd3208b36dce3d13b64315104a32974f8c80db33d7786445ee568bff61e"

/-- HMAC-SHA256 with the default key, on what is asked for in signing two events. -/
def defaultHmac : Hmac := fun _ data =>
  if data = genesisData then digest genesisHex
  else if data = toSign genesisHex 1 infoEvent then digest infoHex
  else digest warnHex

def twoCalls : List SignCall := [⟨infoEvent, 4096⟩, ⟨warnEvent, 4096⟩]

/-- The file with the two signed events. -/
def twoLines : Bytes :=
  let ctx := auditHashChainCreate defaultHmac none
  let first := auditHashChainSign defaultHmac ctx infoEvent 4096
  let second := auditHashChainSign defaultHmac first.1 warnEvent 4096
  first.2.getD [] ++ '\n' :: (second.2.getD [] ++ ['\n'])

theorem records_twoLines : (records twoLines).map readLine =
    [.entry ⟨1, genesisHex, infoEvent, infoHex⟩, .entry ⟨2, infoHex, warnEvent, warnHex⟩] := by
  decide +kernel

/-- Signing the two events asks for the start of the chain and for each of them. -/
theorem queries_twoCalls :
    genesisData :: queries defaultHmac (auditHashChainCreate defaultHmac none) twoCalls =
      [genesisData, toSign genesisHex 1 infoEvent, toSign infoHex 2 warnEvent] := by
  decide +kernel

theorem unforged_twoLines :
    Unforged defaultHmac (auditHashChainCreate defaultHmac none).secretKey
      (genesisData :: queries defaultHmac (auditHashChainCreate defaultHmac none) twoCalls)
      twoLines where
  injective := by
    rw [queries_twoCalls]
    have hall : ∀ a ∈ [genesisData, toSign genesisHex 1 infoEvent, toSign infoHex 2 warnEvent],
        ∀ b ∈ [genesisData, toSign genesisHex 1 infoEvent, toSign infoHex 2 warnEvent],
          defaultHmac (auditHashChainCreate defaultHmac none).secretKey a =
            defaultHmac (auditHashChainCreate defaultHmac none).secretKey b → a = b := by
      decide +kernel
    exact fun a ha b hb => hall a ha b hb
  issued := by
    rw [queries_twoCalls]
    intro line hline e hread _
    have hentry := List.mem_map_of_mem (f := readLine) hline
    rw [records_twoLines, hread] at hentry
    rcases List.mem_cons.mp hentry with he | he
    · obtain rfl := LineRead.entry.inj he
      exact List.mem_cons_of_mem _ List.mem_cons_self
    · obtain rfl := LineRead.entry.inj (List.mem_singleton.mp he)
      exact List.mem_cons_of_mem _ (List.mem_cons_of_mem _ List.mem_cons_self)

theorem payloads_twoLines :
    ∃ k, (2 : UInt64) = UInt64.ofNat k ∧ (records twoLines).length = k ∧
      k ≤ (twoCalls.filterMap signedPayload).length ∧
      filePayloads twoLines = (twoCalls.filterMap signedPayload).take k :=
  payloads_of_valid defaultHmac none twoCalls twoLines 2 unforged_twoLines (by decide +kernel)

end Aigate.AuditTamper
