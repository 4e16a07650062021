import Aigate.Text

/-!
# The body of an upstream answer

`upstream_call_ext` hands out the buffer in which it has collected the body of an answer. A
buffer is allocated when the first chunk comes, and without a buffer an empty literal is handed
out. The blocks are told apart by the calls that allocate them.
-/
namespace Aigate.UpstreamCall
open Text

/-- The number of a candidate, and of a call for it. -/
abbrev Block := ℕ × ℕ

inductive Ptr where
  | null
  | literal
  | heap (b : Block)
  deriving DecidableEq

/-- What happens to the bodies. A reply is a text of its own. -/
inductive Op where
  | alloc (b : Block)
  | handOut (p : Ptr)
  | read (p : Ptr)
  | send (p : Ptr)
  | free (p : Ptr)
  | reply
  deriving DecidableEq

/-- What libcurl hands to the write callback, and whether a buffer that has to grow is given the
memory. -/
structure Chunk where
  bytes : Bytes
  granted : Bool

structure RespBuf where
  data : Option Bytes
  cap : ℕ

def RespBuf.len (rb : RespBuf) : ℕ := (rb.data.getD []).length

/-- `UPSTREAM_RESP_MAX`. -/
def upstreamRespMax : ℕ := 32 * 1024 * 1024

/-- The capacity is doubled until it is enough. -/
def grownCap (need : ℕ) : ℕ → ℕ → ℕ
  | 0, cap => cap
  | rounds + 1, cap => if cap < need then grownCap need rounds (cap * 2) else cap

/-- `append_body`, and the bytes that it says are consumed. -/
def appendBody (rb : RespBuf) (c : Chunk) : RespBuf × ℕ :=
  let need := rb.len + c.bytes.length + 1
  if upstreamRespMax ≤ rb.len + c.bytes.length then (rb, 0)
  else if rb.cap < need then
    if c.granted then
      (⟨some (rb.data.getD [] ++ c.bytes), grownCap need need (if rb.cap = 0 then 1024 else rb.cap)⟩,
        c.bytes.length)
    else (rb, 0)
  else (⟨some (rb.data.getD [] ++ c.bytes), rb.cap⟩, c.bytes.length)

/-- The chunks of a transfer, which is aborted when one is not consumed. -/
def receive (rb : RespBuf) : List Chunk → RespBuf × Bool
  | [] => (rb, true)
  | c :: rest =>
    if (appendBody rb c).2 = c.bytes.length then receive (appendBody rb c).1 rest
    else ((appendBody rb c).1, false)

inductive CurlCode where
  | ok
  | timedOut
  | failed
  deriving DecidableEq

/-- What libcurl does in a call: whether there is a handle, the chunks, how a transfer ends that is
not aborted, and the code that is asked for then. -/
structure Transfer where
  handle : Bool
  chunks : List Chunk
  result : CurlCode
  httpCode : Option ℤ

structure Answer where
  rc : ℤ
  status : ℤ
  body : Ptr
  ops : List Op

def allocOps (block : Block) (rb : RespBuf) : List Op :=
  if rb.data.isSome then [.alloc block] else []

def dataPtr (block : Block) (rb : RespBuf) : Ptr := if rb.data.isSome then .heap block else .null

/-- A call that fails frees what it has collected and leaves the status as it was. -/
def failedCall (block : Block) (status rc : ℤ) (rb : RespBuf) : Answer :=
  ⟨rc, status, .null, allocOps block rb ++ [.free (dataPtr block rb)]⟩

def handedOut (block : Block) (rb : RespBuf) : Ptr := if rb.data.isSome then .heap block else .literal

/-- `upstream_call_ext`. -/
def upstreamCallExt (block : Block) (status : ℤ) (t : Transfer) : Answer :=
  if t.handle = false then failedCall block status (-502) ⟨none, 0⟩
  else
    let received := receive ⟨none, 0⟩ t.chunks
    match if received.2 then t.result else .failed, t.httpCode with
    | .ok, some code =>
      ⟨0, code, handedOut block received.1,
        allocOps block received.1 ++ [.handOut (handedOut block received.1)]⟩
    | .ok, none => failedCall block status (-502) received.1
    | .timedOut, _ => failedCall block status (-110) received.1
    | .failed, _ => failedCall block status (-502) received.1

/-- The status of a call that succeeds. -/
def Transfer.code (t : Transfer) : Option ℤ :=
  if t.handle ∧ (receive ⟨none, 0⟩ t.chunks).2 ∧ t.result = .ok then t.httpCode else none

/-- A call that succeeds although no chunk has been stored. -/
def Transfer.Bare (t : Transfer) : Prop :=
  t.code ≠ none ∧ ∀ c ∈ t.chunks, c.bytes = [] ∧ c.granted = false

theorem appendBody_isSome {rb : RespBuf} (h : rb.data.isSome) (c : Chunk) :
    (appendBody rb c).1.data.isSome := by
  unfold appendBody
  dsimp only
  split_ifs
  all_goals
    first
    | exact h
    | rfl

theorem receive_cons (rb : RespBuf) (c : Chunk) (rest : List Chunk) : receive rb (c :: rest) =
    if (appendBody rb c).2 = c.bytes.length then receive (appendBody rb c).1 rest
    else ((appendBody rb c).1, false) := rfl

theorem receive_isSome {rb : RespBuf} (h : rb.data.isSome) (chunks : List Chunk) :
    (receive rb chunks).1.data.isSome := by
  induction chunks generalizing rb with
  | nil => exact h
  | cons c rest ih =>
    rw [receive_cons]
    split
    · exact ih (appendBody_isSome h c)
    · exact appendBody_isSome h c

/-- The first chunk gets a buffer, is too long, or is not consumed. -/
theorem appendBody_first (c : Chunk) : appendBody ⟨none, 0⟩ c =
    if c.bytes.length < upstreamRespMax ∧ c.granted = true then
      (⟨some c.bytes, grownCap (c.bytes.length + 1) (c.bytes.length + 1) 1024⟩, c.bytes.length)
    else (⟨none, 0⟩, 0) := by
  unfold appendBody RespBuf.len
  by_cases hmax : c.bytes.length < upstreamRespMax
  · cases hgranted : c.granted <;> simp [hmax, Nat.not_le.mpr hmax]
  · simp [hmax, Nat.not_lt.mp hmax]

/-- A transfer ends well without a buffer exactly if no chunk gets one. -/
theorem receive_bare {chunks : List Chunk} :
    ((receive ⟨none, 0⟩ chunks).2 = true ∧ (receive ⟨none, 0⟩ chunks).1.data = none) ↔
      ∀ c ∈ chunks, c.bytes = [] ∧ c.granted = false := by
  induction chunks with
  | nil => simp [receive]
  | cons c rest ih =>
    have hmax : 0 < upstreamRespMax := by decide
    rw [List.forall_mem_cons, ← ih]
    rw [receive_cons, appendBody_first]
    by_cases hstored : c.bytes.length < upstreamRespMax ∧ c.granted = true
    · rw [if_pos hstored, if_pos rfl]
      have hfirst : (RespBuf.mk (some c.bytes)
          (grownCap (c.bytes.length + 1) (c.bytes.length + 1) 1024)).data.isSome := rfl
      have hsome := receive_isSome hfirst rest
      constructor
      · intro ⟨_, hnone⟩
        rw [hnone] at hsome
        cases hsome
      · intro ⟨⟨_, hgranted⟩, _⟩
        rw [hstored.2] at hgranted
        cases hgranted
    · rw [if_neg hstored]
      cases hbytes : c.bytes with
      | nil =>
        have hgranted : c.granted = false := by
          rw [← Bool.not_eq_true]
          exact fun hgranted => hstored ⟨by simpa [hbytes] using hmax, hgranted⟩
        simp [hgranted]
      | cons x xs => simp

theorem upstreamCallExt_none {t : Transfer} (h : t.code = none) (block : Block) (status : ℤ) :
    ∃ rc rb, rc ≠ 0 ∧ upstreamCallExt block status t = failedCall block status rc rb := by
  unfold upstreamCallExt
  by_cases hhandle : t.handle = false
  · exact ⟨-502, _, by decide, if_pos hhandle⟩
  · rw [if_neg hhandle]
    dsimp only
    split
    next code hok hcode =>
      have hwhole : (receive ⟨none, 0⟩ t.chunks).2 = true ∧ t.result = .ok := by
        split at hok
        · exact ⟨by assumption, hok⟩
        · cases hok
      have hsome : t.code = some code := by
        rw [Transfer.code, if_pos ⟨by simpa using hhandle, hwhole⟩, hcode]
      rw [h] at hsome
      cases hsome
    · exact ⟨-502, _, by decide, rfl⟩
    · exact ⟨-110, _, by decide, rfl⟩
    · exact ⟨-502, _, by decide, rfl⟩

theorem upstreamCallExt_some {t : Transfer} {code : ℤ} (h : t.code = some code) (block : Block)
    (status : ℤ) : ∃ rb : RespBuf, (rb.data = none ↔ t.Bare) ∧ upstreamCallExt block status t =
      ⟨0, code, handedOut block rb, allocOps block rb ++ [.handOut (handedOut block rb)]⟩ := by
  unfold Transfer.code at h
  split at h
  next hends =>
    refine ⟨(receive ⟨none, 0⟩ t.chunks).1, ?_, ?_⟩
    · unfold Transfer.Bare Transfer.code
      rw [if_pos hends, h, ← receive_bare]
      simp [hends.2.1]
    · unfold upstreamCallExt
      rw [if_neg (by simp [hends.1])]
      dsimp only
      rw [if_pos hends.2.1, hends.2.2, h]
  · cases h

/-- What a call does. -/
inductive Ends (block : Block) (t : Transfer) (r : Answer) : Prop where
  | failed (rb : RespBuf) (hcode : t.code = none) (hrc : r.rc ≠ 0) (hbody : r.body = .null)
      (hops : r.ops = allocOps block rb ++ [.free (dataPtr block rb)])
  | bare (hcode : t.code = some r.status) (hbare : t.Bare) (hrc : r.rc = 0)
      (hbody : r.body = .literal) (hops : r.ops = [.handOut .literal])
  | filled (hcode : t.code = some r.status) (hbare : ¬ t.Bare) (hrc : r.rc = 0)
      (hbody : r.body = .heap block) (hops : r.ops = [.alloc block, .handOut (.heap block)])

theorem upstreamCallExt_ends (block : Block) (status : ℤ) (t : Transfer) :
    Ends block t (upstreamCallExt block status t) := by
  cases hcode : t.code with
  | none =>
    obtain ⟨rc, rb, hrc, heq⟩ := upstreamCallExt_none hcode block status
    rw [heq]
    exact .failed rb hcode hrc rfl rfl
  | some code =>
    obtain ⟨rb, hbare, heq⟩ := upstreamCallExt_some hcode block status
    rw [heq]
    cases hdata : rb.data with
    | none =>
      refine .bare hcode (hbare.mp hdata) rfl ?_ ?_
      · simp [handedOut, hdata]
      · simp [handedOut, allocOps, hdata]
    | some bytes =>
      refine .filled hcode (fun h => ?_) rfl ?_ ?_
      · rw [hbare.mpr h] at hdata
        cases hdata
      · simp [handedOut, hdata]
      · simp [handedOut, allocOps, hdata]

namespace Ends
variable {block : Block} {t : Transfer} {r : Answer}

/-- A call frees no block but its own. -/
theorem free_mem (h : Ends block t r) {q : Ptr} (hq : .free q ∈ r.ops) :
    q = .null ∨ q = .heap block := by
  cases h with
  | failed rb _ _ _ hops =>
    rw [hops] at hq
    unfold allocOps dataPtr at hq
    cases hdata : rb.data <;> simp_all
  | bare _ _ _ _ hops => simp [hops] at hq
  | filled _ _ _ _ hops => simp [hops] at hq

theorem body_block (h : Ends block t r) {b : Block} (hbody : r.body = .heap b) : b = block := by
  cases h with
  | failed _ _ _ hnull _ => simp [hnull] at hbody
  | bare _ _ _ hliteral _ => simp [hliteral] at hbody
  | filled _ _ _ hheap _ => simpa [hheap, eq_comm] using hbody

/-- What is handed out is the body, and then nothing has been freed. -/
theorem handOut_mem (h : Ends block t r) {p : Ptr} (hp : .handOut p ∈ r.ops) :
    p = r.body ∧ ∀ q, .free q ∉ r.ops := by
  cases h with
  | failed rb _ _ _ hops =>
    rw [hops] at hp
    unfold allocOps at hp
    cases hdata : rb.data <;> simp_all
  | bare _ _ _ hbody hops => simp_all
  | filled _ _ _ hbody hops => simp_all

theorem handOut_filled (h : Ends block t r) (hbare : ¬ t.Bare) {p : Ptr} (hp : .handOut p ∈ r.ops) :
    p = .heap block ∧ .alloc block ∈ r.ops := by
  cases h with
  | failed rb _ _ _ hops =>
    rw [hops] at hp
    unfold allocOps at hp
    cases hdata : rb.data <;> simp_all
  | bare _ h _ _ _ => exact absurd h hbare
  | filled _ _ _ _ hops => simp_all

theorem handOut_bare (h : Ends block t r) (hbare : t.Bare) :
    r.body = .literal ∧ .handOut .literal ∈ r.ops := by
  cases h with
  | failed _ hcode _ _ _ => exact absurd hcode hbare.1
  | bare _ _ _ hbody hops => exact ⟨hbody, by simp [hops]⟩
  | filled _ h _ _ _ => exact absurd hbare h

theorem status_iff (h : Ends block t r) (n : ℤ) :
    (r.rc = 0 ∧ n ≤ r.status) ↔ ∃ code ∈ t.code, n ≤ code := by
  cases h with
  | failed _ hcode hrc _ _ => simp [hcode, hrc]
  | bare hcode _ hrc _ _ => simp [hcode, hrc]
  | filled hcode _ hrc _ _ => simp [hcode, hrc]

end Ends

end Aigate.UpstreamCall
