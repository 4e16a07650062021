import Aigate.SharedCache

/-!
# Answers of the Responses API from the cache

The fingerprint was made for chat requests: it does not see the `input` of a request to
`/v1/responses`, nor its `instructions`, nor which endpoint it is for. An answer from the cache
is one to the same request as long as no other request with the same fingerprint has stored.
-/
namespace Aigate.ResponsesCache
open Text JsonTree JsonText SharedCache

/-- A field of the body of a request. -/
def field (q : CacheRequest) (key : String) : Option Json := (loads q.body).bind (·.get key)

/-- The fields that tell requests of one model apart. -/
def requestFields : List String := ["input", "instructions", "tools"]

def SameRequest (q q' : CacheRequest) : Prop :=
  q'.endpoint = q.endpoint ∧ q'.model = q.model ∧ ∀ key ∈ requestFields, field q' key = field q key

variable (sha256 : Bytes → Bytes) (requests : ℕ → CacheRequest)

/-- Whatever was answered from the cache was stored by the same request. -/
def Sound (g : Gateway) : Prop :=
  ∀ a ∈ g.answered, (requests a.1).endpoint = .responses →
    ∃ j, a.2 = some j ∧ SameRequest (requests a.1) (requests j)

/-- No other request with the fingerprint of the one that looks has stored. -/
def StepOk (g : Gateway) : Event → Prop
  | .lookup i _ => (requests i).endpoint = .responses → ∀ j, HasStored g j →
      cacheKey sha256 (requests j) = cacheKey sha256 (requests i) →
        SameRequest (requests i) (requests j)
  | _ => True

def RunOk : Gateway → List Event → Prop
  | _, [] => True
  | g, event :: rest =>
    StepOk sha256 requests g event ∧ RunOk (step sha256 requests g event) rest

variable {sha256 requests}

theorem Sound.step {g : Gateway} (h : Sound requests g) (hinv : Inv sha256 requests g)
    {event : Event} (hok : StepOk sha256 requests g event) :
    Sound requests (SharedCache.step sha256 requests g event) := by
  cases event with
  | lookup i now =>
    rw [SharedCache.step, SharedCache.lookup]
    cases hkey : cacheKey sha256 (requests i) with
    | none => exact h
    | some key =>
      dsimp only
      cases hget : (g.cached.get key now).2 with
      | none => exact h
      | some r =>
        intro a ha hendpoint
        rcases List.mem_cons.mp ha with rfl | ha
        · obtain ⟨s, j, hwriter, hsame, -⟩ := hinv.hit hkey hget
          exact ⟨j, congrArg (Option.map Prod.snd) hwriter,
            hok hendpoint j ⟨r.bodyId, s, hwriter⟩ hsame⟩
        · exact h a ha hendpoint
  | store i a now allocated =>
    rw [SharedCache.step, store]
    split
    · split
      · exact h
      · exact h
    · exact h
  | release r =>
    rw [SharedCache.step]
    split
    · exact h
    · exact h
  | purge s model =>
    rw [SharedCache.step]
    exact fun a ha => h a ha

theorem Sound.run {g : Gateway} (h : Sound requests g) (hinv : Inv sha256 requests g)
    {events : List Event} (hok : RunOk sha256 requests g events) :
    Sound requests (SharedCache.run sha256 requests g events) := by
  induction events generalizing g with
  | nil => exact h
  | cons event rest ih =>
    have hnext : Sound requests (SharedCache.step sha256 requests g event) := h.step hinv hok.1
    exact ih hnext (hinv.step event) hok.2

theorem RunOk.take {g : Gateway} {events : List Event} (h : RunOk sha256 requests g events) (n : ℕ) :
    RunOk sha256 requests g (events.take n) := by
  induction events generalizing g n with
  | nil => simpa using h
  | cons event rest ih =>
    cases n with
    | zero => trivial
    | succ n => exact ⟨h.1, ih h.2 n⟩

def responsesRequest (body : Bytes) : CacheRequest := ⟨.responses, ascii "gpt-4o", body, none⟩

def sumBody : Bytes := ascii "\x7b\"model\":\"gpt-4o\",\"input\":\"What is 2 + 2?\"\x7d"

def playBody : Bytes := ascii "\x7b\"model\":\"gpt-4o\",\"input\":\"Who wrote Hamlet?\"\x7d"

/-- The hash of the only canonical text that is asked for, `model:gpt-4o|`. -/
def modelHash : Bytes := [0xd2, 0xc0, 0xa2, 0x97, 0x72, 0xea, 0x4f, 0x5e, 0xd4, 0x05, 0xca, 0x82,
  0x32, 0xe7, 0x42, 0x5e, 0x07, 0x82, 0xa7, 0x5f, 0xe8, 0x4e, 0x55, 0x0d, 0xf8, 0x8f, 0x66, 0x77,
  0xb0, 0xb1, 0x16, 0xeb].map Char.ofNat

def sha256Model : Bytes → Bytes := fun _ => modelHash

/-- The answer of request 0 comes from upstream and is stored, and then another one looks. -/
def askedAfter (i : ℕ) : List Event :=
  [.lookup 0 1700000000,
    .store 0 (.whole 200 (some (ascii "\x7b\"output_text\":\"4\"\x7d")) 12 3) 1700000001 true,
    .lookup i 1700000002]

def twoQuestions (i : ℕ) : CacheRequest := responsesRequest (if i = 0 then sumBody else playBody)

end Aigate.ResponsesCache
