import Aigate.JsonNumbers
import Aigate.JsonText
import Aigate.QueryParams

/-!
# Admin requests

What the handlers of the admin API share: bodies, answers, texts in buffers of a fixed
size, and store operations that may fail.
-/
namespace Aigate.AdminRequests
open Text JsonTree JsonText JsonNumbers QueryParams

/-- The text in a buffer that has room for so many bytes. -/
abbrev Field (n : ℕ) := { s : Bytes // s.length ≤ n }

/-- `copy_field`: what does not fit is cut off. -/
def copyField (n : ℕ) (s : Bytes) : Field n := ⟨s.take n, List.length_take_le n s⟩

def noText (n : ℕ) : Field n := ⟨[], n.zero_le⟩

/-- The first text that is not empty, or the last one. -/
def orElse {n : ℕ} (a b : Field n) : Field n := if a.1 = [] then b else a

/-- A list of model names as it is sent to the store. -/
def joined (models : List Bytes) : Bytes := ['|'].intercalate models

/-- The list that is read back. -/
def storedModels (models : List Bytes) : List Bytes :=
  ((joined models).splitOn '|').filter (· ≠ [])

/-- `parse_prompt_mode`: a name, or a number from 0 to 2; the default otherwise. -/
def parsePromptMode (v : Json) (default : ℤ) : ℤ :=
  match v with
  | .string s => if s = ascii "append" then 1 else if s = ascii "override" then 2 else 0
  | .integer n =>
    let val := castInt n.toInt
    if 0 ≤ val ∧ val ≤ 2 then val else default
  | _ => default

/-- The result of a store operation, unless it fails. -/
def attempt {α : Type*} (fails : Bool) (result : Option α) : Option α :=
  if fails then none else result

@[simp] theorem attempt_false {α : Type*} (result : Option α) : attempt false result = result :=
  rfl

theorem attempt_eq_some {α : Type*} {fails : Bool} {result : Option α} {x : α}
    (h : attempt fails result = some x) : result = some x := by
  unfold attempt at h
  split_ifs at h
  exact h

theorem fails_of_attempt {α : Type*} {fails : Bool} {result : Option α} {x : α}
    (h : attempt fails result = some x) : fails = false := by
  cases fails with
  | false => rfl
  | true => cases h

/-- The error statuses of the admin API. -/
inductive Failure where
  | badRequest
  | notFound
  | conflict
  | internal

def Failure.status : Failure → ℕ
  | .badRequest => 400
  | .notFound => 404
  | .conflict => 409
  | .internal => 500

theorem Failure.le_status (f : Failure) : 400 ≤ f.status := by
  cases f <;> decide

/-- The answer to an admin request: an error with its type and its message, or a report of
what was created or updated. -/
inductive Reply (R : Type*) where
  | refused (failure : Failure) (type message : String)
  | created (report : R)
  | updated (report : R)

def Reply.status {R : Type*} : Reply R → ℕ
  | .refused failure _ _ => failure.status
  | .created _ => 201
  | .updated _ => 200

def Reply.report {R : Type*} : Reply R → Option R
  | .refused _ _ _ => none
  | .created r => some r
  | .updated r => some r

def Reply.map {R R' : Type*} (f : R → R') : Reply R → Reply R'
  | .refused failure type message => .refused failure type message
  | .created r => .created (f r)
  | .updated r => .updated (f r)

theorem Reply.report_map {R R' : Type*} (f : R → R') (reply : Reply R) :
    (reply.map f).report = reply.report.map f := by
  cases reply <;> rfl

/-- An error leaves everything as it was, and a report tells what holds afterwards. -/
structure Atomic {R S : Type*} (holds : R → S → Prop) (before : S) (out : Reply R × S) :
    Prop where
  refused : 400 ≤ out.1.status → out.2 = before
  reported : ∀ r, out.1.report = some r → holds r out.2

theorem Reply.le_status_iff {R : Type*} (reply : Reply R) :
    400 ≤ reply.status ↔ reply.report = none := by
  cases reply with
  | refused failure type message => simp [Reply.status, Reply.report, failure.le_status]
  | created r => simp [Reply.status, Reply.report]
  | updated r => simp [Reply.status, Reply.report]

/-- A request that is refused. -/
theorem atomic_of_none {R S : Type*} {holds : R → S → Prop} {before after : S}
    {reply : Reply R} (h : reply.report = none) :
    Atomic holds before (reply, after) ↔ after = before :=
  ⟨fun a => a.refused (reply.le_status_iff.mpr h),
    fun ha => ⟨fun _ => ha, fun r hr => by rw [h] at hr; cases hr⟩⟩

/-- A request that is carried out. -/
theorem atomic_of_some {R S : Type*} {holds : R → S → Prop} {before after : S}
    {reply : Reply R} {r : R} (h : reply.report = some r) :
    Atomic holds before (reply, after) ↔ holds r after := by
  constructor
  · exact fun a => a.reported r h
  · refine fun hr => ⟨fun hs => ?_, fun r' hr' => ?_⟩
    · rw [reply.le_status_iff, h] at hs
      cases hs
    · rw [h] at hr'
      cases hr'
      exact hr

/-- A request that is carried out on a part of what there is. -/
theorem atomic_map {R R' S W : Type*} {holds : R → S → Prop} {holds' : R' → W → Prop}
    (f : R → R') (put : S → W) {before : S} {w : W} (hput : ∀ s, put s = w ↔ s = before)
    (hholds : ∀ r s, holds' (f r) (put s) ↔ holds r s) (out : Reply R × S) :
    Atomic holds' w (out.1.map f, put out.2) ↔ Atomic holds before out := by
  obtain ⟨reply, after⟩ := out
  have hmap := reply.report_map f
  cases hreport : reply.report with
  | none =>
    rw [hreport, Option.map_none] at hmap
    rw [atomic_of_none hmap, atomic_of_none hreport, hput]
  | some r =>
    rw [hreport, Option.map_some] at hmap
    rw [atomic_of_some hmap, atomic_of_some hreport, hholds]

/-- An error with the type that most of them have. -/
def badRequest {R : Type*} (message : String) : Reply R :=
  .refused .badRequest "bad_request" message

/-- `parse_body`: an object; no body at all is an empty one. -/
def parseBody : Option Bytes → Option Json
  | none => some (.object [])
  | some body => (loads body).filter Json.isObject

def integerField (jbody : Json) (key : String) : Option ℤ :=
  (jbody.get key).bind integerValue

def boolField (jbody : Json) (key : String) : Option Bool := (jbody.get key).bind boolValue

/-- What a field of a body turns out to be: a value, or nothing, or an error. -/
inductive Reading (α : Type*) where
  | value (x : α)
  | ignored
  | refused (message : String)

def orIgnored {α : Type*} (read : Json → Option α) (v : Json) : Reading α :=
  (read v).elim .ignored .value

def orRefused {α : Type*} (message : String) (read : Json → Option α) (v : Json) : Reading α :=
  (read v).elim (.refused message) .value

/-- A value, or the default for `null`. -/
def orNull {α : Type} (read : Json → Option α) (default : α) : Json → Option α
  | .null => some default
  | v => read v

/-- A field of the record and its column, as far as the field of the body has a value. -/
def changeField {K C α : Type*} (read : Json → Reading α) (set : α → K → K) (column : C)
    (field : Option Json) (k : K × List C) : Except String (K × List C) :=
  match field.map read with
  | some (.value x) => .ok (set x k.1, column :: k.2)
  | some (.refused message) => .error message
  | _ => .ok k

/-- A request with a body, what encrypting a key with the master key gives, and which of the
store operations of the request fail. -/
structure Call where
  body : Option Bytes
  encrypt : Bytes → Option Bytes
  faults : ℕ → Bool

end Aigate.AdminRequests
