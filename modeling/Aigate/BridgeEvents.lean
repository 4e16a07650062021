import Aigate.AuditLog
import Aigate.BoundedLines
import Aigate.ProviderRequests
import Aigate.StreamCache

/-!
# The events that the stream bridges write

A bridge packs a chunk, formats it as an event into a buffer on its stack and writes the buffer.
What does not fit in the buffer is cut off.
-/
namespace Aigate.BridgeEvents
open Text JsonTree JsonText Guardrails Utf8 StreamCache ProviderRequests BoundedLines

/-- The first occurrence of a text, and all behind it. -/
def strstr (pat : Bytes) : Bytes → Option Bytes
  | [] => if pat = [] then some [] else none
  | c :: cs => if pat.isPrefixOf (c :: cs) then some (c :: cs) else strstr pat cs

def skipBlanks (text : Bytes) : Bytes := text.dropWhile (· = ' ')

/-- `snprintf` into a buffer of the given size. -/
def snprintf (cap : ℕ) (text : Bytes) : Bytes := text.take (cap - 1)

/-- An event of one line of data. -/
def dataEvent (packed : Bytes) : Bytes := ascii "data: " ++ packed ++ ['\n', '\n']

def doneEvent : Bytes := dataEvent (ascii "[DONE]")

/-- The size of the buffer for an event, and of the buffer for a line. -/
def eventCap : ℕ := 8192

/-- `json_object_set_new(o, key, json_string(s))`: the member is missing for a text that is not
UTF-8. -/
def stringMember (key : String) (s : Bytes) : List (Bytes × Json) :=
  if utf8Check s then [(ascii key, .string s)] else []

/-- `json_dumps` of the arguments of a call, which must be an array or an object. -/
def argumentsText (args : Option Json) : Bytes :=
  match args with
  | some j => if isDocument j then dumps j else ascii "\x7b\x7d"
  | none => ascii "\x7b\x7d"

/-- The integer of a member, or the value so far. -/
def integerOr (j : Option Json) (old : Int64) : Int64 :=
  match j with
  | some (.integer n) => n
  | _ => old

/-- Without the carriage return before the end of a line. -/
def stripCr (line : Bytes) : Bytes := if line.getLast? = some '\r' then line.dropLast else line

/-- The lines that are handed on when a stream arrives in the given chunks. -/
def taken (chunks : List Bytes) : List Bytes := completed eventCap '\n' [] chunks

/-- The feed of a bridge, from a state with nothing carried. -/
def feedAll {σ : Type*} (takeLine : σ → Bytes → σ) (b : σ) (chunks : List Bytes) : σ :=
  (chunks.foldl (Reader.feed eventCap '\n' takeLine) ⟨[], b⟩).state

/-- A bridge takes the completed lines, and nothing else. -/
theorem feedAll_eq {σ : Type*} (takeLine : σ → Bytes → σ) (b : σ) (chunks : List Bytes) :
    feedAll takeLine b chunks = (taken chunks).foldl takeLine b :=
  Reader.state_foldl eventCap '\n' takeLine chunks ⟨[], b⟩

/-- Short lines that arrive in one chunk. -/
theorem taken_lines {ls : List Bytes} (h : ∀ l ∈ ls, '\n' ∉ l ∧ l.length < eventCap) :
    taken [ls.flatMap (· ++ ['\n'])] = ls := by
  unfold taken
  rw [completed_whole, LineBuffer.lines_flatMap fun l hl => (h l hl).1]
  exact List.filter_eq_self.mpr fun l hl => decide_eq_true (h l hl).2

end Aigate.BridgeEvents
