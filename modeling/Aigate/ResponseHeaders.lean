import Aigate.Guardrails
import Aigate.KeyStore

/-!
# The head of an answer

The headers of an answer are formatted one behind the other in a buffer of fixed size. The first
write sends the status line, four headers of the transport, the buffer as a string and an empty
line in front of the body.
-/
namespace Aigate.ResponseHeaders
open Text Guardrails KeyStore

abbrev lineFeed : Char := '\n'

def crlf : Bytes := ['\r', '\n']

/-- The size of `header_buf`. -/
def headerCap : ℕ := 4096

/-- `header_buf` and `header_len`. -/
structure HeaderBuf where
  bytes : Bytes
  len : ℕ
  size : bytes.length = headerCap
  room : len < headerCap

/-- `snprintf` behind the headers; the length is advanced if the text has not been cut. -/
def HeaderBuf.print (b : HeaderBuf) (s : Bytes) : HeaderBuf where
  bytes := b.bytes.take b.len ++ (s.take (headerCap - b.len - 1) ++
    nul :: b.bytes.drop (b.len + (s.take (headerCap - b.len - 1)).length + 1))
  len := if 0 < s.length ∧ s.length < headerCap - b.len then b.len + s.length else b.len
  size := by
    have hsize := b.size
    have hroom := b.room
    simp only [List.length_append, List.length_cons, List.length_take, List.length_drop]
    omega
  room := by
    have hroom := b.room
    split <;> omega

theorem HeaderBuf.print_len (b : HeaderBuf) (s : Bytes) : (b.print s).len =
    if 0 < s.length ∧ s.length < headerCap - b.len then b.len + s.length else b.len := rfl

/-- The arguments of a call of `set_header`. -/
structure Header where
  name : Bytes
  value : Bytes

/-- `"%s: %s"`. -/
def Header.text (f : Header) : Bytes := cString f.name ++ (ascii ": " ++ cString f.value)

def Header.line (f : Header) : Bytes := f.text ++ crlf

/-- `cw_response_state`, with what has been given to the connection. -/
structure ResponseState where
  sent : Bytes
  status : ℤ
  headersSent : Bool
  header : HeaderBuf
  rcStatus : Option ℤ
  corsAllowOrigin : Option Bytes

/-- `http_reason`. -/
def httpReason (status : ℤ) : Bytes :=
  match status with
  | 200 => ascii "OK"
  | 201 => ascii "Created"
  | 204 => ascii "No Content"
  | 400 => ascii "Bad Request"
  | 401 => ascii "Unauthorized"
  | 403 => ascii "Forbidden"
  | 404 => ascii "Not Found"
  | 429 => ascii "Too Many Requests"
  | 500 => ascii "Internal Server Error"
  | 501 => ascii "Not Implemented"
  | 502 => ascii "Bad Gateway"
  | 503 => ascii "Service Unavailable"
  | _ => ascii "Response"

/-- `cw_set_header`. -/
def cwSetHeader (st : ResponseState) (f : Header) : ResponseState :=
  if st.headersSent then st else { st with header := st.header.print f.line }

/-- The status of the pipeline, if it has set one. -/
def answerStatus (rcStatus : Option ℤ) (status : ℤ) : ℤ :=
  match rcStatus with
  | some s => if s ≠ 0 then s else status
  | none => status

def allowedOrigin (corsAllowOrigin : Option Bytes) : Bytes :=
  match corsAllowOrigin with
  | some o => if cString o ≠ [] then cString o else ascii "*"
  | none => ascii "*"

def statusLine (status : ℤ) : Bytes :=
  ascii "HTTP/1.1 " ++ (intText status ++ (ascii " " ++ httpReason status))

/-- The headers of the transport. -/
def ownLines (origin : Bytes) : List Bytes :=
  [ascii "Access-Control-Allow-Origin: " ++ origin,
    ascii "X-Content-Type-Options: nosniff",
    ascii "X-Frame-Options: DENY",
    ascii "Referrer-Policy: strict-origin-when-cross-origin"]

/-- Lines, each with its end. -/
def block (lines : List Bytes) : Bytes := lines.flatMap (· ++ crlf)

/-- `cw_write`; the result of `mg_write` is a parameter. -/
def cwWrite (mgWrite : Bytes → ℤ) (st : ResponseState) (buf : Option Bytes) (_fin : Bool) :
    ℤ × ResponseState :=
  let st :=
    if st.headersSent then st
    else
      { st with
        headersSent := true
        sent := st.sent ++ (block (statusLine (answerStatus st.rcStatus st.status) ::
          ownLines (allowedOrigin st.corsAllowOrigin)) ++ (cString st.header.bytes ++ crlf)) }
  match buf with
  | some (c :: cs) =>
    (if mgWrite (c :: cs) < 0 then -1 else 0, { st with sent := st.sent ++ c :: cs })
  | _ => (0, st)

/-- The buffer of a new answer. -/
def HeaderBuf.empty : HeaderBuf :=
  ⟨List.replicate headerCap nul, 0, List.length_replicate, by decide⟩

/-- A new answer. -/
def newResponse (status : ℤ) (rcStatus : Option ℤ) (corsAllowOrigin : Option Bytes) :
    ResponseState :=
  ⟨[], status, false, .empty, rcStatus, corsAllowOrigin⟩

/-! ### The headers that find room -/

def textOf (kept : List Header) : Bytes := block (kept.map Header.text)

/-- The header fits behind others, with a terminator. -/
def HasRoom (kept : List Header) (f : Header) : Prop :=
  (textOf kept).length + f.line.length < headerCap

instance (kept : List Header) (f : Header) : Decidable (HasRoom kept f) :=
  inferInstanceAs (Decidable (_ < _))

/-- The calls that find room behind the earlier of them. -/
def fitting (calls : List Header) : List Header :=
  calls.foldl (fun kept f => if HasRoom kept f then kept ++ [f] else kept) []

/-- The last call finds room, or the others have filled the buffer up to its last byte. -/
def Covered (calls : List Header) : Prop :=
  (textOf (fitting calls)).length + 1 = headerCap ∨
    ∀ before f, calls = before ++ [f] → HasRoom (fitting before) f

/-- Some of the calls are kept; a call is left out only if it finds no room. -/
inductive Chosen : List Header → List Header → Prop
  | none : Chosen [] []
  | take {calls kept : List Header} (f : Header) :
    Chosen calls kept → Chosen (calls ++ [f]) (kept ++ [f])
  | drop {calls kept : List Header} (f : Header) :
    Chosen calls kept → ¬HasRoom kept f → Chosen (calls ++ [f]) kept

/-- A line with something in it. -/
def IsLine (line : Bytes) : Prop := line ≠ [] ∧ lineFeed ∉ line

/-- The lines of the head: the status line, the headers of the transport, and the others. -/
def headOf (status : ℤ) (origin : Bytes) (kept : List Header) : List Bytes :=
  statusLine status :: (ownLines origin ++ kept.map Header.text)

/-- What is claimed of the bytes of an answer: lines, of which none is empty, an empty line, and
the body; behind the lines of the transport are headers that have been set. -/
def Framed (status : ℤ) (origin : Bytes) (calls : List Header) (body bytes : Bytes) : Prop :=
  ∃ kept, Chosen calls kept ∧ (∀ line ∈ headOf status origin kept, IsLine line) ∧
    bytes = block (headOf status origin kept) ++ (crlf ++ body)

@[simp] theorem block_append (a b : List Bytes) : block (a ++ b) = block a ++ block b := by
  simp [block]

@[simp] theorem textOf_append (a b : List Header) : textOf (a ++ b) = textOf a ++ textOf b := by
  simp [textOf]

@[simp] theorem textOf_singleton (f : Header) : textOf [f] = f.line := by
  simp [textOf, block, Header.line]

theorem fitting_concat (calls : List Header) (f : Header) : fitting (calls ++ [f]) =
    if HasRoom (fitting calls) f then fitting calls ++ [f] else fitting calls := by
  rw [fitting, List.foldl_append]
  rfl

theorem fitting_of_room {calls : List Header} {f : Header} (h : HasRoom (fitting calls) f) :
    fitting (calls ++ [f]) = fitting calls ++ [f] := by
  rw [fitting_concat, if_pos h]

theorem fitting_of_not_room {calls : List Header} {f : Header} (h : ¬HasRoom (fitting calls) f) :
    fitting (calls ++ [f]) = fitting calls := by
  rw [fitting_concat, if_neg h]

theorem chosen_fitting (calls : List Header) : Chosen calls (fitting calls) := by
  induction calls using List.reverseRecOn with
  | nil => exact Chosen.none
  | append_singleton calls f ih =>
    by_cases hroom : HasRoom (fitting calls) f
    · rw [fitting_of_room hroom]
      exact ih.take f
    · rw [fitting_of_not_room hroom]
      exact ih.drop f hroom

/-- Whoever keeps a call that finds no room has too much text. -/
theorem Chosen.eq_fitting_or {calls kept : List Header} (h : Chosen calls kept) :
    kept = fitting calls ∨ headerCap ≤ (textOf kept).length := by
  induction h with
  | none => exact Or.inl rfl
  | @take calls kept f _ ih =>
    rcases ih with rfl | hlong
    · by_cases hroom : HasRoom (fitting calls) f
      · exact Or.inl (fitting_of_room hroom).symm
      · right
        simpa [HasRoom] using hroom
    · right
      simp only [textOf_append, List.length_append]
      omega
  | @drop calls kept f _ hroom ih =>
    rcases ih with rfl | hlong
    · exact Or.inl (fitting_of_not_room hroom).symm
    · exact Or.inr hlong

theorem covered_concat (calls : List Header) (f : Header) : Covered (calls ++ [f]) ↔
    HasRoom (fitting calls) f ∨ (textOf (fitting calls)).length + 1 = headerCap := by
  have hlast : (∀ before g, calls ++ [f] = before ++ [g] → HasRoom (fitting before) g) ↔
      HasRoom (fitting calls) f := by
    constructor
    · exact fun hall => hall calls f rfl
    · intro hroom before g heq
      obtain ⟨rfl, hg⟩ := List.append_inj' heq rfl
      obtain rfl := List.singleton_inj.mp hg
      exact hroom
  rw [Covered, hlast]
  by_cases hroom : HasRoom (fitting calls) f
  · simp [hroom]
  · simp [hroom, fitting_of_not_room hroom]

/-! ### The buffer -/

/-- The buffer after some calls. -/
def printed (calls : List Header) : HeaderBuf :=
  calls.foldl (fun b f => b.print f.line) .empty

theorem printed_concat (calls : List Header) (f : Header) :
    printed (calls ++ [f]) = (printed calls).print f.line := by
  simp [printed]

theorem print_bytes {b : HeaderBuf} {done behind s : Bytes} (hbytes : b.bytes = done ++ behind)
    (hlen : b.len = done.length) : ∃ behind', (b.print s).bytes =
      done ++ (s.take (headerCap - done.length - 1) ++ nul :: behind') := by
  refine ⟨b.bytes.drop (b.len + (s.take (headerCap - b.len - 1)).length + 1), ?_⟩
  have htake : b.bytes.take b.len = done := by
    rw [hbytes, hlen]
    exact List.take_left
  change b.bytes.take b.len ++ _ = _
  rw [htake, hlen]

theorem line_length_pos (f : Header) : 0 < f.line.length := by
  simp [Header.line, crlf]

theorem nul_not_mem_line (f : Header) : nul ∉ f.line := by
  have hsep : nul ∉ ascii ": " := not_mem_ascii ": " (by decide)
  have hend : nul ∉ crlf := by decide
  simp [Header.line, Header.text, hend, nul_not_mem_cString, hsep]

theorem nul_not_mem_textOf (kept : List Header) : nul ∉ textOf kept := by
  induction kept with
  | nil => exact List.not_mem_nil
  | cons f kept ih =>
    rw [← List.singleton_append, textOf_append, textOf_singleton, List.mem_append]
    exact not_or.mpr ⟨nul_not_mem_line f, ih⟩

/-- In the buffer are the headers that have found room, and behind them what is left of a call
that has found none. -/
theorem printed_bytes (calls : List Header) : ∃ excess behind : Bytes,
    (printed calls).bytes = textOf (fitting calls) ++ (excess ++ nul :: behind) ∧
    (printed calls).len = (textOf (fitting calls)).length ∧ nul ∉ excess ∧
    (excess = [] ↔ Covered calls) := by
  induction calls using List.reverseRecOn with
  | nil =>
    refine ⟨[], List.replicate (headerCap - 1) nul, rfl, rfl, List.not_mem_nil, ?_⟩
    refine iff_of_true rfl (Or.inr fun before f h => ?_)
    exact absurd h (List.append_ne_nil_of_right_ne_nil before (List.cons_ne_nil f [])).symm
  | append_singleton calls f ih =>
    obtain ⟨excess, behind, hbytes, hlen, -, -⟩ := ih
    obtain ⟨behind', hprint⟩ := print_bytes (s := f.line) hbytes hlen
    have hpos := line_length_pos f
    have hlt := (printed calls).room
    rw [hlen] at hlt
    rw [printed_concat, covered_concat]
    by_cases hroom : HasRoom (fitting calls) f
    · have hfits : f.line.length < headerCap - (textOf (fitting calls)).length := by
        rw [HasRoom] at hroom
        omega
      refine ⟨[], behind', ?_, ?_, List.not_mem_nil, iff_of_true rfl (Or.inl hroom)⟩
      · rw [hprint, fitting_of_room hroom, textOf_append, textOf_singleton, List.append_assoc,
          List.take_of_length_le (by omega)]
        rfl
      · rw [HeaderBuf.print_len, fitting_of_room hroom, textOf_append, textOf_singleton,
          List.length_append, hlen]
        exact if_pos ⟨hpos, hfits⟩
    · have hfull : ¬f.line.length < headerCap - (textOf (fitting calls)).length := by
        rw [HasRoom] at hroom
        omega
      rw [fitting_of_not_room hroom]
      refine ⟨_, behind', hprint, ?_, fun hmem => ?_, ?_⟩
      · rw [HeaderBuf.print_len, hlen]
        exact if_neg fun h => hfull h.2
      · exact nul_not_mem_line f (List.mem_of_mem_take hmem)
      · rw [or_iff_right hroom, List.take_eq_nil_iff, ← List.length_eq_zero_iff]
        omega

/-! ### The answer -/

theorem cwSetHeader_foldl (calls : List Header) (status : ℤ) (rcStatus : Option ℤ)
    (corsAllowOrigin : Option Bytes) :
    calls.foldl cwSetHeader (newResponse status rcStatus corsAllowOrigin) =
      { newResponse status rcStatus corsAllowOrigin with header := printed calls } := by
  induction calls using List.reverseRecOn with
  | nil => rfl
  | append_singleton calls f ih =>
    rw [List.foldl_append, ih, printed_concat]
    rfl

/-- What is sent for an answer: some headers are set, then the first bytes are written. -/
def answer (mgWrite : Bytes → ℤ) (status : ℤ) (rcStatus : Option ℤ)
    (corsAllowOrigin : Option Bytes) (calls : List Header) (buf : Option Bytes) (fin : Bool) :
    Bytes :=
  (cwWrite mgWrite (calls.foldl cwSetHeader (newResponse status rcStatus corsAllowOrigin))
    buf fin).2.sent

theorem answer_eq (mgWrite : Bytes → ℤ) (status : ℤ) (rcStatus : Option ℤ)
    (corsAllowOrigin : Option Bytes) (calls : List Header) (buf : Option Bytes) (fin : Bool) :
    answer mgWrite status rcStatus corsAllowOrigin calls buf fin =
      block (statusLine (answerStatus rcStatus status) ::
        ownLines (allowedOrigin corsAllowOrigin)) ++
          (cString (printed calls).bytes ++ (crlf ++ buf.getD [])) := by
  rw [answer, cwSetHeader_foldl]
  cases buf with
  | none => simp [cwWrite, newResponse]
  | some body =>
    cases body with
    | nil => simp [cwWrite, newResponse]
    | cons c cs => simp [cwWrite, newResponse]

theorem block_headOf (status : ℤ) (origin : Bytes) (kept : List Header) :
    block (headOf status origin kept) =
      block (statusLine status :: ownLines origin) ++ textOf kept := by
  rw [headOf, ← List.cons_append, block_append]
  rfl

/-- The headers that have found room, and what is left of a call that has found none. -/
theorem cString_printed (calls : List Header) : ∃ excess : Bytes,
    cString (printed calls).bytes = textOf (fitting calls) ++ excess ∧
    (textOf (fitting calls)).length + excess.length < headerCap ∧
    (excess = [] ↔ Covered calls) := by
  obtain ⟨excess, behind, hbytes, -, hover, hcovered⟩ := printed_bytes calls
  refine ⟨excess, ?_, ?_, hcovered⟩
  · rw [hbytes, cString_append_of_not_mem (nul_not_mem_textOf _), cString_append_of_not_mem hover]
    simp [cString, nul]
  · have hsize := (printed calls).size
    rw [hbytes] at hsize
    simp only [List.length_append, List.length_cons] at hsize
    omega

/-- The lines are those of a choice exactly if the buffer holds no rest of a call. -/
theorem framed_text_iff (mgWrite : Bytes → ℤ) (status : ℤ) (rcStatus : Option ℤ)
    (corsAllowOrigin : Option Bytes) (calls : List Header) (buf : Option Bytes) (fin : Bool) :
    Framed (answerStatus rcStatus status) (allowedOrigin corsAllowOrigin) calls (buf.getD [])
        (answer mgWrite status rcStatus corsAllowOrigin calls buf fin) ↔
      Covered calls ∧ ∀ line ∈ headOf (answerStatus rcStatus status)
        (allowedOrigin corsAllowOrigin) (fitting calls), IsLine line := by
  obtain ⟨excess, htext, hlength, hcovered⟩ := cString_printed calls
  rw [answer_eq, htext, ← hcovered]
  constructor
  · rintro ⟨kept, hchosen, hlines, hbytes⟩
    rw [block_headOf, List.append_assoc (block _)] at hbytes
    have hsame := List.append_cancel_right (List.append_cancel_left hbytes)
    rcases hchosen.eq_fitting_or with rfl | hlong
    · exact ⟨List.append_right_eq_self.mp hsame, hlines⟩
    · rw [← hsame, List.length_append] at hlong
      omega
  · rintro ⟨rfl, hlines⟩
    refine ⟨fitting calls, chosen_fitting calls, hlines, ?_⟩
    rw [block_headOf, List.append_nil, List.append_assoc]

/-! ### Line feeds -/

theorem lineFeed_not_mem_intText (n : ℤ) : lineFeed ∉ intText n := by
  have hdigits : lineFeed ∉ decimal n.natAbs := fun h => by
    have := decimal_digits h
    simp [lineFeed] at this
  unfold intText
  split
  · simp [lineFeed, hdigits]
  · exact hdigits

theorem lineFeed_not_mem_httpReason (status : ℤ) : lineFeed ∉ httpReason status := by
  unfold httpReason
  split <;> exact not_mem_ascii _ (by decide)

theorem isLine_statusLine (status : ℤ) : IsLine (statusLine status) := by
  have hversion : lineFeed ∉ ascii "HTTP/1.1 " := not_mem_ascii _ (by decide)
  have hblank : lineFeed ∉ ascii " " := not_mem_ascii _ (by decide)
  refine ⟨?_, ?_⟩
  · rw [← List.length_pos_iff, statusLine, List.length_append, ascii_length]
    exact Nat.add_pos_left (by decide) _
  · rw [statusLine]
    simp [hversion, hblank, lineFeed_not_mem_intText, lineFeed_not_mem_httpReason]

theorem isLine_append {s : String} (hs : 0 < s.length)
    (hfeed : s.toList.all (fun d => d ≠ lineFeed) = true) (t : Bytes) :
    IsLine (ascii s ++ t) ↔ lineFeed ∉ t := by
  have hmem : lineFeed ∉ ascii s := not_mem_ascii s hfeed
  have hne : ascii s ++ t ≠ [] := by
    rw [← List.length_pos_iff, List.length_append, ascii_length]
    omega
  simp [IsLine, hne, hmem]

theorem isLine_ownLines (origin : Bytes) :
    (∀ line ∈ ownLines origin, IsLine line) ↔ lineFeed ∉ origin := by
  have hown : ∀ {s : String}, 0 < s.length → s.toList.all (fun d => d ≠ lineFeed) = true →
      IsLine (ascii s) := fun {s} hs hfeed => by
    simpa using (isLine_append hs hfeed []).mpr List.not_mem_nil
  rw [ownLines]
  simp [isLine_append (s := "Access-Control-Allow-Origin: ") (by decide) (by decide),
    hown (s := "X-Content-Type-Options: nosniff") (by decide) (by decide),
    hown (s := "X-Frame-Options: DENY") (by decide) (by decide),
    hown (s := "Referrer-Policy: strict-origin-when-cross-origin") (by decide) (by decide)]

theorem isLine_text (f : Header) :
    IsLine f.text ↔ lineFeed ∉ cString f.name ∧ lineFeed ∉ cString f.value := by
  have hsep : lineFeed ∉ ascii ": " := not_mem_ascii _ (by decide)
  have hne : f.text ≠ [] := by
    rw [← List.length_pos_iff, Header.text, List.length_append, List.length_append, ascii_length]
    have : 0 < ": ".length := by decide
    omega
  rw [IsLine, Header.text] at *
  simp [hne, hsep]

/-- The answer is framed if and only if the last header has found room, or the buffer has no byte
left for it, and there are line feeds neither in the allowed origin nor in the headers that have
found room. -/
theorem answer_framed_iff (mgWrite : Bytes → ℤ) (status : ℤ) (rcStatus : Option ℤ)
    (corsAllowOrigin : Option Bytes) (calls : List Header) (buf : Option Bytes) (fin : Bool) :
    Framed (answerStatus rcStatus status) (allowedOrigin corsAllowOrigin) calls (buf.getD [])
        (answer mgWrite status rcStatus corsAllowOrigin calls buf fin) ↔
      Covered calls ∧ lineFeed ∉ allowedOrigin corsAllowOrigin ∧
        ∀ f ∈ fitting calls, lineFeed ∉ cString f.name ∧ lineFeed ∉ cString f.value := by
  rw [framed_text_iff, headOf, List.forall_mem_cons, List.forall_mem_append, isLine_ownLines]
  simp [isLine_statusLine, isLine_text]

def longHeader : Header := ⟨ascii "X-Note", List.replicate 5000 'a'⟩

/-- A header that is too long leaves its beginning in the buffer, without the end of its line. -/
theorem not_framed_long : ¬Framed (answerStatus (some 200) 200) (allowedOrigin none) [longHeader]
    ((some (ascii "ok")).getD [])
    (answer (fun _ => 2) 200 (some 200) none [longHeader] (some (ascii "ok")) true) := by
  have hvalue : cString longHeader.value = longHeader.value :=
    cString_eq_self_iff.mpr fun h => by
      have := List.eq_of_mem_replicate h
      simp [nul] at this
  have hlong : headerCap < longHeader.line.length := by
    rw [Header.line, Header.text, hvalue]
    simp only [List.length_append, longHeader, List.length_replicate, headerCap]
    omega
  intro hframed
  have hcovered := ((framed_text_iff _ _ _ _ _ _ _).mp hframed).1
  rcases (covered_concat [] longHeader).mp hcovered with hroom | hfull
  · rw [HasRoom] at hroom
    omega
  · exact absurd hfull (by decide)

end Aigate.ResponseHeaders
