import Aigate.GuardedRuns
import Aigate.Secrets

/-!
# Trace contexts

A request has a trace with an identifier of its own, or that of the `traceparent` header it came
with, and up to sixteen spans. The header of an upstream call names the trace and the span of the
call. Random bytes and the clock are inputs.
-/
namespace Aigate.TraceContext
open Text Secrets GuardedRuns

/-- `TRACE_MAX_SPANS`. -/
def maxSpans : ℕ := 16

/-- `TRACE_MAX_ATTRS`. -/
def maxAttrs : ℕ := 8

inductive SpanKind where
  | internal
  | server
  | client
  deriving DecidableEq

inductive SpanStatus where
  | unset
  | ok
  | error
  deriving DecidableEq

structure SpanAttr where
  key : Bytes
  value : Bytes
  deriving DecidableEq

structure TraceSpan where
  spanId : Bytes
  parentSpanId : Bytes
  name : Bytes
  kind : SpanKind
  startTimeNs : ℕ
  endTimeNs : ℕ
  status : SpanStatus
  statusDesc : Bytes
  attributes : List SpanAttr
  deriving DecidableEq

structure Context where
  traceId : Bytes
  rootSpanId : Bytes
  inboundParentId : Bytes
  isSampled : Bool
  traceFlags : UInt8
  spans : List TraceSpan
  reqStartRealtimeUs : ℕ

/-- A context of zero bytes. -/
def Context.zero : Context := ⟨[], [], [], false, 0, [], 0⟩

/-! ### Identifiers -/

/-- Random bytes, drawn until they are not all zero. -/
structure Draw (n : ℕ) where
  bytes : Vector UInt8 n
  nonzero : ∃ b ∈ bytes.toList, b ≠ 0

/-- `generate_hex_id`. -/
def generateHexId {n : ℕ} (draw : Draw n) : Bytes := hexBytes draw.bytes.toList

/-- `hex_char_to_val`. -/
def hexCharToVal (c : Char) : Option ℕ :=
  if '0' ≤ c ∧ c ≤ '9' then some (c.toNat - '0'.toNat)
  else if 'a' ≤ c ∧ c ≤ 'f' then some (c.toNat - 'a'.toNat + 10)
  else if 'A' ≤ c ∧ c ≤ 'F' then some (c.toNat - 'A'.toNat + 10)
  else none

/-- `isxdigit`. -/
def isXdigit (c : Char) : Bool :=
  ('0' ≤ c && c ≤ '9') || ('a' ≤ c && c ≤ 'f') || ('A' ≤ c && c ≤ 'F')

/-- Hexadecimal digits that are not all zero. -/
def idOk (id : Bytes) : Bool := id.all isXdigit && id.any (· ≠ '0')

/-! ### The header -/

/-- `header[i]`. -/
def charAt (header : Bytes) (i : ℕ) : Char := header.getD i (Char.ofNat 0)

/-- `tracer_parse_traceparent`. -/
def parseTraceparent (ctx : Context) (header : Bytes) : Option Context :=
  if header.length ≠ 55 then none
  else if charAt header 2 ≠ '-' ∨ charAt header 35 ≠ '-' ∨ charAt header 52 ≠ '-' then none
  else if charAt header 0 ≠ '0' ∨ charAt header 1 ≠ '0' then none
  else if !idOk ((header.drop 3).take 32) then none
  else if !idOk ((header.drop 36).take 16) then none
  else do
    let f1 ← hexCharToVal (charAt header 53)
    let f2 ← hexCharToVal (charAt header 54)
    let flags := UInt8.ofNat (f1 <<< 4 ||| f2)
    return { ctx with
      traceId := lower ((header.drop 3).take 32)
      inboundParentId := lower ((header.drop 36).take 16)
      traceFlags := flags
      isSampled := flags &&& 1 ≠ 0 }

/-- `tracer_format_traceparent` into a buffer of `bufSz` bytes. -/
def formatTraceparent (ctx : Context) (spanId : Option Bytes) (bufSz : ℕ) : Bytes :=
  let sid := (spanId.filter (· ≠ [])).getD ctx.rootSpanId
  let flags := if ctx.isSampled then ctx.traceFlags ||| 1 else ctx.traceFlags &&& ~~~1
  (ascii "00-" ++ ctx.traceId ++ '-' :: sid ++ '-' :: hexBytes [flags]).take (bufSz - 1)

/-- `tracer_context_init`. -/
def contextInit (inboundHeader : Option Bytes) (defaultSample : Bool) (trace : Draw 16)
    (root : Draw 8) (nowUs : ℕ) : Context :=
  let ctx := { Context.zero with reqStartRealtimeUs := nowUs }
  match (inboundHeader.filter (· ≠ [])).bind (parseTraceparent ctx) with
  | some parsed => { parsed with rootSpanId := generateHexId root }
  | none =>
    { ctx with
      traceId := generateHexId trace
      isSampled := defaultSample
      traceFlags := if defaultSample then 1 else 0
      rootSpanId := generateHexId root }

/-! ### Spans -/

/-- The name of the span of the request. -/
def rootName : Bytes := ascii "root"

/-- A copy into a field of `n` bytes with its terminator. -/
def field (n : ℕ) (s : Bytes) : Bytes := s.take (n - 1)

def TraceSpan.named (name : Bytes) (s : TraceSpan) : Bool := s.name = name

/-- A span of that name without an end. -/
def TraceSpan.openNamed (name : Bytes) (s : TraceSpan) : Bool :=
  s.name = name && s.endTimeNs = 0

/-- Change the last element with a property. -/
def modifyLast {α : Type*} (p : α → Bool) (f : α → α) : List α → List α
  | [] => []
  | a :: rest =>
    if rest.any p then a :: modifyLast p f rest else if p a then f a :: rest else a :: rest

/-- Change the first element with a property. -/
def modifyFirst {α : Type*} (p : α → Bool) (f : α → α) : List α → List α
  | [] => []
  | a :: rest => if p a then f a :: rest else a :: modifyFirst p f rest

/-- The span that `tracer_span_start` makes. -/
def newSpan (ctx : Context) (name : Bytes) (kind : SpanKind) (parentId : Option Bytes)
    (draw : Draw 8) (nowNs : ℕ) : TraceSpan where
  spanId :=
    if name = rootName ∧ ctx.rootSpanId ≠ [] then field 17 ctx.rootSpanId else generateHexId draw
  parentSpanId :=
    match parentId.filter (· ≠ []) with
    | some parent => field 17 parent
    | none => field 17 (if name = rootName then ctx.inboundParentId else ctx.rootSpanId)
  name := field 32 name
  kind := kind
  startTimeNs := nowNs
  endTimeNs := 0
  status := .unset
  statusDesc := []
  attributes := []

/-- `tracer_span_start`, with the index of the span. -/
def spanStart (ctx : Context) (name : Bytes) (kind : SpanKind) (parentId : Option Bytes)
    (draw : Draw 8) (nowNs : ℕ) : Context × Option ℕ :=
  if maxSpans ≤ ctx.spans.length then (ctx, none)
  else ({ ctx with spans := ctx.spans ++ [newSpan ctx name kind parentId draw nowNs] },
    some ctx.spans.length)

/-- What an end writes into its span. -/
def TraceSpan.finish (status : SpanStatus) (errDesc : Option Bytes) (nowNs : ℕ) (s : TraceSpan) :
    TraceSpan :=
  { s with
    endTimeNs := if nowNs < s.startTimeNs then s.startTimeNs else nowNs
    status := status
    statusDesc := ((errDesc.filter (· ≠ [])).map (field 64)).getD s.statusDesc }

/-- `tracer_span_end`: the last open span of the name, or else the last one. -/
def spanEnd (ctx : Context) (name : Bytes) (status : SpanStatus) (errDesc : Option Bytes)
    (nowNs : ℕ) : Context :=
  let target := if ctx.spans.any (TraceSpan.openNamed name) then TraceSpan.openNamed name
    else TraceSpan.named name
  { ctx with spans := modifyLast target (TraceSpan.finish status errDesc nowNs) ctx.spans }

/-- The attributes after `key` was set: in its place, or behind the others while there is room. -/
def setAttr (key value : Bytes) (attrs : List SpanAttr) : List SpanAttr :=
  if attrs.any (·.key = key) then
    modifyFirst (·.key = key) (fun a => { a with value := field 64 value }) attrs
  else if attrs.length < maxAttrs then attrs ++ [⟨field 32 key, field 64 value⟩]
  else attrs

/-- `tracer_span_set_attr`: the last open span of the name, or else the first one. -/
def spanSetAttr (ctx : Context) (name key value : Bytes) : Context :=
  let set := fun s : TraceSpan => { s with attributes := setAttr key value s.attributes }
  { ctx with
    spans := if ctx.spans.any (TraceSpan.openNamed name) then
        modifyLast (TraceSpan.openNamed name) set ctx.spans
      else modifyFirst (TraceSpan.named name) set ctx.spans }

/-- `tracer_span_set_attr_int`. -/
def spanSetAttrInt (ctx : Context) (name key : Bytes) (value : Int64) : Context :=
  spanSetAttr ctx name key (field 32 (JsonText.integerText value))

/-! ### Runs -/

inductive Call where
  | start (name : Bytes) (kind : SpanKind) (parentId : Option Bytes) (draw : Draw 8)
  | finish (name : Bytes) (status : SpanStatus) (errDesc : Option Bytes)
  | setAttr (name key value : Bytes)
  | setAttrInt (name key : Bytes) (value : Int64)

/-- A context, and when it was last called. -/
structure Timed where
  ctx : Context
  now : ℕ

def step (s : Timed) (e : ℕ × Call) : Timed where
  ctx :=
    match e.2 with
    | .start name kind parentId draw => (spanStart s.ctx name kind parentId draw e.1).1
    | .finish name status errDesc => spanEnd s.ctx name status errDesc e.1
    | .setAttr name key value => spanSetAttr s.ctx name key value
    | .setAttrInt name key value => spanSetAttrInt s.ctx name key value
  now := e.1

/-- The clock does not go back, and a span is started under a name of its own, below the span of
the request or another one that is there. -/
def StepOk (s : Timed) (e : ℕ × Call) : Prop :=
  s.now ≤ e.1 ∧
    match e.2 with
    | .start name _ parentId _ =>
      name ≠ rootName ∧
        ∀ parent ∈ parentId, parent = [] ∨ ∃ p ∈ s.ctx.spans, p.spanId = parent
    | _ => True

/-- `n` lower-case hexadecimal digits that are not all zero. -/
structure IsId (n : ℕ) (id : Bytes) : Prop where
  length : id.length = n
  ok : idOk id = true
  lower : lower id = id

/-- Each span but the first is below an earlier one. -/
def Tree (spans : List TraceSpan) : Prop :=
  ∀ i s, 0 < i → spans[i]? = some s → ∃ j < i, ∃ p, spans[j]? = some p ∧ p.spanId = s.parentSpanId

/-- What a request leaves: a tree of spans, each within the span of the request, with at most one
value for a key that is not cut off. -/
structure Traced (ctx : Context) : Prop where
  length : 0 < ctx.spans.length ∧ ctx.spans.length ≤ maxSpans
  ids : ∀ s ∈ ctx.spans, IsId 16 s.spanId
  tree : Tree ctx.spans
  within : ∀ root ∈ ctx.spans.head?, ∀ s ∈ ctx.spans,
    root.startTimeNs ≤ s.startTimeNs ∧ s.startTimeNs ≤ root.endTimeNs ∧
      (s.endTimeNs ≠ 0 → s.startTimeNs ≤ s.endTimeNs ∧ s.endTimeNs ≤ root.endTimeNs)
  attributes : ∀ s ∈ ctx.spans, s.attributes.length ≤ maxAttrs ∧
    ∀ key, key.length < 31 → (s.attributes.map SpanAttr.key).count key ≤ 1

/-! ### Changing one element -/

section
variable {α β : Type*} {p : α → Bool} {f : α → α}

/-- Elements stay as they are, or have the property and are changed. -/
def Touched (p : α → Bool) (f : α → α) : List α → List α → Prop :=
  List.Forall₂ fun a b => b = a ∨ p a = true ∧ b = f a

theorem Touched.refl (l : List α) : Touched p f l l := by
  induction l with
  | nil => exact .nil
  | cons a rest ih => exact .cons (Or.inl rfl) ih

theorem touched_modifyLast (l : List α) : Touched p f l (modifyLast p f l) := by
  induction l with
  | nil => exact .nil
  | cons a rest ih =>
    unfold modifyLast
    split
    · exact .cons (Or.inl rfl) ih
    · split
      · exact .cons (Or.inr ⟨by assumption, rfl⟩) (Touched.refl rest)
      · exact Touched.refl _

theorem touched_modifyFirst (l : List α) : Touched p f l (modifyFirst p f l) := by
  induction l with
  | nil => exact .nil
  | cons a rest ih =>
    unfold modifyFirst
    split
    · exact .cons (Or.inr ⟨by assumption, rfl⟩) (Touched.refl rest)
    · exact .cons (Or.inl rfl) ih

/-- What no change of an element changes. -/
theorem Touched.map_eq {l l' : List α} (h : Touched p f l l') {g : α → β}
    (hg : ∀ a, g (f a) = g a) : l'.map g = l.map g := by
  induction h with
  | nil => rfl
  | cons hab _ ih =>
    rw [List.map_cons, List.map_cons, ih]
    rcases hab with rfl | ⟨-, rfl⟩
    · rfl
    · rw [hg]

theorem Touched.exists_mem {l l' : List α} (h : Touched p f l l') {b : α} (hb : b ∈ l') :
    ∃ a ∈ l, b = a ∨ p a = true ∧ b = f a := by
  induction h with
  | nil => cases hb
  | @cons a b' l l' hab _ ih =>
    rcases List.mem_cons.mp hb with rfl | hb
    · exact ⟨a, List.mem_cons_self, hab⟩
    · obtain ⟨c, hc, hcb⟩ := ih hb
      exact ⟨c, List.mem_cons_of_mem _ hc, hcb⟩

theorem Touched.countP_eq {l l' : List α} (h : Touched p f l l') {q : α → Bool}
    (hq : ∀ a, p a = true → q (f a) = q a) : l'.countP q = l.countP q := by
  induction h with
  | nil => rfl
  | cons hab _ ih =>
    rw [List.countP_cons, List.countP_cons, ih]
    rcases hab with rfl | ⟨ha, rfl⟩
    · rfl
    · rw [hq _ ha]

/-- The last element with the property loses it. -/
theorem countP_modifyLast (hf : ∀ a, p (f a) = false) (l : List α) :
    (modifyLast p f l).countP p = l.countP p - 1 := by
  induction l with
  | nil => rfl
  | cons a rest ih =>
    unfold modifyLast
    split
    · rename_i hany
      obtain ⟨b, hb, hpb⟩ := List.any_eq_true.mp hany
      have hpos : 0 < rest.countP p := List.countP_pos_iff.mpr ⟨b, hb, hpb⟩
      rw [List.countP_cons, List.countP_cons, ih]
      omega
    · rename_i hany
      have hzero : rest.countP p = 0 :=
        List.countP_eq_zero.mpr fun b hb hpb => hany (List.any_eq_true.mpr ⟨b, hb, hpb⟩)
      split
      · rw [List.countP_cons, List.countP_cons, hf, hzero]
        simp [*]
      · rw [List.countP_cons, hzero]
        simp [*]

end

/-! ### The header of a trace -/

/-- The parts of a header: digits that are not all zero, and the digits of the flags. -/
structure Traceparent where
  traceId : Bytes
  parentId : Bytes
  f1 : Char
  f2 : Char
  traceId_length : traceId.length = 32
  traceId_ok : idOk traceId = true
  parentId_length : parentId.length = 16
  parentId_ok : idOk parentId = true
  flags_ok : isXdigit f1 = true ∧ isXdigit f2 = true

def Traceparent.text (p : Traceparent) : Bytes :=
  ascii "00-" ++ p.traceId ++ '-' :: p.parentId ++ ['-', p.f1, p.f2]

def Traceparent.flags (p : Traceparent) : UInt8 :=
  UInt8.ofNat ((hexCharToVal p.f1).getD 0 * 16 + (hexCharToVal p.f2).getD 0)

theorem hexCharToVal_isSome (c : Char) : (hexCharToVal c).isSome = isXdigit c := by
  unfold hexCharToVal isXdigit
  split
  · simp [*]
  · split
    · simp [*]
    · split <;> simp_all

theorem hexCharToVal_lt {c : Char} {v : ℕ} (h : hexCharToVal c = some v) : v < 16 := by
  unfold hexCharToVal at h
  have hle : ∀ {a b : Char}, a ≤ b → a.toNat ≤ b.toNat := fun h => h
  split at h
  · rename_i hc
    have := hle hc.2
    simp only [Option.some.injEq, Char.reduceToNat] at h this
    omega
  · split at h
    · rename_i hc
      have := hle hc.2
      simp only [Option.some.injEq, Char.reduceToNat] at h this
      omega
    · split at h
      · rename_i hc
        have := hle hc.2
        simp only [Option.some.injEq, Char.reduceToNat] at h this
        omega
      · cases h

theorem shift_or : ∀ a < 16, ∀ b < 16, a <<< 4 ||| b = a * 16 + b := by decide +kernel

/-- A hexadecimal digit is an ASCII character. -/
theorem toNat_of_isXdigit {c : Char} (h : isXdigit c = true) : c.toNat < 128 := by
  have hle : ∀ {a b : Char}, a ≤ b → a.toNat ≤ b.toNat := fun h => h
  simp only [isXdigit, Bool.or_eq_true, Bool.and_eq_true, decide_eq_true_eq] at h
  rcases h with (⟨-, h⟩ | ⟨-, h⟩) | ⟨-, h⟩
  all_goals
    have := hle h
    simp only [Char.reduceToNat] at this
    omega

theorem xdigit_toLower {c : Char} (h : isXdigit c = true) :
    isXdigit c.toLower = true ∧ c.toLower.toLower = c.toLower ∧ (c.toLower = '0' → c = '0') := by
  have hall : ∀ n < 128, isXdigit (Char.ofNat n) = true →
      isXdigit (Char.ofNat n).toLower = true ∧
        (Char.ofNat n).toLower.toLower = (Char.ofNat n).toLower ∧
          ((Char.ofNat n).toLower = '0' → Char.ofNat n = '0') := by decide +kernel
  have hc := hall c.toNat (toNat_of_isXdigit h)
  rw [Char.ofNat_toNat] at hc
  exact hc h

/-- Digits that are not all zero, in lower case. -/
theorem isId_lower {id : Bytes} (h : idOk id = true) : IsId id.length (Text.lower id) := by
  rw [idOk, Bool.and_eq_true] at h
  have hall := List.all_eq_true.mp h.1
  obtain ⟨c, hc, hne⟩ := List.any_eq_true.mp h.2
  refine ⟨lower_length id, ?_, ?_⟩
  · rw [idOk, Bool.and_eq_true, lower, List.all_eq_true, List.any_eq_true]
    refine ⟨fun d hd => ?_, c.toLower, List.mem_map_of_mem hc, ?_⟩
    · obtain ⟨e, he, rfl⟩ := List.mem_map.mp hd
      exact (xdigit_toLower (hall e he)).1
    · exact decide_eq_true fun heq => of_decide_eq_true hne ((xdigit_toLower (hall c hc)).2.2 heq)
  · rw [lower, lower, List.map_map]
    apply List.map_congr_left
    intro d hd
    exact (xdigit_toLower (hall d hd)).2.1

/-- What is drawn makes an identifier. -/
theorem isId_generateHexId {n : ℕ} (draw : Draw n) : IsId (2 * n) (generateHexId draw) := by
  have hdigit : ∀ k < 16, isXdigit (Nat.digitChar k) = true ∧
      (Nat.digitChar k).toLower = Nat.digitChar k ∧ (Nat.digitChar k = '0' → k = 0) := by decide
  have hlt : ∀ b : UInt8, b.toNat / 16 < 16 ∧ b.toNat % 16 < 16 := by
    intro b
    have := b.toNat_lt
    omega
  have hmem : ∀ c ∈ generateHexId draw, ∃ k < 16, c = Nat.digitChar k := by
    intro c hc
    simp only [generateHexId, hexBytes, List.mem_flatMap, List.mem_cons, List.not_mem_nil,
      or_false] at hc
    obtain ⟨b, -, rfl | rfl⟩ := hc
    · exact ⟨_, (hlt b).1, rfl⟩
    · exact ⟨_, (hlt b).2, rfl⟩
  refine ⟨by simp [generateHexId], ?_, ?_⟩
  · rw [idOk, Bool.and_eq_true, List.all_eq_true, List.any_eq_true]
    constructor
    · intro c hc
      obtain ⟨k, hk, rfl⟩ := hmem c hc
      exact (hdigit k hk).1
    · obtain ⟨b, hb, hne⟩ := draw.nonzero
      have hnonzero : b.toNat / 16 ≠ 0 ∨ b.toNat % 16 ≠ 0 := by
        by_contra hzero
        exact hne (UInt8.toNat_inj.mp (by rw [UInt8.toNat_zero]; omega))
      rcases hnonzero with h | h
      · exact ⟨Nat.digitChar (b.toNat / 16), List.mem_flatMap.mpr ⟨b, hb, by simp⟩,
          decide_eq_true fun heq => h ((hdigit _ (hlt b).1).2.2 heq)⟩
      · exact ⟨Nat.digitChar (b.toNat % 16), List.mem_flatMap.mpr ⟨b, hb, by simp⟩,
          decide_eq_true fun heq => h ((hdigit _ (hlt b).2).2.2 heq)⟩
  · have hself : (generateHexId draw).map Char.toLower = (generateHexId draw).map id := by
      apply List.map_congr_left
      intro c hc
      obtain ⟨k, hk, rfl⟩ := hmem c hc
      exact (hdigit k hk).2.1
    rw [lower, hself, List.map_id]

theorem Traceparent.text_length (p : Traceparent) : p.text.length = 55 := by
  have hascii : (ascii "00-").length = 3 := by decide +kernel
  simp [text, p.traceId_length, p.parentId_length, hascii]

/-- What is read of the text of a header. -/
theorem Traceparent.parse (ctx : Context) (p : Traceparent) :
    parseTraceparent ctx p.text = some { ctx with
      traceId := lower p.traceId
      inboundParentId := lower p.parentId
      traceFlags := p.flags
      isSampled := p.flags &&& 1 ≠ 0 } := by
  have hascii : ascii "00-" = ['0', '0', '-'] := by decide +kernel
  have htext : p.text =
      ['0', '0', '-'] ++ (p.traceId ++ '-' :: (p.parentId ++ ['-', p.f1, p.f2])) := by
    simp [text, hascii]
  have htrace : (p.text.drop 3).take 32 = p.traceId := by
    rw [htext]
    exact List.take_left' p.traceId_length
  have hbehind : p.text.drop 36 = p.parentId ++ ['-', p.f1, p.f2] := by
    have hsplit : p.text =
        (['0', '0', '-'] ++ p.traceId ++ ['-']) ++ (p.parentId ++ ['-', p.f1, p.f2]) := by
      simp [htext]
    rw [hsplit]
    exact List.drop_left' (by simp [p.traceId_length])
  have hparent : (p.text.drop 36).take 16 = p.parentId := by
    rw [hbehind]
    exact List.take_left' p.parentId_length
  have hchar : ∀ i, charAt p.text (36 + i) = charAt (p.parentId ++ ['-', p.f1, p.f2]) i := by
    intro i
    rw [← hbehind, charAt, charAt, List.getD_eq_getElem?_getD, List.getD_eq_getElem?_getD,
      List.getElem?_drop]
  have hlast : ∀ i, charAt (p.parentId ++ ['-', p.f1, p.f2]) (16 + i) =
      charAt ['-', p.f1, p.f2] i := by
    intro i
    rw [charAt, charAt, List.getD_eq_getElem?_getD, List.getD_eq_getElem?_getD,
      List.getElem?_append_right (by rw [p.parentId_length]; omega), p.parentId_length,
      Nat.add_sub_cancel_left]
  have hdash : charAt p.text 35 = '-' := by
    rw [htext, charAt, List.getD_eq_getElem?_getD,
      List.getElem?_append_right (by simp), List.getElem?_append_right (by simp [p.traceId_length])]
    simp [p.traceId_length]
  have h52 : charAt p.text 52 = '-' := (hchar 16).trans (hlast 0)
  have h53 : charAt p.text 53 = p.f1 := (hchar 17).trans (hlast 1)
  have h54 : charAt p.text 54 = p.f2 := (hchar 18).trans (hlast 2)
  have h0 : charAt p.text 0 = '0' ∧ charAt p.text 1 = '0' ∧ charAt p.text 2 = '-' := by
    rw [htext]
    exact ⟨rfl, rfl, rfl⟩
  obtain ⟨v1, hv1⟩ := Option.isSome_iff_exists.mp
    ((hexCharToVal_isSome p.f1).trans p.flags_ok.1)
  obtain ⟨v2, hv2⟩ := Option.isSome_iff_exists.mp
    ((hexCharToVal_isSome p.f2).trans p.flags_ok.2)
  have hflags : p.flags = UInt8.ofNat (v1 <<< 4 ||| v2) := by
    rw [flags, hv1, hv2, shift_or v1 (hexCharToVal_lt hv1) v2 (hexCharToVal_lt hv2)]
    rfl
  simp only [parseTraceparent, p.text_length, h0, hdash, h52, h53, h54, htrace, hparent,
    p.traceId_ok, p.parentId_ok, hv1, hv2, hflags]
  rfl

/-- Only the texts of headers are read. -/
theorem exists_of_parse {ctx ctx' : Context} {header : Bytes}
    (h : parseTraceparent ctx header = some ctx') : ∃ p : Traceparent, header = p.text := by
  unfold parseTraceparent at h
  split at h
  · cases h
  rename_i hlength
  split at h
  · cases h
  rename_i hdashes
  split at h
  · cases h
  rename_i hversion
  split at h
  · cases h
  rename_i htrace
  split at h
  · cases h
  rename_i hparent
  simp only [Option.bind_eq_bind, Option.bind_eq_some_iff] at h
  obtain ⟨v1, hv1, v2, hv2, -⟩ := h
  simp only [not_or, not_not] at hlength hdashes hversion
  have hf1 : isXdigit (charAt header 53) = true := by rw [← hexCharToVal_isSome, hv1]; rfl
  have hf2 : isXdigit (charAt header 54) = true := by rw [← hexCharToVal_isSome, hv2]; rfl
  refine ⟨⟨(header.drop 3).take 32, (header.drop 36).take 16, charAt header 53, charAt header 54,
    by simp [hlength], by simpa using htrace, by simp [hlength], by simpa using hparent,
    hf1, hf2⟩, ?_⟩
  have hone : ∀ i < 55, header[i]? = some (charAt header i) := by
    intro i hi
    rw [charAt, List.getD_eq_getElem?_getD, List.getElem?_eq_getElem (by omega)]
    rfl
  have hcut : ∀ i, i < 55 → header.drop i = charAt header i :: header.drop (i + 1) := by
    intro i hi
    have hget : header[i]? = some (charAt header i) := hone i hi
    rw [List.drop_eq_getElem_cons (by omega)]
    rw [List.getElem?_eq_getElem (by omega)] at hget
    rw [Option.some.inj hget]
  have hstart : header =
      charAt header 0 :: charAt header 1 :: charAt header 2 :: header.drop 3 := by
    rw [← hcut 2 (by omega), ← hcut 1 (by omega), ← hcut 0 (by omega), List.drop_zero]
  have hmid : header.drop 3 = (header.drop 3).take 32 ++ charAt header 35 :: header.drop 36 := by
    rw [← hcut 35 (by omega)]
    have := (List.take_append_drop 32 (header.drop 3)).symm
    rwa [List.drop_drop] at this
  have hend : header.drop 36 = (header.drop 36).take 16 ++
      [charAt header 52, charAt header 53, charAt header 54] := by
    have hnil : header.drop 55 = [] := List.drop_eq_nil_of_le (by omega)
    rw [← hnil, ← hcut 54 (by omega), ← hcut 53 (by omega), ← hcut 52 (by omega)]
    have := (List.take_append_drop 16 (header.drop 36)).symm
    rwa [List.drop_drop] at this
  have hascii : ascii "00-" = ['0', '0', '-'] := by decide +kernel
  rw [Traceparent.text]
  dsimp only
  conv_lhs => rw [hstart, hmid, hend]
  simp [hascii, hversion, hdashes]

/-! ### Gateways in a row -/

/-- The header with an identifier of its own for the caller. -/
def traceparent (traceId spanId : Bytes) (flags : UInt8) : Bytes :=
  ascii "00-" ++ traceId ++ '-' :: spanId ++ '-' :: hexBytes [flags]

/-- The identifiers of a context, whose sampling is what its flags say. -/
structure Identified (ctx : Context) : Prop where
  trace : IsId 32 ctx.traceId
  root : IsId 16 ctx.rootSpanId
  sampled : ctx.isSampled = decide (ctx.traceFlags &&& 1 ≠ 0)

theorem IsId.ne_nil {n : ℕ} {id : Bytes} (h : IsId n id) : id ≠ [] := by
  rintro rfl
  have := h.ok
  simp [idOk] at this

/-- A header with such identifiers. -/
theorem exists_traceparent {traceId spanId : Bytes} (htrace : IsId 32 traceId)
    (hspan : IsId 16 spanId) (flags : UInt8) :
    ∃ p : Traceparent, p.text = traceparent traceId spanId flags ∧ lower p.traceId = traceId ∧
      p.flags = flags := by
  have hdigit : ∀ n < 16, isXdigit (Nat.digitChar n) = true ∧
      hexCharToVal (Nat.digitChar n) = some n := by decide
  have hlt := flags.toNat_lt
  obtain ⟨hx1, hv1⟩ := hdigit (flags.toNat / 16) (by omega)
  obtain ⟨hx2, hv2⟩ := hdigit (flags.toNat % 16) (by omega)
  refine ⟨⟨traceId, spanId, Nat.digitChar (flags.toNat / 16), Nat.digitChar (flags.toNat % 16),
    htrace.length, htrace.ok, hspan.length, hspan.ok, hx1, hx2⟩, rfl, htrace.lower, ?_⟩
  rw [Traceparent.flags, hv1, hv2, Option.getD_some, Option.getD_some,
    Nat.div_add_mod', UInt8.ofNat_toNat]

/-- The bit of the sampling is set already. -/
theorem Identified.flags_eq {ctx : Context} (h : Identified ctx) :
    (if ctx.isSampled then ctx.traceFlags ||| 1 else ctx.traceFlags &&& ~~~1) = ctx.traceFlags := by
  have hall : ∀ n < 256, (if decide (UInt8.ofNat n &&& 1 ≠ 0) = true then UInt8.ofNat n ||| 1
      else UInt8.ofNat n &&& ~~~1) = UInt8.ofNat n := by decide +kernel
  have hflags := hall ctx.traceFlags.toNat ctx.traceFlags.toNat_lt
  rw [UInt8.ofNat_toNat] at hflags
  rw [h.sampled]
  exact hflags

/-- The header that a context writes. -/
theorem Identified.format {ctx : Context} (h : Identified ctx) {cid : Option Bytes}
    (hcid : ∀ sid ∈ cid, IsId 16 sid) :
    ∃ sid, IsId 16 sid ∧
      formatTraceparent ctx cid 64 = traceparent ctx.traceId sid ctx.traceFlags := by
  have hsid : IsId 16 ((cid.filter (· ≠ [])).getD ctx.rootSpanId) := by
    cases cid with
    | none => exact h.root
    | some sid =>
      have hid := hcid sid rfl
      rw [Option.filter_some, if_pos (decide_eq_true hid.ne_nil)]
      exact hid
  refine ⟨_, hsid, ?_⟩
  have hascii : (ascii "00-").length = 3 := by decide +kernel
  rw [formatTraceparent, h.flags_eq]
  refine List.take_of_length_le ?_
  rw [List.length_append, List.length_append, List.length_append, hascii, h.trace.length,
    List.length_cons, hsid.length, List.length_cons, hexBytes_length]
  simp

theorem contextInit_text (p : Traceparent) (sample : Bool) (trace : Draw 16) (root : Draw 8)
    (nowUs : ℕ) : contextInit (some p.text) sample trace root nowUs =
      { Context.zero with
        reqStartRealtimeUs := nowUs
        traceId := Text.lower p.traceId
        inboundParentId := Text.lower p.parentId
        traceFlags := p.flags
        isSampled := p.flags &&& 1 ≠ 0
        rootSpanId := generateHexId root } := by
  have hne : p.text ≠ [] := List.ne_nil_of_length_pos (by rw [p.text_length]; omega)
  simp only [contextInit, Option.filter_some, decide_eq_true hne, if_true, Option.bind_some,
    p.parse]

theorem contextInit_fresh {inbound : Option Bytes} (h : ∀ p : Traceparent, inbound ≠ some p.text)
    (sample : Bool) (trace : Draw 16) (root : Draw 8) (nowUs : ℕ) :
    contextInit inbound sample trace root nowUs =
      { Context.zero with
        reqStartRealtimeUs := nowUs
        traceId := generateHexId trace
        isSampled := sample
        traceFlags := if sample then 1 else 0
        rootSpanId := generateHexId root } := by
  have hnone : (inbound.filter (· ≠ [])).bind
      (parseTraceparent { Context.zero with reqStartRealtimeUs := nowUs }) = none := by
    rw [Option.eq_none_iff_forall_not_mem]
    intro ctx hctx
    obtain ⟨header, hheader, hread⟩ := Option.bind_eq_some_iff.mp hctx
    obtain ⟨p, rfl⟩ := exists_of_parse hread
    exact h p (Option.filter_eq_some_iff.mp hheader).1
  simp only [contextInit, hnone]

/-- A context joins the trace of a header that it can read, and otherwise begins its own. -/
theorem identified_contextInit (inbound : Option Bytes) (sample : Bool) (trace : Draw 16)
    (root : Draw 8) (nowUs : ℕ) : Identified (contextInit inbound sample trace root nowUs) := by
  have hroot : IsId 16 (generateHexId root) := isId_generateHexId root
  by_cases htext : ∃ p : Traceparent, inbound = some p.text
  · obtain ⟨p, rfl⟩ := htext
    have hjoined : IsId 32 (Text.lower p.traceId) := p.traceId_length ▸ isId_lower p.traceId_ok
    rw [contextInit_text]
    exact ⟨hjoined, hroot, rfl⟩
  · have htrace : IsId 32 (generateHexId trace) := isId_generateHexId trace
    rw [contextInit_fresh (not_exists.mp htext)]
    refine ⟨htrace, hroot, ?_⟩
    cases sample with
    | false => exact (by decide : false = decide ((0 : UInt8) &&& 1 ≠ 0))
    | true => exact (by decide : true = decide ((1 : UInt8) &&& 1 ≠ 0))

/-- A request at a gateway: what is drawn for it, the calls before the upstream call, and the
span of that. -/
structure Gateway where
  sample : Bool
  trace : Draw 16
  root : Draw 8
  nowUs : ℕ
  calls : List (ℕ × Call)
  upstream : Draw 8
  nowNs : ℕ

def Gateway.context (g : Gateway) (inbound : Option Bytes) : Context :=
  contextInit inbound g.sample g.trace g.root g.nowUs

/-- The header of the upstream call. -/
def Gateway.outbound (g : Gateway) (inbound : Option Bytes) : Bytes :=
  let ctx := (run step ⟨g.context inbound, 0⟩ g.calls).ctx
  let started :=
    spanStart ctx (ascii "upstream_ttft") .client (some ctx.rootSpanId) g.upstream g.nowNs
  let cid := started.2.bind fun i => (started.1.spans[i]?).map TraceSpan.spanId
  formatTraceparent started.1 cid 64

/-- The header behind some gateways that call each other. -/
def forward (gateways : List Gateway) (inbound : Option Bytes) : Option Bytes :=
  gateways.foldl (fun inbound g => some (g.outbound inbound)) inbound

/-- The fields of a context that its spans do not change. -/
def Context.identity (ctx : Context) : Bytes × Bytes × Bool × UInt8 :=
  (ctx.traceId, ctx.rootSpanId, ctx.isSampled, ctx.traceFlags)

@[simp] theorem identity_spanStart (ctx : Context) (name : Bytes) (kind : SpanKind)
    (parentId : Option Bytes) (draw : Draw 8) (nowNs : ℕ) :
    (spanStart ctx name kind parentId draw nowNs).1.identity = ctx.identity := by
  unfold spanStart
  split <;> rfl

theorem identity_step (s : Timed) (e : ℕ × Call) : (step s e).ctx.identity = s.ctx.identity := by
  obtain ⟨now, call⟩ := e
  cases call with
  | start name kind parentId draw => exact identity_spanStart s.ctx name kind parentId draw now
  | finish name status errDesc => rfl
  | setAttr name key value => rfl
  | setAttrInt name key value => rfl

theorem identity_run (s : Timed) (calls : List (ℕ × Call)) :
    (run step s calls).ctx.identity = s.ctx.identity := by
  induction calls generalizing s with
  | nil => rfl
  | cons e rest ih => exact (ih (step s e)).trans (identity_step s e)

theorem Identified.of_identity {ctx ctx' : Context} (h : Identified ctx)
    (hsame : ctx'.identity = ctx.identity) : Identified ctx' := by
  simp only [Context.identity, Prod.mk.injEq] at hsame
  obtain ⟨htrace, hroot, hsampled, hflags⟩ := hsame
  refine ⟨htrace ▸ h.trace, hroot ▸ h.root, ?_⟩
  rw [hsampled, hflags]
  exact h.sampled

theorem newSpan_spanId {ctx : Context} {name : Bytes} (hname : name ≠ rootName) (kind : SpanKind)
    (parentId : Option Bytes) (draw : Draw 8) (nowNs : ℕ) :
    (newSpan ctx name kind parentId draw nowNs).spanId = generateHexId draw :=
  if_neg fun h => hname h.1

/-- The header of the upstream call names the trace of the request. -/
theorem Gateway.outbound_eq (g : Gateway) (inbound : Option Bytes) :
    ∃ sid, IsId 16 sid ∧ g.outbound inbound =
      traceparent (g.context inbound).traceId sid (g.context inbound).traceFlags := by
  have hbegin := identified_contextInit inbound g.sample g.trace g.root g.nowUs
  have hname : ascii "upstream_ttft" ≠ rootName := by decide +kernel
  set ctx := (run step ⟨g.context inbound, 0⟩ g.calls).ctx with hctx
  have hstart := identity_spanStart ctx (ascii "upstream_ttft") .client (some ctx.rootSpanId)
    g.upstream g.nowNs
  have hrun : ctx.identity = (g.context inbound).identity :=
    identity_run ⟨g.context inbound, 0⟩ g.calls
  have hsame := hstart.trans hrun
  have hcid : ∀ sid ∈ (spanStart ctx (ascii "upstream_ttft") .client (some ctx.rootSpanId)
      g.upstream g.nowNs).2.bind (fun i => ((spanStart ctx (ascii "upstream_ttft") .client
        (some ctx.rootSpanId) g.upstream g.nowNs).1.spans[i]?).map TraceSpan.spanId),
      IsId 16 sid := by
    intro sid hsid
    unfold spanStart at hsid
    split at hsid
    · cases hsid
    · simp only [Option.bind_some, List.getElem?_concat_length, Option.map_some,
        Option.mem_some_iff, newSpan_spanId hname] at hsid
      exact hsid ▸ isId_generateHexId g.upstream
  obtain ⟨sid, hid, hformat⟩ := (hbegin.of_identity hsame).format hcid
  simp only [Context.identity, Prod.mk.injEq] at hsame
  refine ⟨sid, hid, ?_⟩
  rw [Gateway.outbound, ← hctx]
  rw [hformat, hsame.1, hsame.2.2.2]

/-- A gateway joins the trace of a header that another one wrote. -/
theorem Gateway.context_traceparent (g : Gateway) (p : Traceparent) :
    (g.context (some p.text)).traceId = lower p.traceId ∧
      (g.context (some p.text)).traceFlags = p.flags ∧
        (g.context (some p.text)).isSampled = decide (p.flags &&& 1 ≠ 0) := by
  rw [Gateway.context, contextInit_text]
  exact ⟨rfl, rfl, rfl⟩

theorem Gateway.context_fresh (g : Gateway) {inbound : Option Bytes}
    (h : ∀ p : Traceparent, inbound ≠ some p.text) :
    (g.context inbound).traceId = generateHexId g.trace ∧
      (g.context inbound).isSampled = g.sample := by
  rw [Gateway.context, contextInit_fresh h]
  exact ⟨rfl, rfl⟩

theorem forward_eq (gateways : List Gateway) {traceId spanId : Bytes} (htrace : IsId 32 traceId)
    (hspan : IsId 16 spanId) (flags : UInt8) :
    ∃ sid, IsId 16 sid ∧ forward gateways (some (traceparent traceId spanId flags)) =
      some (traceparent traceId sid flags) := by
  induction gateways generalizing spanId with
  | nil => exact ⟨spanId, hspan, rfl⟩
  | cons g rest ih =>
    obtain ⟨p, htext, hid, hflags⟩ := exists_traceparent htrace hspan flags
    obtain ⟨sid, hsid, hout⟩ := g.outbound_eq (some p.text)
    obtain ⟨hjoined, hkept, -⟩ := g.context_traceparent p
    rw [hjoined, hkept, hid, hflags, htext] at hout
    obtain ⟨last, hlast, hforward⟩ := ih hsid
    refine ⟨last, hlast, ?_⟩
    rw [← hforward, forward, List.foldl_cons, hout]
    rfl

/-- However many gateways a request goes through, and whatever each does on its way, the last one
names the trace and the flags of the first, which are those of the header that the request came
with if that is one, and otherwise new. -/
theorem trace_kept (g : Gateway) (rest : List Gateway) (inbound : Option Bytes) :
    (∃ sid, IsId 16 sid ∧ forward (g :: rest) inbound =
        some (traceparent (g.context inbound).traceId sid (g.context inbound).traceFlags)) ∧
      (∀ p : Traceparent, inbound = some p.text →
        (g.context inbound).traceId = lower p.traceId ∧ (g.context inbound).traceFlags = p.flags ∧
          (g.context inbound).isSampled = decide (p.flags &&& 1 ≠ 0)) ∧
        ((∀ p : Traceparent, inbound ≠ some p.text) →
          (g.context inbound).traceId = generateHexId g.trace ∧
            (g.context inbound).isSampled = g.sample) := by
  refine ⟨?_, ?_, g.context_fresh⟩
  · have hbegin := identified_contextInit inbound g.sample g.trace g.root g.nowUs
    obtain ⟨sid, hsid, hout⟩ := g.outbound_eq inbound
    obtain ⟨last, hlast, hforward⟩ :=
      forward_eq rest hbegin.trace hsid (g.context inbound).traceFlags
    refine ⟨last, hlast, ?_⟩
    rw [forward, List.foldl_cons, hout]
    exact hforward
  · rintro p rfl
    exact g.context_traceparent p

/-! ### The spans of a request -/

/-- The parts of a span that only its start writes. -/
def TraceSpan.place (s : TraceSpan) : Bytes × Bytes × Bytes × ℕ :=
  (s.spanId, s.parentSpanId, s.name, s.startTimeNs)

@[simp] theorem place_finish (status : SpanStatus) (errDesc : Option Bytes) (nowNs : ℕ)
    (s : TraceSpan) : (s.finish status errDesc nowNs).place = s.place := rfl

/-- What holds of each span at a time. -/
structure SpanOk (now : ℕ) (s : TraceSpan) : Prop where
  id : IsId 16 s.spanId
  started : s.startTimeNs ≤ now
  ended : s.endTimeNs ≠ 0 → s.startTimeNs ≤ s.endTimeNs ∧ s.endTimeNs ≤ now
  room : s.attributes.length ≤ maxAttrs
  keys : ∀ key, key.length < 31 → (s.attributes.map SpanAttr.key).count key ≤ 1

theorem SpanOk.later {now later : ℕ} {s : TraceSpan} (h : SpanOk now s) (hle : now ≤ later) :
    SpanOk later s where
  id := h.id
  started := h.started.trans hle
  ended := fun hend => ⟨(h.ended hend).1, (h.ended hend).2.trans hle⟩
  room := h.room
  keys := h.keys

theorem SpanOk.finish {now : ℕ} {s : TraceSpan} (h : SpanOk now s) (status : SpanStatus)
    (errDesc : Option Bytes) : SpanOk now (s.finish status errDesc now) where
  id := h.id
  started := h.started
  ended := by
    intro _
    have hend : (s.finish status errDesc now).endTimeNs = now :=
      if_neg (Nat.not_lt.mpr h.started)
    rw [hend]
    exact ⟨h.started, le_refl now⟩
  room := h.room
  keys := h.keys

theorem length_modifyFirst {α : Type*} (p : α → Bool) (f : α → α) (l : List α) :
    (modifyFirst p f l).length = l.length := by
  have h := (touched_modifyFirst (p := p) (f := f) l).map_eq (g := fun _ => ()) fun _ => rfl
  simpa using congrArg List.length h

theorem length_setAttr (key value : Bytes) {attrs : List SpanAttr} (h : attrs.length ≤ maxAttrs) :
    (setAttr key value attrs).length ≤ maxAttrs := by
  unfold setAttr
  split
  · rw [length_modifyFirst]
    exact h
  · split
    · rw [List.length_append, List.length_singleton]
      omega
    · exact h

/-- Only a text that fits is stored as it is. -/
theorem field_eq_iff {s : Bytes} {n : ℕ} {t : Bytes} (ht : t.length < n - 1) :
    field n s = t ↔ s = t := by
  constructor
  · intro h
    have hlen := congrArg List.length h
    rw [field, List.length_take] at hlen
    rw [← h, field, List.take_of_length_le (by omega)]
  · rintro rfl
    exact List.take_of_length_le ht.le

/-- A key that is not cut off is set in its place. -/
theorem count_setAttr (key value : Bytes) {attrs : List SpanAttr} {k : Bytes}
    (hk : k.length < 31) (h : (attrs.map SpanAttr.key).count k ≤ 1) :
    ((setAttr key value attrs).map SpanAttr.key).count k ≤ 1 := by
  unfold setAttr
  split
  · have hsame : (modifyFirst (fun a : SpanAttr => decide (a.key = key))
        (fun a => { a with value := field 64 value }) attrs).map SpanAttr.key =
          attrs.map SpanAttr.key := (touched_modifyFirst attrs).map_eq fun _ => rfl
    rw [hsame]
    exact h
  · rename_i hnone
    split
    · rw [List.map_append, List.count_append]
      by_cases hkey : field 32 key = k
      · have hfits : key = k := (field_eq_iff hk).mp hkey
        have hzero : (attrs.map SpanAttr.key).count k = 0 := by
          rw [List.count_eq_zero, ← hfits]
          intro hmem
          obtain ⟨a, ha, hak⟩ := List.mem_map.mp hmem
          exact hnone (List.any_eq_true.mpr ⟨a, ha, decide_eq_true hak⟩)
        rw [hzero]
        exact (Nat.zero_add _).trans_le List.count_le_length
      · have hother : ([⟨field 32 key, field 64 value⟩].map SpanAttr.key).count k = 0 := by
          simp [hkey]
        rw [hother]
        exact h
    · exact h

theorem SpanOk.setAttr {now : ℕ} {s : TraceSpan} (h : SpanOk now s) (key value : Bytes) :
    SpanOk now { s with attributes := TraceContext.setAttr key value s.attributes } where
  id := h.id
  started := h.started
  ended := h.ended
  room := length_setAttr key value h.room
  keys := fun k hk => count_setAttr key value hk (h.keys k hk)

/-- The spans after a call that starts none: each is as it was or is one that was ended or
given an attribute. -/
structure Updates (now : ℕ) (spans spans' : List TraceSpan) : Prop where
  places : spans'.map TraceSpan.place = spans.map TraceSpan.place
  ok : (∀ s ∈ spans, SpanOk now s) → ∀ s ∈ spans', SpanOk now s

theorem Touched.updates {p : TraceSpan → Bool} {f : TraceSpan → TraceSpan}
    {spans spans' : List TraceSpan} {now : ℕ} (h : Touched p f spans spans')
    (hplace : ∀ s, (f s).place = s.place) (hok : ∀ s, SpanOk now s → SpanOk now (f s)) :
    Updates now spans spans' where
  places := h.map_eq hplace
  ok := by
    intro hall s hs
    obtain ⟨a, ha, rfl | ⟨-, rfl⟩⟩ := h.exists_mem hs
    · exact hall s ha
    · exact hok a (hall a ha)

theorem updates_spanEnd (ctx : Context) (name : Bytes) (status : SpanStatus)
    (errDesc : Option Bytes) (now : ℕ) :
    Updates now ctx.spans (spanEnd ctx name status errDesc now).spans :=
  (touched_modifyLast ctx.spans).updates (fun _ => rfl) fun _ h => h.finish status errDesc

theorem updates_spanSetAttr (ctx : Context) (name key value : Bytes) (now : ℕ) :
    Updates now ctx.spans (spanSetAttr ctx name key value).spans := by
  have hset : ∀ s, SpanOk now s →
      SpanOk now { s with attributes := setAttr key value s.attributes } :=
    fun _ h => h.setAttr key value
  unfold spanSetAttr
  dsimp only
  split
  · exact (touched_modifyLast ctx.spans).updates (fun _ => rfl) hset
  · exact (touched_modifyFirst ctx.spans).updates (fun _ => rfl) hset

/-- The places of the spans of a request, whose first is its root. -/
structure Places (root : Bytes) (start : ℕ) (places : List (Bytes × Bytes × Bytes × ℕ)) : Prop where
  length : places.length ≤ maxSpans
  first : ∃ parent rest, places = (root, parent, rootName, start) :: rest ∧
    ∀ q ∈ rest, q.2.2.1 ≠ rootName
  after : ∀ q ∈ places, start ≤ q.2.2.2
  below : ∀ i q, 0 < i → places[i]? = some q → ∃ j < i, ∃ p, places[j]? = some p ∧ p.1 = q.2.1

theorem Places.append {root : Bytes} {start : ℕ} {places : List (Bytes × Bytes × Bytes × ℕ)}
    (h : Places root start places) {q : Bytes × Bytes × Bytes × ℕ}
    (hroom : places.length < maxSpans) (hname : q.2.2.1 ≠ rootName) (hstart : start ≤ q.2.2.2)
    (hparent : ∃ p ∈ places, p.1 = q.2.1) :
    Places root start (places ++ [q]) where
  length := by
    rw [List.length_append, List.length_singleton]
    omega
  first := by
    obtain ⟨parent, rest, rfl, hrest⟩ := h.first
    refine ⟨parent, rest ++ [q], rfl, fun q' hq' => ?_⟩
    rcases List.mem_append.mp hq' with hq' | hq'
    · exact hrest q' hq'
    · rw [List.mem_singleton.mp hq']
      exact hname
  after := by
    intro q' hq'
    rcases List.mem_append.mp hq' with hq' | hq'
    · exact h.after q' hq'
    · rw [List.mem_singleton.mp hq']
      exact hstart
  below := by
    intro i q' hi hq'
    by_cases hlt : i < places.length
    · rw [List.getElem?_append_left hlt] at hq'
      obtain ⟨j, hj, p, hp, hid⟩ := h.below i q' hi hq'
      exact ⟨j, hj, p, by rw [List.getElem?_append_left (hj.trans hlt), hp], hid⟩
    · rw [List.getElem?_append_right (Nat.le_of_not_lt hlt)] at hq'
      obtain ⟨p, hp, hid⟩ := hparent
      obtain ⟨j, hj, rfl⟩ := List.mem_iff_getElem.mp hp
      have hqq : q' = q := by
        have := List.mem_of_getElem? hq'
        exact List.mem_singleton.mp this
      refine ⟨j, by omega, places[j], ?_, hqq ▸ hid⟩
      rw [List.getElem?_append_left hj, List.getElem?_eq_getElem hj]

/-- The invariant of a request: its root is the first span, and each span is in order. -/
structure Inv (root : Bytes) (start : ℕ) (s : Timed) : Prop where
  identified : Identified s.ctx
  root_eq : s.ctx.rootSpanId = root
  places : Places root start (s.ctx.spans.map TraceSpan.place)
  spans : ∀ sp ∈ s.ctx.spans, SpanOk s.now sp
  now : start ≤ s.now

theorem Inv.update {root : Bytes} {start : ℕ} {s s' : Timed} (h : Inv root start s)
    (hsame : s'.ctx.identity = s.ctx.identity) (hnow : s.now ≤ s'.now)
    (hspans : Updates s'.now s.ctx.spans s'.ctx.spans) : Inv root start s' where
  identified := h.identified.of_identity hsame
  root_eq := by
    simp only [Context.identity, Prod.mk.injEq] at hsame
    exact hsame.2.1.trans h.root_eq
  places := by
    rw [hspans.places]
    exact h.places
  spans := hspans.ok fun sp hsp => (h.spans sp hsp).later hnow
  now := h.now.trans hnow

theorem rootName_length : rootName.length = 4 := by decide +kernel

theorem newSpan_ok {ctx : Context} (hctx : Identified ctx) (name : Bytes) (kind : SpanKind)
    (parentId : Option Bytes) (draw : Draw 8) (now : ℕ) :
    SpanOk now (newSpan ctx name kind parentId draw now) where
  id := by
    have hroot : field 17 ctx.rootSpanId = ctx.rootSpanId :=
      List.take_of_length_le hctx.root.length.le
    rw [newSpan]
    dsimp only
    split
    · rw [hroot]
      exact hctx.root
    · exact isId_generateHexId draw
  started := le_refl now
  ended := fun h => absurd rfl h
  room := Nat.zero_le _
  keys := fun _ _ => Nat.zero_le _

/-- A span is below the one that its caller names, or below the root. -/
theorem parent_newSpan {root : Bytes} {start : ℕ} {s : Timed} (h : Inv root start s)
    {name : Bytes} (hname : name ≠ rootName) (kind : SpanKind) {parentId : Option Bytes}
    (hparent : ∀ parent ∈ parentId, parent = [] ∨ ∃ p ∈ s.ctx.spans, p.spanId = parent)
    (draw : Draw 8) (now : ℕ) :
    ∃ p ∈ s.ctx.spans.map TraceSpan.place,
      p.1 = (newSpan s.ctx name kind parentId draw now).parentSpanId := by
  have hfield : ∀ {id : Bytes}, IsId 16 id → field 17 id = id :=
    fun hid => List.take_of_length_le hid.length.le
  rw [newSpan]
  dsimp only
  split
  · rename_i parent hgiven
    obtain ⟨hmem, hne⟩ := Option.filter_eq_some_iff.mp hgiven
    obtain ⟨p, hp, rfl⟩ := (hparent parent hmem).resolve_left (of_decide_eq_true hne)
    exact ⟨p.place, List.mem_map_of_mem hp, (hfield (h.spans p hp).id).symm⟩
  · obtain ⟨parent, rest, hfirst, -⟩ := h.places.first
    rw [hfirst, if_neg hname, hfield h.identified.root, h.root_eq]
    exact ⟨_, List.mem_cons_self, rfl⟩

theorem Inv.step {root : Bytes} {start : ℕ} {s : Timed} {e : ℕ × Call} (h : Inv root start s)
    (hok : StepOk s e) : Inv root start (step s e) := by
  have hsame := identity_step s e
  obtain ⟨now, call⟩ := e
  obtain ⟨hnow, hcall⟩ := hok
  cases call with
  | start name kind parentId draw =>
    obtain ⟨hname, hparent⟩ := hcall
    have hbegin : Inv root start ⟨s.ctx, now⟩ :=
      h.update rfl hnow ⟨rfl, fun hall => hall⟩
    by_cases hfull : maxSpans ≤ s.ctx.spans.length
    · have hstep : TraceContext.step s (now, .start name kind parentId draw) = ⟨s.ctx, now⟩ := by
        simp only [TraceContext.step, spanStart, if_pos hfull]
      rw [hstep]
      exact hbegin
    · have hspans : (TraceContext.step s (now, .start name kind parentId draw)).ctx.spans =
          s.ctx.spans ++ [newSpan s.ctx name kind parentId draw now] := by
        simp only [TraceContext.step, spanStart, if_neg hfull]
      have hroot : (TraceContext.step s (now, .start name kind parentId draw)).ctx.rootSpanId =
          s.ctx.rootSpanId := by
        simp only [Context.identity, Prod.mk.injEq] at hsame
        exact hsame.2.1
      refine ⟨h.identified.of_identity hsame, hroot.trans h.root_eq, ?_, ?_, hbegin.now⟩
      · rw [hspans, List.map_append, List.map_singleton]
        refine h.places.append ?_ ?_ hbegin.now ?_
        · rw [List.length_map]
          omega
        · have hshort : rootName.length < 32 - 1 := by rw [rootName_length]; omega
          exact fun heq => hname ((field_eq_iff hshort).mp heq)
        · exact parent_newSpan h hname kind hparent draw now
      · intro sp hsp
        rw [hspans] at hsp
        rcases List.mem_append.mp hsp with hsp | hsp
        · exact hbegin.spans sp hsp
        · rw [List.mem_singleton.mp hsp]
          exact newSpan_ok h.identified name kind parentId draw now
  | finish name status errDesc =>
    exact h.update hsame hnow (updates_spanEnd s.ctx name status errDesc now)
  | setAttr name key value =>
    exact h.update hsame hnow (updates_spanSetAttr s.ctx name key value now)
  | setAttrInt name key value =>
    exact h.update hsame hnow (updates_spanSetAttr s.ctx name key _ now)

/-- The context of a request when the span of the request has been started. -/
def begin (inbound : Option Bytes) (sample : Bool) (trace : Draw 16) (root own : Draw 8)
    (nowUs nowNs : ℕ) : Timed :=
  ⟨(spanStart (contextInit inbound sample trace root nowUs) rootName .server none own nowNs).1,
    nowNs⟩

theorem spans_contextInit (inbound : Option Bytes) (sample : Bool) (trace : Draw 16)
    (root : Draw 8) (nowUs : ℕ) :
    (contextInit inbound sample trace root nowUs).spans = [] ∧
      (contextInit inbound sample trace root nowUs).rootSpanId = generateHexId root := by
  by_cases htext : ∃ p : Traceparent, inbound = some p.text
  · obtain ⟨p, rfl⟩ := htext
    rw [contextInit_text]
    exact ⟨rfl, rfl⟩
  · rw [contextInit_fresh (not_exists.mp htext)]
    exact ⟨rfl, rfl⟩

theorem inv_begin (inbound : Option Bytes) (sample : Bool) (trace : Draw 16) (root own : Draw 8)
    (nowUs nowNs : ℕ) :
    Inv (generateHexId root) nowNs (begin inbound sample trace root own nowUs nowNs) := by
  have hctx := identified_contextInit inbound sample trace root nowUs
  obtain ⟨hnone, hroot⟩ := spans_contextInit inbound sample trace root nowUs
  set ctx := contextInit inbound sample trace root nowUs with hdef
  have hbegin : (begin inbound sample trace root own nowUs nowNs).ctx =
      { ctx with spans := [newSpan ctx rootName .server none own nowNs] } := by
    rw [begin, ← hdef]
    simp [spanStart, hnone, maxSpans]
  have hid : (newSpan ctx rootName .server none own nowNs).spanId = generateHexId root := by
    rw [newSpan, if_pos ⟨rfl, hctx.root.ne_nil⟩, hroot]
    exact List.take_of_length_le (isId_generateHexId root).length.le
  have hname : (newSpan ctx rootName .server none own nowNs).name = rootName :=
    List.take_of_length_le (by rw [rootName_length]; omega)
  refine ⟨?_, ?_, ?_, ?_, le_refl nowNs⟩
  · rw [hbegin]
    exact hctx.of_identity rfl
  · rw [hbegin]
    exact hroot
  · rw [hbegin]
    refine ⟨by simp [maxSpans], ?_, ?_, ?_⟩
    · exact ⟨_, [], by rw [List.map_singleton, TraceSpan.place, hid, hname]; rfl, by simp⟩
    · simp [TraceSpan.place, newSpan]
    · intro i q hi hq
      rw [List.map_singleton, List.getElem?_eq_none (by rw [List.length_singleton]; exact hi)] at hq
      cases hq
  · rw [hbegin]
    intro sp hsp
    rw [List.mem_singleton.mp hsp]
    exact newSpan_ok hctx rootName .server none own nowNs

/-- The end of the request is the end of its first span. -/
theorem Inv.spanEnd_root {root : Bytes} {start : ℕ} {s : Timed} (h : Inv root start s)
    (status : SpanStatus) (errDesc : Option Bytes) {now : ℕ} (hnow : s.now ≤ now) :
    ∃ first rest, s.ctx.spans = first :: rest ∧ first.startTimeNs = start ∧
      (spanEnd s.ctx rootName status errDesc now).spans =
        first.finish status errDesc now :: rest ∧
        (first.finish status errDesc now).endTimeNs = now := by
  obtain ⟨parent, places, hplaces, hrest⟩ := h.places.first
  cases hspans : s.ctx.spans with
  | nil =>
    rw [hspans] at hplaces
    cases hplaces
  | cons first rest =>
    rw [hspans, List.map_cons, List.cons.injEq] at hplaces
    obtain ⟨hfirst, rfl⟩ := hplaces
    simp only [TraceSpan.place, Prod.mk.injEq] at hfirst
    obtain ⟨-, -, hname, hstart⟩ := hfirst
    have hnamed : ∀ sp ∈ rest, sp.name ≠ rootName :=
      fun sp hsp => hrest sp.place (List.mem_map_of_mem hsp)
    have hopen : rest.any (TraceSpan.openNamed rootName) = false := by
      rw [List.any_eq_false]
      intro sp hsp hsome
      rw [TraceSpan.openNamed, Bool.and_eq_true, decide_eq_true_eq] at hsome
      exact hnamed sp hsp hsome.1
    have hany : rest.any (TraceSpan.named rootName) = false := by
      rw [List.any_eq_false]
      exact fun sp hsp hsome => hnamed sp hsp (of_decide_eq_true hsome)
    have hended : (first.finish status errDesc now).endTimeNs = now := by
      have hstarted := (h.spans first (hspans ▸ List.mem_cons_self)).started.trans hnow
      exact if_neg (Nat.not_lt.mpr hstarted)
    refine ⟨first, rest, rfl, hstart, ?_, hended⟩
    simp only [spanEnd, hspans, List.any_cons, hopen, Bool.or_false]
    by_cases hfirst : TraceSpan.openNamed rootName first = true
    · rw [if_pos hfirst, modifyLast, hopen, if_neg Bool.false_ne_true, if_pos hfirst]
    · have hown : TraceSpan.named rootName first = true := decide_eq_true hname
      rw [if_neg hfirst, modifyLast, hany, if_neg Bool.false_ne_true, if_pos hown]

/-- A request that has ended leaves a trace. -/
theorem Inv.traced {root : Bytes} {start : ℕ} {s : Timed} (h : Inv root start s)
    (status : SpanStatus) (errDesc : Option Bytes) {endNs : ℕ} (hend : s.now ≤ endNs) :
    Traced (spanEnd s.ctx rootName status errDesc endNs) := by
  obtain ⟨first, rest, hspans, hstart, hafter, hended⟩ := h.spanEnd_root status errDesc hend
  have hupdate : Inv root start ⟨spanEnd s.ctx rootName status errDesc endNs, endNs⟩ :=
    h.update rfl hend (updates_spanEnd s.ctx rootName status errDesc endNs)
  have hlength := hupdate.places.length
  rw [List.length_map] at hlength
  refine ⟨⟨?_, hlength⟩, fun sp hsp => (hupdate.spans sp hsp).id, ?_, ?_, fun sp hsp =>
    ⟨(hupdate.spans sp hsp).room, (hupdate.spans sp hsp).keys⟩⟩
  · rw [hafter]
    exact Nat.succ_pos _
  · intro i sp hi hsp
    have hplace : ((spanEnd s.ctx rootName status errDesc endNs).spans.map TraceSpan.place)[i]? =
        some sp.place := by rw [List.getElem?_map, hsp, Option.map_some]
    obtain ⟨j, hj, q, hq, hid⟩ := hupdate.places.below i sp.place hi hplace
    rw [List.getElem?_map, Option.map_eq_some_iff] at hq
    obtain ⟨p, hp, rfl⟩ := hq
    exact ⟨j, hj, p, hp, hid⟩
  · intro r hr sp hsp
    rw [hafter, List.head?_cons, Option.mem_some_iff] at hr
    have hfrom := hupdate.places.after sp.place (List.mem_map_of_mem hsp)
    have hrstart : r.startTimeNs = start := hr ▸ hstart
    have hrend : r.endTimeNs = endNs := hr ▸ hended
    rw [hrstart, hrend]
    exact ⟨hfrom, (hupdate.spans sp hsp).started, (hupdate.spans sp hsp).ended⟩

/-- In every run whose clock does not go back and whose spans have names of their own and parents
that are there, the request leaves a tree of spans that lie within its own. -/
theorem traced_run (inbound : Option Bytes) (sample : Bool) (trace : Draw 16) (root own : Draw 8)
    (nowUs nowNs : ℕ) (calls : List (ℕ × Call))
    (hok : RunOk step StepOk (begin inbound sample trace root own nowUs nowNs) calls)
    (status : SpanStatus) (errDesc : Option Bytes) (endNs : ℕ)
    (hend : (run step (begin inbound sample trace root own nowUs nowNs) calls).now ≤ endNs) :
    Traced (spanEnd (run step (begin inbound sample trace root own nowUs nowNs) calls).ctx
      rootName status errDesc endNs) := by
  have hrun : Always step (Inv (generateHexId root) nowNs)
      (begin inbound sample trace root own nowUs nowNs) calls :=
    always_of_runOk (fun _ _ h hok => h.step hok)
      (inv_begin inbound sample trace root own nowUs nowNs) hok
  exact hrun.last.traced status errDesc hend

def sampleTrace : Draw 16 := ⟨.replicate 16 1, 1, by simp, by decide⟩

def sampleSpan : Draw 8 := ⟨.replicate 8 2, 2, by simp, by decide⟩

/-- A request that is authenticated. -/
def sampleCalls : List (ℕ × Call) :=
  [(6, .start (ascii "auth_and_limits") .internal none sampleSpan),
    (7, .setAttrInt rootName (ascii "aigate.client.key_id") 3),
    (8, .finish (ascii "auth_and_limits") .ok none)]

theorem traced_sample :
    Traced (spanEnd (run step (begin none true sampleTrace sampleSpan sampleSpan 1 5)
      sampleCalls).ctx rootName .ok none 9) := by
  refine traced_run none true sampleTrace sampleSpan sampleSpan 1 5 sampleCalls ?_ .ok none 9 ?_
  · refine ⟨⟨by decide, by decide +kernel, ?_⟩, ⟨by decide, trivial⟩, ⟨by decide, trivial⟩, trivial⟩
    intro parent hparent
    cases hparent
  · decide

/-! ### Starts and ends -/

/-- The open spans of a name. -/
def openCount (name : Bytes) (ctx : Context) : ℕ := ctx.spans.countP (TraceSpan.openNamed name)

/-- The starts of a name that no end has followed, after a call. -/
def Call.unmatched (name : Bytes) (n : ℕ) : Call → ℕ
  | .start started _ _ _ => if started = name then n + 1 else n
  | .finish ended _ _ => if ended = name then n - 1 else n
  | _ => n

def Call.isStart : Call → Bool
  | .start _ _ _ _ => true
  | _ => false

theorem openCount_spanEnd (ctx : Context) (ended name : Bytes) (status : SpanStatus)
    (errDesc : Option Bytes) {now : ℕ} (hnow : 0 < now) :
    openCount name (spanEnd ctx ended status errDesc now) =
      if ended = name then openCount name ctx - 1 else openCount name ctx := by
  have hclosed : ∀ s : TraceSpan, (s.finish status errDesc now).openNamed name = false := by
    intro s
    have hend : (s.finish status errDesc now).endTimeNs ≠ 0 := by
      simp only [TraceSpan.finish]
      split <;> omega
    rw [TraceSpan.openNamed, Bool.and_eq_false_iff]
    exact Or.inr (decide_eq_false hend)
  unfold openCount spanEnd
  dsimp only
  by_cases hname : ended = name
  · subst hname
    rw [if_pos rfl]
    by_cases hopen : ctx.spans.any (TraceSpan.openNamed ended) = true
    · rw [if_pos hopen, countP_modifyLast hclosed]
    · -- the span that is ended once more had an end already
      have hzero : ctx.spans.countP (TraceSpan.openNamed ended) = 0 :=
        List.countP_eq_zero.mpr fun s hs hso => hopen (List.any_eq_true.mpr ⟨s, hs, hso⟩)
      rw [if_neg hopen, hzero, List.countP_eq_zero]
      intro b hb hbo
      obtain ⟨a, ha, rfl | ⟨-, rfl⟩⟩ := (touched_modifyLast ctx.spans).exists_mem hb
      · exact List.countP_eq_zero.mp hzero _ ha hbo
      · rw [hclosed] at hbo
        cases hbo
  · rw [if_neg hname]
    refine (touched_modifyLast ctx.spans).countP_eq fun s hs => ?_
    rw [hclosed]
    have hs' : s.name = ended := by
      split at hs
      · rw [TraceSpan.openNamed, Bool.and_eq_true, decide_eq_true_eq] at hs
        exact hs.1
      · exact of_decide_eq_true hs
    rw [TraceSpan.openNamed, decide_eq_false (hs' ▸ hname), Bool.false_and]

theorem openCount_spanSetAttr (ctx : Context) (set name key value : Bytes) :
    openCount name (spanSetAttr ctx set key value) = openCount name ctx := by
  unfold openCount spanSetAttr
  dsimp only
  split
  · exact (touched_modifyLast ctx.spans).countP_eq fun _ _ => rfl
  · exact (touched_modifyFirst ctx.spans).countP_eq fun _ _ => rfl

theorem openCount_spanStart (ctx : Context) {name : Bytes} (hname : name.length < 31)
    (started : Bytes) (kind : SpanKind) (parentId : Option Bytes) (draw : Draw 8) (now : ℕ)
    (hroom : ctx.spans.length < maxSpans) :
    openCount name (spanStart ctx started kind parentId draw now).1 =
      if started = name then openCount name ctx + 1 else openCount name ctx := by
  have hnew : (newSpan ctx started kind parentId draw now).openNamed name =
      decide (started = name) := by
    rw [TraceSpan.openNamed, newSpan]
    simp [field_eq_iff (n := 32) hname]
  rw [spanStart, if_neg (Nat.not_le.mpr hroom), openCount, List.countP_append,
    List.countP_singleton, hnew]
  by_cases h : started = name
  · simp [h, openCount]
  · simp [h, openCount]

theorem length_spans_step (s : Timed) (e : ℕ × Call) :
    (step s e).ctx.spans.length ≤ s.ctx.spans.length + if e.2.isStart then 1 else 0 := by
  obtain ⟨now, call⟩ := e
  have hupdate : ∀ {spans' : List TraceSpan}, Updates now s.ctx.spans spans' →
      spans'.length ≤ s.ctx.spans.length := by
    intro spans' h
    have hlen := congrArg List.length h.places
    rw [List.length_map, List.length_map] at hlen
    exact hlen.le
  cases call with
  | start name kind parentId draw =>
    simp only [step, spanStart, Call.isStart, if_true]
    split
    · exact Nat.le_succ _
    · rw [List.length_append, List.length_singleton]
  | finish name status errDesc => exact hupdate (updates_spanEnd s.ctx name status errDesc now)
  | setAttr name key value => exact hupdate (updates_spanSetAttr s.ctx name key value now)
  | setAttrInt name key value => exact hupdate (updates_spanSetAttr s.ctx name key _ now)

/-- In every run that has room for its spans, the open spans of a name are its starts that no end
has followed. -/
theorem openCount_run (s : Timed) (calls : List (ℕ × Call)) (name : Bytes)
    (hname : name.length < 31) (hclock : ∀ e ∈ calls, 0 < e.1)
    (hroom : s.ctx.spans.length + calls.countP (fun e => e.2.isStart) ≤ maxSpans) :
    openCount name (run step s calls).ctx =
      calls.foldl (fun n e => e.2.unmatched name n) (openCount name s.ctx) := by
  induction calls generalizing s with
  | nil => rfl
  | cons e rest ih =>
    have hlength := length_spans_step s e
    rw [List.countP_cons] at hroom
    have hrest := ih (step s e) (fun e' he' => hclock e' (List.mem_cons_of_mem _ he')) (by omega)
    have hfirst : openCount name (step s e).ctx = e.2.unmatched name (openCount name s.ctx) := by
      have hnow := hclock e List.mem_cons_self
      obtain ⟨now, call⟩ := e
      cases call with
      | start started kind parentId draw =>
        refine openCount_spanStart s.ctx hname started kind parentId draw now ?_
        simp only [Call.isStart, if_true] at hroom
        omega
      | finish ended status errDesc =>
        exact openCount_spanEnd s.ctx ended name status errDesc hnow
      | setAttr set key value => exact openCount_spanSetAttr s.ctx set name key value
      | setAttrInt set key value => exact openCount_spanSetAttr s.ctx set name key _
    rw [List.foldl_cons, ← hfirst]
    exact hrest

theorem openCount_sample : openCount (ascii "auth_and_limits")
    (run step (begin none true sampleTrace sampleSpan sampleSpan 1 5) sampleCalls).ctx =
      sampleCalls.foldl (fun n e => e.2.unmatched (ascii "auth_and_limits") n)
        (openCount (ascii "auth_and_limits")
          (begin none true sampleTrace sampleSpan sampleSpan 1 5).ctx) :=
  openCount_run _ sampleCalls (ascii "auth_and_limits") (by decide +kernel) (by decide)
    (by decide +kernel)

end Aigate.TraceContext
