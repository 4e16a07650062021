import Aigate.ResponseCacheKey

/-!
# Buffer bounds of the cache key builder

The offsets of the builder never decrease, so every write is inside the buffer exactly
when the final offset is. A text that is copied whole leaves the buffer exactly when it
is longer than the room its guard has left for it.
-/
namespace Aigate.ResponseCacheKeyBounds
open Text JsonTree JsonText JsonRoundtrip ResponseCacheKey

/-- Every write starts, and the hashed text ends, before the end of the buffer. -/
def InBounds (b : KeyBuffer) : Prop := (∀ w ∈ b.writes, w < bufferSize) ∧ b.off < bufferSize

/-- No write started behind the current offset. -/
def Ordered (b : KeyBuffer) : Prop := ∀ w ∈ b.writes, w ≤ b.off

/-- The second buffer continues the first. -/
def Grows (b b' : KeyBuffer) : Prop := b.off ≤ b'.off ∧ (Ordered b → Ordered b')

theorem Grows.refl (b : KeyBuffer) : Grows b b := ⟨le_refl _, id⟩

theorem Grows.trans {a b c : KeyBuffer} (h : Grows a b) (h' : Grows b c) : Grows a c :=
  ⟨h.1.trans h'.1, h'.2 ∘ h.2⟩

@[simp] theorem put_off (b : KeyBuffer) (s : Bytes) : (b.put s).off = b.off + s.length := by
  simp [KeyBuffer.put, KeyBuffer.off]

@[simp] theorem terminate_off (b : KeyBuffer) : b.terminate.off = b.off := rfl

theorem put_grows (b : KeyBuffer) (s : Bytes) : Grows b (b.put s) := by
  refine ⟨by simp, fun h w hw => ?_⟩
  simp only [KeyBuffer.put, List.mem_cons] at hw
  rw [put_off]
  rcases hw with rfl | hw
  · omega
  · have := h w hw
    omega

theorem terminate_grows (b : KeyBuffer) : Grows b b.terminate := by
  refine ⟨le_refl _, fun h w hw => ?_⟩
  simp only [KeyBuffer.terminate, List.mem_cons] at hw
  rcases hw with rfl | hw
  · exact le_refl _
  · exact h w hw

theorem putWithin_grows (b : KeyBuffer) (reserve : ℕ) (s : Bytes) :
    Grows b (b.putWithin reserve s) := by
  unfold KeyBuffer.putWithin
  split_ifs
  · exact put_grows b s
  · exact Grows.refl b

theorem putNumber_grows (b : KeyBuffer) (root : Json) (key label : String) :
    Grows b (putNumber b root key label) := by
  unfold putNumber
  split
  · exact putWithin_grows _ _ _
  · exact Grows.refl b

theorem putSystem_grows (b : KeyBuffer) (root : Json) : Grows b (putSystem b root) := by
  unfold putSystem
  split
  · exact putWithin_grows _ _ _
  · exact Grows.refl b

theorem putRole_grows (b : KeyBuffer) (i : ℕ) (m : Json) : Grows b (putRole b i m) := by
  unfold putRole
  split
  · exact putWithin_grows _ _ _
  · exact Grows.refl b

theorem putParts_grows (b : KeyBuffer) (i : ℕ) (parts : List Json) :
    Grows b (putParts b i parts) := by
  induction parts generalizing b i with
  | nil => exact Grows.refl b
  | cons part rest ih =>
    unfold putParts
    split
    · exact (putWithin_grows _ _ _).trans (ih _ _)
    · exact ih b _

theorem putContent_grows (b : KeyBuffer) (content : Option Json) :
    Grows b (putContent b content) := by
  unfold putContent
  split
  · split_ifs
    · exact (put_grows _ _).trans (put_grows _ _)
    · exact Grows.refl b
    · exact Grows.refl b
  · exact putParts_grows b 0 _
  · exact Grows.refl b

theorem putMessage_grows (b : KeyBuffer) (i : ℕ) (m : Json) : Grows b (putMessage b i m) :=
  (putRole_grows b i m).trans (putContent_grows _ _)

theorem putMessages_grows (b : KeyBuffer) (i : ℕ) (msgs : List Json) :
    Grows b (putMessages b i msgs) := by
  induction msgs generalizing b i with
  | nil => exact Grows.refl b
  | cons m rest ih =>
    unfold putMessages
    split_ifs
    · exact putMessage_grows b i m
    · exact (putMessage_grows b i m).trans (ih _ _)
    · exact ih b _

theorem putToolNames_grows (b : KeyBuffer) (tools : List Json) :
    Grows b (putToolNames b tools) := by
  induction tools generalizing b with
  | nil => exact Grows.refl b
  | cons tool rest ih =>
    unfold putToolNames
    split
    · exact (putWithin_grows _ _ _).trans (ih _)
    · exact ih b

theorem putTools_grows (b : KeyBuffer) (root : Json) : Grows b (putTools b root) := by
  unfold putTools
  split
  · split_ifs
    · exact ((put_grows _ _).trans (putToolNames_grows _ _)).trans (put_grows _ _)
    · exact Grows.refl b
  · exact Grows.refl b

theorem buildKey_grows (model : Bytes) (root : Json) :
    Grows KeyBuffer.empty (buildKey model root) :=
  (((((put_grows _ _).trans (putNumber_grows _ _ _ _)).trans (putNumber_grows _ _ _ _)).trans
    (putSystem_grows _ _)).trans (putMessages_grows _ _ _)).trans
      ((putTools_grows _ _).trans (terminate_grows _))

/-- The whole run stays inside the buffer as soon as its last offset does. -/
theorem buildKey_inBounds_off (model : Bytes) (root : Json) :
    InBounds (buildKey model root) ↔ (buildKey model root).off < bufferSize := by
  have hord : Ordered (buildKey model root) :=
    (buildKey_grows model root).2 (by simp [Ordered, KeyBuffer.empty])
  exact ⟨fun h => h.2, fun h => ⟨fun w hw => (hord w hw).trans_lt h, h⟩⟩

/-! The lengths alone: where each text ends, and whether it fits. -/

/-- The offset after a guarded text of a given length. -/
def endWithin (n reserve len : ℕ) : ℕ := if n < bufferSize - reserve then n + len else n

/-- A guarded text that is let in ends inside the buffer. -/
def Fits (n reserve len : ℕ) : Prop := n < bufferSize - reserve → n + len < bufferSize

def roleEnd (n i : ℕ) (m : Json) : ℕ :=
  match m.getString "role" with
  | some role => endWithin n 128 (roleText i role).length
  | none => n

def RoleFits (n i : ℕ) (m : Json) : Prop :=
  match m.getString "role" with
  | some role => Fits n 128 (roleText i role).length
  | none => True

def partsEnd (n i : ℕ) : List Json → ℕ
  | [] => n
  | part :: rest =>
    match part.getString "text" with
    | some t => partsEnd (endWithin n 128 (partText i t).length) (i + 1) rest
    | none => partsEnd n (i + 1) rest

def PartsFit (n i : ℕ) : List Json → Prop
  | [] => True
  | part :: rest =>
    match part.getString "text" with
    | some t => Fits n 128 (partText i t).length ∧
        PartsFit (endWithin n 128 (partText i t).length) (i + 1) rest
    | none => PartsFit n (i + 1) rest

def contentEnd (n : ℕ) (content : Option Json) : ℕ :=
  match content with
  | some (.string c) =>
    if n < bufferSize - 128 ∧ n + min 256 c.length < bufferSize - 10
    then n + min 256 c.length + 1 else n
  | some (.array parts) => partsEnd n 0 parts
  | _ => n

/-- A text content is cut to 256 bytes and needs no condition. -/
def ContentFits (n : ℕ) (content : Option Json) : Prop :=
  match content with
  | some (.array parts) => PartsFit n 0 parts
  | _ => True

def messageEnd (n i : ℕ) (m : Json) : ℕ := contentEnd (roleEnd n i m) (messageContent m)

def messagesEnd (n i : ℕ) : List Json → ℕ
  | [] => n
  | m :: rest =>
    if m.isObject then
      if bufferSize - 256 ≤ messageEnd n i m then messageEnd n i m
      else messagesEnd (messageEnd n i m) (i + 1) rest
    else messagesEnd n (i + 1) rest

def MessagesFit (n i : ℕ) : List Json → Prop
  | [] => True
  | m :: rest =>
    if m.isObject then
      RoleFits n i m ∧ ContentFits (roleEnd n i m) (messageContent m) ∧
        (messageEnd n i m < bufferSize - 256 → MessagesFit (messageEnd n i m) (i + 1) rest)
    else MessagesFit n (i + 1) rest

def toolNamesEnd (n : ℕ) : List Json → ℕ
  | [] => n
  | tool :: rest =>
    match toolName tool with
    | some name => toolNamesEnd (endWithin n 64 (name.length + 1)) rest
    | none => toolNamesEnd n rest

/-- A tool name also leaves room for the bar that closes the list. -/
def ToolNamesFit (n : ℕ) : List Json → Prop
  | [] => True
  | tool :: rest =>
    match toolName tool with
    | some name => Fits n 64 (name.length + 2) ∧
        ToolNamesFit (endWithin n 64 (name.length + 1)) rest
    | none => ToolNamesFit n rest

def ToolsFit (n : ℕ) (root : Json) : Prop :=
  match root.getArray "tools" with
  | some tools => n < bufferSize - 128 → ToolNamesFit (n + 6) tools
  | none => True

def numberLength (root : Json) (key label : String) : ℕ :=
  match (root.get key).bind fixedTwo with
  | some t => label.length + t.length + 1
  | none => 0

/-- The length of the texts in front of the system prompt. -/
def prefixLength (model : Bytes) (root : Json) : ℕ :=
  (modelText model).length + numberLength root "temperature" "temp:" +
    numberLength root "top_p" "topp:"

def systemLength (root : Json) : ℕ :=
  match root.getString "system" with
  | some s => s.length + 5
  | none => 0

/-- No system prompt, role, part text or tool name is longer than the room that the
texts in front of it leave. -/
def FieldsFit (model : Bytes) (root : Json) : Prop :=
  let n := prefixLength model root + systemLength root
  n < bufferSize ∧ MessagesFit n 0 (requestMessages root) ∧
    ToolsFit (messagesEnd n 0 (requestMessages root)) root

theorem endWithin_lt (n reserve len : ℕ) :
    endWithin n reserve len < bufferSize ↔ n < bufferSize ∧ Fits n reserve len := by
  unfold endWithin Fits
  split_ifs with h
  · constructor
    · intro hlt
      exact ⟨by omega, fun _ => hlt⟩
    · exact fun hlt => hlt.2 h
  · exact ⟨fun hlt => ⟨hlt, fun hn => absurd hn h⟩, fun hlt => hlt.1⟩

@[simp] theorem putWithin_off (b : KeyBuffer) (reserve : ℕ) (s : Bytes) :
    (b.putWithin reserve s).off = endWithin b.off reserve s.length := by
  unfold KeyBuffer.putWithin endWithin
  split_ifs <;> simp

theorem putRole_off (b : KeyBuffer) (i : ℕ) (m : Json) :
    (putRole b i m).off = roleEnd b.off i m := by
  unfold putRole roleEnd
  split <;> simp_all

theorem putParts_off (b : KeyBuffer) (i : ℕ) (parts : List Json) :
    (putParts b i parts).off = partsEnd b.off i parts := by
  induction parts generalizing b i with
  | nil => rfl
  | cons part rest ih =>
    unfold putParts partsEnd
    cases part.getString "text" with
    | none => exact ih b _
    | some t => simp only [ih, putWithin_off]

theorem putContent_off (b : KeyBuffer) (content : Option Json) :
    (putContent b content).off = contentEnd b.off content := by
  rcases content with _ | j
  · rfl
  cases j with
  | string c =>
    simp only [putContent, contentEnd, List.length_take]
    split_ifs <;> simp_all
  | array parts => exact putParts_off b 0 parts
  | _ => rfl

theorem putMessage_off (b : KeyBuffer) (i : ℕ) (m : Json) :
    (putMessage b i m).off = messageEnd b.off i m := by
  rw [putMessage, putContent_off, putRole_off, messageEnd]

theorem putMessages_off (b : KeyBuffer) (i : ℕ) (msgs : List Json) :
    (putMessages b i msgs).off = messagesEnd b.off i msgs := by
  induction msgs generalizing b i with
  | nil => rfl
  | cons m rest ih =>
    unfold putMessages messagesEnd
    rw [putMessage_off]
    split_ifs
    · rw [putMessage_off]
    · rw [ih, putMessage_off]
    · exact ih b _

theorem putToolNames_off (b : KeyBuffer) (tools : List Json) :
    (putToolNames b tools).off = toolNamesEnd b.off tools := by
  induction tools generalizing b with
  | nil => rfl
  | cons tool rest ih =>
    unfold putToolNames toolNamesEnd
    cases toolName tool with
    | none => exact ih b
    | some name => simp [ih]

theorem partsEnd_lt (n i : ℕ) (parts : List Json) :
    partsEnd n i parts < bufferSize ↔ n < bufferSize ∧ PartsFit n i parts := by
  induction parts generalizing n i with
  | nil => simp [partsEnd, PartsFit]
  | cons part rest ih =>
    unfold partsEnd PartsFit
    cases part.getString "text" with
    | none => exact ih n _
    | some t => simp only [ih, endWithin_lt, and_assoc]

theorem roleEnd_lt (n i : ℕ) (m : Json) :
    roleEnd n i m < bufferSize ↔ n < bufferSize ∧ RoleFits n i m := by
  unfold roleEnd RoleFits
  cases m.getString "role" with
  | none => simp
  | some role => exact endWithin_lt _ _ _

theorem contentEnd_lt (n : ℕ) (content : Option Json) :
    contentEnd n content < bufferSize ↔ n < bufferSize ∧ ContentFits n content := by
  unfold contentEnd ContentFits
  split
  · split_ifs with h
    · simp only [bufferSize, and_true] at h ⊢
      omega
    · simp
  · exact partsEnd_lt n 0 _
  · simp

theorem messageEnd_lt (n i : ℕ) (m : Json) :
    messageEnd n i m < bufferSize ↔
      n < bufferSize ∧ RoleFits n i m ∧ ContentFits (roleEnd n i m) (messageContent m) := by
  rw [messageEnd, contentEnd_lt, roleEnd_lt, and_assoc]

theorem messagesEnd_lt (n i : ℕ) (msgs : List Json) :
    messagesEnd n i msgs < bufferSize ↔ n < bufferSize ∧ MessagesFit n i msgs := by
  induction msgs generalizing n i with
  | nil => simp [messagesEnd, MessagesFit]
  | cons m rest ih =>
    unfold messagesEnd MessagesFit
    split_ifs with hobj hbreak
    · -- The loop stops: only this message has to fit.
      rw [messageEnd_lt]
      have : ¬ messageEnd n i m < bufferSize - 256 := by omega
      simp [this]
    · have hlt : messageEnd n i m < bufferSize - 256 := by omega
      have hin : messageEnd n i m < bufferSize := by omega
      have hfit := (messageEnd_lt n i m).mp hin
      rw [ih]
      simp [hlt, hin, hfit]
    · exact ih n _

theorem toolNamesEnd_lt (n : ℕ) (tools : List Json) :
    toolNamesEnd n tools + 1 < bufferSize ↔ n + 1 < bufferSize ∧ ToolNamesFit n tools := by
  induction tools generalizing n with
  | nil => simp [toolNamesEnd, ToolNamesFit]
  | cons tool rest ih =>
    unfold toolNamesEnd ToolNamesFit
    cases toolName tool with
    | none => exact ih n
    | some name =>
      simp only [ih, ← and_assoc]
      refine and_congr_left fun _ => ?_
      unfold endWithin Fits
      split_ifs with h <;> simp [h]
      simp only [bufferSize] at h ⊢
      omega

theorem putTools_off_lt (b : KeyBuffer) (root : Json) :
    (putTools b root).off < bufferSize ↔ b.off < bufferSize ∧ ToolsFit b.off root := by
  unfold putTools ToolsFit
  cases root.getArray "tools" with
  | none => simp
  | some tools =>
    split_ifs with h
    · have h6 : b.off + 6 + 1 < bufferSize := by
        simp only [bufferSize] at h ⊢
        omega
      have hoff : ((putToolNames (b.put (ascii "tools:")) tools).put ['|']).off =
          toolNamesEnd (b.off + 6) tools + 1 := by
        simp [putToolNames_off, show "tools:".length = 6 by decide]
      rw [hoff, toolNamesEnd_lt]
      simp only [h6, true_and, h, forall_const, iff_and_self]
      intro _
      omega
    · simp [h]

theorem nearestDouble_le (n : ℕ) : nearestDouble n ≤ 2 * n := by
  unfold nearestDouble
  split_ifs with hsmall
  · omega
  · have hn : n ≠ 0 := by rintro rfl; exact hsmall (by decide)
    have hunit : 2 ^ (n.log2 - 52) ≤ n :=
      (Nat.pow_le_pow_right (by omega) (Nat.sub_le _ _)).trans (Nat.log2_self_le hn)
    have hdiv : n / 2 ^ (n.log2 - 52) * 2 ^ (n.log2 - 52) ≤ n := Nat.div_mul_le_self _ _
    dsimp only
    split_ifs
    · omega
    · rw [add_mul, one_mul]
      omega

theorem hundredths_length {negative : Bool} {c : ℕ} (h : c / 100 < 10 ^ 309) :
    (hundredths negative c).length ≤ 313 := by
  have := decimal_length_le (by omega) h
  simp only [hundredths, List.length_append]
  cases negative <;> simp <;> omega

theorem ofDecimal_two_lt {a b : Char} (ha : a.isDigit = true) (hb : b.isDigit = true) :
    ofDecimal [a, b] < 100 := by
  have hval {c : Char} (hc : c.isDigit = true) : c.toNat - 48 ≤ 9 := by
    simp only [Char.isDigit, Bool.and_eq_true, decide_eq_true_eq] at hc
    have := hc.2
    have : c.toNat ≤ 57 := hc.2
    omega
  have h1 := hval ha
  have h2 := hval hb
  have h0 : '0'.toNat = 48 := by decide
  simp only [ofDecimal, Nat.ofDigitChars, List.foldl_cons, List.foldl_nil, h0]
  omega

/-- A finite double prints with at most 313 characters. -/
theorem fixedTwo_length {j : Json} {t : Bytes} (h : fixedTwo j = some t) : t.length ≤ 313 := by
  have hpow : (2 : ℕ) ^ 1024 + 2 < 10 ^ 309 := by decide +kernel
  cases j with
  | integer n =>
    simp only [fixedTwo, Option.some.injEq] at h
    subst h
    refine hundredths_length ?_
    have hlo := n.le_toInt
    have hhi := n.toInt_lt
    have hnear := nearestDouble_le n.toInt.natAbs
    have hbig : (2 : ℕ) ^ 64 < 10 ^ 309 := by decide +kernel
    rw [Nat.mul_div_cancel _ (by omega)]
    omega
  | real x =>
    simp only [fixedTwo, Option.some.injEq] at h
    subst h
    refine hundredths_length ?_
    have hwhole : x.whole < 2 ^ 1024 := by
      by_cases h0 : x.whole = 0
      · exact h0 ▸ Nat.two_pow_pos 1024
      · exact (Nat.log2_lt h0).mp x.finite
    have hfrac : ofDecimal ((x.fraction ++ ['0', '0']).take 2) < 100 := by
      have hd := List.all_eq_true.mp x.digits
      cases hf : x.fraction with
      | nil => exact absurd hf x.written
      | cons a rest =>
        rw [hf] at hd
        cases rest with
        | nil => exact ofDecimal_two_lt (hd a (by simp)) (by decide)
        | cons b rest => exact ofDecimal_two_lt (hd a (by simp)) (hd b (by simp))
    split_ifs <;> omega
  | _ => simp [fixedTwo] at h

theorem numberLength_le (root : Json) (key label : String) :
    numberLength root key label ≤ label.length + 314 := by
  unfold numberLength
  split
  · rename_i t ht
    obtain ⟨j, -, hj⟩ := Option.bind_eq_some_iff.mp ht
    have := fixedTwo_length hj
    omega
  · omega

theorem putNumber_off {b : KeyBuffer} (h : b.off < bufferSize - 32) (root : Json)
    (key label : String) :
    (putNumber b root key label).off = b.off + numberLength root key label := by
  unfold putNumber numberLength
  cases (root.get key).bind fixedTwo with
  | none => simp
  | some t =>
    simp only [putWithin_off, endWithin, h, if_true]
    simp
    omega

theorem modelText_length_le (model : Bytes) : (modelText model).length ≤ 70 := by
  simp only [modelText, List.length_append, lower_length, List.length_take, ascii_length,
    show "model:".length = 6 by decide, List.length_singleton]
  omega

/-- The guards of the two numbers and of the system prompt always let them in. -/
theorem keyHead_off (model : Bytes) (root : Json) :
    (keyHead model root).off = prefixLength model root + systemLength root := by
  have hm := modelText_length_le model
  have ht := numberLength_le root "temperature" "temp:"
  have hp := numberLength_le root "top_p" "topp:"
  have hlabel : "temp:".length = 5 ∧ "topp:".length = 5 := by decide
  have h0 : (KeyBuffer.empty.put (modelText model)).off = (modelText model).length := by
    rw [put_off]
    exact Nat.zero_add _
  have h1 := putNumber_off (b := KeyBuffer.empty.put (modelText model))
    (by rw [h0, bufferSize]; omega) root "temperature" "temp:"
  rw [h0] at h1
  have h2 := putNumber_off (b := putNumber (KeyBuffer.empty.put (modelText model)) root
    "temperature" "temp:") (by rw [h1, bufferSize]; omega) root "top_p" "topp:"
  rw [h1] at h2
  unfold keyHead putSystem systemLength prefixLength
  cases root.getString "system" with
  | none => simpa using h2
  | some s =>
    simp only [putWithin_off, endWithin, h2]
    rw [if_pos (by rw [bufferSize]; omega)]
    simp [show "sys:".length = 4 by decide]
    omega

/-- The offset after the last write, in terms of the lengths. -/
theorem buildKey_off_lt (model : Bytes) (root : Json) :
    (buildKey model root).off < bufferSize ↔ FieldsFit model root := by
  rw [buildKey, terminate_off, putTools_off_lt, putMessages_off, messagesEnd_lt, keyHead_off,
    FieldsFit, and_assoc]

/-- A system prompt of the size of the buffer ends behind it. -/
theorem not_fieldsFit_system (model : Bytes) {root : Json} {s : Bytes}
    (h : root.getString "system" = some s) (hs : bufferSize ≤ s.length) :
    ¬ FieldsFit model root := by
  intro hfit
  have := hfit.1
  simp only [systemLength, h] at this
  omega

theorem loads_system (s : Bytes) (hs : Char.ofNat 0 ∉ s) :
    loads (dumps (.object [(ascii "system", .string s)])) =
      some (.object [(ascii "system", .string s)]) := by
  refine loads_dumps rfl ?_ (by simp [depth, depthMembers, maxDepth])
  have hkey : Char.ofNat 0 ∉ ascii "system" := by decide +kernel
  simp [wellFormed, wellFormedMembers, hs, hkey]

end Aigate.ResponseCacheKeyBounds
