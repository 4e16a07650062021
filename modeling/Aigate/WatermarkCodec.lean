import Aigate.TokenScan
import Aigate.Utf8
import Aigate.Watermark

/-!
# Reading the watermarks of a text

The zero-width characters of a text are collected, and every frame among them that is not
damaged gives the payload of a tile.
-/
namespace Aigate.Watermark
open Text TokenScan Utf8

local instance neZeroSymbols : NeZero 4 := ⟨by decide⟩

/-- The number of the zero-width character that a text begins with, and its length. -/
def symbolAt : Bytes → Option (Fin 4 × ℕ)
  | b0 :: b1 :: b2 :: _ =>
    if b0 = Char.ofNat 0xE2 ∧ b1 = Char.ofNat 0x80 then
      if b2 = Char.ofNat 0x8B then some (0, 3)
      else if b2 = Char.ofNat 0x8C then some (1, 3)
      else if b2 = Char.ofNat 0x8D then some (2, 3)
      else none
    else if b0 = Char.ofNat 0xEF ∧ b1 = Char.ofNat 0xBB ∧ b2 = Char.ofNat 0xBF then some (3, 3)
    else none
  | _ => none

/-- The symbols that are extracted from a text. -/
def extractSymbols (text : Bytes) : List (Fin 4) := tokens symbolAt text

/-- A byte from its pairs of bits, the highest first. -/
def packByte (a b c d : Fin 4) : UInt8 :=
  (UInt8.ofNat a.val <<< 6) ||| (UInt8.ofNat b.val <<< 4) ||| (UInt8.ofNat c.val <<< 2) |||
    UInt8.ofNat d.val

def packBytes : List (Fin 4) → List UInt8
  | a :: b :: c :: d :: rest => packByte a b c d :: packBytes rest
  | _ => []

def joinBytes16 (b0 b1 : UInt8) : UInt16 := (b0.toUInt16 <<< 8) ||| b1.toUInt16

def joinBytes32 (b0 b1 b2 b3 : UInt8) : UInt32 :=
  (b0.toUInt32 <<< 24) ||| (b1.toUInt32 <<< 16) ||| (b2.toUInt32 <<< 8) ||| b3.toUInt32

def joinBytes64 (bytes : List UInt8) : UInt64 :=
  bytes.foldl (fun st b => (st <<< 8) ||| b.toUInt64) 0

/-- The number of symbols of a frame. -/
def frameSymbols : ℕ := 76

/-- The payload of a frame that has the magic byte and the right checksum. -/
def decodeFrame : List UInt8 → Option WatermarkPayload
  | [magic, t0, t1, t2, t3, k0, k1, k2, k3, s0, s1, s2, s3, s4, s5, s6, s7, c0, c1] =>
    if magic ≠ magicByte then none
    else if joinBytes16 c0 c1 ≠
        crc16Ccitt [magic, t0, t1, t2, t3, k0, k1, k2, k3, s0, s1, s2, s3, s4, s5, s6, s7] then none
    else some ⟨joinBytes32 t0 t1 t2 t3, joinBytes32 k0 k1 k2 k3,
      joinBytes64 [s0, s1, s2, s3, s4, s5, s6, s7]⟩
  | _ => none

/-- The window at the front of the symbols. -/
def frameAt (symbols : List (Fin 4)) : Option (WatermarkPayload × ℕ) :=
  if symbols.length < frameSymbols then none
  else (decodeFrame (packBytes (symbols.take frameSymbols))).map fun p => (p, frameSymbols)

/-- `watermark_decode_all`: the payloads that are found, as many as there is room for; nothing
when it fails. -/
def watermarkDecodeAll (text : Bytes) (cap : ℤ) : Option (List WatermarkPayload) :=
  if text.length < 3 ∨ cap ≤ 0 then none
  else
    let found := (tokens frameAt (extractSymbols text)).take cap.toNat
    if found = [] then none else some found

/-- `watermark_decode`. -/
def watermarkDecode (text : Bytes) : Option WatermarkPayload :=
  (watermarkDecodeAll text 1).bind List.head?

/-- The places of the tiles in a text. -/
def tilePlaces (minInterval : ℕ) (text : Bytes) : List ℕ :=
  let anchors := collectAnchors (max minInterval 20) 0 0 0 0 text
  if anchors = [] then [text.length] else anchors

/-! Bits and bytes. -/

theorem mul_or (k : ℕ) {a b m : ℕ} (hm : m = 2 ^ k) (h : b < m) : a * m ||| b = a * m + b := by
  subst hm
  rw [← Nat.shiftLeft_eq, Nat.shiftLeft_add_eq_or_of_lt h]

theorem toNat_packByte (a b c d : Fin 4) :
    (packByte a b c d).toNat = ((a.val * 4 + b.val) * 4 + c.val) * 4 + d.val := by
  simp only [packByte, UInt8.toNat_or, UInt8.toNat_shiftLeft, UInt8.toNat_ofNat', UInt8.toNat_ofNat,
    Nat.shiftLeft_eq, Nat.reduceMod, Nat.reducePow]
  have ha : a.val % 256 * 64 % 256 = a.val * 64 := by omega
  have hb : b.val % 256 * 16 % 256 = b.val * 16 := by omega
  have hc : c.val % 256 * 4 % 256 = c.val * 4 := by omega
  have hd : d.val % 256 = d.val := by omega
  rw [ha, hb, hc, hd, mul_or (m := 64) 6 rfl (by omega),
    show a.val * 64 + b.val * 16 = (a.val * 4 + b.val) * 16 by omega,
    mul_or (m := 16) 4 rfl (by omega),
    show (a.val * 4 + b.val) * 16 + c.val * 4 = ((a.val * 4 + b.val) * 4 + c.val) * 4 by omega,
    mul_or (m := 4) 2 rfl d.isLt]

theorem packByte_symbols (byte : UInt8) :
    packByte (Fin.ofNat 4 (byte.toNat / 64)) (Fin.ofNat 4 (byte.toNat / 16))
      (Fin.ofNat 4 (byte.toNat / 4)) (Fin.ofNat 4 byte.toNat) = byte := by
  have hlt := byte.toNat_lt
  apply UInt8.toNat_inj.mp
  rw [toNat_packByte]
  simp only [Fin.val_ofNat]
  omega

theorem packBytes_symbols (bytes : List UInt8) : packBytes (bytes.flatMap symbolsOf) = bytes := by
  induction bytes with
  | nil => rfl
  | cons byte bytes ih =>
    rw [List.flatMap_cons, symbolsOf]
    simp only [List.cons_append, List.nil_append, packBytes]
    rw [packByte_symbols, ih]

theorem length_symbols (bytes : List UInt8) :
    (bytes.flatMap symbolsOf).length = 4 * bytes.length := by
  induction bytes with
  | nil => rfl
  | cons byte bytes ih =>
    rw [List.flatMap_cons, List.length_append, ih, List.length_cons]
    simp only [symbolsOf, List.length_cons, List.length_nil]
    omega

theorem toNat_joinBytes16 (b0 b1 : UInt8) :
    (joinBytes16 b0 b1).toNat = b0.toNat * 256 + b1.toNat := by
  have h0 := b0.toNat_lt
  simp only [joinBytes16, UInt16.toNat_or, UInt16.toNat_shiftLeft, UInt8.toNat_toUInt16,
    Nat.shiftLeft_eq, UInt16.toNat_ofNat, Nat.reduceMod, Nat.reducePow]
  rw [Nat.mod_eq_of_lt (by omega), mul_or (m := 256) 8 rfl b1.toNat_lt]

theorem toNat_joinBytes32 (b0 b1 b2 b3 : UInt8) :
    (joinBytes32 b0 b1 b2 b3).toNat =
      ((b0.toNat * 256 + b1.toNat) * 256 + b2.toNat) * 256 + b3.toNat := by
  have h0 := b0.toNat_lt
  have h1 := b1.toNat_lt
  have h2 := b2.toNat_lt
  have h3 := b3.toNat_lt
  simp only [joinBytes32, UInt32.toNat_or, UInt32.toNat_shiftLeft, UInt8.toNat_toUInt32,
    Nat.shiftLeft_eq, UInt32.toNat_ofNat, Nat.reduceMod, Nat.reducePow]
  rw [Nat.mod_eq_of_lt (by omega), Nat.mod_eq_of_lt (by omega), Nat.mod_eq_of_lt (by omega),
    mul_or (m := 16777216) 24 rfl (by omega),
    show b0.toNat * 16777216 + b1.toNat * 65536 = (b0.toNat * 256 + b1.toNat) * 65536 by omega,
    mul_or (m := 65536) 16 rfl (by omega),
    show (b0.toNat * 256 + b1.toNat) * 65536 + b2.toNat * 256 =
      ((b0.toNat * 256 + b1.toNat) * 256 + b2.toNat) * 256 by omega, mul_or (m := 256) 8 rfl h3]

/-- One round of the loop, while nothing is shifted out. -/
theorem toNat_joinStep {st : UInt64} (h : st.toNat < 2 ^ 56) (b : UInt8) :
    ((st <<< 8) ||| b.toUInt64).toNat = st.toNat * 256 + b.toNat := by
  simp only [UInt64.toNat_or, UInt64.toNat_shiftLeft, UInt8.toNat_toUInt64, Nat.shiftLeft_eq,
    UInt64.toNat_ofNat, Nat.reduceMod, Nat.reducePow]
  rw [Nat.mod_eq_of_lt (by omega), mul_or (m := 256) 8 rfl b.toNat_lt]

theorem toNat_joinBytes64 {bytes : List UInt8} (h : bytes.length ≤ 8) :
    (joinBytes64 bytes).toNat = bytes.foldl (fun n b => n * 256 + b.toNat) 0 ∧
      (joinBytes64 bytes).toNat < 256 ^ bytes.length := by
  induction bytes using List.reverseRecOn with
  | nil => exact ⟨rfl, Nat.one_pos⟩
  | append_singleton bytes b ih =>
    rw [List.length_append, List.length_singleton] at h
    obtain ⟨hsame, hlt⟩ := ih (by omega)
    have hb := b.toNat_lt
    have hroom : (joinBytes64 bytes).toNat < 2 ^ 56 :=
      calc (joinBytes64 bytes).toNat < 256 ^ bytes.length := hlt
        _ ≤ 256 ^ 7 := Nat.pow_le_pow_right (by decide) (by omega)
        _ = 2 ^ 56 := by norm_num
    have hjoin : joinBytes64 (bytes ++ [b]) = (joinBytes64 bytes <<< 8) ||| b.toUInt64 :=
      List.foldl_concat _ _ _ _
    rw [hjoin, toNat_joinStep hroom, List.foldl_concat, ← hsame, List.length_append,
      List.length_singleton, pow_succ]
    exact ⟨rfl, by omega⟩

theorem joinBytes16_bytesOf16 (v : UInt16) : joinBytes16 (v >>> 8).toUInt8 v.toUInt8 = v := by
  have hv := v.toNat_lt
  apply UInt16.toNat_inj.mp
  simp only [toNat_joinBytes16, UInt16.toNat_toUInt8, UInt16.toNat_shiftRight, UInt16.toNat_ofNat,
    Nat.shiftRight_eq_div_pow, Nat.reduceMod, Nat.reducePow]
  omega

theorem joinBytes32_bytesOf32 (v : UInt32) :
    joinBytes32 (v >>> 24).toUInt8 (v >>> 16).toUInt8 (v >>> 8).toUInt8 v.toUInt8 = v := by
  have hv := v.toNat_lt
  apply UInt32.toNat_inj.mp
  simp only [toNat_joinBytes32, UInt32.toNat_toUInt8, UInt32.toNat_shiftRight, UInt32.toNat_ofNat,
    Nat.shiftRight_eq_div_pow, Nat.reduceMod, Nat.reducePow]
  omega

theorem joinBytes64_bytesOf64 (v : UInt64) : joinBytes64 (bytesOf64 v) = v := by
  have hv := v.toNat_lt
  apply UInt64.toNat_inj.mp
  rw [(toNat_joinBytes64 (le_refl (bytesOf64 v).length)).1]
  simp only [bytesOf64, List.foldl_cons, List.foldl_nil, UInt64.toNat_toUInt8,
    UInt64.toNat_shiftRight, UInt64.toNat_ofNat, Nat.shiftRight_eq_div_pow, Nat.reduceMod,
    Nat.reducePow]
  omega

/-- A frame is read back. -/
theorem decodeFrame_frame (p : WatermarkPayload) : decodeFrame (frame p) = some p := by
  have hhead : frame p = magicByte :: (bytesOf32 p.timestamp ++ bytesOf32 p.keyId ++
      bytesOf64 p.shortTrace ++ bytesOf16 (crc16Ccitt (frameHead p))) := rfl
  have hjoin := joinBytes64_bytesOf64 p.shortTrace
  simp only [bytesOf64] at hjoin
  rw [hhead]
  simp only [bytesOf16, bytesOf32, bytesOf64, List.cons_append, List.nil_append, decodeFrame,
    joinBytes16_bytesOf16, joinBytes32_bytesOf32, hjoin]
  have hcrc : crc16Ccitt (frameHead p) = crc16Ccitt [magicByte, (p.timestamp >>> 24).toUInt8,
      (p.timestamp >>> 16).toUInt8, (p.timestamp >>> 8).toUInt8, p.timestamp.toUInt8,
      (p.keyId >>> 24).toUInt8, (p.keyId >>> 16).toUInt8, (p.keyId >>> 8).toUInt8,
      p.keyId.toUInt8, (p.shortTrace >>> 56).toUInt8, (p.shortTrace >>> 48).toUInt8,
      (p.shortTrace >>> 40).toUInt8, (p.shortTrace >>> 32).toUInt8, (p.shortTrace >>> 24).toUInt8,
      (p.shortTrace >>> 16).toUInt8, (p.shortTrace >>> 8).toUInt8, p.shortTrace.toUInt8] := rfl
  rw [hcrc, if_neg (not_not.mpr rfl), if_neg (not_not.mpr rfl)]

theorem length_frame (p : WatermarkPayload) : (frame p).length = 19 := rfl

/-- The symbols of a tile. -/
def tileSymbols (p : WatermarkPayload) : List (Fin 4) := (frame p).flatMap symbolsOf

theorem length_tileSymbols (p : WatermarkPayload) : (tileSymbols p).length = frameSymbols := by
  rw [tileSymbols, length_symbols, length_frame]
  rfl

theorem frameAt_tileSymbols (p : WatermarkPayload) (t : List (Fin 4)) :
    frameAt (tileSymbols p ++ t) = some (p, (tileSymbols p).length) := by
  have hlength := length_tileSymbols p
  have htake : (tileSymbols p ++ t).take frameSymbols = tileSymbols p := by
    rw [← hlength, List.take_left]
  have hlong : ¬(tileSymbols p ++ t).length < frameSymbols := by
    rw [List.length_append, hlength]
    omega
  rw [frameAt, if_neg hlong, htake, hlength, tileSymbols, packBytes_symbols, decodeFrame_frame]
  rfl

end Aigate.Watermark
