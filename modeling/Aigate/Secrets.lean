import Aigate.JsonText

/-!
# Secrets at rest

`secret_encrypt`, `secret_decrypt` and `secret_rotate` over an authenticated cipher. A blob
is the hexadecimal text of a version mark, a nonce, the cipher text and the tag.
-/
namespace Aigate.Secrets
open Text JsonText

abbrev MasterKey := Vector UInt8 32

abbrev Nonce := Vector UInt8 12

/-- AES-256-GCM: it decrypts exactly what was encrypted under the same key and nonce, and
the cipher text has the length of the plain text. -/
structure Gcm where
  encrypt : MasterKey → List UInt8 → List UInt8 → List UInt8 × List UInt8
  decrypt : MasterKey → List UInt8 → List UInt8 → List UInt8 → Option (List UInt8)
  encrypt_length : ∀ k n p, (encrypt k n p).1.length = p.length
  tag_length : ∀ k n p, (encrypt k n p).2.length = 16
  decrypt_iff : ∀ k n c t p, decrypt k n c t = some p ↔ encrypt k n p = (c, t)

/-- The laws are consistent: a cipher that hides nothing satisfies them. -/
instance : Inhabited Gcm where
  default :=
    { encrypt := fun _ _ p => (p, List.replicate 16 0)
      decrypt := fun _ _ c t => if t = List.replicate 16 0 then some c else none
      encrypt_length := fun _ _ _ => rfl
      tag_length := fun _ _ _ => List.length_replicate
      decrypt_iff := fun _ _ c t p => by
        simp only [Option.ite_none_right_eq_some, Option.some.injEq, Prod.mk.injEq]
        exact ⟨fun h => ⟨h.2.symm, h.1.symm⟩, fun h => ⟨h.2.symm, h.1.symm⟩⟩ }

/-- The bytes `v1:`. -/
def version : List UInt8 := [118, 49, 58]

/-- Two lower-case hexadecimal digits for each byte. -/
def hexBytes (bytes : List UInt8) : Bytes :=
  bytes.flatMap fun b => [Nat.digitChar (b.toNat / 16), Nat.digitChar (b.toNat % 16)]

/-- The loop over `hexval`: nothing when a digit is not one. -/
def unhexBytes : Bytes → Option (List UInt8)
  | hi :: lo :: rest => do
    let h ← hexValue hi
    let l ← hexValue lo
    let bytes ← unhexBytes rest
    pure (UInt8.ofNat (16 * h + l) :: bytes)
  | [] => some []
  | [_] => none

/-- `secret_encrypt` into a buffer of `outCap` bytes, with the drawn nonce. -/
def secretEncrypt (g : Gcm) (master : MasterKey) (nonce : Nonce) (plain : List UInt8)
    (outCap : ℕ) : Option Bytes :=
  if outCap < 2 * (3 + 12 + plain.length + 16) + 1 then none
  else some (hexBytes (version ++ nonce.toList ++ (g.encrypt master nonce.toList plain).1 ++
    (g.encrypt master nonce.toList plain).2))

/-- `secret_decrypt` into a buffer of `outCap` bytes. -/
def secretDecrypt (g : Gcm) (master : MasterKey) (blob : Bytes) (outCap : ℕ) :
    Option (List UInt8) :=
  if blob.length % 2 ≠ 0 ∨ blob.length < 2 * (3 + 12 + 16) then none
  else (unhexBytes blob).bind fun raw =>
    if raw.take 3 ≠ version then none
    else if outCap < raw.length - 31 + 1 then none
    else g.decrypt master ((raw.drop 3).take 12) ((raw.drop 15).take (raw.length - 31))
      (raw.drop (raw.length - 16))

/-- `secret_rotate`, whose plain text goes through a buffer of 2048 bytes. -/
def secretRotate (g : Gcm) (oldMaster newMaster : MasterKey) (nonce : Nonce) (inBlob : Bytes)
    (outCap : ℕ) : Option Bytes :=
  (secretDecrypt g oldMaster inBlob 2048).bind fun plain =>
    secretEncrypt g newMaster nonce plain outCap

/-- What a blob holds under a key, whatever the buffer. -/
def plainOf (g : Gcm) (master : MasterKey) (blob : Bytes) : Option (List UInt8) :=
  secretDecrypt g master blob blob.length

theorem hexValue_digitChar : ∀ n < 16, hexValue (Nat.digitChar n) = some n := by decide

theorem unhexBytes_hexBytes (bytes : List UInt8) : unhexBytes (hexBytes bytes) = some bytes := by
  induction bytes with
  | nil => rfl
  | cons b rest ih =>
    have hlt : b.toNat < 256 := b.toNat_lt
    have hhi := hexValue_digitChar (b.toNat / 16) (by omega)
    have hlo := hexValue_digitChar (b.toNat % 16) (by omega)
    have hcons : hexBytes (b :: rest) =
      Nat.digitChar (b.toNat / 16) :: Nat.digitChar (b.toNat % 16) :: hexBytes rest := rfl
    have hbyte : UInt8.ofNat (16 * (b.toNat / 16) + b.toNat % 16) = b := by
      rw [Nat.div_add_mod, UInt8.ofNat_toNat]
    rw [hcons]
    simp only [unhexBytes, hhi, hlo, ih, Option.bind_eq_bind, Option.bind_some, hbyte]
    rfl

@[simp] theorem hexBytes_length (bytes : List UInt8) :
    (hexBytes bytes).length = 2 * bytes.length := by
  induction bytes with
  | nil => rfl
  | cons b rest ih =>
    simp only [hexBytes, List.flatMap_cons, List.length_append, List.length_cons,
      List.length_nil] at ih ⊢
    omega

theorem unhexBytes_length {t : Bytes} {raw : List UInt8} (h : unhexBytes t = some raw) :
    t.length = 2 * raw.length := by
  induction t using unhexBytes.induct generalizing raw with
  | case1 hi lo rest ih =>
    simp only [unhexBytes, Option.bind_eq_bind, Option.bind_eq_some_iff] at h
    obtain ⟨_, -, _, -, bytes, hbytes, hraw⟩ := h
    have hlen := ih hbytes
    rw [← Option.some.inj hraw]
    simp only [List.length_cons, hlen]
    omega
  | case2 =>
    rw [← Option.some.inj h]
    rfl
  | case3 c => simp [unhexBytes] at h

/-- The digits are ASCII letters and digits. -/
theorem hexBytes_nonzero (bytes : List UInt8) : Char.ofNat 0 ∉ hexBytes bytes := by
  have hdigit : ∀ n < 16, Char.ofNat 0 ≠ Nat.digitChar n := by decide
  intro hmem
  simp only [hexBytes, List.mem_flatMap, List.mem_cons, List.not_mem_nil, or_false] at hmem
  obtain ⟨b, -, hb⟩ := hmem
  have hlt : b.toNat < 256 := b.toNat_lt
  rcases hb with hb | hb
  · exact hdigit _ (by omega) hb
  · exact hdigit _ (by omega) hb

section Blob

variable (g : Gcm)

theorem decrypt_length {k : MasterKey} {n c t p : List UInt8} (h : g.decrypt k n c t = some p) :
    c.length = p.length := by
  have henc := g.encrypt_length k n p
  rwa [(g.decrypt_iff k n c t p).mp h] at henc

/-- Decryption succeeds when it succeeds in a large buffer and the plain text fits. -/
theorem secretDecrypt_iff (k : MasterKey) (blob : Bytes) (cap : ℕ) (p : List UInt8) :
    secretDecrypt g k blob cap = some p ↔ plainOf g k blob = some p ∧ p.length < cap := by
  unfold plainOf secretDecrypt
  by_cases hlen : blob.length % 2 ≠ 0 ∨ blob.length < 2 * (3 + 12 + 16)
  · rw [if_pos hlen, if_pos hlen]
    simp
  · rw [if_neg hlen, if_neg hlen]
    cases hraw : unhexBytes blob with
    | none => simp
    | some raw =>
      have hrawlen := unhexBytes_length hraw
      rw [Option.bind_some, Option.bind_some]
      by_cases hv : raw.take 3 ≠ version
      · simp [hv]
      · rw [if_neg hv, if_neg hv, if_neg (show ¬ blob.length < raw.length - 31 + 1 by omega)]
        have hct (h : g.decrypt k ((raw.drop 3).take 12) ((raw.drop 15).take (raw.length - 31))
            (raw.drop (raw.length - 16)) = some p) : raw.length - 31 = p.length := by
          have := decrypt_length g h
          rw [List.length_take, List.length_drop] at this
          omega
        constructor
        · intro h
          split_ifs at h with hc
          have := hct h
          exact ⟨h, by omega⟩
        · rintro ⟨h, hc⟩
          have := hct h
          rwa [if_neg (by omega)]

/-- A blob is as long as its plain text asks for. -/
theorem plainOf_length {k : MasterKey} {blob : Bytes} {p : List UInt8}
    (h : plainOf g k blob = some p) : blob.length = 62 + 2 * p.length := by
  unfold plainOf secretDecrypt at h
  split_ifs at h with hlen
  rw [Option.bind_eq_some_iff] at h
  obtain ⟨raw, hraw, h⟩ := h
  have hrawlen := unhexBytes_length hraw
  split_ifs at h
  have := decrypt_length g h
  rw [List.length_take, List.length_drop] at this
  omega

theorem secretEncrypt_eq_none (k : MasterKey) (nonce : Nonce) (p : List UInt8) (cap : ℕ) :
    secretEncrypt g k nonce p cap = none ↔ cap < 63 + 2 * p.length := by
  unfold secretEncrypt
  split_ifs with h
  · simp only [true_iff]
    omega
  · simp only [false_iff]
    omega

/-- What was encrypted is what is decrypted. -/
theorem plainOf_secretEncrypt {k : MasterKey} {nonce : Nonce} {p : List UInt8} {cap : ℕ}
    {blob : Bytes} (h : secretEncrypt g k nonce p cap = some blob) :
    plainOf g k blob = some p ∧ blob.length = 62 + 2 * p.length ∧ Char.ofNat 0 ∉ blob := by
  unfold secretEncrypt at h
  split_ifs at h with hcap
  have hct := g.encrypt_length k nonce.toList p
  have htag := g.tag_length k nonce.toList p
  have hpair : g.encrypt k nonce.toList p =
    ((g.encrypt k nonce.toList p).1, (g.encrypt k nonce.toList p).2) := rfl
  have hdec := (g.decrypt_iff k nonce.toList _ _ p).mpr hpair
  have hversion : version.length = 3 := rfl
  generalize (g.encrypt k nonce.toList p).1 = c at h hct hdec
  generalize (g.encrypt k nonce.toList p).2 = t at h htag hdec
  have hlen : blob.length = 62 + 2 * p.length := by
    rw [← Option.some.inj h]
    simp only [hexBytes_length, List.length_append, hversion, Vector.length_toList, hct, htag]
    omega
  refine ⟨?_, hlen, by rw [← Option.some.inj h]; exact hexBytes_nonzero _⟩
  rw [← Option.some.inj h] at hlen ⊢
  unfold plainOf secretDecrypt
  rw [hlen, if_neg (by omega), unhexBytes_hexBytes, Option.bind_some, if_neg (by simp [version])]
  have hraw : (version ++ nonce.toList ++ c ++ t).length = p.length + 31 := by
    simp only [List.length_append, hversion, Vector.length_toList, hct, htag]
    omega
  have hnonce : ((version ++ nonce.toList ++ c ++ t).drop 3).take 12 = nonce.toList := by
    rw [List.append_assoc, List.append_assoc, List.drop_left' hversion,
      List.take_left' (by simp)]
  have hcipher : ((version ++ nonce.toList ++ c ++ t).drop 15).take p.length = c := by
    rw [List.append_assoc, List.drop_left' (by simp [hversion]), List.take_left' hct]
  have htail : (version ++ nonce.toList ++ c ++ t).drop (p.length + 15) = t := by
    rw [List.drop_left']
    simp only [List.length_append, hversion, Vector.length_toList, hct]
    omega
  rw [hraw, if_neg (by omega), hnonce, show p.length + 31 - 31 = p.length by omega, hcipher,
    show p.length + 31 - 16 = p.length + 15 by omega, htail]
  exact hdec

/-- `secret_rotate` gives the plain text under the new key, or the secret is unreadable or
too long for one of the buffers. -/
theorem secretRotate_cases (kOld kNew : MasterKey) (nonce : Nonce) (blob : Bytes) (cap : ℕ) :
    (secretRotate g kOld kNew nonce blob cap = none ∧
      ∀ p, plainOf g kOld blob = some p → 2048 ≤ p.length ∨ cap < 63 + 2 * p.length) ∨
    ∃ p out, secretRotate g kOld kNew nonce blob cap = some out ∧
      plainOf g kOld blob = some p ∧ p.length < 2048 ∧ 63 + 2 * p.length ≤ cap ∧
      plainOf g kNew out = some p ∧ out.length = 62 + 2 * p.length ∧ Char.ofNat 0 ∉ out := by
  unfold secretRotate
  cases hdec : secretDecrypt g kOld blob 2048 with
  | none =>
    left
    refine ⟨rfl, fun p hp => Or.inl ?_⟩
    by_contra hlt
    have := (secretDecrypt_iff g kOld blob 2048 p).mpr ⟨hp, by omega⟩
    rw [hdec] at this
    exact absurd this (by simp)
  | some p =>
    obtain ⟨hp, hlt⟩ := (secretDecrypt_iff g kOld blob 2048 p).mp hdec
    rw [Option.bind_some]
    cases henc : secretEncrypt g kNew nonce p cap with
    | none =>
      left
      refine ⟨rfl, fun q hq => Or.inr ?_⟩
      rw [hp, Option.some.injEq] at hq
      exact hq ▸ (secretEncrypt_eq_none g kNew nonce p cap).mp henc
    | some out =>
      right
      obtain ⟨hout, hlen, hnul⟩ := plainOf_secretEncrypt g henc
      have hcap : ¬ cap < 63 + 2 * p.length := by
        intro hc
        rw [(secretEncrypt_eq_none g kNew nonce p cap).mpr hc] at henc
        exact absurd henc (by simp)
      exact ⟨p, out, rfl, hp, hlt, by omega, hout, hlen, hnul⟩

end Blob

end Aigate.Secrets
