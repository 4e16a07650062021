import Aigate.QueryParams

/-!
# Address lists

A list of addresses and networks is scanned entry by entry. An entry is an address, or an
address and the number of its bits that count; that number is read with `atoi`.
-/
namespace Aigate.MetricsAcl
open Text QueryParams

/-- One number of a dotted address, without leading zeros. -/
def octet (s : Bytes) : Option ℕ :=
  if s ≠ [] ∧ s.all Char.isDigit = true ∧ (s.head? = some '0' → s.length = 1) ∧
      ofDecimal s ≤ 255 then some (ofDecimal s)
  else none

/-- `inet_pton` for `AF_INET`. -/
def inetPton (src : Bytes) : Option (BitVec 32) :=
  match src.splitOn '.' with
  | [a, b, c, d] => do
    let a ← octet a
    let b ← octet b
    let c ← octet c
    let d ← octet d
    some (BitVec.ofNat 32 (((a * 256 + b) * 256 + c) * 256 + d))
  | _ => none

/-- The loopback address and mapped addresses of IPv6 stand for addresses of IPv4. -/
def cleanIp (ip : Bytes) : Bytes :=
  if ip = ascii "::1" ∨ ip = ascii "0:0:0:0:0:0:0:1" then ascii "127.0.0.1"
  else if (ascii "::ffff:").isPrefixOf ip then ip.drop 7
  else ip

def atoi (s : Bytes) : ℤ := castInt (strtol s)

def isSeparator (c : Char) : Bool := c = ',' || c = ' '

/-- What is copied of an entry into the buffer of 64 bytes; its length is an `int`. -/
def entryBuf (entry : Bytes) : Option Bytes :=
  let elen := castInt entry.length
  if 0 < elen ∧ elen < 64 then some (entry.take elen.toNat) else none

/-- The number of bits behind the slash, or all bits. -/
def cidrOf (buf : Bytes) : ℕ :=
  match buf.dropWhile (· ≠ '/') with
  | [] => 32
  | _ :: digits =>
    let cidr := atoi digits
    if cidr < 0 ∨ 32 < cidr then 32 else cidr.toNat

/-- The address and the number of bits that an entry is read as. -/
def readEntry (entry : Bytes) : Option (BitVec 32 × ℕ) := do
  let buf ← entryBuf entry
  let net ← inetPton (buf.takeWhile (· ≠ '/'))
  some (net, cidrOf buf)

def nmask (cidr : ℕ) : BitVec 32 := if cidr = 0 then 0 else BitVec.allOnes 32 <<< (32 - cidr)

def entryAllows (addr : BitVec 32) (entry : Bytes) : Bool :=
  (readEntry entry).any fun n => decide (addr &&& nmask n.2 = n.1 &&& nmask n.2)

theorem length_behind_entry {p rest : Bytes} {c : Char} (h : p.dropWhile isSeparator = c :: rest) :
    ((c :: rest).dropWhile fun d => !isSeparator d).length < p.length := by
  have hc : isSeparator c = false := by
    have hhead := List.head?_dropWhile_not isSeparator p
    rw [h] at hhead
    simpa using hhead
  have hrest := (List.dropWhile_suffix (l := rest) fun d => !isSeparator d).length_le
  have hp := (List.dropWhile_suffix (l := p) isSeparator).length_le
  rw [h, List.length_cons] at hp
  rw [List.dropWhile_cons_of_pos (by simp [hc])]
  omega

/-- The loop of `metrics_acl_allows`. -/
def scan (addr : BitVec 32) (p : Bytes) : Bool :=
  match _h : p.dropWhile isSeparator with
  | [] => false
  | c :: rest =>
    entryAllows addr ((c :: rest).takeWhile fun d => !isSeparator d) ||
      scan addr ((c :: rest).dropWhile fun d => !isSeparator d)
termination_by p.length
decreasing_by exact length_behind_entry ‹_›

/-- `metrics_acl_allows`. A null pointer is as an empty text. -/
def metricsAclAllows (ip acl : Bytes) : Bool :=
  if acl = [] then true
  else if ip = [] then false
  else
    match inetPton (cleanIp ip) with
    | none => false
    | some addr => scan addr acl

/-! ### What an access list says -/

/-- The entries between commas and blanks. -/
def entries (acl : Bytes) : List Bytes := (acl.splitOnP isSeparator).filter (· ≠ [])

/-- The network of a well-formed entry: an address, or an address, a slash and a decimal number
of at most 32, which fit the buffer. -/
def network (entry : Bytes) : Option (BitVec 32 × ℕ) :=
  if 64 ≤ entry.length then none
  else
    match entry.dropWhile (· ≠ '/') with
    | [] => (inetPton entry).map fun net => (net, 32)
    | _ :: digits =>
      if digits ≠ [] ∧ digits.all Char.isDigit = true ∧ ofDecimal digits ≤ 32 then
        (inetPton (entry.takeWhile (· ≠ '/'))).map fun net => (net, ofDecimal digits)
      else none

/-- The first bits of both are the same. -/
def Covers (n : BitVec 32 × ℕ) (addr : BitVec 32) : Prop :=
  ∀ i < n.2, addr.getMsbD i = n.1.getMsbD i

instance (n : BitVec 32 × ℕ) (addr : BitVec 32) : Decidable (Covers n addr) :=
  inferInstanceAs (Decidable (∀ i < n.2, addr.getMsbD i = n.1.getMsbD i))

/-- A well-formed entry covers the address. -/
def Granted (acl : Bytes) (addr : BitVec 32) : Prop :=
  ∃ e ∈ entries acl, ∃ n, network e = some n ∧ Covers n addr

/-- No malformed entry is read as a network with the address. -/
def NoneOpened (acl : Bytes) (addr : BitVec 32) : Prop :=
  ∀ e ∈ entries acl, network e = none → ∀ n, readEntry e = some n → ¬Covers n addr

/-! ### Masks -/

theorem getMsbD_nmask {cidr : ℕ} (h : cidr ≤ 32) (i : ℕ) :
    (nmask cidr).getMsbD i = decide (i < cidr) := by
  unfold nmask
  by_cases hzero : cidr = 0
  · subst hzero
    simp
  · rw [if_neg hzero, BitVec.getMsbD_shiftLeft, BitVec.getMsbD_allOnes]
    congr 1
    rw [eq_iff_iff]
    omega

theorem mask_eq_iff {addr net : BitVec 32} {cidr : ℕ} (h : cidr ≤ 32) :
    addr &&& nmask cidr = net &&& nmask cidr ↔ Covers (net, cidr) addr := by
  constructor
  · intro heq i hi
    have hbit := congrArg (·.getMsbD i) heq
    simpa [getMsbD_nmask h, hi] using hbit
  · intro hcovers
    apply BitVec.eq_of_getMsbD_eq
    intro i _
    rw [BitVec.getMsbD_and, BitVec.getMsbD_and, getMsbD_nmask h]
    by_cases hi : i < cidr
    · rw [hcovers i hi]
    · simp [hi]

theorem cidrOf_le (buf : Bytes) : cidrOf buf ≤ 32 := by
  unfold cidrOf
  cases buf.dropWhile (· ≠ '/') with
  | nil => exact Nat.le_refl 32
  | cons _ digits =>
    generalize atoi digits = cidr
    dsimp only
    split
    · exact Nat.le_refl 32
    · omega

theorem readEntry_le {entry : Bytes} {n : BitVec 32 × ℕ} (h : readEntry entry = some n) :
    n.2 ≤ 32 := by
  unfold readEntry at h
  obtain ⟨buf, -, hrest⟩ := Option.bind_eq_some_iff.mp h
  obtain ⟨net, -, hn⟩ := Option.bind_eq_some_iff.mp hrest
  rw [← Option.some.inj hn]
  exact cidrOf_le buf

theorem entryAllows_iff {addr : BitVec 32} {entry : Bytes} :
    entryAllows addr entry = true ↔ ∃ n, readEntry entry = some n ∧ Covers n addr := by
  rw [entryAllows, Option.any_eq_true]
  constructor
  · rintro ⟨n, hread, hmask⟩
    exact ⟨n, hread, (mask_eq_iff (readEntry_le hread)).mp (of_decide_eq_true hmask)⟩
  · rintro ⟨n, hread, hcovers⟩
    exact ⟨n, hread, decide_eq_true ((mask_eq_iff (readEntry_le hread)).mpr hcovers)⟩

/-! ### Entries -/

theorem entries_cons {c : Char} (hc : isSeparator c = true) (p : Bytes) :
    entries (c :: p) = entries p := by
  have hnone : ∀ x ∈ ([] : Bytes), isSeparator x = false := fun x hx => by cases hx
  have hsplit := List.splitOnP_append_cons_of_forall_mem hnone c hc p
  rw [List.nil_append] at hsplit
  simp [entries, hsplit]

theorem entries_dropWhile (p : Bytes) : entries (p.dropWhile isSeparator) = entries p := by
  induction p with
  | nil => rfl
  | cons c p ih =>
    by_cases hc : isSeparator c = true
    · rw [List.dropWhile_cons_of_pos hc, ih, entries_cons hc]
    · rw [List.dropWhile_cons_of_neg hc]

/-- An entry ends at the next separator. -/
theorem entries_split {c : Char} {rest : Bytes} (hc : isSeparator c = false) :
    entries (c :: rest) = (c :: rest).takeWhile (fun d => !isSeparator d) ::
      entries ((c :: rest).dropWhile fun d => !isSeparator d) := by
  have hplain : ∀ d ∈ (c :: rest).takeWhile (fun d => !isSeparator d), isSeparator d = false := by
    intro d hd
    simpa using List.mem_takeWhile_imp hd
  have hne : (c :: rest).takeWhile (fun d => !isSeparator d) ≠ [] := by
    rw [List.takeWhile_cons_of_pos (by simp [hc])]
    exact List.cons_ne_nil _ _
  have hall := List.takeWhile_append_dropWhile (p := fun d => !isSeparator d) (l := c :: rest)
  generalize (c :: rest).takeWhile (fun d => !isSeparator d) = entry at hplain hne hall ⊢
  cases hbehind : (c :: rest).dropWhile (fun d => !isSeparator d) with
  | nil =>
    rw [hbehind, List.append_nil] at hall
    rw [← hall, entries, List.splitOnP_eq_singleton hplain]
    simp [hne, entries]
  | cons d behind =>
    have hd : isSeparator d = true := by
      have hhead := List.head?_dropWhile_not (fun d => !isSeparator d) (c :: rest)
      rw [hbehind] at hhead
      simpa using hhead
    rw [hbehind] at hall
    rw [← hall, entries, List.splitOnP_append_cons_of_forall_mem hplain d hd behind,
      entries_cons hd]
    simp [hne, entries]

theorem scan_iff {addr : BitVec 32} {acl : Bytes} :
    scan addr acl = true ↔ ∃ e ∈ entries acl, entryAllows addr e = true := by
  fun_induction scan addr acl with
  | case1 p h =>
    rw [← entries_dropWhile, h]
    simp [entries]
  | case2 p c rest h ih =>
    have hc : isSeparator c = false := by
      have hhead := List.head?_dropWhile_not isSeparator p
      rw [h] at hhead
      simpa using hhead
    rw [Bool.or_eq_true, ih, ← entries_dropWhile p, h, entries_split hc]
    simp only [List.exists_mem_cons_iff]

/-- Digits that stand for a small number are read as that number. -/
theorem atoi_digits {digits : Bytes} (hne : digits ≠ []) (hd : digits.all Char.isDigit = true)
    (hle : ofDecimal digits ≤ 32) : atoi digits = ofDecimal digits := by
  have hall := List.all_eq_true.mp hd
  obtain ⟨c, rest, rfl⟩ := List.exists_cons_of_ne_nil hne
  have hc := hall c List.mem_cons_self
  have hspace : isCSpace c = false := by
    simp only [Char.isDigit, Bool.and_eq_true, decide_eq_true_eq] at hc
    have hlow : 48 ≤ c.toNat := hc.1
    have hblank : c ≠ ' ' := by
      rintro rfl
      revert hlow
      decide
    simp only [isCSpace, hblank, decide_false, Bool.false_or, Bool.and_eq_false_iff,
      decide_eq_false_iff_not]
    omega
  have hsign : ∀ d : Char, d.isDigit = false → (c :: rest).head? ≠ some d := by
    intro d hdigit heq
    rw [← Option.some.inj heq, hc] at hdigit
    cases hdigit
  have htake : (c :: rest).takeWhile Char.isDigit = c :: rest :=
    List.takeWhile_eq_self_iff.mpr hall
  unfold atoi strtol
  rw [List.dropWhile_cons_of_neg (by simp [hspace])]
  simp only [hsign '-' (by decide), hsign '+' (by decide), or_self, if_false, htake,
    decide_false, Bool.false_eq_true]
  rw [castInt_eq (by omega) (by omega)]
  omega

theorem entryBuf_of_short {entry : Bytes} (hne : entry ≠ []) (h : entry.length < 64) :
    entryBuf entry = some entry := by
  have hpos := List.length_pos_iff.mpr hne
  unfold entryBuf
  rw [castInt_eq (by omega) (by omega)]
  rw [if_pos (by omega), Int.toNat_natCast, List.take_length]

/-- A well-formed entry is read as what it says. -/
theorem readEntry_of_network {entry : Bytes} {n : BitVec 32 × ℕ} (hne : entry ≠ [])
    (h : network entry = some n) : readEntry entry = some n := by
  unfold network at h
  have hshort : ¬64 ≤ entry.length := fun hlong => by
    rw [if_pos hlong] at h
    cases h
  rw [if_neg hshort] at h
  unfold readEntry cidrOf
  rw [entryBuf_of_short hne (Nat.lt_of_not_le hshort), Option.bind_eq_bind, Option.bind_some]
  cases hslash : entry.dropWhile (· ≠ '/') with
  | nil =>
    rw [hslash] at h
    have hall := List.takeWhile_append_dropWhile (p := fun c => decide (c ≠ '/')) (l := entry)
    rw [hslash, List.append_nil] at hall
    rw [hall]
    obtain ⟨net, hnet, rfl⟩ := Option.map_eq_some_iff.mp h
    rw [hnet]
    rfl
  | cons c digits =>
    rw [hslash] at h
    dsimp only at h ⊢
    by_cases hdigits : digits ≠ [] ∧ digits.all Char.isDigit = true ∧ ofDecimal digits ≤ 32
    · rw [if_pos hdigits] at h
      obtain ⟨net, hnet, rfl⟩ := Option.map_eq_some_iff.mp h
      obtain ⟨hnil, hd, hle⟩ := hdigits
      rw [hnet, atoi_digits hnil hd hle]
      have hin : ¬((ofDecimal digits : ℤ) < 0 ∨ 32 < (ofDecimal digits : ℤ)) := by omega
      simp only [hin, if_false, Int.toNat_natCast]
      rfl
    · rw [if_neg hdigits] at h
      cases h

theorem mem_entries_ne {acl e : Bytes} (h : e ∈ entries acl) : e ≠ [] := by
  simpa using (List.mem_filter.mp h).2

/-! ### The result -/

theorem metricsAclAllows_iff {ip acl : Bytes} :
    metricsAclAllows ip acl = true ↔
      acl = [] ∨ ∃ addr, inetPton (cleanIp ip) = some addr ∧
        ∃ e ∈ entries acl, ∃ n, readEntry e = some n ∧ Covers n addr := by
  unfold metricsAclAllows
  by_cases hacl : acl = []
  · simp [hacl]
  · rw [if_neg hacl, or_iff_right hacl]
    have hip : inetPton (cleanIp []) = none := by decide +kernel
    by_cases hnil : ip = []
    · subst hnil
      simp [hip]
    · rw [if_neg hnil]
      cases haddr : inetPton (cleanIp ip) with
      | none => simp
      | some addr => simp only [scan_iff, entryAllows_iff, Option.some.injEq, exists_eq_left']

/-- The function without its loop. -/
theorem metricsAclAllows_eq (ip acl : Bytes) :
    metricsAclAllows ip acl = (decide (acl = []) ||
      (inetPton (cleanIp ip)).any fun addr => (entries acl).any (entryAllows addr)) := by
  rw [Bool.eq_iff_iff, metricsAclAllows_iff, Bool.or_eq_true, decide_eq_true_iff,
    Option.any_eq_true]
  simp only [List.any_eq_true, entryAllows_iff]

/-- An address is allowed exactly if the list is empty or a well-formed entry covers it, unless
none does and a malformed entry is read as a network with the address. -/
theorem acl_iff (ip acl : Bytes) :
    (metricsAclAllows ip acl = true ↔
        acl = [] ∨ ∃ addr, inetPton (cleanIp ip) = some addr ∧ Granted acl addr) ↔
      ∀ addr, inetPton (cleanIp ip) = some addr → Granted acl addr ∨ NoneOpened acl addr := by
  have hgrant : ∀ addr, Granted acl addr →
      ∃ e ∈ entries acl, ∃ n, readEntry e = some n ∧ Covers n addr := by
    rintro addr ⟨e, he, n, hn, hcovers⟩
    exact ⟨e, he, n, readEntry_of_network (mem_entries_ne he) hn, hcovers⟩
  rw [metricsAclAllows_iff]
  constructor
  · intro h addr haddr
    by_cases hgranted : Granted acl addr
    · exact Or.inl hgranted
    · refine Or.inr fun e he _ n hread hcovers => ?_
      rcases h.mp (Or.inr ⟨addr, haddr, e, he, n, hread, hcovers⟩) with rfl | ⟨a, ha, hgrants⟩
      · simp [entries] at he
      · obtain rfl := Option.some.inj (haddr.symm.trans ha)
        exact hgranted hgrants
  · intro h
    refine or_congr_right (exists_congr fun addr => and_congr_right fun haddr => ?_)
    constructor
    · rintro ⟨e, he, n, hread, hcovers⟩
      rcases h addr haddr with hgranted | hnone
      · exact hgranted
      · cases hnet : network e with
        | none => exact absurd hcovers (hnone e he hnet n hread)
        | some m =>
          have hsame := readEntry_of_network (mem_entries_ne he) hnet
          obtain rfl := Option.some.inj (hread.symm.trans hsame)
          exact ⟨e, he, n, hnet, hcovers⟩
    · exact hgrant addr

/-- A list whose only entry has no number behind its slash lets every address in. -/
theorem not_acl_letter :
    ¬(metricsAclAllows (ascii "8.8.8.8") (ascii "10.0.0.0/x") = true ↔
      ascii "10.0.0.0/x" = [] ∨ ∃ addr, inetPton (cleanIp (ascii "8.8.8.8")) = some addr ∧
        Granted (ascii "10.0.0.0/x") addr) := by
  intro h
  have hentries : entries (ascii "10.0.0.0/x") = [ascii "10.0.0.0/x"] := by decide +kernel
  have haddr : inetPton (cleanIp (ascii "8.8.8.8")) = some 0x08080808#32 := by decide +kernel
  have hread : readEntry (ascii "10.0.0.0/x") = some (0x0A000000#32, 0) := by decide +kernel
  have hnet : network (ascii "10.0.0.0/x") = none := by decide +kernel
  have hallowed : metricsAclAllows (ascii "8.8.8.8") (ascii "10.0.0.0/x") = true :=
    metricsAclAllows_iff.mpr (Or.inr ⟨_, haddr, ascii "10.0.0.0/x",
      by rw [hentries]; exact List.mem_singleton_self _, _, hread, fun _ hi => absurd hi (by simp)⟩)
  rcases h.mp hallowed with hnil | ⟨addr, -, e, he, n, hn, -⟩
  · revert hnil
    decide +kernel
  · rw [hentries] at he
    rw [List.mem_singleton.mp he, hnet] at hn
    cases hn

end Aigate.MetricsAcl
