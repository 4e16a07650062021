import Aigate.HashChains
import Aigate.GuardedRuns
import Aigate.Text
import Mathlib.Data.Fintype.Fin

/-!
# The table of banned addresses

An address is hashed and compared as a whole, but an entry keeps its first 47 bytes. A ban ends
at a time in 64 bits, and an entry stays in its chain after that until the address is taken out
or banned again.
-/
namespace Aigate.IpBanTable
open Text HashChains GuardedRuns

structure Entry where
  ip : Bytes
  expiresAtSec : Int64
  reason : Bytes
  hitCount : UInt32

structure Table where
  buckets : Fin 4096 → List Entry
  count : ℕ

def ipHash (ip : Bytes) : Fin 4096 := Fin.ofNat 4096 (djb2 5381 ip)

def ipBanTableCreate : Table := ⟨fun _ => [], 0⟩

/-- Put the end of a ban and its reason, if there is one, into an entry. -/
def Entry.renew (expiresAt : Int64) (reason : Option Bytes) (e : Entry) : Entry :=
  { e with expiresAtSec := expiresAt, reason := (reason.map (·.take 63)).getD e.reason }

def Entry.hit (e : Entry) : Entry := { e with hitCount := e.hitCount + 1 }

/-- The entry that `ip_ban_table_ban` allocates. -/
def freshEntry (ip : Bytes) : Entry := ⟨ip.take 47, 0, [], 0⟩

def entryOf (t : Table) (ip : Bytes) : Option Entry := find ipHash Entry.ip t.buckets ip

def ttlOf (ttlSec : Int64) : Int64 := if ttlSec ≤ 0 then 3600 else ttlSec

/-- `ip_ban_table_is_banned`: the reason of the ban, as much of it as the caller has room for. -/
def ipBanTableIsBanned (t : Table) (now : Int64) (ip : Bytes) (cap : ℕ) : Table × Option Bytes :=
  if ip = [] then (t, none)
  else
    match entryOf t ip with
    | none => (t, none)
    | some e =>
      if e.expiresAtSec ≤ now then (t, none)
      else
        ({ t with buckets := upsert ipHash Entry.ip t.buckets ip none Entry.hit },
          some (e.reason.take (cap - 1)))

/-- `ip_ban_table_ban`. Without memory no entry is added. -/
def ipBanTableBan (t : Table) (now : Int64) (ip : Bytes) (ttlSec : Int64) (reason : Option Bytes)
    (memory : Bool) : Table × ℤ :=
  if ip = [] then (t, -1)
  else
    let fresh := if memory then some (freshEntry ip) else none
    let buckets :=
      upsert ipHash Entry.ip t.buckets ip fresh (Entry.renew (now + ttlOf ttlSec) reason)
    match entryOf t ip, fresh with
    | some _, _ => ({ t with buckets := buckets }, 0)
    | none, some _ => (⟨buckets, t.count + 1⟩, 0)
    | none, none => (t, -1)

/-- `ip_ban_table_unban`. -/
def ipBanTableUnban (t : Table) (ip : Bytes) : Table × ℤ :=
  if ip = [] then (t, -1)
  else
    match entryOf t ip with
    | some _ => (⟨discard ipHash Entry.ip t.buckets ip, t.count - 1⟩, 0)
    | none => (t, -1)

/-! ### Runs -/

inductive Op where
  | ban (now : Int64) (ip : Bytes) (ttlSec : Int64) (reason : Option Bytes) (memory : Bool)
  | unban (ip : Bytes)
  | isBanned (now : Int64) (ip : Bytes) (cap : ℕ)

def Op.ip : Op → Bytes
  | .ban _ ip _ _ _ => ip
  | .unban ip => ip
  | .isBanned _ ip _ => ip

def Table.step (t : Table) : Op → Table
  | .ban now ip ttlSec reason memory => (ipBanTableBan t now ip ttlSec reason memory).1
  | .unban ip => (ipBanTableUnban t ip).1
  | .isBanned now ip cap => (ipBanTableIsBanned t now ip cap).1

/-- Whether an address is reported as banned. -/
def banned (t : Table) (now : Int64) (ip : Bytes) : Prop :=
  (ipBanTableIsBanned t now ip 0).2.isSome = true

/-- When the ban of each address ends, as the latest operation on it says. -/
abbrev Bans := Bytes → Option ℤ

/-- The bans after an operation; one that reports an error bans nothing. -/
def Bans.step (bans : Bans) (t : Table) : Op → Bans
  | .ban now ip ttlSec reason memory =>
    if (ipBanTableBan t now ip ttlSec reason memory).2 = 0 then
      Function.update bans ip (some (now.toInt + (ttlOf ttlSec).toInt))
    else bans
  | .unban ip => Function.update bans ip none
  | .isBanned _ _ _ => bans

structure State where
  table : Table
  bans : Bans

def State.step (s : State) (op : Op) : State := ⟨s.table.step op, s.bans.step s.table op⟩

def start : State := ⟨ipBanTableCreate, fun _ => none⟩

/-- What is claimed of the table. -/
structure Law (s : State) : Prop where
  verdict : ∀ ip t, banned s.table t ip ↔ ∃ x ∈ s.bans ip, t.toInt < x
  one : ∀ ip, ∑ i, (s.table.buckets i).countP (fun e => decide (e.ip = ip)) ≤ 1
  count : s.table.count = total s.table.buckets

/-- A ban that takes place is of an address that fits its entry, and ends before the clock
does. -/
def StepOk (s : State) : Op → Prop
  | .ban now ip ttlSec _ memory =>
    ip = [] ∨ (memory = false ∧ entryOf s.table ip = none) ∨
      (ip.length < 48 ∧ now.toInt + (ttlOf ttlSec).toInt < 2 ^ 63)
  | _ => True

/-! ### The operations -/

theorem banned_iff {t : Table} {now : Int64} {ip : Bytes} :
    banned t now ip ↔ ip ≠ [] ∧ ∃ e, entryOf t ip = some e ∧ now < e.expiresAtSec := by
  unfold banned ipBanTableIsBanned
  by_cases hnil : ip = []
  · simp [hnil]
  · cases hentry : entryOf t ip with
    | none => simp [hnil]
    | some e =>
      by_cases hle : e.expiresAtSec ≤ now
      · simp [hnil, hle, Int64.not_lt.mpr hle]
      · simp [hnil, hle, Int64.not_le.mp hle]

theorem ttlOf_pos (ttlSec : Int64) : 0 < (ttlOf ttlSec).toInt := by
  unfold ttlOf
  split
  · decide
  · rename_i h
    exact Int64.lt_iff_toInt_lt.mp (Int64.not_le.mp h)

/-- A ban takes place if there is an entry, or memory for a new one. -/
def Placed (t : Table) (ip : Bytes) (memory : Bool) : Prop :=
  ip ≠ [] ∧ (memory = true ∨ entryOf t ip ≠ none)

theorem ban_of_placed {t : Table} {ip : Bytes} {memory : Bool} (h : Placed t ip memory)
    (now ttlSec : Int64) (reason : Option Bytes) :
    ipBanTableBan t now ip ttlSec reason memory =
      (⟨upsert ipHash Entry.ip t.buckets ip (if memory then some (freshEntry ip) else none)
          (Entry.renew (now + ttlOf ttlSec) reason),
        t.count + if entryOf t ip = none then 1 else 0⟩, 0) := by
  obtain ⟨hnil, hroom⟩ := h
  unfold ipBanTableBan
  rw [if_neg hnil]
  cases hentry : entryOf t ip with
  | some e => simp
  | none =>
    rcases hroom with rfl | hne
    · simp
    · exact absurd hentry hne

theorem ban_of_not_placed {t : Table} {ip : Bytes} {memory : Bool} (h : ¬Placed t ip memory)
    (now ttlSec : Int64) (reason : Option Bytes) :
    ipBanTableBan t now ip ttlSec reason memory = (t, -1) := by
  unfold ipBanTableBan
  by_cases hnil : ip = []
  · rw [if_pos hnil]
  · have hroom : ¬(memory = true ∨ entryOf t ip ≠ none) := fun hroom => h ⟨hnil, hroom⟩
    rw [not_or, not_not, Bool.not_eq_true] at hroom
    obtain ⟨rfl, hentry⟩ := hroom
    simp [hnil, hentry]

theorem entryOf_unban {t : Table} (h : Tidy ipHash Entry.ip t.buckets) (ip ip' : Bytes) :
    entryOf (ipBanTableUnban t ip).1 ip' =
      if ip' = ip ∧ ip ≠ [] then none else entryOf t ip' := by
  unfold ipBanTableUnban
  by_cases hnil : ip = []
  · simp [hnil]
  · cases hentry : entryOf t ip with
    | some e =>
      have hfind := h.find_discard ip ip'
      simpa [hnil, entryOf] using hfind
    | none =>
      by_cases hsame : ip' = ip
      · simp [hnil, hsame, hentry]
      · simp [hnil, hsame]

/-- A lookup changes no more than the count of hits of an entry. -/
theorem isBanned_cases (t : Table) (now : Int64) (ip : Bytes) (cap : ℕ) :
    (ipBanTableIsBanned t now ip cap).1 = t ∨ (ipBanTableIsBanned t now ip cap).1 =
      { t with buckets := upsert ipHash Entry.ip t.buckets ip none Entry.hit } := by
  unfold ipBanTableIsBanned
  split
  · exact Or.inl rfl
  · split
    · exact Or.inl rfl
    · split
      · exact Or.inl rfl
      · exact Or.inr rfl

/-! ### The table of a run -/

/-- What the operations of the condition keep. -/
structure Inv (s : State) : Prop where
  tidy : Tidy ipHash Entry.ip s.table.buckets
  fits : ∀ ip, entryOf s.table ip ≠ none → ip ≠ [] ∧ ip.length < 48
  ends : ∀ ip, (entryOf s.table ip).map (fun e => e.expiresAtSec.toInt) = s.bans ip
  count : s.table.count = total s.table.buckets

theorem inv_start : Inv start where
  tidy := Tidy.empty _ _
  fits ip h := absurd rfl h
  ends _ := rfl
  count := by simp [start, ipBanTableCreate, total]

theorem Inv.law {s : State} (h : Inv s) : Law s where
  verdict ip t := by
    rw [banned_iff, ← h.ends ip]
    constructor
    · rintro ⟨-, e, hentry, hlt⟩
      exact ⟨_, by rw [hentry]; rfl, Int64.lt_iff_toInt_lt.mp hlt⟩
    · rintro ⟨x, hx, hlt⟩
      obtain ⟨e, hentry, rfl⟩ := Option.map_eq_some_iff.mp hx
      have hnil := (h.fits ip (by rw [hentry]; exact Option.some_ne_none e)).1
      exact ⟨hnil, e, hentry, Int64.lt_iff_toInt_lt.mpr hlt⟩
  one ip := h.tidy.sum_countP_le ip
  count := h.count

theorem Inv.isBanned {s : State} (h : Inv s) (now : Int64) (ip : Bytes) (cap : ℕ) :
    Inv (s.step (.isBanned now ip cap)) := by
  obtain ⟨table, bans⟩ := s
  change Inv ⟨(ipBanTableIsBanned table now ip cap).1, bans⟩
  rcases isBanned_cases table now ip cap with hsame | hhit
  · rw [hsame]
    exact h
  · rw [hhit]
    have hfind : ∀ ip',
        find ipHash Entry.ip (upsert ipHash Entry.ip table.buckets ip none Entry.hit) ip' =
          (entryOf table ip').map fun e => if ip' = ip then e.hit else e := by
      intro ip'
      have hupsert := @find_upsert _ _ _ _ _ ipHash Entry.ip Entry.hit (fun _ => rfl) table.buckets
        ip none (by simp) ip'
      refine hupsert.trans ?_
      split
      · rename_i heq
        rw [Option.or_none, heq]
        rfl
      · exact (Option.map_id' (x := entryOf table ip')).symm
    have htidy : Tidy ipHash Entry.ip (upsert ipHash Entry.ip table.buckets ip none Entry.hit) :=
      h.tidy.upsert (f := Entry.hit) (fun _ => rfl) (by simp)
    refine ⟨htidy, fun ip' hne => h.fits ip' ?_, fun ip' => ?_, ?_⟩
    · intro hnone
      refine hne ((hfind ip').trans ?_)
      rw [show entryOf table ip' = none from hnone]
      rfl
    · refine (congrArg _ (hfind ip')).trans ?_
      rw [← h.ends ip', Option.map_map]
      congr 1
      funext e
      dsimp only [Function.comp_apply]
      split <;> rfl
    · rw [total_upsert]
      simpa using h.count

theorem Inv.unban {s : State} (h : Inv s) (ip : Bytes) : Inv (s.step (.unban ip)) := by
  obtain ⟨table, bans⟩ := s
  have hends : ∀ ip', (if ip' = ip ∧ ip ≠ [] then none else entryOf table ip').map
      (fun e => e.expiresAtSec.toInt) = Function.update bans ip none ip' := by
    intro ip'
    by_cases hsame : ip' = ip
    · subst hsame
      rw [Function.update_self]
      by_cases hnil : ip' = []
      · have hnone : entryOf table ip' = none := by
          by_contra hne
          exact (h.fits ip' hne).1 hnil
        simp [hnone]
      · simp [hnil]
    · rw [Function.update_of_ne hsame, if_neg (fun hand => hsame hand.1)]
      exact h.ends ip'
  have hfits : ∀ ip', entryOf (ipBanTableUnban table ip).1 ip' ≠ none →
      ip' ≠ [] ∧ ip'.length < 48 := by
    intro ip' hne
    rw [entryOf_unban h.tidy] at hne
    refine h.fits ip' fun hnone => hne ?_
    change entryOf table ip' = none at hnone
    rw [hnone, ite_self]
  have hall := fun ip' => (congrArg _ (entryOf_unban h.tidy ip ip')).trans (hends ip')
  change Inv ⟨(ipBanTableUnban table ip).1, Function.update bans ip none⟩
  refine ⟨?_, hfits, hall, ?_⟩
  · unfold ipBanTableUnban
    split
    · exact h.tidy
    · split
      · exact h.tidy.discard ip
      · exact h.tidy
  · unfold ipBanTableUnban
    split
    · exact h.count
    · split
      · rename_i e hentry
        have hfind : find ipHash Entry.ip table.buckets ip ≠ none := by
          rw [show find ipHash Entry.ip table.buckets ip = some e from hentry]
          exact Option.some_ne_none e
        have hcount : table.count = total table.buckets := h.count
        dsimp only
        rw [total_discard, if_neg hfind, hcount]
      · exact h.count

/-- The bans after a ban that takes place. -/
theorem step_of_placed {s : State} {ip : Bytes} {memory : Bool} (h : Placed s.table ip memory)
    (now ttlSec : Int64) (reason : Option Bytes) :
    s.step (.ban now ip ttlSec reason memory) =
      ⟨⟨upsert ipHash Entry.ip s.table.buckets ip (if memory then some (freshEntry ip) else none)
          (Entry.renew (now + ttlOf ttlSec) reason),
        s.table.count + if entryOf s.table ip = none then 1 else 0⟩,
      Function.update s.bans ip (some (now.toInt + (ttlOf ttlSec).toInt))⟩ := by
  simp [State.step, Table.step, Bans.step, ban_of_placed h]

theorem step_of_not_placed {s : State} {ip : Bytes} {memory : Bool}
    (h : ¬Placed s.table ip memory) (now ttlSec : Int64) (reason : Option Bytes) :
    s.step (.ban now ip ttlSec reason memory) = s := by
  simp [State.step, Table.step, Bans.step, ban_of_not_placed h]

/-- The entry of an address that fits has the whole address. -/
theorem fresh_ip {ip : Bytes} (hlength : ip.length < 48) (memory : Bool) :
    ∀ a ∈ (if memory then some (freshEntry ip) else none : Option Entry), a.ip = ip := by
  intro a ha
  cases memory with
  | false => cases ha
  | true =>
    rw [← Option.some.inj ha]
    exact List.take_of_length_le (by omega)

/-- A ban of an address that fits, with an end that the clock reaches. -/
theorem Inv.ban {s : State} (h : Inv s) {now ttlSec : Int64} {ip : Bytes} {memory : Bool}
    (hplaced : Placed s.table ip memory) (hlength : ip.length < 48)
    (hend : now.toInt + (ttlOf ttlSec).toInt < 2 ^ 63) (reason : Option Bytes) :
    Inv (s.step (.ban now ip ttlSec reason memory)) := by
  rw [step_of_placed hplaced]
  have hpos := ttlOf_pos ttlSec
  have hnow := Int64.le_toInt now
  have hsum : (now + ttlOf ttlSec).toInt = now.toInt + (ttlOf ttlSec).toInt := by
    rw [Int64.toInt_add]
    exact Int.bmod_eq_of_le (by omega) (by omega)
  have hfresh := fresh_ip hlength memory
  have hfind := @find_upsert _ _ _ _ _ ipHash Entry.ip (Entry.renew (now + ttlOf ttlSec) reason)
    (fun _ => rfl) s.table.buckets ip _ hfresh
  have hsome : ∃ e, (entryOf s.table ip).or (if memory then some (freshEntry ip) else none) =
      some e := by
    rcases hplaced.2 with rfl | hne
    · exact Option.ne_none_iff_exists'.mp (by simp)
    · obtain ⟨e, he⟩ := Option.ne_none_iff_exists'.mp hne
      exact ⟨e, by rw [he, Option.some_or]⟩
  obtain ⟨e, he⟩ := hsome
  refine ⟨h.tidy.upsert (f := Entry.renew _ reason) (fun _ => rfl) hfresh, fun ip' hne => ?_,
    fun ip' => ?_, ?_⟩
  · by_cases hsame : ip' = ip
    · rw [hsame]
      exact ⟨hplaced.1, hlength⟩
    · refine h.fits ip' fun hnone => hne ((hfind ip').trans ?_)
      rw [if_neg hsame]
      exact hnone
  · refine (congrArg _ (hfind ip')).trans ?_
    dsimp only
    by_cases hsame : ip' = ip
    · rw [if_pos hsame, hsame, Function.update_self,
        show find ipHash Entry.ip s.table.buckets ip = entryOf s.table ip from rfl, he, ← hsum]
      rfl
    · rw [if_neg hsame, Function.update_of_ne hsame]
      exact h.ends ip'
  · dsimp only
    rw [total_upsert, h.count]
    congr 2
    rw [eq_iff_iff]
    refine (and_iff_left_of_imp fun hnone => ?_).symm
    rcases hplaced.2 with rfl | hne
    · simp
    · exact absurd hnone hne

theorem not_law_of_long {s : State} (h : Inv s) {now ttlSec : Int64} {ip : Bytes} {memory : Bool}
    (hplaced : Placed s.table ip memory) (hlong : 48 ≤ ip.length) (reason : Option Bytes) :
    ¬Law (s.step (.ban now ip ttlSec reason memory)) := by
  intro hlaw
  have hpos := ttlOf_pos ttlSec
  have hnone : entryOf s.table ip = none := by
    by_contra hne
    have hfits := (h.fits ip hne).2
    omega
  have hmemory : memory = true := hplaced.2.resolve_right (not_not.mpr hnone)
  have hverdict := (hlaw.verdict ip now).mpr
  rw [step_of_placed hplaced] at hverdict
  dsimp only at hverdict
  rw [Function.update_self] at hverdict
  obtain ⟨-, e, hentry, -⟩ := banned_iff.mp (hverdict ⟨_, rfl, by omega⟩)
  -- the entry that was added has another address
  obtain ⟨hmem, hkey⟩ := find_eq_some hentry
  have hfind : find ipHash Entry.ip s.table.buckets ip = none := hnone
  rw [hmemory, if_pos rfl, upsert_of_missing hfind] at hmem
  dsimp only at hmem
  rw [Function.update_self, List.mem_cons] at hmem
  rcases hmem with rfl | hold
  · have hlength := congrArg List.length hkey
    simp only [Entry.renew, freshEntry, List.length_take] at hlength
    omega
  · have hold' := List.mem_map_of_mem (f := Entry.ip) hold
    rw [hkey] at hold'
    exact find_eq_none_iff.mp hfind hold'

/-- A ban whose end overflows lies in the past. -/
theorem not_law_of_overflow {s : State} {now ttlSec : Int64} {ip : Bytes}
    {memory : Bool} (hplaced : Placed s.table ip memory) (hlength : ip.length < 48)
    (hend : 2 ^ 63 ≤ now.toInt + (ttlOf ttlSec).toInt) (reason : Option Bytes) :
    ¬Law (s.step (.ban now ip ttlSec reason memory)) := by
  intro hlaw
  have hpos := ttlOf_pos ttlSec
  have hnow := Int64.toInt_lt now
  have httl := Int64.toInt_lt (ttlOf ttlSec)
  have hfresh := fresh_ip hlength memory
  have hverdict := (hlaw.verdict ip now).mpr
  rw [step_of_placed hplaced] at hverdict
  dsimp only at hverdict
  rw [Function.update_self] at hverdict
  obtain ⟨-, e, hentry, hlater⟩ := banned_iff.mp (hverdict ⟨_, rfl, by omega⟩)
  have hfind := @find_upsert _ _ _ _ _ ipHash Entry.ip (Entry.renew (now + ttlOf ttlSec) reason)
    (fun _ => rfl) s.table.buckets ip _ hfresh ip
  rw [if_pos rfl] at hfind
  obtain ⟨e', -, rfl⟩ := Option.map_eq_some_iff.mp (hfind.symm.trans hentry)
  have hlt := Int64.lt_iff_toInt_lt.mp hlater
  have hwrap : (now + ttlOf ttlSec).toInt = now.toInt + (ttlOf ttlSec).toInt - 2 ^ 64 := by
    rw [Int64.toInt_add, ← Int.sub_bmod_right]
    exact Int.bmod_eq_of_le (by omega) (by omega)
  rw [Entry.renew, hwrap] at hlt
  omega

theorem Inv.step {s : State} (h : Inv s) {op : Op} (hok : StepOk s op) : Inv (s.step op) := by
  cases op with
  | unban ip => exact h.unban ip
  | isBanned now ip cap => exact h.isBanned now ip cap
  | ban now ip ttlSec reason memory =>
    by_cases hplaced : Placed s.table ip memory
    · rcases hok with hnil | ⟨hmemory, hnone⟩ | ⟨hlength, hend⟩
      · exact absurd hnil hplaced.1
      · rcases hplaced.2 with htrue | hne
        · rw [hmemory] at htrue
          cases htrue
        · exact absurd hnone hne
      · exact h.ban hplaced hlength hend reason
    · rw [step_of_not_placed hplaced]
      exact h

theorem Inv.law_step_iff {s : State} (h : Inv s) (op : Op) :
    Law (s.step op) ↔ StepOk s op := by
  refine ⟨fun hlaw => ?_, fun hok => (h.step hok).law⟩
  cases op with
  | unban ip => trivial
  | isBanned now ip cap => trivial
  | ban now ip ttlSec reason memory =>
    by_cases hplaced : Placed s.table ip memory
    · refine Or.inr (Or.inr ?_)
      have hlength : ip.length < 48 := by
        by_contra hlong
        exact not_law_of_long h hplaced (Nat.le_of_not_lt hlong) reason hlaw
      refine ⟨hlength, ?_⟩
      by_contra hend
      exact not_law_of_overflow hplaced hlength (not_lt.mp hend) reason hlaw
    · by_cases hnil : ip = []
      · exact Or.inl hnil
      · have hroom : ¬(memory = true ∨ entryOf s.table ip ≠ none) := fun h => hplaced ⟨hnil, h⟩
        rw [not_or, not_not, Bool.not_eq_true] at hroom
        exact Or.inr (Or.inl hroom)

/-- An operation tells nothing of another address. -/
theorem bans_step_of_ne (bans : Bans) (t : Table) {op : Op} {ip : Bytes} (h : ip ≠ op.ip) :
    bans.step t op ip = bans ip := by
  cases op with
  | ban now ip' ttlSec reason memory =>
    simp only [Bans.step, Op.ip] at h ⊢
    split
    · exact Function.update_of_ne h _ _
    · rfl
  | unban ip' => exact Function.update_of_ne h _ _
  | isBanned now ip' cap => rfl

theorem inv_run {ops : List Op} (h : RunOk State.step StepOk start ops) :
    Inv (run State.step start ops) := by
  have hstep : ∀ s op, Inv s → StepOk s op → Inv (s.step op) := fun _ _ hinv hok => hinv.step hok
  exact (always_of_runOk hstep inv_start h).last

/-- In every state of a run the verdicts are those of the latest operations, with one entry for
an address and the right count, exactly if each ban that takes place is of an address that fits
its entry and ends before the clock does; such operations leave the verdicts of the other
addresses alone. -/
theorem ban_table_iff (ops : List Op) :
    (Always State.step Law start ops ↔ RunOk State.step StepOk start ops) ∧
    (RunOk State.step StepOk start ops → ∀ op, StepOk (run State.step start ops) op →
      ∀ ip, ip ≠ op.ip → ∀ t, banned ((run State.step start ops).table.step op) t ip ↔
        banned (run State.step start ops).table t ip) := by
  have hkeep : ∀ s op, Inv s → Law s → StepOk s op → Inv (s.step op) := fun _ _ h _ => h.step
  have hiff : ∀ s op, Inv s → Law s → (Law (s.step op) ↔ StepOk s op) :=
    fun _ op h _ => h.law_step_iff op
  refine ⟨always_iff_runOk hkeep hiff inv_start inv_start.law ops, fun hrun op hok ip hne t => ?_⟩
  have hinv := inv_run hrun
  have hbefore := hinv.law.verdict ip t
  have hafter := (hinv.step hok).law.verdict ip t
  have hsame : ((run State.step start ops).step op).bans ip = (run State.step start ops).bans ip :=
    bans_step_of_ne _ _ hne
  rw [hsame, ← hbefore] at hafter
  exact hafter

/-- An address of 48 bytes is not banned. -/
theorem not_always_long :
    ¬Always State.step Law start [.ban 0 (List.replicate 48 '1') 3600 none true] := by
  intro h
  have hlast := h.last
  have hplaced : Placed start.table (List.replicate 48 '1') true := ⟨by decide, Or.inl rfl⟩
  exact not_law_of_long inv_start hplaced (by simp) none hlast

end Aigate.IpBanTable
