import Aigate.AuditTamper

/-!
# What the verifier answers

The first line that does not continue the chain is reported by its number. Before that its two
hashes are copied, and the verifier does not ask whether they are strings.
-/
namespace Aigate.VerifierAnswers
open Text JsonTree JsonText SignedChains Guardrails StreamCache AuditHashChain AuditTamper

/-- The line is an entry that continues the chain. -/
def Continues (hmac : Hmac) (key : Bytes) (c : Chain Bytes UInt64) (line : Bytes)
    (e : Entry Bytes UInt64 Bytes) : Prop :=
  readLine line = .entry e ∧ c.Accepts (macOf hmac key) (· + 1) e

/-- The first of some lines that does not continue a chain, and how many are before it. -/
inductive FirstBad (hmac : Hmac) (key : Bytes) :
    Chain Bytes UInt64 → List Bytes → ℕ → Bytes → Prop where
  | here {c : Chain Bytes UInt64} {line : Bytes} (rest : List Bytes)
      (h : ∀ e, ¬Continues hmac key c line e) : FirstBad hmac key c (line :: rest) 0 line
  | later {c : Chain Bytes UInt64} {line : Bytes} {e : Entry Bytes UInt64 Bytes}
      {rest : List Bytes} {i : ℕ} {bad : Bytes} (h : Continues hmac key c line e)
      (hrest : FirstBad hmac key ⟨e.tag, e.seq⟩ rest i bad) :
      FirstBad hmac key c (line :: rest) (i + 1) bad

/-- The answer to a file: that all lines continue the chain, and how many they are, or the
number of the first one that does not. -/
def Robust (hmac : Hmac) (ctx : HashChainCtx) (content : Bytes) : Prop :=
  match auditHashChainVerifyFile hmac ctx (some content) with
  | .valid count =>
    (∀ i bad, ¬FirstBad hmac ctx.secretKey (startChain hmac ctx.secretKey) (records content) i bad) ∧
      count = UInt64.ofNat (records content).length
  | .broken seq _ =>
    ∃ i bad, FirstBad hmac ctx.secretKey (startChain hmac ctx.secretKey) (records content) i bad ∧
      seq = UInt64.ofNat (i + 1)
  | .crashed => False

/-- An object with the three members of the chain, one of whose hashes is not a string. -/
def NullField (line : Bytes) : Prop :=
  ∃ root seq prev hash, jsonLoads (cString line) = some root ∧ root.isObject = true ∧
    root.get "seq" = some seq ∧ root.get "prev_hash" = some prev ∧ root.get "hash" = some hash ∧
    (prev.stringValue = none ∨ hash.stringValue = none)

theorem readLine_nullHash_iff (line : Bytes) : readLine line = .nullHash ↔ NullField line := by
  unfold readLine NullField
  cases jsonLoads (cString line) with
  | none => simp
  | some root =>
    cases hobject : root.isObject with
    | false => simp [hobject]
    | true =>
      cases hseq : root.get "seq" with
      | none => simp [hobject, hseq]
      | some seq =>
        cases hprev : root.get "prev_hash" with
        | none => simp [hobject, hseq, hprev]
        | some prev =>
          cases hhash : root.get "hash" with
          | none => simp [hobject, hseq, hprev, hhash]
          | some hash =>
            cases hp : prev.stringValue <;> cases hh : hash.stringValue <;>
              simp [hobject, hseq, hprev, hhash, hp, hh]

section lines
variable {hmac : Hmac} {key : Bytes}

/-- The line is where it is said to be. -/
theorem FirstBad.getElem? {c : Chain Bytes UInt64} {lines : List Bytes} {i : ℕ} {bad : Bytes}
    (h : FirstBad hmac key c lines i bad) : lines[i]? = some bad := by
  induction h with
  | here rest h => rfl
  | later h _ ih => exact ih

theorem Continues.unique {c : Chain Bytes UInt64} {line : Bytes} {e e' : Entry Bytes UInt64 Bytes}
    (h : Continues hmac key c line e) (h' : Continues hmac key c line e') : e = e' :=
  LineRead.entry.inj (h.1.symm.trans h'.1)

theorem FirstBad.unique {c : Chain Bytes UInt64} {lines : List Bytes} {i j : ℕ} {bad bad' : Bytes}
    (h : FirstBad hmac key c lines i bad) (h' : FirstBad hmac key c lines j bad') :
    i = j ∧ bad = bad' := by
  induction h generalizing j with
  | here rest h =>
    cases h' with
    | here => exact ⟨rfl, rfl⟩
    | later hcont => exact absurd hcont (h _)
  | later hcont hrest ih =>
    cases h' with
    | here _ h => exact absurd hcont (h _)
    | later hcont' hrest' =>
      obtain rfl := hcont.unique hcont'
      obtain ⟨rfl, rfl⟩ := ih hrest'
      exact ⟨rfl, rfl⟩

theorem not_firstBad_nil (c : Chain Bytes UInt64) (i : ℕ) (bad : Bytes) :
    ¬FirstBad hmac key c [] i bad := by
  intro h
  cases h

theorem not_firstBad_cons {c : Chain Bytes UInt64} {line : Bytes} {e : Entry Bytes UInt64 Bytes}
    {rest : List Bytes} (h : Continues hmac key c line e)
    (hrest : ∀ i bad, ¬FirstBad hmac key ⟨e.tag, e.seq⟩ rest i bad) (i : ℕ) (bad : Bytes) :
    ¬FirstBad hmac key c (line :: rest) i bad := by
  intro hbad
  cases hbad with
  | here _ hnot => exact hnot e h
  | later hcont hlater =>
    obtain rfl := h.unique hcont
    exact hrest _ _ hlater

/-- What the loop finds from a chain on. -/
def Finds (hmac : Hmac) (key : Bytes) (c : Chain Bytes UInt64) (verified : UInt64)
    (lines : List Bytes) : Verified → Prop
  | .valid count => (∀ i bad, ¬FirstBad hmac key c lines i bad) ∧
      count = verified + UInt64.ofNat lines.length
  | .broken seq _ => ∃ i bad, FirstBad hmac key c lines i bad ∧ readLine bad ≠ .nullHash ∧
      seq = c.seq + UInt64.ofNat (i + 1)
  | .crashed => ∃ i bad, FirstBad hmac key c lines i bad ∧ readLine bad = .nullHash

theorem finds_broken {c : Chain Bytes UInt64} {verified : UInt64} {line : Bytes}
    (rest : List Bytes) (h : ∀ e, ¬Continues hmac key c line e) (hread : readLine line ≠ .nullHash)
    (errorMsg : Bytes) :
    Finds hmac key c verified (line :: rest) (.broken (c.seq + 1) errorMsg) :=
  ⟨0, line, .here rest h, hread, rfl⟩

/-- A line that continues the chain is passed. -/
theorem Finds.later {c : Chain Bytes UInt64} {verified : UInt64} {line : Bytes}
    {e : Entry Bytes UInt64 Bytes} {rest : List Bytes} {answer : Verified}
    (h : Continues hmac key c line e)
    (hfinds : Finds hmac key ⟨e.tag, e.seq⟩ (verified + 1) rest answer) :
    Finds hmac key c verified (line :: rest) answer := by
  cases answer with
  | valid count =>
    obtain ⟨hgood, hcount⟩ := hfinds
    refine ⟨not_firstBad_cons h hgood, ?_⟩
    rw [hcount, List.length_cons, UInt64.ofNat_add, UInt64.add_assoc, UInt64.add_comm 1]
    rfl
  | broken seq errorMsg =>
    obtain ⟨i, bad, hbad, hread, hseq⟩ := hfinds
    refine ⟨i + 1, bad, .later h hbad, hread, ?_⟩
    have hnext : e.seq = c.seq + 1 := h.2.seq
    rw [hseq, hnext, UInt64.ofNat_add (i + 1) 1, UInt64.add_assoc, UInt64.add_comm 1]
    rfl
  | crashed =>
    obtain ⟨i, bad, hbad, hread⟩ := hfinds
    exact ⟨i + 1, bad, .later h hbad, hread⟩

/-- The loop comes to the first line that does not continue the chain. -/
theorem finds_verifyLines (c : Chain Bytes UInt64) (verified : UInt64) (lines : List Bytes) :
    Finds hmac key c verified lines (verifyLines hmac key c.last (c.seq + 1) verified lines) := by
  induction lines generalizing c verified with
  | nil => exact ⟨not_firstBad_nil c, (UInt64.add_zero _).symm⟩
  | cons line rest ih =>
    have hnot : ∀ {r : LineRead}, readLine line = r → (∀ e, r ≠ .entry e) →
        ∀ e, ¬Continues hmac key c line e := fun hr hne e hcont => hne e (hr.symm.trans hcont.1)
    rw [verifyLines]
    cases hread : readLine line with
    | malformed => exact finds_broken rest (hnot hread (by simp)) (by simp [hread]) _
    | unsigned => exact finds_broken rest (hnot hread (by simp)) (by simp [hread]) _
    | nullHash => exact ⟨0, line, .here rest (hnot hread (by simp)), hread⟩
    | entry e =>
      have hmatch : ∀ {p : Prop}, (c.Accepts (macOf hmac key) (· + 1) e → p) → ¬p →
          ∀ e', ¬Continues hmac key c line e' := fun himp hp e' hcont => by
        obtain rfl := LineRead.entry.inj (hread.symm.trans hcont.1)
        exact hp (himp hcont.2)
      have hentry : readLine line ≠ .nullHash := by simp [hread]
      dsimp only
      split_ifs with hseq hprev htag
      · exact finds_broken rest (hmatch Chain.Accepts.seq hseq) hentry _
      · rw [not_not.mp hseq]
        exact finds_broken rest (hmatch Chain.Accepts.prev hprev) hentry _
      · rw [not_not.mp hseq]
        exact finds_broken rest (hmatch (fun h => h.tag.symm) htag) hentry _
      · have hseq := not_not.mp hseq
        have hcont : Continues hmac key c line e :=
          ⟨hread, hseq, not_not.mp hprev, (not_not.mp htag).symm⟩
        refine .later hcont ?_
        rw [← hseq]
        exact ih ⟨e.tag, e.seq⟩ (verified + 1)

end lines

/-- The answer is right unless the first line that does not continue the chain is an object with
a hash that is not a string. -/
theorem robust_iff (hmac : Hmac) (ctx : HashChainCtx) (content : Bytes) :
    Robust hmac ctx content ↔
      ∀ i bad, FirstBad hmac ctx.secretKey (startChain hmac ctx.secretKey) (records content) i bad →
        ¬NullField bad := by
  have hfinds : Finds hmac ctx.secretKey (startChain hmac ctx.secretKey) 0 (records content)
      (auditHashChainVerifyFile hmac ctx (some content)) := finds_verifyLines _ _ _
  unfold Robust
  cases hanswer : auditHashChainVerifyFile hmac ctx (some content) with
  | valid count =>
    rw [hanswer] at hfinds
    obtain ⟨hgood, hcount⟩ := hfinds
    rw [UInt64.zero_add] at hcount
    exact iff_of_true ⟨hgood, hcount⟩ fun i bad hbad => absurd hbad (hgood i bad)
  | broken seq errorMsg =>
    rw [hanswer] at hfinds
    obtain ⟨i, bad, hbad, hread, hseq⟩ := hfinds
    have hstart : (startChain hmac ctx.secretKey).seq = 0 := rfl
    rw [hstart, UInt64.zero_add] at hseq
    refine iff_of_true ⟨i, bad, hbad, hseq⟩ fun j bad' hbad' hnull => ?_
    obtain ⟨-, rfl⟩ := hbad.unique hbad'
    exact hread ((readLine_nullHash_iff _).mpr hnull)
  | crashed =>
    rw [hanswer] at hfinds
    obtain ⟨i, bad, hbad, hread⟩ := hfinds
    refine iff_of_false id fun h => ?_
    exact h i bad hbad ((readLine_nullHash_iff bad).mp hread)

/-- The previous hash is there, and null. -/
def nullPrevHash : Bytes := ascii "\x7b\"seq\":1,\"prev_hash\":null,\"hash\":\"00\"\x7d\n"

theorem not_robust_null :
    ¬Robust defaultHmac (auditHashChainCreate defaultHmac none) nullPrevHash := by
  have hread : (records nullPrevHash).map readLine = [.nullHash] := by decide +kernel
  obtain ⟨line, rest, hrecords, hline, -⟩ := List.map_eq_cons_iff.mp hread
  unfold Robust
  rw [auditHashChainVerifyFile, hrecords, verifyLines, hline]
  exact id

end Aigate.VerifierAnswers
