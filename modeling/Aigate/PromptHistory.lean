import Aigate.PromptCompressor

/-!
# The history of a compressed prompt

The flags of the messages in closed form. The messages behind the last question are the first to
go, and with them the results that its tools have given.
-/
namespace Aigate.PromptHistory
open Text JsonTree PromptCompressor

/-- A message with one of the roles of a conversation. -/
def InHistory (msgs : List Json) (i : ℕ) : Prop :=
  roleAt msgs i = some (ascii "assistant") ∨ roleAt msgs i = some (ascii "user") ∨
    roleAt msgs i = some (ascii "tool")

instance (msgs : List Json) (i : ℕ) : Decidable (InHistory msgs i) :=
  inferInstanceAs (Decidable (_ ∨ _))

def isUserAt (msgs : List Json) (i : ℕ) : Bool := roleAt msgs i = some (ascii "user")

/-- The number of the user's messages from a place on, before the last one. -/
def usersFrom (msgs : List Json) (i : ℕ) : ℕ :=
  (List.range' i (scanEnd msgs - i)).countP (isUserAt msgs)

/-- The number of turns between a message and the last question. -/
def turnsBehind (msgs : List Json) (i : ℕ) : ℕ := usersFrom msgs (i + 1)

/-! ### The flags in closed form -/

/-- The number of prompts at the beginning. -/
def prefixLen (msgs : List Json) : ℕ := (msgs.takeWhile isSystem).length

theorem keepSystem_eq_true (preserve : Bool) (i : ℕ) (msgs : List Json) (keep : ℕ → Bool) (j : ℕ) :
    keepSystem preserve i msgs keep j = true ↔
      keep j = true ∨ (preserve = true ∧ i ≤ j ∧ j < i + prefixLen msgs) := by
  induction msgs generalizing i keep with
  | nil =>
    have hnone : ¬(i ≤ j ∧ j < i + prefixLen []) := by
      simp only [prefixLen, List.takeWhile_nil, List.length_nil]
      omega
    simp only [keepSystem, hnone, and_false, or_false]
  | cons msg rest ih =>
    unfold keepSystem
    by_cases hsystem : isSystem msg = true
    · have hlen : prefixLen (msg :: rest) = prefixLen rest + 1 := by
        simp [prefixLen, hsystem]
      rw [if_pos hsystem, ih, hlen]
      cases preserve with
      | false => simp
      | true =>
        simp only [setKeep, if_true, true_and]
        by_cases hj : j = i
        · simp [hj]
        · rw [if_neg hj]
          constructor
          · rintro (h | ⟨h₁, h₂⟩)
            · exact Or.inl h
            · exact Or.inr ⟨by omega, by omega⟩
          · rintro (h | ⟨h₁, h₂⟩)
            · exact Or.inl h
            · exact Or.inr ⟨by omega, by omega⟩
    · have hlen : prefixLen (msg :: rest) = 0 := by simp [prefixLen, hsystem]
      have hnone : ¬(i ≤ j ∧ j < i + prefixLen (msg :: rest)) := by
        rw [hlen]
        omega
      rw [if_neg hsystem]
      simp only [hnone, and_false, or_false]

/-- The prompts at the beginning have no other role. -/
theorem roleAt_of_lt_prefixLen {msgs : List Json} {i : ℕ} (h : i < prefixLen msgs) :
    roleAt msgs i = some (ascii "system") ∨ roleAt msgs i = some (ascii "developer") := by
  have hprefix : msgs.takeWhile isSystem <+: msgs := List.takeWhile_prefix _
  have hget : msgs[i]? = some (msgs.takeWhile isSystem)[i] := by
    rw [List.getElem?_eq_getElem (h.trans_le hprefix.length_le), hprefix.getElem h]
  have hsystem : isSystem (msgs.takeWhile isSystem)[i] = true :=
    List.mem_takeWhile_imp (List.getElem_mem h)
  unfold roleAt
  rw [hget, Option.bind_some]
  simpa [isSystem] using hsystem

theorem not_inHistory_of_lt_prefixLen {msgs : List Json} {i : ℕ} (h : i < prefixLen msgs) :
    ¬ InHistory msgs i := by
  unfold InHistory
  rcases roleAt_of_lt_prefixLen h with hrole | hrole
  all_goals simp [hrole, ascii_inj]

theorem keepFixed_eq_true (rule : CompressorRule) (msgs : List Json) (i : ℕ) :
    keepFixed rule msgs i = true ↔
      lastUserIdx msgs = some i ∨ (rule.preserveSystem = true ∧ i < prefixLen msgs) := by
  unfold keepFixed
  rw [keepSystem_eq_true]
  simp

theorem lastUserIdx_eq_some {msgs : List Json} {u : ℕ} (h : lastUserIdx msgs = some u) :
    u < msgs.length ∧ roleAt msgs u = some (ascii "user") := by
  have hmem := List.mem_of_find?_eq_some h
  have hrole := List.find?_some h
  rw [List.mem_reverse, List.mem_range] at hmem
  exact ⟨hmem, of_decide_eq_true hrole⟩

/-- Before the last question, what stays in any case is not of the history. -/
theorem keepFixed_before {rule : CompressorRule} {msgs : List Json} {i : ℕ}
    (hi : i < scanEnd msgs) (h : keepFixed rule msgs i = true) : ¬ InHistory msgs i := by
  rcases (keepFixed_eq_true rule msgs i).mp h with hlast | ⟨-, hprefix⟩
  · unfold scanEnd at hi
    rw [hlast, Option.getD_some] at hi
    exact absurd hi (lt_irrefl i)
  · exact not_inHistory_of_lt_prefixLen hprefix

theorem usersFrom_step {msgs : List Json} {i : ℕ} (hi : i < scanEnd msgs) :
    usersFrom msgs i = turnsBehind msgs i + if isUserAt msgs i then 1 else 0 := by
  unfold turnsBehind usersFrom
  have hsize : scanEnd msgs - i = (scanEnd msgs - (i + 1)) + 1 := by omega
  rw [hsize, List.range'_succ, List.countP_cons]

/-- The scan of the history down to a place. -/
def scannedTo (rule : CompressorRule) (msgs : List Json) (i : ℕ) : (ℕ → Bool) × ℕ :=
  (List.range' i (scanEnd msgs - i)).reverse.foldl (windowStep rule msgs) (keepFixed rule msgs, 0)

theorem scannedTo_step (rule : CompressorRule) {msgs : List Json} {i : ℕ} (hi : i < scanEnd msgs) :
    scannedTo rule msgs i = windowStep rule msgs (scannedTo rule msgs (i + 1)) i := by
  have hsize : scanEnd msgs - i = (scanEnd msgs - (i + 1)) + 1 := by omega
  unfold scannedTo
  rw [hsize, List.range'_succ, List.reverse_cons, List.foldl_append]
  rfl

/-- A message of the history with few enough turns behind it. -/
def InWindow (rule : CompressorRule) (msgs : List Json) (i : ℕ) : Prop :=
  i < scanEnd msgs ∧ InHistory msgs i ∧ turnsBehind msgs i < rule.maxHistoryTurns

/-- The invariant of the scan: which messages stay, and how many turns were counted. -/
theorem scannedTo_spec (rule : CompressorRule) (msgs : List Json) {i : ℕ} (hi : i ≤ scanEnd msgs) :
    (∀ j, (scannedTo rule msgs i).1 j = true ↔
      keepFixed rule msgs j = true ∨ (i ≤ j ∧ InWindow rule msgs j)) ∧
      (scannedTo rule msgs i).2 = min rule.maxHistoryTurns (usersFrom msgs i) := by
  induction hi using Nat.decreasingInduction with
  | self =>
    have hnone : List.range' (scanEnd msgs) (scanEnd msgs - scanEnd msgs) = [] := by simp
    unfold scannedTo usersFrom
    rw [hnone]
    refine ⟨fun j => ?_, by simp⟩
    have hout : ¬(scanEnd msgs ≤ j ∧ InWindow rule msgs j) := fun h => absurd h.2.1 (by omega)
    exact (or_iff_left hout).symm
  | of_succ i hi ih =>
    obtain ⟨hkeep, hturns⟩ := ih
    rw [scannedTo_step rule hi, usersFrom_step hi]
    have hcount : (scannedTo rule msgs (i + 1)).2 = min rule.maxHistoryTurns (turnsBehind msgs i) :=
      hturns
    have hhere : (scannedTo rule msgs (i + 1)).1 i = true ↔ keepFixed rule msgs i = true := by
      rw [hkeep i]
      have hout : ¬(i + 1 ≤ i ∧ InWindow rule msgs i) := fun h => absurd h.1 (by omega)
      exact or_iff_left hout
    -- a place at or behind this one is this one or behind it
    have hsplit : ∀ j, (i ≤ j ∧ InWindow rule msgs j) ↔
        (j = i ∧ InWindow rule msgs i) ∨ (i + 1 ≤ j ∧ InWindow rule msgs j) := by
      intro j
      constructor
      · rintro ⟨hle, hin⟩
        rcases Nat.lt_or_eq_of_le hle with hlt | rfl
        · exact Or.inr ⟨hlt, hin⟩
        · exact Or.inl ⟨rfl, hin⟩
      · rintro (⟨rfl, hin⟩ | ⟨hle, hin⟩)
        · exact ⟨le_rfl, hin⟩
        · exact ⟨by omega, hin⟩
    have hsame : ¬ InWindow rule msgs i → ∀ j,
        ((scannedTo rule msgs (i + 1)).1 j = true ↔
          keepFixed rule msgs j = true ∨ (i ≤ j ∧ InWindow rule msgs j)) := by
      intro hout j
      rw [hkeep j, hsplit j]
      simp [hout]
    unfold windowStep
    by_cases hfixed : keepFixed rule msgs i = true
    · have hhistory := keepFixed_before hi hfixed
      have huser : isUserAt msgs i = false :=
        decide_eq_false fun h => hhistory (Or.inr (Or.inl h))
      rw [if_pos (hhere.mpr hfixed), huser]
      exact ⟨hsame fun h => hhistory h.2.1, hcount⟩
    rw [if_neg fun h => hfixed (hhere.mp h)]
    by_cases hhistory : roleAt msgs i = some (ascii "assistant") ∨
        roleAt msgs i = some (ascii "user") ∨ roleAt msgs i = some (ascii "tool")
    swap
    · have huser : isUserAt msgs i = false :=
        decide_eq_false fun h => hhistory (Or.inr (Or.inl h))
      dsimp only
      rw [if_neg hhistory, huser]
      exact ⟨hsame fun h => hhistory h.2.1, hcount⟩
    dsimp only
    rw [if_pos hhistory, hcount]
    by_cases hfew : turnsBehind msgs i < rule.maxHistoryTurns
    · have hin : InWindow rule msgs i := ⟨hi, hhistory, hfew⟩
      rw [if_pos (lt_of_le_of_lt (min_le_right _ _) hfew)]
      refine ⟨fun j => ?_, ?_⟩
      · rw [hsplit j]
        unfold setKeep
        dsimp only
        by_cases hj : j = i
        · simp [hj, hin]
        · rw [if_neg hj, hkeep j]
          simp [hj]
      · unfold isUserAt
        by_cases huser : roleAt msgs i = some (ascii "user")
        · simp only [huser, if_true, decide_true]
          omega
        · simp only [huser, if_false, decide_false, Bool.false_eq_true]
          omega
    · have hmany : ¬ min rule.maxHistoryTurns (turnsBehind msgs i) < rule.maxHistoryTurns := by omega
      rw [if_neg hmany]
      refine ⟨hsame fun h => hfew h.2.2, ?_⟩
      have hfull : min rule.maxHistoryTurns (turnsBehind msgs i) = rule.maxHistoryTurns := by omega
      rw [hcount, hfull]
      exact (Nat.min_eq_left (le_trans (not_lt.mp hfew) (Nat.le_add_right _ _))).symm

theorem keepWindow_eq_true (rule : CompressorRule) (msgs : List Json) (i : ℕ) :
    (keepWindow rule msgs).1 i = true ↔ keepFixed rule msgs i = true ∨ InWindow rule msgs i := by
  have hall : keepWindow rule msgs = scannedTo rule msgs 0 := by
    unfold keepWindow scannedTo
    rw [Nat.sub_zero, List.range_eq_range']
  rw [hall, (scannedTo_spec rule msgs (Nat.zero_le _)).1 i]
  simp

/-! ### The flags of tool messages -/

/-- The flags behind the tool step of the first places. -/
def steppedTo (rule : CompressorRule) (msgs : List Json) (n : ℕ) : ℕ → Bool :=
  (List.range n).foldl (toolStep msgs) (keepWindow rule msgs).1

theorem steppedTo_succ (rule : CompressorRule) (msgs : List Json) (n : ℕ) :
    steppedTo rule msgs (n + 1) = toolStep msgs (steppedTo rule msgs n) n := by
  unfold steppedTo
  rw [List.range_succ, List.foldl_append]
  rfl

/-- A step changes no place but the next one. -/
theorem toolStep_of_ne (msgs : List Json) (keep : ℕ → Bool) {i j : ℕ} (h : j ≠ i + 1) :
    toolStep msgs keep i j = keep j := by
  unfold toolStep setKeep
  split
  · exact if_neg h
  · rfl

theorem toolStep_next (msgs : List Json) (keep : ℕ → Bool) (i : ℕ) :
    toolStep msgs keep i (i + 1) = true ↔ keep (i + 1) = true ∨
      (keep i = true ∧ hasToolCalls msgs i = true ∧ roleAt msgs (i + 1) = some (ascii "tool")) := by
  unfold toolStep
  split
  · rename_i h
    simp [setKeep, h]
  · rename_i h
    simp [h]

/-- A place is settled once the step before it is done. -/
theorem steppedTo_settled (rule : CompressorRule) (msgs : List Json) {n i : ℕ} (h : i ≤ n) :
    steppedTo rule msgs n i = steppedTo rule msgs i i := by
  induction h with
  | refl => rfl
  | step hle ih =>
    have hne : i ≠ _ + 1 := (Nat.lt_succ_of_le hle).ne
    rw [steppedTo_succ, toolStep_of_ne _ _ hne, ih]

theorem steppedTo_ahead (rule : CompressorRule) (msgs : List Json) {n i : ℕ} (h : n < i) :
    steppedTo rule msgs n i = (keepWindow rule msgs).1 i := by
  induction n with
  | zero => rfl
  | succ n ih => rw [steppedTo_succ, toolStep_of_ne _ _ (by omega), ih (by omega)]

theorem lt_of_roleAt {msgs : List Json} {i : ℕ} {r : Bytes} (h : roleAt msgs i = some r) :
    i < msgs.length := by
  obtain ⟨msg, hmsg, -⟩ := Option.bind_eq_some_iff.mp h
  exact (List.getElem?_eq_some_iff.mp hmsg).1

/-- A tool message directly behind a kept one with calls. -/
def Follows (rule : CompressorRule) (msgs : List Json) (i : ℕ) : Prop :=
  rule.preserveTools = true ∧ hasToolCalls msgs i = true ∧
    roleAt msgs (i + 1) = some (ascii "tool")

theorem keepFlags_zero (rule : CompressorRule) (msgs : List Json) :
    keepFlags rule msgs 0 = (keepWindow rule msgs).1 0 := by
  unfold keepFlags
  split
  · exact steppedTo_settled rule msgs (Nat.zero_le msgs.length)
  · rfl

theorem keepFlags_succ (rule : CompressorRule) (msgs : List Json) {i : ℕ}
    (hi : i + 1 < msgs.length) :
    keepFlags rule msgs (i + 1) = true ↔ (keepWindow rule msgs).1 (i + 1) = true ∨
      (keepFlags rule msgs i = true ∧ Follows rule msgs i) := by
  unfold keepFlags Follows
  cases hpreserve : rule.preserveTools with
  | false => simp
  | true =>
    have hnext := steppedTo_settled rule msgs hi.le
    have hhere : steppedTo rule msgs msgs.length i = steppedTo rule msgs i i :=
      steppedTo_settled rule msgs (by omega)
    change steppedTo rule msgs msgs.length (i + 1) = true ↔
      _ ∨ (steppedTo rule msgs msgs.length i = true ∧ _)
    rw [hnext, hhere, steppedTo_succ, toolStep_next, steppedTo_ahead rule msgs (Nat.lt_succ_self i)]
    simp

/-! ### What becomes of a conversation -/

/-- A message that goes on. -/
def Survives (rule : CompressorRule) (msgs : List Json) (i : ℕ) : Prop := i ∈ survivors rule msgs

/-- The calls of a message. -/
def callsAt (msgs : List Json) (i : ℕ) : List Json :=
  (msgs[i]?.bind (·.getArray "tool_calls")).getD []

/-- An assistant message with tool calls. -/
def IsCall (msgs : List Json) (i : ℕ) : Prop :=
  roleAt msgs i = some (ascii "assistant") ∧ callsAt msgs i ≠ []

/-- The tool message at a place is for one of the calls. -/
def answersCall (msgs : List Json) (i j : ℕ) : Bool :=
  (msgs[j]?.bind (·.getString "tool_call_id")).any fun id =>
    ((callsAt msgs i).filterMap (·.getString "id")).contains id

/-- The places of the results of a message's calls, in the tool messages directly behind it. -/
def resultsOf (msgs : List Json) (i : ℕ) : List ℕ :=
  (List.range msgs.length).filter fun j =>
    decide (i < j) && decide (∀ k < j + 1, i < k → roleAt msgs k = some (ascii "tool")) &&
      answersCall msgs i j

/-- The conversation is still valid: nothing from the last question on is missing, what is left is
in order, and a message with calls is left exactly when all of its results are. -/
structure Valid (rule : CompressorRule) (msgs : List Json) : Prop where
  tail : ∀ u, lastUserIdx msgs = some u → ∀ i, u ≤ i → i < msgs.length → Survives rule msgs i
  order : ∃ kept : List ℕ, kept.Pairwise (· < ·) ∧ (∀ i, i ∈ kept ↔ Survives rule msgs i) ∧
    compressMessages rule msgs = kept.filterMap fun i => msgs[i]?.map (compressContent rule)
  pairing : ∀ i, IsCall msgs i →
    (Survives rule msgs i ↔ ∀ j ∈ resultsOf msgs i, Survives rule msgs j)

/-- Behind the last question there are at most tool messages that follow a message with calls. -/
def OnlyFollowers (rule : CompressorRule) (msgs : List Json) : Prop :=
  ∀ u, lastUserIdx msgs = some u → ∀ i, u ≤ i → i + 1 < msgs.length → Follows rule msgs i

/-- A message with calls that lies too many turns back has a result. -/
def OldCallsAnswered (rule : CompressorRule) (msgs : List Json) : Prop :=
  ∀ i, IsCall msgs i → rule.maxHistoryTurns ≤ turnsBehind msgs i → resultsOf msgs i ≠ []

theorem mem_resultsOf {msgs : List Json} {i j : ℕ} (h : j ∈ resultsOf msgs i) :
    j < msgs.length ∧ i < j ∧ ∀ k, i < k → k ≤ j → roleAt msgs k = some (ascii "tool") := by
  obtain ⟨hlen, hcond⟩ := List.mem_filter.mp h
  rw [Bool.and_eq_true, Bool.and_eq_true, decide_eq_true_eq, decide_eq_true_eq] at hcond
  exact ⟨List.mem_range.mp hlen, hcond.1.1, fun k hik hkj => hcond.1.2 k (by omega) hik⟩

theorem survives_iff {rule : CompressorRule} (hactive : ¬ rule.Inactive) {msgs : List Json}
    {i : ℕ} : Survives rule msgs i ↔ i < msgs.length ∧ keepFlags rule msgs i = true := by
  unfold Survives survivors
  rw [if_neg hactive, List.mem_filter, List.mem_range]

theorem survives_inactive {rule : CompressorRule} (hinactive : rule.Inactive) {msgs : List Json}
    {i : ℕ} : Survives rule msgs i ↔ i < msgs.length := by
  unfold Survives survivors
  rw [if_pos hinactive, List.mem_range]

/-- The survivors are in order whatever the rule. -/
theorem order_survivors (rule : CompressorRule) (msgs : List Json) :
    ∃ kept : List ℕ, kept.Pairwise (· < ·) ∧ (∀ i, i ∈ kept ↔ Survives rule msgs i) ∧
      compressMessages rule msgs = kept.filterMap fun i => msgs[i]?.map (compressContent rule) := by
  refine ⟨survivors rule msgs, ?_, fun i => Iff.rfl, rfl⟩
  unfold survivors
  split
  · exact List.pairwise_lt_range
  · exact List.pairwise_lt_range.filter _

/-- Behind the last question the scan keeps nothing. -/
theorem keepWindow_behind {rule : CompressorRule} {msgs : List Json} {u i : ℕ}
    (hu : lastUserIdx msgs = some u) (hi : u < i) : (keepWindow rule msgs).1 i = false := by
  rw [Bool.eq_false_iff, ne_eq, keepWindow_eq_true, keepFixed_eq_true]
  have hend : scanEnd msgs = u := by
    unfold scanEnd
    rw [hu, Option.getD_some]
  rintro ((hlast | ⟨-, hprefix⟩) | hwindow)
  · have := Option.some.inj (hu.symm.trans hlast)
    omega
  · refine not_inHistory_of_lt_prefixLen (hi.trans hprefix) ?_
    exact Or.inr (Or.inl (lastUserIdx_eq_some hu).2)
  · have := hwindow.1
    omega

theorem keepFlags_last {rule : CompressorRule} {msgs : List Json} {u : ℕ}
    (hu : lastUserIdx msgs = some u) : keepFlags rule msgs u = true := by
  have hwindow : (keepWindow rule msgs).1 u = true :=
    (keepWindow_eq_true rule msgs u).mpr (Or.inl ((keepFixed_eq_true rule msgs u).mpr (Or.inl hu)))
  cases u with
  | zero => rw [keepFlags_zero, hwindow]
  | succ u =>
    exact (keepFlags_succ rule msgs (lastUserIdx_eq_some hu).1).mpr (Or.inl hwindow)

/-- Everything from the last question on stays exactly when only followers are behind it. -/
theorem tail_iff {rule : CompressorRule} (hactive : ¬ rule.Inactive) (msgs : List Json) :
    (∀ u, lastUserIdx msgs = some u → ∀ i, u ≤ i → i < msgs.length → Survives rule msgs i) ↔
      OnlyFollowers rule msgs := by
  constructor
  · intro h u hu i hi hlen
    have hnext := (survives_iff hactive).mp (h u hu (i + 1) (by omega) hlen)
    rcases (keepFlags_succ rule msgs hlen).mp hnext.2 with hwindow | ⟨-, hfollows⟩
    · rw [keepWindow_behind hu (by omega)] at hwindow
      cases hwindow
    · exact hfollows
  · intro h u hu i hi hlen
    rw [survives_iff hactive]
    refine ⟨hlen, ?_⟩
    induction i, hi using Nat.le_induction with
    | base => exact keepFlags_last hu
    | succ i hi ih =>
      exact (keepFlags_succ rule msgs hlen).mpr (Or.inr ⟨ih (by omega), h u hu i hi hlen⟩)

/-- A message that is no tool's stays by the scan alone. -/
theorem keepFlags_of_ne_tool {rule : CompressorRule} {msgs : List Json} {i : ℕ}
    (hi : i < msgs.length) (hrole : roleAt msgs i ≠ some (ascii "tool")) :
    keepFlags rule msgs i = true ↔ (keepWindow rule msgs).1 i = true := by
  cases i with
  | zero => rw [keepFlags_zero]
  | succ i =>
    rw [keepFlags_succ rule msgs hi]
    exact or_iff_left fun h => hrole h.2.2.2

/-- An assistant message before the last question stays when few enough turns are behind it. -/
theorem keepFlags_call {rule : CompressorRule} {msgs : List Json} {i : ℕ}
    (hrole : roleAt msgs i = some (ascii "assistant")) (hi : i < scanEnd msgs) :
    keepFlags rule msgs i = true ↔ turnsBehind msgs i < rule.maxHistoryTurns := by
  have htool : roleAt msgs i ≠ some (ascii "tool") := by simp [hrole, ascii_inj]
  have hfixed : ¬ keepFixed rule msgs i = true := fun h => keepFixed_before hi h (Or.inl hrole)
  rw [keepFlags_of_ne_tool (lt_of_roleAt hrole) htool, keepWindow_eq_true, or_iff_right hfixed]
  exact ⟨fun h => h.2.2, fun h => ⟨hi, Or.inl hrole, h⟩⟩

/-- The tool messages behind a message are before the last question if it is. -/
theorem lt_scanEnd_of_run {msgs : List Json} {i j : ℕ} (hi : i < scanEnd msgs)
    (hj : j < msgs.length) (hrun : ∀ k, i < k → k ≤ j → roleAt msgs k = some (ascii "tool")) :
    j < scanEnd msgs := by
  unfold scanEnd at hi ⊢
  cases hlast : lastUserIdx msgs with
  | none => exact hj
  | some u =>
    rw [hlast, Option.getD_some] at hi
    rw [Option.getD_some]
    by_contra hle
    have htool := hrun u hi (by omega)
    rw [(lastUserIdx_eq_some hlast).2] at htool
    simp [ascii_inj] at htool

/-- Between a message and the tool messages behind it there is no turn. -/
theorem turnsBehind_run {msgs : List Json} {i j : ℕ} (hij : i ≤ j) (hj : j < scanEnd msgs)
    (hrun : ∀ k, i < k → k ≤ j → roleAt msgs k = some (ascii "tool")) :
    turnsBehind msgs j = turnsBehind msgs i := by
  induction j, hij using Nat.le_induction with
  | base => rfl
  | succ j hij ih =>
    have hstep := usersFrom_step (show j + 1 < scanEnd msgs from hj)
    have huser : isUserAt msgs (j + 1) = false := by
      unfold isUserAt
      rw [hrun (j + 1) (by omega) le_rfl]
      simp [ascii_inj]
    rw [huser] at hstep
    have hsame : turnsBehind msgs j = turnsBehind msgs i :=
      ih (by omega) fun k hik hkj => hrun k hik (by omega)
    unfold turnsBehind at hsame ⊢
    rw [← hsame, hstep]
    simp [turnsBehind]

/-- Of a message before the last question and the tool messages behind it, all stay or none. -/
theorem keepFlags_run {rule : CompressorRule} {msgs : List Json} {i j : ℕ}
    (hrole : roleAt msgs i = some (ascii "assistant")) (hi : i < scanEnd msgs) (hij : i ≤ j)
    (hj : j < msgs.length) (hrun : ∀ k, i < k → k ≤ j → roleAt msgs k = some (ascii "tool")) :
    keepFlags rule msgs j = true ↔ turnsBehind msgs i < rule.maxHistoryTurns := by
  induction j, hij using Nat.le_induction with
  | base => exact keepFlags_call hrole hi
  | succ j hij ih =>
    have hend := lt_scanEnd_of_run hi hj hrun
    have htool : InHistory msgs (j + 1) := Or.inr (Or.inr (hrun (j + 1) (by omega) le_rfl))
    have hfixed : ¬ keepFixed rule msgs (j + 1) = true := fun h => keepFixed_before hend h htool
    have hturns := turnsBehind_run (by omega) hend hrun
    have hbefore := ih (by omega) fun k hik hkj => hrun k hik (by omega)
    rw [keepFlags_succ rule msgs hj, keepWindow_eq_true, or_iff_right hfixed, hbefore]
    constructor
    · rintro (hwindow | ⟨hfew, -⟩)
      · rw [← hturns]
        exact hwindow.2.2
      · exact hfew
    · intro hfew
      exact Or.inl ⟨hend, htool, by rw [hturns]; exact hfew⟩

/-- The compressed conversation is valid exactly when the rule leaves it alone, or nothing but
followers is behind the last question and every call that is too old has a result. -/
theorem valid_iff (rule : CompressorRule) (msgs : List Json) :
    Valid rule msgs ↔
      rule.Inactive ∨ (OnlyFollowers rule msgs ∧ OldCallsAnswered rule msgs) := by
  by_cases hactive : rule.Inactive
  · refine iff_of_true ⟨fun u _ i _ hi => (survives_inactive hactive).mpr hi,
      order_survivors rule msgs, fun i hcall => ?_⟩ (Or.inl hactive)
    exact iff_of_true ((survives_inactive hactive).mpr (lt_of_roleAt hcall.1))
      fun j hj => (survives_inactive hactive).mpr (mem_resultsOf hj).1
  rw [or_iff_right hactive]
  -- a message with calls is before the last question once the tail is kept
  have hbefore : OnlyFollowers rule msgs → ∀ i, IsCall msgs i → i < scanEnd msgs := by
    intro hfollowers i hcall
    unfold scanEnd
    cases hlast : lastUserIdx msgs with
    | none => exact lt_of_roleAt hcall.1
    | some u =>
      rw [Option.getD_some]
      by_contra hle
      have hassistant := hcall.1
      rcases Nat.eq_or_lt_of_le (Nat.le_of_not_lt hle) with rfl | hlt
      · rw [(lastUserIdx_eq_some hlast).2] at hassistant
        simp [ascii_inj] at hassistant
      · obtain ⟨i, rfl⟩ : ∃ k, i = k + 1 := ⟨i - 1, by omega⟩
        have htool := (hfollowers u hlast i (by omega) (lt_of_roleAt hassistant)).2.2
        rw [hassistant] at htool
        simp [ascii_inj] at htool
  constructor
  · intro hvalid
    have hfollowers := (tail_iff hactive msgs).mp hvalid.tail
    refine ⟨hfollowers, fun i hcall hold hnone => ?_⟩
    have hsurvives : Survives rule msgs i :=
      (hvalid.pairing i hcall).mpr fun j hj => absurd (hnone ▸ hj) List.not_mem_nil
    have hflag := ((survives_iff hactive).mp hsurvives).2
    have := (keepFlags_call hcall.1 (hbefore hfollowers i hcall)).mp hflag
    omega
  · rintro ⟨hfollowers, hanswered⟩
    refine ⟨(tail_iff hactive msgs).mpr hfollowers, order_survivors rule msgs, fun i hcall => ?_⟩
    have hi := hbefore hfollowers i hcall
    have hrun : ∀ j ∈ resultsOf msgs i,
        (Survives rule msgs j ↔ turnsBehind msgs i < rule.maxHistoryTurns) := by
      intro j hj
      obtain ⟨hlen, hij, htools⟩ := mem_resultsOf hj
      rw [survives_iff hactive, keepFlags_run hcall.1 hi hij.le hlen htools]
      exact and_iff_right hlen
    rw [survives_iff hactive, keepFlags_call hcall.1 hi, and_iff_right (lt_of_roleAt hcall.1)]
    constructor
    · exact fun hfew j hj => (hrun j hj).mpr hfew
    · intro hall
      by_contra hold
      obtain ⟨j, hj⟩ := List.exists_mem_of_ne_nil _ (hanswered i hcall (by omega))
      exact hold ((hrun j hj).mp (hall j hj))

/-! ### A conversation with a tool -/

def gentleRule : CompressorRule where
  enabled := true
  level := .moderate
  minTokens := 0
  maxHistoryTurns := 4
  ratioInRange := true
  targetLen := fun n => n * 6 / 10
  preserveSystem := true
  preserveCode := true
  preserveTools := true

def message (role text : String) : Json :=
  .object [(ascii "role", .string (ascii role)), (ascii "content", .string (ascii text))]

/-- The user asks, the assistant calls a tool, and the tool has answered. -/
def toolLoop : List Json :=
  [message "user" "What is the weather in Paris?",
    .object [(ascii "role", .string (ascii "assistant")), (ascii "content", .null),
      (ascii "tool_calls", .array [.object [(ascii "id", .string (ascii "c1")),
        (ascii "type", .string (ascii "function"))]])],
    .object [(ascii "role", .string (ascii "tool")), (ascii "tool_call_id", .string (ascii "c1")),
      (ascii "content", .string (ascii "sunny"))]]

/-- The call and its result are dropped with no word left of them. -/
theorem not_valid_toolLoop : survivors gentleRule toolLoop = [0] ∧ ¬ Valid gentleRule toolLoop := by
  have hsurvivors : survivors gentleRule toolLoop = [0] := by decide +kernel
  refine ⟨hsurvivors, fun hvalid => ?_⟩
  have hlast : lastUserIdx toolLoop = some 0 := by decide +kernel
  have hone := hvalid.tail 0 hlast 1 (Nat.zero_le 1) (by decide)
  unfold Survives at hone
  rw [hsurvivors] at hone
  cases List.mem_singleton.mp hone

end Aigate.PromptHistory
