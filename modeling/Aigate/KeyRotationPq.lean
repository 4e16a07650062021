import Aigate.KeyRotation

/-!
# When the rotation is all or nothing
-/
namespace Aigate.KeyRotationPq
open Text JsonTree JsonText JsonRoundtrip JsonEdit Secrets Transaction KeyedRows KeyRotation

theorem isPg_iff {ref : Bytes} : isPg ref = true ↔ ref = ascii "pg:" ++ ref.drop 3 := by
  have hlen : (ascii "pg:").length = 3 := by
    rw [ascii_length]
    decide
  rw [isPg, List.isPrefixOf_iff_prefix]
  constructor
  · rintro ⟨t, rfl⟩
    rw [List.drop_left' hlen]
  · intro h
    exact ⟨ref.drop 3, h.symm⟩

theorem isPg_length {ref : Bytes} (h : isPg ref = true) : ref.length = 3 + (ref.drop 3).length := by
  have hlen : (ascii "pg:").length = 3 := by
    rw [ascii_length]
    decide
  conv_lhs => rw [isPg_iff.mp h, List.length_append, hlen]

@[simp] theorem isPg_pgRef (cap : ℕ) (enc : Bytes) : isPg (pgRef cap enc) = true := by
  rw [isPg, List.isPrefixOf_iff_prefix]
  exact List.prefix_append _ _

@[simp] theorem pgRef_drop (cap : ℕ) (enc : Bytes) :
    (pgRef cap enc).drop 3 = enc.take (cap - 4) := by
  refine List.drop_left' ?_
  rw [ascii_length]
  decide

section Rotation

variable {R : Type} (g : Gcm) (oldMaster newMaster : MasterKey)

/-- A secret that opens under the old key and fits the scratch buffer of the first pass. -/
def Rotatable (ref : Bytes) : Prop :=
  isPg ref = true → ∃ p, plainOf g oldMaster (ref.drop 3) = some p ∧ ref.length ≤ 4098

/-- The length of a reference to a readable secret. -/
theorem ref_length {ref : Bytes} (h : isPg ref = true) {p : List UInt8}
    (hp : plainOf g oldMaster (ref.drop 3) = some p) : ref.length = 65 + 2 * p.length := by
  rw [isPg_length h, plainOf_length g hp]
  omega

theorem checkRef_iff (nonce : Nonce) (ref : Bytes) :
    checkRef g oldMaster newMaster nonce ref = true ↔ Rotatable g oldMaster ref := by
  unfold checkRef Rotatable
  cases hpg : isPg ref with
  | false => simp
  | true =>
    simp only [Bool.not_true, Bool.false_or, forall_const]
    rcases secretRotate_cases g oldMaster newMaster nonce (ref.drop 3) 4096 with
      ⟨hnone, hno⟩ | ⟨p, out, hsome, hp, -, hcap, -⟩
    · rw [hnone]
      simp only [Option.isSome_none, Bool.false_eq_true, false_iff, not_exists, not_and, not_le]
      intro p hp
      have := ref_length g oldMaster hpg hp
      have := hno p hp
      omega
    · rw [hsome]
      simp only [Option.isSome_some, true_iff]
      exact ⟨p, hp, by have := ref_length g oldMaster hpg hp; omega⟩

/-- A readable secret is rotated, cut short or skipped, according to its length. -/
theorem rotateRef_cases (nonce : Nonce) {ref : Bytes} (hpg : isPg ref = true) {p : List UInt8}
    (hp : plainOf g oldMaster (ref.drop 3) = some p) :
    (∃ new, rotateRef g oldMaster newMaster nonce ref = some new ∧ ref.length ≤ 2049 ∧
      new ≠ [] ∧ Char.ofNat 0 ∉ new ∧
      (SecretKept g oldMaster newMaster ref new ↔ ref.length ≤ 2047)) ∨
    (rotateRef g oldMaster newMaster nonce ref = none ∧ 2049 < ref.length) := by
  have hlen := ref_length g oldMaster hpg hp
  rcases secretRotate_cases g oldMaster newMaster nonce (ref.drop 3) 2048 with
    ⟨hnone, hno⟩ | ⟨q, out, hsome, hq, -, hcap, hout, houtlen, hnul⟩
  · right
    have := hno p hp
    exact ⟨by rw [rotateRef, hnone, Option.map_none], by omega⟩
  · left
    rw [hp, Option.some.injEq] at hq
    subst hq
    refine ⟨pgRef 2048 out, by rw [rotateRef, hsome, Option.map_some], by omega, ?_, ?_, ?_⟩
    · intro h
      have := isPg_pgRef 2048 out
      rw [h] at this
      exact absurd this (by decide +kernel)
    · have hpre : Char.ofNat 0 ∉ ascii "pg:" := by decide +kernel
      rw [pgRef, List.mem_append, not_or]
      exact ⟨hpre, fun hmem => hnul (List.mem_of_mem_take hmem)⟩
    · unfold SecretKept
      rw [pgRef_drop]
      constructor
      · rintro ⟨-, q, hnew, hold⟩
        rw [hp, Option.some.injEq] at hold
        subst hold
        have := plainOf_length g hnew
        rw [List.length_take, houtlen] at this
        omega
      · intro hle
        refine ⟨isPg_pgRef 2048 out, p, ?_, hp⟩
        rwa [List.take_of_length_le (by omega)]

/-- A secret that survives: short enough for the buffers of the second pass, or too long
to be rotated and readable under the new key as it is. -/
def RefFine (ref : Bytes) : Prop :=
  isPg ref = true → ref.length ≤ 2047 ∨
    2049 < ref.length ∧ plainOf g newMaster (ref.drop 3) = plainOf g oldMaster (ref.drop 3)

theorem refRotated_self {ref : Bytes} (h : Rotatable g oldMaster ref) :
    RefRotated g oldMaster newMaster ref ref ↔ (isPg ref = true →
      plainOf g newMaster (ref.drop 3) = plainOf g oldMaster (ref.drop 3)) := by
  unfold RefRotated SecretKept
  cases hpg : isPg ref with
  | false => simp
  | true =>
    obtain ⟨p, hp, -⟩ := h hpg
    simp only [if_true, true_and, forall_const, hp, Option.some.injEq]
    exact ⟨fun ⟨q, hq, he⟩ => he ▸ hq, fun hq => ⟨p, hq, rfl⟩⟩

theorem set_string_inj {item : Json} {key : String} (h : item.isObject = true) {a b : Bytes}
    (he : item.set key (.string a) = item.set key (.string b)) : a = b := by
  have hget := congrArg (fun j => j.get key) he
  simpa [Json.get_set_self h] using hget

/-- An item after the rewriting is as it should be exactly when its secret survives. -/
theorem itemRotated_iff (nonce : Nonce) {item : Json}
    (h : ∀ ref, targetRef item = some ref → Rotatable g oldMaster ref) :
    ItemRotated g oldMaster newMaster item
        ((newItem g oldMaster newMaster nonce item).getD item) ↔
      ∀ ref, targetRef item = some ref → RefFine g oldMaster newMaster ref := by
  unfold ItemRotated newItem
  cases htr : targetRef item with
  | none => simp
  | some ref =>
    have hget := getString_eq_some.mp htr
    have hobj := isObject_of_get hget
    have hself : item = item.set "upstream_key_ref" (.string ref) := (set_get_self hget).symm
    have hsame : (∃ ref', RefRotated g oldMaster newMaster ref ref' ∧
        item = item.set "upstream_key_ref" (.string ref')) ↔
        RefRotated g oldMaster newMaster ref ref := by
      constructor
      · rintro ⟨ref', hrot, he⟩
        rwa [← set_string_inj hobj (hself.symm.trans he)] at hrot
      · exact fun hrot => ⟨ref, hrot, hself⟩
    simp only [Option.some.injEq, forall_eq']
    by_cases hpg : isPg ref = true
    · obtain ⟨p, hp, -⟩ := h ref htr hpg
      rw [if_pos hpg]
      rcases rotateRef_cases g oldMaster newMaster nonce hpg hp with
        ⟨new, hnew, hle, -, -, hkept⟩ | ⟨hnone, hlt⟩
      · rw [hnew, Option.map_some, Option.getD_some]
        have hrot : (∃ ref', RefRotated g oldMaster newMaster ref ref' ∧
            item.set "upstream_key_ref" (.string new) =
              item.set "upstream_key_ref" (.string ref')) ↔
            SecretKept g oldMaster newMaster ref new := by
          simp only [RefRotated, hpg, if_true]
          constructor
          · rintro ⟨ref', hrot, he⟩
            rwa [set_string_inj hobj he]
          · exact fun hrot => ⟨new, hrot, rfl⟩
        rw [hrot, hkept, RefFine]
        simp only [hpg, forall_const]
        exact ⟨Or.inl, fun hfine => hfine.elim id fun hl => absurd hl.1 (by omega)⟩
      · rw [hnone, Option.map_none, Option.getD_none, hsame,
          refRotated_self g oldMaster newMaster (h ref htr), RefFine]
        simp only [hpg, forall_const]
        exact ⟨fun heq => Or.inr ⟨hlt, heq⟩, fun hfine => hfine.elim (by omega) And.right⟩
    · rw [if_neg hpg, Option.getD_none, hsame,
        refRotated_self g oldMaster newMaster (h ref htr), RefFine]
      simp [hpg]

/-- An item is rewritten when its secret fits the buffers, and stays a small tree. -/
theorem newItem_cases (nonce : Nonce) {item : Json}
    (h : ∀ ref, targetRef item = some ref → Rotatable g oldMaster ref) :
    (newItem g oldMaster newMaster nonce item = none ∧
      ∀ ref, targetRef item = some ref → isPg ref = true → 2049 < ref.length) ∨
    ∃ ref new, targetRef item = some ref ∧ isPg ref = true ∧ ref.length ≤ 2049 ∧
      Char.ofNat 0 ∉ new ∧ newItem g oldMaster newMaster nonce item =
        some (item.set "upstream_key_ref" (.string new)) := by
  unfold newItem
  cases htr : targetRef item with
  | none => simp
  | some ref =>
    by_cases hpg : isPg ref = true
    · obtain ⟨p, hp, -⟩ := h ref htr hpg
      simp only [if_pos hpg, Option.some.injEq, forall_eq']
      rcases rotateRef_cases g oldMaster newMaster nonce hpg hp with
        ⟨new, hnew, hle, -, hnul, -⟩ | ⟨hnone, hlt⟩
      · exact Or.inr ⟨ref, new, rfl, hpg, hle, hnul, by rw [hnew, Option.map_some]⟩
      · exact Or.inl ⟨by rw [hnone, Option.map_none], fun _ => hlt⟩
    · left
      simp [hpg]

theorem rewritten_eq_self {α : Type*} {f : ℕ → α → Option (α → α)} {start : ℕ} {rows : List α}
    (h : ∀ p ∈ rows.zipIdx start, f p.2 p.1 = none) : rewritten f start rows = rows := by
  induction rows generalizing start with
  | nil => rfl
  | cons a rest ih =>
    rw [List.zipIdx_cons] at h
    have hhead := h (a, start) (List.mem_cons_self ..)
    rw [rewritten, hhead, ih fun p hp => h p (List.mem_cons_of_mem _ hp)]
    rfl

theorem mem_rewritten {α : Type*} {f : ℕ → α → Option (α → α)} {start : ℕ} {rows : List α}
    {P : α → Prop} (h : ∀ i, ∀ a ∈ rows, P (applied (f i a) a)) :
    ∀ b ∈ rewritten f start rows, P b := by
  induction rows generalizing start with
  | nil => simp [rewritten]
  | cons a rest ih =>
    intro b hb
    rw [rewritten, List.mem_cons] at hb
    rcases hb with rfl | hb
    · exact h start a (List.mem_cons_self ..)
    · exact ih (fun i a ha => h i a (List.mem_cons_of_mem _ ha)) b hb

/-- The targets that are written back are read as the rewritten items. -/
theorem loads_newTargets (nonce : ℕ → Nonce) {targets : Bytes} {items : List Json}
    (hload : loads targets = some (.array items))
    (h : ∀ item ∈ items, ∀ ref, targetRef item = some ref → Rotatable g oldMaster ref) :
    loads ((newTargets g oldMaster newMaster nonce targets).getD targets) =
      some (.array (newItems g oldMaster newMaster nonce items)) := by
  obtain ⟨-, hw, hd⟩ := loads_wellFormed hload
  rw [wellFormed, wellFormedItems_iff] at hw
  have hmax : maxDepth = 2047 + 1 := rfl
  rw [depth, hmax, Nat.add_le_add_iff_right, depthItems_le_iff] at hd
  simp only [newTargets, hload]
  split_ifs with hany
  · rw [Option.getD_some]
    have hkey : Char.ofNat 0 ∉ ascii "upstream_key_ref" := by decide +kernel
    have hnew : ∀ x ∈ newItems g oldMaster newMaster nonce items,
        wellFormed x = true ∧ depth x ≤ 2047 := by
      refine mem_rewritten fun i item hitem => ?_
      rcases newItem_cases g oldMaster newMaster (nonce i) (h item hitem) with
        ⟨hnone, -⟩ | ⟨ref, new, -, -, -, hnul, hsome⟩
      · rw [hnone]
        exact ⟨hw item hitem, hd item hitem⟩
      · rw [hsome]
        exact ⟨wellFormed_set hkey (hw item hitem) (by simpa [wellFormed] using hnul),
          depth_set (hd item hitem) (by simp [depth])⟩
    exact loads_dumps_array (fun x hx => (hnew x hx).1) fun x hx => by
      have := (hnew x hx).2
      omega
  · rw [Option.getD_none, hload, newItems, rewritten_eq_self]
    intro p hp
    simp only [List.any_eq_true, not_exists, not_and, Bool.not_eq_true, Option.isSome_eq_false_iff,
      Option.isNone_iff_eq_none] at hany
    rw [hany p hp, Option.map_none]

theorem targetsRotated_iff (nonce : ℕ → Nonce) {targets : Bytes}
    (h : ∀ item ∈ targetItems targets, ∀ ref, targetRef item = some ref →
      Rotatable g oldMaster ref) :
    TargetsRotated g oldMaster newMaster targets
        ((newTargets g oldMaster newMaster nonce targets).getD targets) ↔
      ∀ item ∈ targetItems targets, ∀ ref, targetRef item = some ref →
        RefFine g oldMaster newMaster ref := by
  by_cases harr : ∃ items, loads targets = some (.array items)
  · obtain ⟨items, hload⟩ := harr
    have hitems : targetItems targets = items := by simp only [targetItems, hload]
    rw [hitems] at h ⊢
    simp only [TargetsRotated, hload, loads_newTargets g oldMaster newMaster nonce hload h,
      Option.some.injEq, Json.array.injEq, exists_eq_left']
    rw [newItems, forall₂_rewritten, List.forall_mem_iff_forall_getElem]
    refine forall₂_congr fun i hi => ?_
    rw [← itemRotated_iff g oldMaster newMaster (nonce (0 + i)) (h _ (List.getElem_mem hi))]
    cases newItem g oldMaster newMaster (nonce (0 + i)) items[i] <;> rfl
  · have hnone : newTargets g oldMaster newMaster nonce targets = none := by
      unfold newTargets
      split
      · rename_i items hload
        exact absurd ⟨items, hload⟩ harr
      · rfl
    have hitems : targetItems targets = [] := by
      unfold targetItems
      split
      · rename_i items hload
        exact absurd ⟨items, hload⟩ harr
      · rfl
    have hself : TargetsRotated g oldMaster newMaster targets targets := by
      unfold TargetsRotated
      split
      · rename_i items hload
        exact absurd ⟨items, hload⟩ harr
      · rfl
    rw [hnone, Option.getD_none, hitems]
    simp [hself]

/-- The references of a row. -/
def modelRefs (m : ModelRow R) : List Bytes :=
  m.upstreamKeyRef.toList ++ (targetItems m.targets).filterMap targetRef

theorem mem_modelRefs {m : ModelRow R} {ref : Bytes} :
    ref ∈ modelRefs m ↔ m.upstreamKeyRef = some ref ∨
      ∃ item ∈ targetItems m.targets, targetRef item = some ref := by
  simp [modelRefs, eq_comm]

/-- A row that survives: its secrets do, and when one of them is rotated the reference of
the row itself is neither empty nor too long to be written back. -/
def ModelFine (m : ModelRow R) : Prop :=
  (∀ ref ∈ modelRefs m, RefFine g oldMaster newMaster ref) ∧
    ((∃ ref ∈ modelRefs m, isPg ref = true ∧ ref.length ≤ 2049) →
      ∀ ref, m.upstreamKeyRef = some ref → ref ≠ [] ∧ ref.length ≤ 2047)

theorem newTargets_isSome_iff (nonce : ℕ → Nonce) {targets : Bytes}
    (h : ∀ item ∈ targetItems targets, ∀ ref, targetRef item = some ref →
      Rotatable g oldMaster ref) :
    (newTargets g oldMaster newMaster nonce targets).isSome = true ↔
      ∃ item ∈ targetItems targets, ∃ ref, targetRef item = some ref ∧ isPg ref = true ∧
        ref.length ≤ 2049 := by
  unfold newTargets targetItems at *
  split at h
  · rename_i items hload
    have hnew (i : ℕ) (item : Json) (hitem : item ∈ items) :
        (newItem g oldMaster newMaster (nonce i) item).isSome = true ↔
          ∃ ref, targetRef item = some ref ∧ isPg ref = true ∧ ref.length ≤ 2049 := by
      rcases newItem_cases g oldMaster newMaster (nonce i) (h item hitem) with
        ⟨hnone, hno⟩ | ⟨ref, new, htr, hpg, hle, -, hsome⟩
      · rw [hnone]
        simp only [Option.isSome_none, Bool.false_eq_true, false_iff, not_exists, not_and, not_le]
        exact hno
      · rw [hsome]
        exact iff_of_true rfl ⟨ref, htr, hpg, hle⟩
    have hany : (items.zipIdx.any fun p =>
          (newItem g oldMaster newMaster (nonce p.2) p.1).isSome) = true ↔
        ∃ item ∈ items, ∃ ref, targetRef item = some ref ∧ isPg ref = true ∧
          ref.length ≤ 2049 := by
      rw [List.any_eq_true]
      constructor
      · rintro ⟨p, hp, hsome⟩
        have hmem := List.fst_mem_of_mem_zipIdx hp
        exact ⟨p.1, hmem, (hnew p.2 p.1 hmem).mp hsome⟩
      · rintro ⟨item, hmem, href⟩
        obtain ⟨i, hi, rfl⟩ := List.mem_iff_getElem.mp hmem
        exact ⟨(items[i], i), List.mk_mem_zipIdx_iff_getElem?.mpr (List.getElem?_eq_getElem hi),
          (hnew i _ hmem).mpr href⟩
    rw [← hany]
    split_ifs with hc <;> simp [hc]
  · simp

/-- The reference of a row that is rewritten survives when it can be written back. -/
theorem keyRef_rotated_iff (nonce : Nonce) (keyRef : Option Bytes)
    (h : ∀ ref, keyRef = some ref → Rotatable g oldMaster ref) :
    Option.Rel (RefRotated g oldMaster newMaster) keyRef
        (if (newKeyRef g oldMaster newMaster nonce (keyRef.getD [])).1 = [] then none
          else some (newKeyRef g oldMaster newMaster nonce (keyRef.getD [])).1) ↔
      ∀ ref, keyRef = some ref → ref ≠ [] ∧ ref.length ≤ 2047 := by
  have hnil : isPg [] = false := by decide +kernel
  cases keyRef with
  | none =>
    simp [newKeyRef, hnil]
  | some ref =>
    simp only [Option.getD_some, Option.some.injEq, forall_eq']
    unfold newKeyRef
    by_cases hpg : isPg ref = true
    · have hne : ref ≠ [] := by
        rintro rfl
        exact absurd hpg (by simp [hnil])
      obtain ⟨p, hp, -⟩ := h ref rfl hpg
      rw [if_pos hpg]
      rcases rotateRef_cases g oldMaster newMaster nonce hpg hp with
        ⟨new, hnew, -, hnewne, -, hkept⟩ | ⟨hnone, hlt⟩
      · simp only [hnew, if_neg hnewne, Option.rel_some_some, RefRotated, hpg, if_true, hkept]
        exact ⟨fun hle => ⟨hne, hle⟩, And.right⟩
      · simp only [hnone, if_true, Option.not_rel_some_none, false_iff, not_and, not_le]
        exact fun _ => by omega
    · rw [if_neg hpg]
      by_cases hne : ref = []
      · subst hne
        simp
      · have htake : ref.take 2047 ≠ [] := by
          cases ref with
          | nil => exact absurd rfl hne
          | cons c cs => simp
        simp only [if_neg htake, Option.rel_some_some, RefRotated, hpg,
          List.take_eq_self_iff]
        simp [hne]

theorem newKeyRef_changed_iff (nonce : Nonce) (keyRef : Option Bytes)
    (h : ∀ ref, keyRef = some ref → Rotatable g oldMaster ref) :
    (newKeyRef g oldMaster newMaster nonce (keyRef.getD [])).2 = true ↔
      ∃ ref, keyRef = some ref ∧ isPg ref = true ∧ ref.length ≤ 2049 := by
  have hnil : isPg [] = false := by decide +kernel
  cases keyRef with
  | none => simp [newKeyRef, hnil]
  | some ref =>
    simp only [Option.getD_some, Option.some.injEq, exists_eq_left']
    unfold newKeyRef
    by_cases hpg : isPg ref = true
    · obtain ⟨p, hp, -⟩ := h ref rfl hpg
      rw [if_pos hpg]
      rcases rotateRef_cases g oldMaster newMaster nonce hpg hp with
        ⟨new, hnew, hle, -⟩ | ⟨hnone, hlt⟩
      · simp [hnew, hpg, hle]
      · simp [hnone, hlt]
    · simp [hpg]

theorem rotateModel_isSome_iff (n : Nonces) (i : ℕ) {m : ModelRow R}
    (h : ∀ ref ∈ modelRefs m, Rotatable g oldMaster ref) :
    (rotateModel g oldMaster newMaster n i m).isSome = true ↔
      ∃ ref ∈ modelRefs m, isPg ref = true ∧ ref.length ≤ 2049 := by
  have hkey := newKeyRef_changed_iff g oldMaster newMaster (n.keyRef i) m.upstreamKeyRef
    fun ref hr => h ref (mem_modelRefs.mpr (Or.inl hr))
  have htargets := @newTargets_isSome_iff g oldMaster newMaster (n.target i) m.targets
    fun item hitem ref hr => h ref (mem_modelRefs.mpr (Or.inr ⟨item, hitem, hr⟩))
  have hsome : (rotateModel g oldMaster newMaster n i m).isSome = true ↔
      (newKeyRef g oldMaster newMaster (n.keyRef i) (m.upstreamKeyRef.getD [])).2 = true ∨
        (newTargets g oldMaster newMaster (n.target i) m.targets).isSome = true := by
    rw [rotateModel, ← Bool.or_eq_true]
    split_ifs with hc <;> simp [hc]
  rw [hsome, hkey, htargets]
  constructor
  · rintro (⟨ref, hr, hfit⟩ | ⟨item, hitem, ref, hr, hfit⟩)
    · exact ⟨ref, mem_modelRefs.mpr (Or.inl hr), hfit⟩
    · exact ⟨ref, mem_modelRefs.mpr (Or.inr ⟨item, hitem, hr⟩), hfit⟩
  · rintro ⟨ref, hmem, hfit⟩
    rcases mem_modelRefs.mp hmem with hr | ⟨item, hitem, hr⟩
    · exact Or.inl ⟨ref, hr, hfit⟩
    · exact Or.inr ⟨item, hitem, ref, hr, hfit⟩

/-- How a row is rewritten in place. -/
def modelRewriting (n : Nonces) (i : ℕ) (m : ModelRow R) : Option (ModelRow R → ModelRow R) :=
  (rotateModel g oldMaster newMaster n i m).map fun new => ModelRow.setColumns new.1 new.2

def providerRewriting (n : Nonces) (i : ℕ) (p : ProviderRow R) :
    Option (ProviderRow R → ProviderRow R) :=
  (rotateProvider g oldMaster newMaster n i p).map ProviderRow.setKey

/-- A row after the second pass is as it should be exactly when it is one that survives. -/
theorem modelRotated_iff (n : Nonces) (i : ℕ) {m : ModelRow R}
    (h : ∀ ref ∈ modelRefs m, Rotatable g oldMaster ref) :
    ModelRotated g oldMaster newMaster m
        (applied (modelRewriting g oldMaster newMaster n i m) m) ↔
      ModelFine g oldMaster newMaster m := by
  have hkeyrot : ∀ ref, m.upstreamKeyRef = some ref → Rotatable g oldMaster ref :=
    fun ref hr => h ref (mem_modelRefs.mpr (Or.inl hr))
  have htargetrot : ∀ item ∈ targetItems m.targets, ∀ ref, targetRef item = some ref →
      Rotatable g oldMaster ref :=
    fun item hitem ref hr => h ref (mem_modelRefs.mpr (Or.inr ⟨item, hitem, hr⟩))
  have htargets := targetsRotated_iff g oldMaster newMaster (n.target i) htargetrot
  have hsplit : (∀ ref ∈ modelRefs m, RefFine g oldMaster newMaster ref) ↔
      (∀ ref, m.upstreamKeyRef = some ref → RefFine g oldMaster newMaster ref) ∧
        ∀ item ∈ targetItems m.targets, ∀ ref, targetRef item = some ref →
          RefFine g oldMaster newMaster ref := by
    simp only [mem_modelRefs]
    constructor
    · exact fun hall => ⟨fun ref hr => hall ref (Or.inl hr),
        fun item hitem ref hr => hall ref (Or.inr ⟨item, hitem, hr⟩)⟩
    · rintro ⟨hk, ht⟩ ref (hr | ⟨item, hitem, hr⟩)
      · exact hk ref hr
      · exact ht item hitem ref hr
  have htouched := rotateModel_isSome_iff g oldMaster newMaster n i h
  rw [ModelFine, hsplit, ← htouched]
  by_cases ht : (rotateModel g oldMaster newMaster n i m).isSome = true
  · have hrow : applied (modelRewriting g oldMaster newMaster n i m) m =
        ModelRow.setColumns
          (if (newKeyRef g oldMaster newMaster (n.keyRef i) (m.upstreamKeyRef.getD [])).1 = []
            then none
            else some (newKeyRef g oldMaster newMaster (n.keyRef i) (m.upstreamKeyRef.getD [])).1)
          ((newTargets g oldMaster newMaster (n.target i) m.targets).getD m.targets) m := by
      unfold modelRewriting
      simp only [rotateModel] at ht ⊢
      split_ifs at ht ⊢ <;> first | rfl | simp at ht
    have hkey := keyRef_rotated_iff g oldMaster newMaster (n.keyRef i) m.upstreamKeyRef hkeyrot
    rw [hrow]
    simp only [ModelRotated, ModelRow.setColumns, true_and, ht, forall_const]
    rw [hkey, htargets]
    constructor
    · rintro ⟨hk, hts⟩
      exact ⟨⟨fun ref hr _ => Or.inl (hk ref hr).2, hts⟩, hk⟩
    · rintro ⟨⟨-, hts⟩, hk⟩
      exact ⟨hk, hts⟩
  · have hnone : rotateModel g oldMaster newMaster n i m = none := by simpa using ht
    have hrow : applied (modelRewriting g oldMaster newMaster n i m) m = m := by
      rw [modelRewriting, hnone]
      rfl
    have hsame : (newTargets g oldMaster newMaster (n.target i) m.targets).getD m.targets =
        m.targets := by
      cases hnew : newTargets g oldMaster newMaster (n.target i) m.targets with
      | none => rfl
      | some ts => simp [rotateModel, hnew] at ht
    have hlong : ∀ ref, m.upstreamKeyRef = some ref → isPg ref = true → 2049 < ref.length := by
      intro ref hr hpg
      by_contra hle
      exact ht (htouched.mpr ⟨ref, mem_modelRefs.mpr (Or.inl hr), hpg, by omega⟩)
    have hkey : Option.Rel (RefRotated g oldMaster newMaster) m.upstreamKeyRef m.upstreamKeyRef ↔
        ∀ ref, m.upstreamKeyRef = some ref → RefFine g oldMaster newMaster ref := by
      cases hr : m.upstreamKeyRef with
      | none => simp
      | some ref =>
        simp only [Option.rel_some_some, Option.some.injEq, forall_eq']
        rw [refRotated_self g oldMaster newMaster (hkeyrot ref hr), RefFine]
        refine forall_congr' fun hpg => ?_
        have := hlong ref hr hpg
        exact ⟨fun he => Or.inr ⟨this, he⟩, fun hfine => hfine.elim (by omega) And.right⟩
    rw [hsame] at htargets
    rw [hrow]
    simp only [ModelRotated, true_and, ht, Bool.false_eq_true, IsEmpty.forall_iff, and_true]
    rw [hkey, htargets]

theorem providerRotated_iff (n : Nonces) (i : ℕ) {p : ProviderRow R}
    (h : Rotatable g oldMaster p.apiKey) :
    ProviderRotated g oldMaster newMaster p
        (applied (providerRewriting g oldMaster newMaster n i p) p) ↔
      RefFine g oldMaster newMaster p.apiKey := by
  unfold providerRewriting rotateProvider
  by_cases hpg : isPg p.apiKey = true
  · obtain ⟨q, hq, -⟩ := h hpg
    rw [if_pos hpg]
    rcases rotateRef_cases g oldMaster newMaster (n.provider i) hpg hq with
      ⟨new, hnew, hle, -, -, hkept⟩ | ⟨hnone, hlt⟩
    · have hrow : applied ((some new).map ProviderRow.setKey) p = p.setKey new := rfl
      rw [hnew, hrow]
      simp only [ProviderRotated, ProviderRow.setKey, true_and, RefRotated, hpg, if_true, hkept,
        RefFine, forall_const]
      exact ⟨Or.inl, fun hfine => hfine.elim id fun hl => absurd hl.1 (by omega)⟩
    · have hrow : applied ((none : Option Bytes).map ProviderRow.setKey) p = p := rfl
      rw [hnone, hrow]
      simp only [ProviderRotated, true_and]
      rw [refRotated_self g oldMaster newMaster h, RefFine]
      simp only [hpg, forall_const]
      exact ⟨fun he => Or.inr ⟨hlt, he⟩, fun hfine => hfine.elim (by omega) And.right⟩
  · have hrow : applied ((none : Option Bytes).map ProviderRow.setKey) p = p := rfl
    rw [if_neg hpg, hrow]
    simp only [ProviderRotated, true_and]
    rw [refRotated_self g oldMaster newMaster h, RefFine]
    simp [hpg]

theorem foldl_modelUpdates (n : Nonces) (i : ℕ) (rows : List (ModelRow R)) (t : Store R) :
    ((modelUpdates g oldMaster newMaster n i rows).foldl (fun w f => f w) t).models =
        (updates ModelRow.modelName (modelRewriting g oldMaster newMaster n) i rows).foldl
          (fun w f => f w) t.models ∧
      ((modelUpdates g oldMaster newMaster n i rows).foldl (fun w f => f w) t).providers =
        t.providers := by
  induction rows generalizing i t with
  | nil => exact ⟨rfl, rfl⟩
  | cons m rest ih =>
    rw [modelUpdates, updates, modelRewriting]
    cases hnew : rotateModel g oldMaster newMaster n i m with
    | none => exact ih (i + 1) t
    | some new =>
      have hrest := ih (i + 1) (t.updateModel m.modelName new.1 new.2)
      exact hrest

theorem foldl_providerUpdates (n : Nonces) (i : ℕ) (rows : List (ProviderRow R)) (t : Store R) :
    ((providerUpdates g oldMaster newMaster n i rows).foldl (fun w f => f w) t).providers =
        (updates ProviderRow.id (providerRewriting g oldMaster newMaster n) i rows).foldl
          (fun w f => f w) t.providers ∧
      ((providerUpdates g oldMaster newMaster n i rows).foldl (fun w f => f w) t).models =
        t.models := by
  induction rows generalizing i t with
  | nil => exact ⟨rfl, rfl⟩
  | cons p rest ih =>
    rw [providerUpdates, updates, providerRewriting]
    cases hnew : rotateProvider g oldMaster newMaster n i p with
    | none => exact ih (i + 1) t
    | some new =>
      have hrest := ih (i + 1) (t.updateProvider p.id new)
      exact hrest

/-- The store after all updates of the second pass. -/
def rotatedStore (n : Nonces) (t : Store R) : Store R :=
  (storeUpdates g oldMaster newMaster n t).foldl (fun w f => f w) t

theorem rotatedStore_rows (n : Nonces) (t : Store R) :
    (rotatedStore g oldMaster newMaster n t).models =
        rewritten (modelRewriting g oldMaster newMaster n) 0 t.models ∧
      (rotatedStore g oldMaster newMaster n t).providers =
        rewritten (providerRewriting g oldMaster newMaster n) 0 t.providers := by
  have hmodel : ∀ i (a : ModelRow R) f, modelRewriting g oldMaster newMaster n i a = some f →
      ∀ b, (f b).modelName = b.modelName := by
    intro i a f hf b
    simp only [modelRewriting, Option.map_eq_some_iff] at hf
    obtain ⟨new, -, rfl⟩ := hf
    rfl
  have hprovider : ∀ i (a : ProviderRow R) f,
      providerRewriting g oldMaster newMaster n i a = some f → ∀ b, (f b).id = b.id := by
    intro i a f hf b
    simp only [providerRewriting, Option.map_eq_some_iff] at hf
    obtain ⟨new, -, rfl⟩ := hf
    rfl
  have hms := foldl_updates ModelRow.modelName hmodel 0 [] t.models t.modelKey
  have hps := foldl_updates ProviderRow.id hprovider 0 [] t.providers t.providerKey
  unfold rotatedStore storeUpdates
  rw [List.foldl_append]
  refine ⟨?_, ?_⟩
  · rw [(foldl_providerUpdates ..).2, (foldl_modelUpdates ..).1]
    exact hms
  · rw [(foldl_providerUpdates ..).1, (foldl_modelUpdates ..).2]
    exact hps

/-- Every secret of the store opens under the old key and fits the first pass. -/
def StoreReadable (t : Store R) : Prop :=
  (∀ m ∈ t.models, ∀ ref ∈ modelRefs m, Rotatable g oldMaster ref) ∧
    ∀ p ∈ t.providers, Rotatable g oldMaster p.apiKey

/-- Every row survives the second pass. -/
def StoreFine (t : Store R) : Prop :=
  (∀ m ∈ t.models, ModelFine g oldMaster newMaster m) ∧
    ∀ p ∈ t.providers, RefFine g oldMaster newMaster p.apiKey

theorem storeRotated_iff (n : Nonces) {t : Store R} (h : StoreReadable g oldMaster t) :
    StoreRotated g oldMaster newMaster t (rotatedStore g oldMaster newMaster n t) ↔
      StoreFine g oldMaster newMaster t := by
  obtain ⟨hmodels, hproviders⟩ := rotatedStore_rows g oldMaster newMaster n t
  unfold StoreRotated StoreFine
  rw [hmodels, hproviders, forall₂_rewritten, forall₂_rewritten, List.forall_mem_iff_forall_getElem,
    List.forall_mem_iff_forall_getElem]
  refine and_congr (forall₂_congr fun i hi => ?_) (forall₂_congr fun i hi => ?_)
  · exact modelRotated_iff g oldMaster newMaster n _ (h.1 _ (List.getElem_mem hi))
  · exact providerRotated_iff g oldMaster newMaster n _ (h.2 _ (List.getElem_mem hi))

theorem all_zipIdx_iff {α : Type*} {rows : List α} {f : α × ℕ → Bool} {P : α → Prop}
    (h : ∀ a i, f (a, i) = true ↔ P a) : rows.zipIdx.all f = true ↔ ∀ a ∈ rows, P a := by
  rw [List.all_eq_true]
  constructor
  · intro hall a ha
    obtain ⟨i, hi, rfl⟩ := List.mem_iff_getElem.mp ha
    exact (h _ i).mp (hall _ (List.mk_mem_zipIdx_iff_getElem?.mpr (List.getElem?_eq_getElem hi)))
  · exact fun hall p hp => (h p.1 p.2).mpr (hall p.1 (List.fst_mem_of_mem_zipIdx hp))

/-- The first pass finds every secret readable, whatever nonces it draws. -/
theorem checkStore_iff (n : Nonces) (t : Store R) :
    checkStore g oldMaster newMaster n t = true ↔ StoreReadable g oldMaster t := by
  have hnil : Rotatable g oldMaster [] := by
    have : isPg [] = false := by decide +kernel
    simp [Rotatable, this]
  have hmodel (m : ModelRow R) (i : ℕ) : checkModel g oldMaster newMaster n i m = true ↔
      ∀ ref ∈ modelRefs m, Rotatable g oldMaster ref := by
    have hitem (item : Json) (j : ℕ) :
        (targetRef item).all (checkRef g oldMaster newMaster (n.target i j)) = true ↔
          ∀ ref, targetRef item = some ref → Rotatable g oldMaster ref := by
      cases targetRef item with
      | none => simp
      | some ref => simp [checkRef_iff]
    rw [checkModel, Bool.and_eq_true, checkRef_iff, all_zipIdx_iff hitem]
    simp only [mem_modelRefs]
    constructor
    · rintro ⟨hk, hts⟩ ref (hr | ⟨item, hmem, hr⟩)
      · rwa [hr] at hk
      · exact hts item hmem ref hr
    · intro hall
      refine ⟨?_, fun item hmem ref hr => hall ref (Or.inr ⟨item, hmem, hr⟩)⟩
      cases hr : m.upstreamKeyRef with
      | none => exact hnil
      | some ref => exact hall ref (Or.inl hr)
  rw [checkStore, Bool.and_eq_true, StoreReadable, all_zipIdx_iff hmodel,
    all_zipIdx_iff fun p i => checkRef_iff g oldMaster newMaster (n.provider i) p.apiKey]

/-- A reference that the second pass writes anew. -/
def rewrites (ref : Bytes) : Bool := isPg ref && decide (ref.length ≤ 2049)

/-- How many rows are updated. -/
def touchedRows (t : Store R) : ℕ :=
  t.models.countP (fun m => (modelRefs m).any rewrites) +
    t.providers.countP fun p => rewrites p.apiKey

theorem modelUpdates_length (n : Nonces) (i : ℕ) {rows : List (ModelRow R)}
    (h : ∀ m ∈ rows, ∀ ref ∈ modelRefs m, Rotatable g oldMaster ref) :
    (modelUpdates g oldMaster newMaster n i rows).length =
      rows.countP fun m => (modelRefs m).any rewrites := by
  induction rows generalizing i with
  | nil => rfl
  | cons m rest ih =>
    have hrest := ih (i + 1) fun m' hm' => h m' (List.mem_cons_of_mem _ hm')
    have hsome : (rotateModel g oldMaster newMaster n i m).isSome =
        (modelRefs m).any rewrites := by
      rw [Bool.eq_iff_iff, rotateModel_isSome_iff g oldMaster newMaster n i
        (h m (List.mem_cons_self ..)), List.any_eq_true]
      simp [rewrites]
    rw [modelUpdates, List.countP_cons, ← hsome]
    cases rotateModel g oldMaster newMaster n i m with
    | none => simpa using hrest
    | some new => simpa using hrest

theorem providerUpdates_length (n : Nonces) (i : ℕ) {rows : List (ProviderRow R)}
    (h : ∀ p ∈ rows, Rotatable g oldMaster p.apiKey) :
    (providerUpdates g oldMaster newMaster n i rows).length =
      rows.countP fun p => rewrites p.apiKey := by
  induction rows generalizing i with
  | nil => rfl
  | cons p rest ih =>
    have hrest := ih (i + 1) fun p' hp' => h p' (List.mem_cons_of_mem _ hp')
    have hsome : (rotateProvider g oldMaster newMaster n i p).isSome = rewrites p.apiKey := by
      rw [rotateProvider, rewrites]
      by_cases hpg : isPg p.apiKey = true
      · obtain ⟨q, hq, -⟩ := h p (List.mem_cons_self ..) hpg
        rcases rotateRef_cases g oldMaster newMaster (n.provider i) hpg hq with
          ⟨new, hnew, hle, -⟩ | ⟨hnone, hlt⟩
        · simp [hpg, hnew, hle]
        · simp [hpg, hnone, hlt]
      · simp [hpg]
    rw [providerUpdates, List.countP_cons, ← hsome]
    cases rotateProvider g oldMaster newMaster n i p with
    | none => simpa using hrest
    | some new => simpa using hrest

theorem storeUpdates_length (n : Nonces) {t : Store R} (h : StoreReadable g oldMaster t) :
    (storeUpdates g oldMaster newMaster n t).length = touchedRows t := by
  rw [storeUpdates, List.length_append, modelUpdates_length g oldMaster newMaster n 0 h.1,
    providerUpdates_length g oldMaster newMaster n 0 h.2, touchedRows]

/-- The statements of the second pass that have to succeed. -/
def AllDone (t : Store R) (o : RotateOutcomes) : Prop :=
  o.begin = .done ∧ (∀ j < touchedRows t, o.update j = .done) ∧ o.commit = .done

/-- The second pass: it writes every row or leaves the store as it is. -/
theorem rotateChecked_cases (n : Nonces) {t : Store R} (h : StoreReadable g oldMaster t)
    (o : RotateOutcomes) :
    (AllDone t o ∧ (rotateChecked g oldMaster newMaster n t o).2 = 0 ∧
      (rotateChecked g oldMaster newMaster n t o).1.durable =
        rotatedStore g oldMaster newMaster n t) ∨
    (¬ AllDone t o ∧ (rotateChecked g oldMaster newMaster n t o).2 = -1 ∧
      (rotateChecked g oldMaster newMaster n t o).1.durable = t) := by
  have hlen := storeUpdates_length g oldMaster newMaster n h
  have hbegin := exec_begin_idle (s := (⟨t, .idle⟩ : Session (Store R))) rfl o.begin
  unfold rotateChecked AllDone
  cases hb : o.begin with
  | done =>
    have hok : (Session.exec (⟨t, .idle⟩ : Session (Store R)) .begin .done).2 = true := rfl
    rw [hb] at hbegin
    simp only [hok, if_true, hbegin, true_and]
    rcases execAll_opened (s := (⟨t, .opened t⟩ : Session (Store R))) rfl o.update 0
      (storeUpdates g oldMaster newMaster n t) with ⟨hall, hrun⟩ | ⟨⟨j, hj, hne⟩, hf, hd⟩
    · simp only [Nat.zero_add, hlen] at hall
      simp only [hrun, if_true]
      cases hc : o.commit with
      | done => exact Or.inl ⟨⟨hall, rfl⟩, rfl, rfl⟩
      | refused => exact Or.inr ⟨by simp, rfl, exec_rollback_durable _ _⟩
      | lost executed =>
        cases executed with
        | true => exact absurd hc o.atomic
        | false => exact Or.inr ⟨by simp, rfl, exec_rollback_durable _ _⟩
    · right
      rw [Nat.zero_add] at hne
      rw [hlen] at hj
      simp only [hf, Bool.false_eq_true, if_false]
      exact ⟨fun hall => hne (hall.1 j hj), trivial, by rw [exec_rollback_durable, hd]⟩
  | refused => exact Or.inr ⟨by simp, rfl, rfl⟩
  | lost executed => cases executed <;> exact Or.inr ⟨by simp, rfl, rfl⟩

/-- When a rotation is all or nothing: it stops before it commits, or every row survives. -/
def RotateFine (t : Store R) (o : RotateOutcomes) : Prop :=
  o.connected = false ∨ o.read = false ∨ ¬ StoreReadable g oldMaster t ∨ ¬ AllDone t o ∨
    StoreFine g oldMaster newMaster t

theorem rotateMasterKey_allOrNothing (first second : Nonces) (t : Store R) (o : RotateOutcomes) :
    AllOrNothing g oldMaster newMaster t
        (rotateMasterKey g oldMaster newMaster first second t o) ↔
      RotateFine g oldMaster newMaster t o := by
  have hstop : AllOrNothing g oldMaster newMaster t (t, -1) := Or.inr ⟨rfl, rfl⟩
  have hcheck := checkStore_iff g oldMaster newMaster first t
  unfold rotateMasterKey RotateFine
  by_cases hgo : (o.connected && o.read && checkStore g oldMaster newMaster first t) = true
  · simp only [Bool.and_eq_true, hcheck] at hgo
    obtain ⟨⟨hconn, hread⟩, hreadable⟩ := hgo
    simp only [hconn, hread, hcheck.mpr hreadable, Bool.and_self, if_true, hreadable, not_true,
      false_or, reduceCtorEq]
    rcases rotateChecked_cases g oldMaster newMaster second hreadable o with
      ⟨hall, hrc, hdur⟩ | ⟨hnot, hrc, hdur⟩
    · rw [AllOrNothing, hrc, hdur, storeRotated_iff g oldMaster newMaster second hreadable]
      simp [hall]
    · rw [hrc, hdur]
      exact iff_of_true hstop (Or.inl hnot)
  · rw [if_neg hgo]
    refine iff_of_true hstop ?_
    simp only [Bool.and_eq_true, hcheck, not_and] at hgo
    by_cases hconn : o.connected = true
    · by_cases hread : o.read = true
      · exact Or.inr (Or.inr (Or.inl (hgo ⟨hconn, hread⟩)))
      · exact Or.inr (Or.inl (by simpa using hread))
    · exact Or.inl (by simpa using hconn)

end Rotation

end Aigate.KeyRotationPq
