import Aigate.LruMap

/-!
# The LRU map is the bounded map that it is meant to be

The nodes in the order of the recency list are one chain in each direction, and each bucket is a
chain of those among them whose key has its hash. Every operation keeps this, and does to the
entries what the bounded map does.
-/
namespace Aigate.LruMap
open Text PointerChains RecencyList

/-! ### The recency list -/

/-- The nodes are linked both ways. -/
structure Linked (s : Lru) (nodes : List ℕ) : Prop where
  forward : Chain s.next s.head nodes
  backward : Chain s.prev s.tail nodes.reverse

/-- Only the recency list is another one. -/
def SameButList (s s' : Lru) : Prop :=
  s' = { s with next := s'.next, prev := s'.prev, head := s'.head, tail := s'.tail }

theorem recLinkHead_eq (s : Lru) (n : ℕ) : recLinkHead s n =
    { s with
      next := Function.update s.next n s.head
      prev := match s.head with
        | some a => Function.update (Function.update s.prev n none) a (some n)
        | none => Function.update s.prev n none
      head := some n
      tail := some (s.tail.getD n) } := by
  cases hhead : s.head <;> cases htail : s.tail <;> simp [recLinkHead, hhead, htail]

theorem recUnlink_eq {s : Lru} {n : ℕ} (hprev : s.prev n ≠ some n) : recUnlink s n =
    { s with
      next := match s.prev n with
        | some p => Function.update (Function.update s.next p (s.next n)) n none
        | none => Function.update s.next n none
      prev := match s.next n with
        | some q => Function.update (Function.update s.prev q (s.prev n)) n none
        | none => Function.update s.prev n none
      head := match s.prev n with
        | some _ => s.head
        | none => s.next n
      tail := match s.next n with
        | some _ => s.tail
        | none => s.prev n } := by
  unfold recUnlink
  cases hp : s.prev n with
  | none => cases hq : s.next n <;> simp [hp, hq]
  | some p =>
    have hne : n ≠ p := fun he => hprev (hp.trans (congrArg some he.symm))
    cases hq : s.next n <;> simp [hp, hq, Function.update_of_ne hne]

theorem recLinkHead_linked {s : Lru} {nodes : List ℕ} (h : Linked s nodes) (hnodup : nodes.Nodup)
    {n : ℕ} (hn : n ∉ nodes) : Linked (recLinkHead s n) (n :: nodes) := by
  have hforward := h.forward.cons hn
  have hback := h.backward.snoc (List.nodup_reverse.mpr hnodup) (mt List.mem_reverse.mp hn)
  rw [List.getLast?_reverse, ← h.forward.head?] at hback
  have htail := h.backward.head?
  rw [recLinkHead_eq]
  refine ⟨hforward, ?_⟩
  rw [List.reverse_cons]
  cases hhead : s.head with
  | none =>
    have hnil : nodes = [] := List.head?_eq_none_iff.mp (h.forward.head?.symm.trans hhead)
    rw [hnil] at htail
    rw [hhead] at hback
    simp only [htail]
    exact hback
  | some a =>
    rw [hhead] at hback
    have hne : nodes ≠ [] := by
      rintro rfl
      exact nomatch hhead.symm.trans h.forward.head?
    obtain ⟨b, hb⟩ := List.getLast?_isSome.mpr hne |> Option.isSome_iff_exists.mp
    rw [List.head?_reverse, hb] at htail
    simp only [htail, Option.getD_some]
    rw [htail] at hback
    exact hback

theorem recUnlink_linked {s : Lru} {before behind : List ℕ} {n : ℕ}
    (h : Linked s (before ++ n :: behind)) (hnodup : (before ++ n :: behind).Nodup) :
    Linked (recUnlink s n) (before ++ behind) := by
  have hreverse : (before ++ n :: behind).reverse = behind.reverse ++ n :: before.reverse := by simp
  have hbackward := h.backward
  rw [hreverse] at hbackward
  have hbackNodup : (behind.reverse ++ n :: before.reverse).Nodup :=
    hreverse ▸ List.nodup_reverse.mpr hnodup
  have hnext : s.next n = behind.head? := h.forward.link_eq
  have hprev : s.prev n = before.getLast? := by
    rw [hbackward.link_eq, List.head?_reverse]
  have hout : n ∉ before ++ behind := (List.nodup_middle.mp hnodup).notMem
  have houtReverse : n ∉ (before ++ behind).reverse := mt List.mem_reverse.mp hout
  have hne : s.prev n ≠ some n := by
    rw [hprev]
    exact fun he => hout (List.mem_append_left _ (List.mem_of_getLast? he))
  have hforward := h.forward.unlink hnodup
  have hback := hbackward.unlink hbackNodup
  rw [List.getLast?_reverse, ← hnext, ← List.reverse_append] at hback
  rw [← hprev] at hforward
  rw [recUnlink_eq hne]
  constructor
  · cases hp : s.prev n with
    | none =>
      rw [hp] at hforward
      exact hforward.update hout none
    | some p =>
      rw [hp] at hforward
      exact hforward.update hout none
  · cases hq : s.next n with
    | none =>
      rw [hq] at hback
      exact hback.update houtReverse none
    | some q =>
      rw [hq] at hback
      exact hback.update houtReverse none

theorem sameButList_recLinkHead (s : Lru) (n : ℕ) : SameButList s (recLinkHead s n) := by
  rw [recLinkHead_eq]
  rfl

theorem sameButList_recUnlink (s : Lru) (n : ℕ) : SameButList s (recUnlink s n) := by
  unfold SameButList recUnlink
  cases s.prev n with
  | none => dsimp only; cases s.next n <;> rfl
  | some p => dsimp only; split <;> rfl

theorem SameButList.trans {s s' s'' : Lru} (h : SameButList s s') (h' : SameButList s' s'') :
    SameButList s s'' := by
  unfold SameButList at *
  rw [h', h]

/-- The node that is used comes to the front. -/
theorem recMoveToHead_linked {s : Lru} {before behind : List ℕ} {n : ℕ}
    (h : Linked s (before ++ n :: behind)) (hnodup : (before ++ n :: behind).Nodup) :
    Linked (recMoveToHead s n) (n :: (before ++ behind)) := by
  obtain ⟨hout, hrest⟩ := List.nodup_cons.mp (List.nodup_middle.mp hnodup)
  unfold recMoveToHead
  split
  · rename_i hhead
    have hfirst := h.forward.head?.symm.trans hhead
    cases before with
    | nil => exact h
    | cons b before =>
      obtain rfl : b = n := Option.some.inj hfirst
      exact absurd (List.mem_append_left behind List.mem_cons_self) hout
  · exact recLinkHead_linked (recUnlink_linked h hnodup) hrest hout

theorem sameButList_recMoveToHead (s : Lru) (n : ℕ) : SameButList s (recMoveToHead s n) := by
  unfold recMoveToHead
  split
  · rfl
  · exact (sameButList_recUnlink s n).trans (sameButList_recLinkHead _ n)

/-! ### The table -/

/-- Each bucket is a chain of the nodes with its hash. -/
def Bucketed (s : Lru) (nodes : List ℕ) : Prop :=
  ∀ i, ∃ bucket, Chain s.nextBkt (s.table i) bucket ∧ bucket.Nodup ∧
    ∀ a, a ∈ bucket ↔ a ∈ nodes ∧ s.h a = i

theorem bktInsert_bucketed {s : Lru} {nodes : List ℕ} (h : Bucketed s nodes) {n : ℕ}
    (hn : n ∉ nodes) : Bucketed (bktInsert s n) (n :: nodes) := by
  intro i
  obtain ⟨bucket, hchain, hnodup, hmem⟩ := h i
  have hout : n ∉ bucket := fun hb => hn ((hmem n).mp hb).1
  have hsame : ∀ a ∈ nodes, Function.update s.h n (fnv1a (s.key n) s.tableCap) a = s.h a :=
    fun a ha => Function.update_of_ne (ne_of_mem_of_not_mem ha hn) _ _
  unfold bktInsert
  dsimp only
  by_cases hi : i = fnv1a (s.key n) s.tableCap
  · subst hi
    refine ⟨n :: bucket, ?_, List.nodup_cons.mpr ⟨hout, hnodup⟩, fun a => ?_⟩
    · rw [Function.update_self]
      exact hchain.cons hout
    · rw [List.mem_cons, List.mem_cons, hmem]
      by_cases ha : a = n
      · subst ha
        exact iff_of_true (Or.inl rfl) ⟨Or.inl rfl, Function.update_self _ _ _⟩
      · rw [Function.update_of_ne ha]
        simp [ha]
  · refine ⟨bucket, ?_, hnodup, fun a => ?_⟩
    · rw [Function.update_of_ne hi]
      exact hchain.update hout _
    · rw [hmem, List.mem_cons]
      by_cases ha : a = n
      · subst ha
        rw [Function.update_self]
        exact iff_of_false (fun hb => hn hb.1) fun hb => hi hb.2.symm
      · rw [Function.update_of_ne ha]
        simp [ha]

/-- The node is found in its bucket and taken out. -/
theorem bktRemove_bucketed {s : Lru} {nodes rest : List ℕ} (h : Bucketed s nodes)
    (hcount : nodes.length ≤ s.count) {n : ℕ} (hn : n ∈ nodes)
    (hrest : ∀ a, a ∈ rest ↔ a ∈ nodes ∧ a ≠ n) :
    ∃ table nextBkt, bktRemove s n = some { s with table := table, nextBkt := nextBkt } ∧
      Bucketed { s with table := table, nextBkt := nextBkt } rest := by
  obtain ⟨bucket, hchain, hbucket, hmem⟩ := h (s.h n)
  obtain ⟨before, behind, rfl⟩ := List.append_of_mem ((hmem n).mpr ⟨hn, rfl⟩)
  obtain ⟨hout, hothers⟩ := List.nodup_cons.mp (List.nodup_middle.mp hbucket)
  have hunlink := hchain.unlink hbucket
  -- what is left of the bucket has the other nodes with that hash
  have hleft : ∀ a, a ∈ before ++ behind ↔ a ∈ rest ∧ s.h a = s.h n := by
    intro a
    rw [hrest, and_right_comm, ← hmem a]
    constructor
    · intro ha
      refine ⟨?_, ne_of_mem_of_not_mem ha hout⟩
      exact List.mem_append.mpr ((List.mem_append.mp ha).imp_right (List.mem_cons_of_mem n))
    · rintro ⟨ha, hne⟩
      rcases List.mem_append.mp ha with ha | ha
      · exact List.mem_append_left _ ha
      · exact List.mem_append_right _ ((List.mem_cons.mp ha).resolve_left hne)
  have hother : ∀ i, i ≠ s.h n → ∃ bucket, Chain s.nextBkt (s.table i) bucket ∧ bucket.Nodup ∧
      (∀ a, a ∈ bucket ↔ a ∈ rest ∧ s.h a = i) ∧ ∀ a, s.h a = s.h n → a ∉ bucket := by
    intro i hi
    obtain ⟨other, hotherChain, hotherNodup, hotherMem⟩ := h i
    refine ⟨other, hotherChain, hotherNodup, fun a => ?_, fun a ha hb => ?_⟩
    · rw [hotherMem, hrest]
      constructor
      · rintro ⟨ha, hai⟩
        exact ⟨⟨ha, fun he => hi (hai.symm.trans (congrArg s.h he))⟩, hai⟩
      · rintro ⟨⟨ha, -⟩, hai⟩
        exact ⟨ha, hai⟩
    · exact hi (((hotherMem a).mp hb).2.symm.trans ha)
  unfold bktRemove
  dsimp only
  split
  · rename_i hfirst
    have hbefore : before = [] := by
      cases before with
      | nil => rfl
      | cons b before =>
        obtain rfl : b = n := Option.some.inj (hchain.1.symm.trans hfirst)
        exact absurd (List.mem_append_left behind List.mem_cons_self) hout
    subst hbefore
    refine ⟨_, _, rfl, fun i => ?_⟩
    by_cases hi : i = s.h n
    · subst hi
      refine ⟨[] ++ behind, ?_, hothers, hleft⟩
      dsimp only
      rw [Function.update_self]
      exact hunlink.update hout none
    · obtain ⟨other, hotherChain, hotherNodup, hotherMem, hfree⟩ := hother i hi
      refine ⟨other, ?_, hotherNodup, hotherMem⟩
      dsimp only
      rw [Function.update_of_ne hi]
      exact hotherChain.update (hfree n rfl) none
  · rename_i hfirst
    obtain ⟨b, hlast⟩ : ∃ b, before.getLast? = some b := by
      cases before with
      | nil => exact absurd hchain.1 hfirst
      | cons c before => exact Option.isSome_iff_exists.mp (List.getLast?_isSome.mpr nofun)
    have hlength : (before ++ n :: behind).length ≤ s.count := by
      refine le_trans ?_ hcount
      exact (hbucket.subperm fun a ha => ((hmem a).mp ha).1).length_le
    have hfind := hchain.find?_link hbucket hlast (fun a => s.nextBkt a = some n)
      fun _ => decide_eq_true_iff
    rw [hchain.walk_eq _ hlength, hfind]
    refine ⟨_, _, rfl, fun i => ?_⟩
    rw [hlast] at hunlink
    by_cases hi : i = s.h n
    · subst hi
      exact ⟨before ++ behind, hunlink.update hout none, hothers, hleft⟩
    · obtain ⟨other, hotherChain, hotherNodup, hotherMem, hfree⟩ := hother i hi
      have hb : s.h b = s.h n :=
        ((hmem b).mp (List.mem_append_left _ (List.mem_of_getLast? hlast))).2
      exact ⟨other, (hotherChain.update (hfree b hb) _).update (hfree n rfl) none, hotherNodup,
        hotherMem⟩

/-! ### Both structures together -/

/-- The nodes, in the order of the recency list, are those in the table. They are allocated, have
distinct keys, and are as many as are counted. -/
structure Rep (s : Lru) (nodes : List ℕ) : Prop where
  linked : Linked s nodes
  bucketed : Bucketed s nodes
  nodup : nodes.Nodup
  hashed : ∀ a ∈ nodes, s.h a = fnv1a (s.key a) s.tableCap
  distinct : (nodes.map s.key).Nodup
  counted : s.count = nodes.length
  live : ∀ a ∈ nodes, a ∈ s.live
  buckets : 0 < s.tableCap

/-- What is stored in the nodes. -/
def entries (s : Lru) (nodes : List ℕ) : List (Bytes × Ptr) := nodes.map fun a => (s.key a, s.val a)

theorem lookup_entries (s : Lru) (nodes : List ℕ) (k : Bytes) :
    lookup (entries s nodes) k = (nodes.find? fun a => s.key a = k).map s.val := by
  unfold lookup entries
  rw [List.find?_map, Option.map_map]
  rfl

/-- The table finds the node that the list has. -/
theorem Rep.findNode_eq {s : Lru} {nodes : List ℕ} (h : Rep s nodes) (k : Bytes) :
    findNode s k = some (nodes.find? fun a => s.key a = k) := by
  obtain ⟨bucket, hchain, hnodup, hmem⟩ := h.bucketed (fnv1a k s.tableCap)
  have hlength : bucket.length ≤ s.count := by
    rw [h.counted]
    exact (hnodup.subperm fun a ha => ((hmem a).mp ha).1).length_le
  unfold findNode
  rw [if_neg h.buckets.ne', hchain.walk_eq _ hlength]
  congr 1
  cases hfind : nodes.find? fun a => s.key a = k with
  | none =>
    rw [List.find?_eq_none] at hfind ⊢
    exact fun a ha => hfind a ((hmem a).mp ha).1
  | some n =>
    have hn := List.mem_of_find?_eq_some hfind
    have hk : s.key n = k := by simpa using List.find?_some hfind
    have hin : n ∈ bucket := (hmem n).mpr ⟨hn, by rw [h.hashed n hn, hk]⟩
    -- another node of the bucket with the key would be this one
    cases hother : bucket.find? fun a => s.key a = k with
    | none => exact absurd (decide_eq_true hk) (List.find?_eq_none.mp hother n hin)
    | some b =>
      have hb := ((hmem b).mp (List.mem_of_find?_eq_some hother)).1
      have hkb : s.key b = k := by simpa using List.find?_some hother
      rw [List.inj_on_of_nodup_map h.distinct hb hn (hkb.trans hk.symm)]

/-- Where the node of a key is, and what is left without it. -/
theorem Rep.split {s : Lru} {nodes : List ℕ} (h : Rep s nodes) {k : Bytes} {n : ℕ}
    (hfind : (nodes.find? fun a => s.key a = k) = some n) : ∃ before behind,
      nodes = before ++ n :: behind ∧ s.key n = k ∧
        without (entries s nodes) k = entries s (before ++ behind) := by
  have hk : s.key n = k := by simpa using List.find?_some hfind
  obtain ⟨before, behind, rfl⟩ := List.append_of_mem (List.mem_of_find?_eq_some hfind)
  refine ⟨before, behind, rfl, hk, ?_⟩
  have hdistinct := h.distinct
  rw [List.map_append, List.map_cons, List.nodup_middle, ← List.map_append] at hdistinct
  have hothers : ∀ a ∈ before ++ behind, s.key a ≠ k := fun a ha he =>
    (List.nodup_cons.mp hdistinct).1 (List.mem_map.mpr ⟨a, ha, he.trans hk.symm⟩)
  have hkept : ∀ l : List ℕ, (∀ a ∈ l, s.key a ≠ k) → without (entries s l) k = entries s l := by
    intro l hl
    refine without_of_lookup_none (lookup_none.mpr fun e he => ?_)
    obtain ⟨a, ha, rfl⟩ := List.mem_map.mp he
    exact hl a ha
  have hsplit : entries s (before ++ n :: behind) =
      entries s before ++ (k, s.val n) :: entries s behind := by
    unfold entries
    rw [List.map_append, List.map_cons, hk]
  have hjoin : entries s (before ++ behind) = entries s before ++ entries s behind :=
    List.map_append
  rw [hsplit, hjoin, ← hkept before fun a ha => hothers a (List.mem_append_left _ ha),
    ← hkept behind fun a ha => hothers a (List.mem_append_right _ ha)]
  unfold without
  rw [List.filter_append, List.filter_cons, if_neg (by simp)]
  simp only [List.filter_filter, Bool.and_self]

/-- Another order of the recency list, and perhaps another value, with the table as it was. -/
theorem Rep.reorder {s s' : Lru} {nodes nodes' : List ℕ} (h : Rep s nodes)
    (hs : SameButList s s') (hlinked : Linked s' nodes') (hperm : nodes.Perm nodes') :
    Rep s' nodes' := by
  unfold SameButList at hs
  have hmem : ∀ a, a ∈ nodes' ↔ a ∈ nodes := fun a => hperm.mem_iff.symm
  refine ⟨hlinked, fun i => ?_, hperm.nodup_iff.mp h.nodup, fun a ha => ?_, ?_, ?_, fun a ha => ?_,
    ?_⟩
  · obtain ⟨bucket, hchain, hnodup, hb⟩ := h.bucketed i
    rw [hs]
    exact ⟨bucket, hchain, hnodup, fun a => by rw [hb, hmem]⟩
  · rw [hs]
    exact h.hashed a ((hmem a).mp ha)
  · rw [hs]
    exact (hperm.map s.key).nodup_iff.mp h.distinct
  · rw [hs, ← hperm.length_eq]
    exact h.counted
  · rw [hs]
    exact h.live a ((hmem a).mp ha)
  · rw [hs]
    exact h.buckets

/-! ### Every operation -/

/-- What is stored, and what the map was made with, has not changed. -/
structure SameStore (s s' : Lru) : Prop where
  key : s'.key = s.key
  val : s'.val = s.val
  capacity : s'.capacity = s.capacity
  onEvict : s'.onEvict = s.onEvict

theorem SameStore.entries_eq {s s' : Lru} (h : SameStore s s') (nodes : List ℕ) :
    entries s' nodes = entries s nodes := by
  unfold entries
  rw [h.key, h.val]

theorem SameButList.sameStore {s s' : Lru} (h : SameButList s s') : SameStore s s' := by
  unfold SameButList at h
  constructor <;> rw [h]

theorem SameButList.evicted_eq {s s' : Lru} (h : SameButList s s') : s'.evicted = s.evicted := by
  unfold SameButList at h
  rw [h]

/-- What the callback is given. -/
def given (s : Lru) (values : List Ptr) : List Ptr := if s.onEvict then values else []

theorem handOver_evicted (s : Lru) (v : Ptr) :
    (handOver s v).evicted = s.evicted ++ given s [v] := by
  unfold handOver given
  split
  · rfl
  · exact (List.append_nil _).symm

theorem handOver_live (s : Lru) (v : Ptr) : (handOver s v).live = s.live := by
  unfold handOver
  split <;> rfl

theorem sameStore_handOver (s : Lru) (v : Ptr) : SameStore s (handOver s v) := by
  unfold handOver
  split <;> exact ⟨rfl, rfl, rfl, rfl⟩

theorem Rep.handOver {s : Lru} {nodes : List ℕ} (h : Rep s nodes) (v : Ptr) :
    Rep (handOver s v) nodes := by
  unfold LruMap.handOver
  split
  · exact ⟨⟨h.linked.forward, h.linked.backward⟩, h.bucketed, h.nodup, h.hashed, h.distinct,
      h.counted, h.live, h.buckets⟩
  · exact h

/-- A node that is used comes to the front of both the nodes and the entries. -/
theorem Rep.moveToHead {s : Lru} {before behind : List ℕ} {n : ℕ}
    (h : Rep s (before ++ n :: behind)) : Rep (recMoveToHead s n) (n :: (before ++ behind)) :=
  h.reorder (sameButList_recMoveToHead s n) (recMoveToHead_linked h.linked h.nodup)
    List.perm_middle

/-- Everything of a node is taken out of the map. -/
theorem Rep.drop {s : Lru} {before behind : List ℕ} {n : ℕ} (h : Rep s (before ++ n :: behind)) :
    ∃ s', dropNode s n = some s' ∧ Rep s' (before ++ behind) ∧ SameStore s s' ∧
      s'.evicted = s.evicted ++ given s [s.val n] ∧ s'.live = s.live.filter (· ≠ n) := by
  have hn : n ∈ before ++ n :: behind := List.mem_append_right _ List.mem_cons_self
  obtain ⟨hout, hrest⟩ := List.nodup_cons.mp (List.nodup_middle.mp h.nodup)
  have hmem : ∀ a, a ∈ before ++ behind ↔ a ∈ before ++ n :: behind ∧ a ≠ n := by
    intro a
    constructor
    · intro ha
      refine ⟨?_, ne_of_mem_of_not_mem ha hout⟩
      exact List.mem_append.mpr ((List.mem_append.mp ha).imp_right (List.mem_cons_of_mem n))
    · rintro ⟨ha, hne⟩
      rcases List.mem_append.mp ha with ha | ha
      · exact List.mem_append_left _ ha
      · exact List.mem_append_right _ ((List.mem_cons.mp ha).resolve_left hne)
  have hsame := sameButList_recUnlink s n
  have hlinked := recUnlink_linked h.linked h.nodup
  unfold SameButList at hsame
  have hbucketed : Bucketed (recUnlink s n) (before ++ n :: behind) := by
    rw [hsame]
    exact h.bucketed
  have hlength : (before ++ n :: behind).length ≤ (recUnlink s n).count := by
    rw [hsame]
    exact h.counted.ge
  obtain ⟨table, nextBkt, hremove, hafter⟩ := bktRemove_bucketed hbucketed hlength hn hmem
  have hdrop : dropNode s n = some (LruMap.handOver
      { destroyNode { recUnlink s n with table := table, nextBkt := nextBkt } n with
        count := (recUnlink s n).count - 1 } (s.val n)) := by
    unfold dropNode
    rw [hremove, hsame]
    rfl
  refine ⟨_, hdrop, Rep.handOver ?_ _, ?_, ?_, ?_⟩
  · have hsub : (before ++ behind).Sublist (before ++ n :: behind) :=
      (List.sublist_cons_self n behind).append_left before
    refine ⟨⟨hlinked.forward, hlinked.backward⟩, hafter, hrest, fun a ha => ?_, ?_, ?_,
      fun a ha => ?_, ?_⟩
    · have := h.hashed a (hsub.subset ha)
      unfold destroyNode
      rw [hsame]
      exact this
    · unfold destroyNode
      rw [hsame]
      exact h.distinct.sublist (hsub.map s.key)
    · have hcounted := h.counted
      rw [hsame]
      dsimp only
      rw [hcounted]
      simp only [List.length_append, List.length_cons]
      omega
    · unfold destroyNode
      rw [hsame]
      exact List.mem_filter.mpr ⟨h.live a (hsub.subset ha),
        decide_eq_true (ne_of_mem_of_not_mem ha hout)⟩
    · unfold destroyNode
      rw [hsame]
      exact h.buckets
  · have hstore := sameStore_handOver
      { destroyNode { recUnlink s n with table := table, nextBkt := nextBkt } n with
        count := (recUnlink s n).count - 1 } (s.val n)
    rw [hsame] at hstore ⊢
    exact ⟨hstore.key, hstore.val, hstore.capacity, hstore.onEvict⟩
  · rw [handOver_evicted, hsame]
    rfl
  · rw [handOver_live, hsame]
    rfl

theorem Rep.get {s : Lru} {nodes : List ℕ} (h : Rep s nodes) (k : Bytes) (given : List Ptr) :
    ∃ s' nodes', lruGet s k = some (s', (lookup (entries s nodes) k).getD 0) ∧ Rep s' nodes' ∧
      entries s' nodes' = (Cache.get ⟨entries s nodes, given⟩ k).entries ∧ SameButList s s' := by
  unfold lruGet Cache.get
  rw [h.findNode_eq, lookup_entries]
  cases hfind : nodes.find? fun a => s.key a = k with
  | none => exact ⟨s, nodes, rfl, h, rfl, rfl⟩
  | some n =>
    obtain ⟨before, behind, rfl, hk, hwithout⟩ := h.split hfind
    have hsame := sameButList_recMoveToHead s n
    refine ⟨_, _, rfl, h.moveToHead, ?_, hsame⟩
    rw [hsame.sameStore.entries_eq]
    dsimp only [Option.map_some]
    rw [hwithout, ← hk]
    rfl

theorem Rep.invalidate {s : Lru} {nodes : List ℕ} (h : Rep s nodes) (k : Bytes)
    (given' : List Ptr) : ∃ s' nodes', lruInvalidate s k =
        some (s', (lookup (entries s nodes) k).isSome) ∧ Rep s' nodes' ∧
      entries s' nodes' = (Cache.remove ⟨entries s nodes, given'⟩ k).entries ∧
      s'.capacity = s.capacity ∧ s'.onEvict = s.onEvict ∧
      s'.evicted = s.evicted ++ given s (lookup (entries s nodes) k).toList := by
  unfold lruInvalidate Cache.remove
  rw [h.findNode_eq, lookup_entries]
  cases hfind : nodes.find? fun a => s.key a = k with
  | none =>
    refine ⟨s, nodes, rfl, h, rfl, rfl, rfl, ?_⟩
    simp [given]
  | some n =>
    obtain ⟨before, behind, rfl, -, hwithout⟩ := h.split hfind
    obtain ⟨s', hdrop, hrep, hstore, hevicted, -⟩ := h.drop
    refine ⟨s', before ++ behind, ?_, hrep, ?_, hstore.capacity, hstore.onEvict, hevicted⟩
    · simp [hdrop]
    · rw [hstore.entries_eq]
      exact hwithout.symm

/-- The map with a node that is allocated and written, and in neither structure yet. -/
def allocate (s : Lru) (n : ℕ) (k : Bytes) (v : Ptr) : Lru :=
  { s with
    live := n :: s.live
    key := Function.update s.key n k
    val := Function.update s.val n v
    prev := Function.update s.prev n none
    next := Function.update s.next n none
    nextBkt := Function.update s.nextBkt n none }

theorem entries_update {s : Lru} {nodes : List ℕ} {n : ℕ} (hn : n ∉ nodes) {s' : Lru}
    (hkey : ∀ a, a ≠ n → s'.key a = s.key a) (hval : ∀ a, a ≠ n → s'.val a = s.val a) :
    entries s' nodes = entries s nodes := by
  refine List.map_congr_left fun a ha => ?_
  have hne := ne_of_mem_of_not_mem ha hn
  rw [hkey a hne, hval a hne]

theorem Rep.allocate {s : Lru} {nodes : List ℕ} (h : Rep s nodes) {n : ℕ} (hn : n ∉ nodes)
    (k : Bytes) (v : Ptr) : Rep (allocate s n k v) nodes := by
  have hkey : ∀ a ∈ nodes, Function.update s.key n k a = s.key a := fun a ha =>
    Function.update_of_ne (ne_of_mem_of_not_mem ha hn) _ _
  refine ⟨⟨h.linked.forward.update hn none, ?_⟩, fun i => ?_, h.nodup, fun a ha => ?_, ?_,
    h.counted, fun a ha => List.mem_cons_of_mem n (h.live a ha), h.buckets⟩
  · exact h.linked.backward.update (mt List.mem_reverse.mp hn) none
  · obtain ⟨bucket, hchain, hnodup, hmem⟩ := h.bucketed i
    exact ⟨bucket, hchain.update (fun hb => hn ((hmem n).mp hb).1) none, hnodup, hmem⟩
  · have hold := h.hashed a ha
    unfold LruMap.allocate
    dsimp only
    rw [hkey a ha]
    exact hold
  · have hsame : nodes.map (Function.update s.key n k) = nodes.map s.key :=
      List.map_congr_left hkey
    unfold LruMap.allocate
    dsimp only
    rw [hsame]
    exact h.distinct

/-- The victim is the last node. -/
theorem Rep.makeRoom {s : Lru} {nodes : List ℕ} (h : Rep s nodes) (hcap : 0 < s.capacity) :
    ∃ s' nodes', makeRoom s = some s' ∧ Rep s' nodes' ∧ SameStore s s' ∧ nodes'.Sublist nodes ∧
      (∀ a ∈ s.live, a ∉ nodes → a ∈ s'.live) ∧
      entries s' nodes' = (if (entries s nodes).length = s.capacity
        then (entries s nodes).dropLast else entries s nodes) ∧
      s'.evicted = s.evicted ++ given s (if (entries s nodes).length = s.capacity
        then ((entries s nodes).getLast?.map (·.2)).toList else []) := by
  have hlength : (entries s nodes).length = nodes.length := List.length_map _
  unfold LruMap.makeRoom
  rw [hlength, h.counted]
  split
  · rename_i hfull
    have hne : nodes ≠ [] := by
      rintro rfl
      exact hcap.ne hfull
    obtain ⟨front, last, rfl⟩ : ∃ front last, nodes = front ++ [last] :=
      ⟨nodes.dropLast, nodes.getLast hne, (List.dropLast_append_getLast hne).symm⟩
    have htail : s.tail = some last := by
      rw [h.linked.backward.head?]
      simp
    have hlast : Rep s (front ++ last :: []) := h
    obtain ⟨s', hdrop, hrep, hstore, hevicted, hlive⟩ := hlast.drop
    rw [List.append_nil] at hrep
    refine ⟨s', front, ?_, hrep, hstore, List.sublist_append_left _ _, fun a ha hout => ?_, ?_, ?_⟩
    · rw [htail]
      exact hdrop
    · rw [hlive]
      refine List.mem_filter.mpr ⟨ha, decide_eq_true fun he => hout ?_⟩
      exact List.mem_append_right _ (List.mem_singleton.mpr he)
    · rw [hstore.entries_eq]
      unfold entries
      rw [List.map_append, List.map_singleton, List.dropLast_concat]
    · rw [hevicted]
      unfold entries
      rw [List.map_append, List.map_singleton, List.getLast?_concat]
      rfl
  · refine ⟨s, nodes, rfl, h, ⟨rfl, rfl, rfl, rfl⟩, List.Sublist.refl _, fun _ ha _ => ha, rfl, ?_⟩
    simp [given]

/-- A node with a new key is put into both structures. -/
theorem Rep.insert {s : Lru} {nodes : List ℕ} (h : Rep s nodes) {n : ℕ} (hn : n ∉ nodes)
    (hlive : n ∈ s.live) (hkey : s.key n ∉ nodes.map s.key) :
    Rep { bktInsert (recLinkHead s n) n with count := s.count + 1 } (n :: nodes) := by
  have hsame := sameButList_recLinkHead s n
  have hlinked := recLinkHead_linked h.linked h.nodup hn
  unfold SameButList at hsame
  have hbucketed : Bucketed (recLinkHead s n) nodes := by
    rw [hsame]
    exact h.bucketed
  refine ⟨⟨hlinked.forward, hlinked.backward⟩, bktInsert_bucketed hbucketed hn,
    List.nodup_cons.mpr ⟨hn, h.nodup⟩, fun a ha => ?_, ?_, ?_, fun a ha => ?_, ?_⟩
  · unfold bktInsert
    dsimp only
    rcases List.mem_cons.mp ha with rfl | ha
    · exact Function.update_self _ _ _
    · rw [Function.update_of_ne (ne_of_mem_of_not_mem ha hn), hsame]
      exact h.hashed a ha
  · unfold bktInsert
    rw [hsame]
    exact List.nodup_cons.mpr ⟨hkey, h.distinct⟩
  · exact congrArg (· + 1) h.counted
  · unfold bktInsert
    rw [hsame]
    rcases List.mem_cons.mp ha with rfl | ha
    · exact hlive
    · exact h.live a ha
  · unfold bktInsert
    rw [hsame]
    exact h.buckets

/-- What `put` is to do to the entries and to give up. -/
theorem Rep.put {s : Lru} {nodes : List ℕ} (h : Rep s nodes) (hcap : 0 < s.capacity)
    (m : Allocator) (k : Bytes) (v : Ptr) (old : List Ptr) : ∃ s' nodes' now,
      lruPut m s k v = some s' ∧ Rep s' nodes' ∧
      Cache.put s.capacity ⟨entries s nodes, old⟩ k v = ⟨entries s' nodes', old ++ now⟩ ∧
      s'.capacity = s.capacity ∧ s'.onEvict = s.onEvict ∧
      s'.evicted = s.evicted ++ given s now := by
  unfold lruPut Cache.put
  rw [h.findNode_eq, lookup_entries]
  cases hfind : nodes.find? fun a => s.key a = k with
  | some n =>
    obtain ⟨before, behind, rfl, hk, hwithout⟩ := h.split hfind
    have hout := (List.nodup_cons.mp (List.nodup_middle.mp h.nodup)).1
    set s₁ : Lru := { s with val := Function.update s.val n v }
    have hrep : Rep s₁ (before ++ n :: behind) :=
      ⟨⟨h.linked.forward, h.linked.backward⟩, h.bucketed, h.nodup, h.hashed, h.distinct, h.counted,
        h.live, h.buckets⟩
    have hmoved := sameButList_recMoveToHead s₁ n
    have hstore := sameStore_handOver (recMoveToHead s₁ n) (s.val n)
    refine ⟨_, n :: (before ++ behind), [s.val n], rfl, hrep.moveToHead.handOver _, ?_, ?_, ?_, ?_⟩
    · rw [hstore.entries_eq, hmoved.sameStore.entries_eq]
      dsimp only [Option.map_some]
      rw [hwithout]
      have hothers : entries s₁ (before ++ behind) = entries s (before ++ behind) :=
        entries_update hout (fun _ _ => rfl) fun _ ha => Function.update_of_ne ha _ _
      change _ =
        Cache.mk ((s.key n, Function.update s.val n v n) :: entries s₁ (before ++ behind)) _
      rw [hk, Function.update_self, hothers]
    · rw [hstore.capacity, hmoved.sameStore.capacity]
    · rw [hstore.onEvict, hmoved.sameStore.onEvict]
    · rw [handOver_evicted, hmoved.evicted_eq]
      unfold given
      rw [hmoved.sameStore.onEvict]
  | none =>
    have hnew : ∀ a ∈ nodes, s.key a ≠ k := fun a ha he =>
      List.find?_eq_none.mp hfind a ha (decide_eq_true he)
    set n := m.malloc s.live
    have hfresh : n ∉ nodes := fun hmem => m.fresh s.live (h.live n hmem)
    have hrep := h.allocate hfresh k v
    set s₀ := LruMap.allocate s n k v
    have hentries : entries s₀ nodes = entries s nodes :=
      entries_update hfresh (fun _ ha => Function.update_of_ne ha _ _)
        fun _ ha => Function.update_of_ne ha _ _
    have hkeyNew : s₀.key n = k := Function.update_self _ _ _
    have hvalNew : s₀.val n = v := Function.update_self _ _ _
    obtain ⟨s₁, nodes₁, hroom, hrep₁, hstore, hsub, hlive, hentries₁, hevicted⟩ :=
      hrep.makeRoom hcap
    rw [hentries] at hentries₁ hevicted
    have hfresh₁ : n ∉ nodes₁ := fun hmem => hfresh (hsub.subset hmem)
    have hkey₁ : s₁.key n ∉ nodes₁.map s₁.key := by
      rw [hstore.key, hkeyNew]
      intro hmem
      obtain ⟨a, ha, hak⟩ := List.mem_map.mp hmem
      have hne := ne_of_mem_of_not_mem ha hfresh₁
      exact hnew a (hsub.subset ha) ((Function.update_of_ne hne _ _).symm.trans hak)
    have hinserted := hrep₁.insert hfresh₁ (hlive n List.mem_cons_self hfresh) hkey₁
    have hsame := sameButList_recLinkHead s₁ n
    set s₂ : Lru := { bktInsert (recLinkHead s₁ n) n with count := s₁.count + 1 }
    have hstore₂ : SameStore s₁ s₂ :=
      ⟨hsame.sameStore.key, hsame.sameStore.val, hsame.sameStore.capacity, hsame.sameStore.onEvict⟩
    have hentries₂ : entries s₂ (n :: nodes₁) = (k, v) :: entries s₁ nodes₁ := by
      rw [hstore₂.entries_eq, ← hkeyNew, ← hvalNew, ← hstore.key, ← hstore.val]
      rfl
    have hcount₂ : (recLinkHead s₁ n).count = s₁.count := by
      unfold SameButList at hsame
      rw [hsame]
    refine ⟨s₂, n :: nodes₁, if (entries s nodes).length = s.capacity
      then ((entries s nodes).getLast?.map (·.2)).toList else [], ?_, hinserted, ?_,
      hstore₂.capacity.trans hstore.capacity, hstore₂.onEvict.trans hstore.onEvict, ?_⟩
    · rw [Option.bind_some]
      change (LruMap.makeRoom s₀).map _ = _
      rw [hroom, Option.map_some]
      change some { bktInsert (recLinkHead s₁ n) n with count := (recLinkHead s₁ n).count + 1 } = _
      rw [hcount₂]
    · rw [hentries₂, hentries₁]
      dsimp only [Option.map_none]
      have hcapacity : s₀.capacity = s.capacity := rfl
      rw [hcapacity]
      split
      · rfl
      · rw [List.append_nil]
    · exact hsame.evicted_eq.trans hevicted

/-! ### Every run -/

/-- The map stores the entries of the bounded map and has handed over what that gave up. -/
def Refines (cap : ℕ) (s : Lru) (c : Cache Bytes Ptr) : Prop :=
  s.capacity = cap ∧ s.evicted = given s c.evicted ∧
    ∃ nodes, Rep s nodes ∧ entries s nodes = c.entries

theorem nextPow2From_pos (n steps : ℕ) {p : ℕ} (hp : 0 < p) : 0 < nextPow2From n steps p := by
  induction steps generalizing p with
  | zero => exact hp
  | succ steps ih =>
    unfold nextPow2From
    split
    · exact ih (Nat.mul_pos Nat.two_pos hp)
    · exact hp

theorem refines_new (capacity : ℕ) (onEvict : Bool) :
    Refines (if capacity < 1 then 1 else capacity) (lruNew capacity onEvict) .empty := by
  refine ⟨rfl, ?_, [], ⟨⟨rfl, rfl⟩, fun i => ⟨[], rfl, List.nodup_nil, fun a => ?_⟩,
    List.nodup_nil, nofun, List.nodup_nil, rfl, nofun, nextPow2From_pos _ _ (by decide)⟩, rfl⟩
  · simp [given, lruNew, Cache.empty]
  · simp

/-- An operation does to the map what it does to the bounded map. -/
theorem Refines.step {cap : ℕ} (hcap : 0 < cap) {s : Lru} {c : Cache Bytes Ptr}
    (h : Refines cap s c) (m : Allocator) (op : Op Bytes Ptr) :
    ∃ s', step m s op = some s' ∧ Refines cap s' (c.step cap op) ∧ s'.onEvict = s.onEvict := by
  obtain ⟨rfl, hevicted, nodes, hrep, hentries⟩ := h
  obtain ⟨stored, gone⟩ := c
  dsimp only at hentries hevicted
  subst hentries
  have hgiven : ∀ now, given s (gone ++ now) = given s gone ++ given s now := by
    intro now
    unfold given
    split
    · rfl
    · rfl
  cases op with
  | put k v =>
    obtain ⟨s', nodes', now, hput, hrep', hcache, hcapacity, honEvict, hevicted'⟩ :=
      hrep.put hcap m k v gone
    refine ⟨s', hput, ⟨hcapacity, ?_, nodes', hrep', ?_⟩, honEvict⟩
    · rw [hevicted', hevicted, Cache.step, hcache, ← hgiven]
      unfold given
      rw [honEvict]
    · rw [Cache.step, hcache]
  | get k =>
    obtain ⟨s', nodes', hget, hrep', hentries', hsame⟩ := hrep.get k gone
    have hstore := hsame.sameStore
    have hcache : (Cache.get ⟨entries s nodes, gone⟩ k).evicted = gone := by
      unfold Cache.get
      split <;> rfl
    refine ⟨s', ?_, ⟨hstore.capacity, ?_, nodes', hrep', hentries'⟩, hstore.onEvict⟩
    · rw [LruMap.step, hget]
      rfl
    · rw [hsame.evicted_eq, hevicted, Cache.step, hcache]
      unfold given
      rw [hstore.onEvict]
  | remove k =>
    obtain ⟨s', nodes', hinvalidate, hrep', hentries', hcapacity, honEvict, hevicted'⟩ :=
      hrep.invalidate k gone
    have hcache : (Cache.remove ⟨entries s nodes, gone⟩ k).evicted =
        gone ++ (lookup (entries s nodes) k).toList := by
      unfold Cache.remove
      cases lookup (entries s nodes) k with
      | none => exact (List.append_nil _).symm
      | some v => rfl
    refine ⟨s', ?_, ⟨hcapacity, ?_, nodes', hrep', hentries'⟩, honEvict⟩
    · rw [LruMap.step, hinvalidate]
      rfl
    · rw [hevicted', hevicted, Cache.step, hcache, ← hgiven]
      unfold given
      rw [honEvict]

theorem refines_run (m : Allocator) (capacity : ℕ) (onEvict : Bool)
    (history : List (Op Bytes Ptr)) : ∃ s, run m (lruNew capacity onEvict) history = some s ∧
      s.onEvict = onEvict ∧ Refines (if capacity < 1 then 1 else capacity) s
        (after (if capacity < 1 then 1 else capacity) history) := by
  have hcap : 0 < if capacity < 1 then 1 else capacity := by split <;> omega
  induction history with
  | nil => exact ⟨_, rfl, rfl, refines_new capacity onEvict⟩
  | cons op history ih =>
    obtain ⟨s, hrun, honEvict, hrefines⟩ := ih
    obtain ⟨s', hstep, hrefines', hsame⟩ := hrefines.step hcap m op
    refine ⟨s', ?_, hsame.trans honEvict, hrefines'⟩
    rw [run, hrun]
    exact hstep

/-- The keys and values that the recency list leads through. -/
def recencyEntries (s : Lru) : Option (List (Bytes × Ptr)) :=
  (cells s.next s.count s.head).map (entries s)

/-- The list, the table and the count are of one map with distinct keys, within the capacity. It
is in the order of the last uses, and has the values that were put last. A new key in a full map
puts out the one that was used least recently. Every value is stored or was handed over once. -/
structure Agrees (m : Allocator) (history : List (Op Bytes Ptr)) (s : Lru)
    (l : List (Bytes × Ptr)) : Prop where
  list : recencyEntries s = some l
  table : ∀ k, (findNode s k).map (·.map s.val) = some (lookup l k)
  count : s.count = l.length
  bounded : l.length ≤ s.capacity
  distinct : (l.map (·.1)).Nodup
  ordered : l.Pairwise fun a b => age a.1 history < age b.1 history
  latest : ∀ e ∈ l, lastPut e.1 history = some e.2
  get : ∀ k, (lruGet s k).map (·.2) = some ((lookup l k).getD 0)
  evicts : ∀ k v, lookup l k = none → l.length = s.capacity → ∃ s' victim,
    l.getLast? = some victim ∧ lruPut m s k v = some s' ∧
      recencyEntries s' = some ((k, v) :: l.dropLast) ∧
      s'.evicted = s.evicted ++ given s [victim.2]
  kept : s.onEvict = true → (puts history).Perm (l.map (·.2) ++ s.evicted)
  freed : s.onEvict = true → ∃ out, lruFree s = some out ∧ (puts history).Perm out

theorem Rep.recencyEntries_eq {s : Lru} {nodes : List ℕ} (h : Rep s nodes) :
    recencyEntries s = some (entries s nodes) := by
  unfold recencyEntries
  rw [h.linked.forward.cells_eq h.counted.ge]
  rfl

end Aigate.LruMap
