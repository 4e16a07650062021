import Aigate.KeywordTrie

/-!
# Correctness of the keyword automaton

The breadth-first pass finishes nodes in the order of their depth, so the failure state of
a node is complete when the node is. Every finished node has the transitions of the longest
suffix automaton and carries a keyword exactly when one ends its word.
-/
namespace Aigate.KeywordSearch
open Text SuffixStates KeywordTrie

/-- The words of the nodes. -/
def states (trie : AcTrie) (label : ℕ → Bytes) : List Bytes :=
  (List.range trie.nodeCount).map label

theorem mem_states {trie : AcTrie} {label : ℕ → Bytes} {w : Bytes} :
    w ∈ states trie label ↔ ∃ i < trie.nodeCount, label i = w := by
  simp [states]

theorem states_prefixClosed {trie : AcTrie} {label : ℕ → Bytes} {keywords : List Bytes}
    (h : Labelled trie label keywords) : PrefixClosed (states trie label) where
  empty := mem_states.mpr ⟨0, h.pos, h.root⟩
  init w c hw := by
    obtain ⟨i, hi, hl⟩ := mem_states.mp hw
    exact mem_states.mpr (h.parent i hi w c hl)

/-- The keyword that a node carries: one that ends its word, if there is any. -/
def Hit (keywords : List Bytes) (w : Bytes) : Option Bytes → Prop
  | some k => k ∈ keywords ∧ k <:+ w
  | none => ∀ k ∈ keywords, ¬k <:+ w

/-- Between two rounds of the breadth-first pass. -/
structure Building (start : AcTrie) (label : ℕ → Bytes) (keywords : List Bytes)
    (trie : AcTrie) (finished queue : List ℕ) : Prop where
  count : trie.nodeCount = start.nodeCount
  bound : ∀ i ∈ finished ++ queue, i < start.nodeCount
  nodup : (finished ++ queue).Nodup
  root : 0 ∈ finished
  origin : ∀ i ∈ finished ++ queue, i ≠ 0 → ∃ p ∈ finished, ∃ c, label i = label p ++ [c]
  frontier : ∀ p ∈ finished, ∀ i < start.nodeCount, ∀ c, label i = label p ++ [c] →
    i ∈ finished ++ queue
  layered : queue.Pairwise fun i j =>
    (label i).length ≤ (label j).length ∧ (label j).length ≤ (label i).length + 1
  complete : ∀ i ∈ finished, ∀ c, ∃ u < start.nodeCount, (trie.node i).next.get c = some u ∧
    label u = longest (states start label) (label i ++ [c])
  waiting : ∀ i, i ∉ finished → (trie.node i).next = (start.node i).next
  linked : ∀ i ∈ finished ++ queue, i ≠ 0 → (trie.node i).fail < start.nodeCount ∧
    label (trie.node i).fail = longest (states start label) (label i).tail
  hits : ∀ i ∈ finished ++ queue, Hit keywords (label i) (trie.node i).matchedKeyword
  unlinked : ∀ i, i ∉ finished ++ queue →
    (trie.node i).matchedKeyword = (start.node i).matchedKeyword

section fold

variable (failRow : Row)

@[simp] theorem nodeCount_linkChild (trie : AcTrie) (e : Char × ℕ) :
    (trie.linkChild failRow e).nodeCount = trie.nodeCount :=
  nodeCount_modify _ _ _

@[simp] theorem nodeCount_linkChildren (es : List (Char × ℕ)) (trie : AcTrie) :
    (es.foldl (AcTrie.linkChild failRow) trie).nodeCount = trie.nodeCount := by
  induction es generalizing trie with
  | nil => rfl
  | cons e es ih => rw [List.foldl_cons, ih, nodeCount_linkChild]

theorem node_linkChild_of_ne (trie : AcTrie) {e : Char × ℕ} {j : ℕ} (h : j ≠ e.2) :
    (trie.linkChild failRow e).node j = trie.node j :=
  node_modify_of_ne _ h _

theorem node_linkChildren_of_not_mem (es : List (Char × ℕ)) (trie : AcTrie) {j : ℕ}
    (h : j ∉ es.map Prod.snd) :
    (es.foldl (AcTrie.linkChild failRow) trie).node j = trie.node j := by
  induction es generalizing trie with
  | nil => rfl
  | cons e es ih =>
    simp only [List.map_cons, List.mem_cons, not_or] at h
    rw [List.foldl_cons, ih _ h.2, node_linkChild_of_ne failRow _ h.1]

/-- A child is linked once, to a state that is not one of the children. -/
theorem node_linkChildren (es : List (Char × ℕ)) (trie : AcTrie)
    (hn : (es.map Prod.snd).Nodup) (hb : ∀ e ∈ es, e.2 < trie.nodeCount)
    (ht : ∀ e ∈ es, (failRow.get e.1).getD 0 ∉ es.map Prod.snd) {e : Char × ℕ} (he : e ∈ es) :
    (es.foldl (AcTrie.linkChild failRow) trie).node e.2 =
      { trie.node e.2 with
        fail := (failRow.get e.1).getD 0
        matchedKeyword := (trie.node e.2).matchedKeyword <|>
          (trie.node ((failRow.get e.1).getD 0)).matchedKeyword } := by
  induction es generalizing trie with
  | nil => simp at he
  | cons d es ih =>
    simp only [List.map_cons, List.nodup_cons] at hn
    have htail : ∀ x ∈ es, (failRow.get x.1).getD 0 ∉ es.map Prod.snd := by
      intro x hx hm
      exact ht x (List.mem_cons_of_mem _ hx) (List.mem_cons_of_mem _ hm)
    rw [List.foldl_cons]
    rcases List.mem_cons.mp he with rfl | he
    · rw [node_linkChildren_of_not_mem failRow es _ hn.1]
      exact node_modify_self (hb e List.mem_cons_self) _
    · have hne : e.2 ≠ d.2 := fun heq => hn.1 (heq ▸ List.mem_map_of_mem he)
      have htarget : (failRow.get e.1).getD 0 ≠ d.2 := fun heq =>
        ht e (List.mem_cons_of_mem _ he) (heq ▸ List.mem_cons_self)
      rw [ih _ hn.2 (fun x hx => by simpa using hb x (List.mem_cons_of_mem _ hx)) htail he,
        node_linkChild_of_ne failRow _ hne, node_linkChild_of_ne failRow _ htarget]

theorem next_linkChildren (es : List (Char × ℕ)) (trie : AcTrie) (j : ℕ) :
    ((es.foldl (AcTrie.linkChild failRow) trie).node j).next = (trie.node j).next := by
  induction es generalizing trie with
  | nil => rfl
  | cons e es ih =>
    rw [List.foldl_cons, ih]
    by_cases hj : j = e.2
    · subst hj
      by_cases hb : e.2 < trie.nodeCount
      · rw [AcTrie.linkChild, node_modify_self hb]
      · rw [node_of_le (by simpa using hb), node_of_le (not_lt.mp hb)]
    · rw [node_linkChild_of_ne failRow _ hj]

theorem lookup_filter (p : Char × ℕ → Bool) (es : List (Char × ℕ)) {c : Char}
    (hp : ∀ u, p (c, u) = true) : (es.filter p).lookup c = es.lookup c := by
  induction es with
  | nil => rfl
  | cons e es ih =>
    by_cases hc : c = e.1
    · have hpe : p e = true := by
        rw [← hp e.2, hc]
      simp [lookup_cons, hpe, hc]
    · by_cases hpe : p e = true
      · simp [lookup_cons, hpe, hc, ih]
      · simp [lookup_cons, hpe, hc, ih]

theorem lookup_append (es fs : List (Char × ℕ)) (c : Char) :
    (es ++ fs).lookup c = (es.lookup c).or (fs.lookup c) := by
  induction es with
  | nil => simp
  | cons e es ih =>
    rw [List.cons_append, lookup_cons, lookup_cons, ih]
    split <;> rfl

theorem get_complete (row : Row) (c : Char) :
    (row.complete failRow).get c = (row.entries.lookup c).or (failRow.get c) := by
  unfold Row.get Row.complete
  simp only [lookup_append]
  cases h : row.entries.lookup c with
  | some u => simp
  | none =>
    rw [lookup_filter _ _ fun u => by simp [h]]
    simp

end fold

section step

variable {start trie : AcTrie} {label : ℕ → Bytes} {keywords : List Bytes}
  {finished queue : List ℕ} {r : ℕ}

/-- Nodes above the head of the queue are finished. -/
theorem mem_finished_of_length_lt (h : Labelled start label keywords)
    (hb : Building start label keywords trie finished (r :: queue)) {i : ℕ}
    (hi : i < start.nodeCount) (hlt : (label i).length < (label r).length) : i ∈ finished := by
  induction hn : (label i).length using Nat.strong_induction_on generalizing i with
  | _ n ih =>
    subst hn
    rcases List.eq_nil_or_concat' (label i) with hnil | ⟨w, c, hw⟩
    · rw [h.inj i hi 0 h.pos (hnil.trans h.root.symm)]
      exact hb.root
    · obtain ⟨p, hp, hpw⟩ := h.parent i hi w c hw
      have hlen : (label i).length = (label p).length + 1 := by simp [hw, hpw]
      have hpf : p ∈ finished := ih _ (by omega) hp (by omega) rfl
      rcases List.mem_append.mp (hb.frontier p hpf i hi c (by rw [hw, hpw])) with hf | hq
      · exact hf
      · rcases List.mem_cons.mp hq with rfl | hq
        · omega
        · have := (List.pairwise_cons.mp hb.layered).1 i hq
          omega

/-- A node no deeper than the head of the queue was reached. -/
theorem mem_reached_of_length_le (h : Labelled start label keywords)
    (hb : Building start label keywords trie finished (r :: queue)) {i : ℕ}
    (hi : i < start.nodeCount) (hle : (label i).length ≤ (label r).length) :
    i ∈ finished ++ r :: queue := by
  rcases List.eq_nil_or_concat' (label i) with hnil | ⟨w, c, hw⟩
  · rw [h.inj i hi 0 h.pos (hnil.trans h.root.symm)]
    exact List.mem_append_left _ hb.root
  · obtain ⟨p, hp, hpw⟩ := h.parent i hi w c hw
    have hlen : (label i).length = (label p).length + 1 := by simp [hw, hpw]
    exact hb.frontier p (mem_finished_of_length_lt h hb hp (by omega)) i hi c (by rw [hw, hpw])

/-- The keyword of an extension: its own, or that of its failure state. -/
theorem hit_orElse (h : Labelled start label keywords) {u t : ℕ} (hu : u < start.nodeCount)
    (hne : label u ≠ [])
    (ht : label t = longest (states start label) (label u).tail) {m : Option Bytes}
    (hm : Hit keywords (label t) m) :
    Hit keywords (label u) ((start.node u).matchedKeyword <|> m) := by
  rw [h.attached u hu]
  by_cases hk : label u ∈ keywords
  · rw [if_pos hk]
    exact ⟨hk, List.suffix_refl _⟩
  · rw [if_neg hk]
    have hends : ∀ k ∈ keywords, k <:+ label u ↔ k <:+ label t := by
      intro k hkk
      have hks : k ∈ states start label := mem_states.mpr (h.spelled k hkk)
      rw [suffix_iff_eq_or_tail hne, ht, suffix_longest_iff hks]
      have hkne : k ≠ label u := fun he => hk (he ▸ hkk)
      simp [hkne]
    cases m with
    | some k => exact ⟨hm.1, (hends k hm.1).mpr hm.2⟩
    | none => exact fun k hkk hs => hm k hkk ((hends k hkk).mp hs)

/-- The children of a node, as the entries that lead to them. -/
theorem mem_entries_iff (h : Labelled start label keywords) (hr : r < start.nodeCount)
    {c : Char} {u : ℕ} : (c, u) ∈ (start.node r).next.entries ↔
      u < start.nodeCount ∧ label u = label r ++ [c] := by
  rw [mem_iff_lookup (h.keys r hr), h.edge r hr]

theorem mem_children_iff (h : Labelled start label keywords) (hr : r < start.nodeCount)
    {u : ℕ} : u ∈ (start.node r).next.entries.map Prod.snd ↔
      u < start.nodeCount ∧ ∃ c, label u = label r ++ [c] := by
  constructor
  · intro hu
    obtain ⟨⟨c, v⟩, hm, rfl⟩ := List.mem_map.mp hu
    obtain ⟨hv, hl⟩ := (mem_entries_iff h hr).mp hm
    exact ⟨hv, c, hl⟩
  · rintro ⟨hu, c, hl⟩
    exact List.mem_map.mpr ⟨(c, u), (mem_entries_iff h hr).mpr ⟨hu, hl⟩, rfl⟩

theorem nodup_children (h : Labelled start label keywords) (hr : r < start.nodeCount) :
    ((start.node r).next.entries.map Prod.snd).Nodup := by
  have hk := h.keys r hr
  rw [List.nodup_iff_pairwise_ne, List.pairwise_map] at hk ⊢
  refine hk.imp_of_mem ?_
  intro a b ha hb hne heq
  have hla := ((mem_entries_iff h hr).mp ha).2
  have hlb := ((mem_entries_iff h hr).mp hb).2
  rw [heq, hlb] at hla
  have := (List.append_inj' hla rfl).2
  simp only [List.cons.injEq, and_true] at this
  exact hne this.symm

/-- What a round reads at the node it expands: a nonempty word, the trie's own children,
and a failure row that is already complete. -/
structure Head (start trie : AcTrie) (label : ℕ → Bytes) (r : ℕ) : Prop where
  lt : r < start.nodeCount
  ne_nil : label r ≠ []
  entries : (trie.node r).next = (start.node r).next
  fail_lt : (label (trie.node r).fail).length < (label r).length
  row : ∀ c, ∃ u < start.nodeCount, (trie.node (trie.node r).fail).next.get c = some u ∧
    label u = longest (states start label) (longest (states start label) (label r).tail ++ [c])

theorem Building.head (h : Labelled start label keywords)
    (hb : Building start label keywords trie finished (r :: queue)) :
    Head start trie label r := by
  have hmem : r ∈ finished ++ r :: queue := by simp
  have hr : r < start.nodeCount := hb.bound r hmem
  have hrf : r ∉ finished := fun hf =>
    (List.nodup_append.mp hb.nodup).2.2 r hf r List.mem_cons_self rfl
  have hne : r ≠ 0 := fun he => hrf (he ▸ hb.root)
  have hlabel : label r ≠ [] := fun hl => hne (h.inj r hr 0 h.pos (hl.trans h.root.symm))
  obtain ⟨hflt, hfl⟩ := hb.linked r hmem hne
  have hshort : (label (trie.node r).fail).length < (label r).length := by
    have h₁ := longest_length_le (states start label) (label r).tail
    have h₂ := List.length_pos_of_ne_nil hlabel
    rw [hfl]
    rw [List.length_tail] at h₁
    omega
  refine ⟨hr, hlabel, hb.waiting r hrf, hshort, fun c => ?_⟩
  obtain ⟨u, hu, hget, hl⟩ := hb.complete _ (mem_finished_of_length_lt h hb hflt hshort) c
  exact ⟨u, hu, hget, by rw [hl, hfl]⟩

/-- The failure target of a child is no deeper than its parent. -/
theorem Head.target (hh : Head start trie label r) (c : Char) :
    ∃ t < start.nodeCount, ((trie.node (trie.node r).fail).next.get c).getD 0 = t ∧
      label t = longest (states start label) (longest (states start label) (label r).tail ++ [c]) ∧
      (label t).length ≤ (label r).length := by
  obtain ⟨t, ht, hget, hl⟩ := hh.row c
  refine ⟨t, ht, by rw [hget, Option.getD_some], hl, ?_⟩
  have h₁ := longest_length_le (states start label)
    (longest (states start label) (label r).tail ++ [c])
  have h₂ := longest_length_le (states start label) (label r).tail
  have h₃ := List.length_pos_of_ne_nil hh.ne_nil
  rw [← hl, List.length_append, List.length_singleton] at h₁
  rw [List.length_tail] at h₂
  omega

theorem nodeCount_expand (trie : AcTrie) (r : ℕ) :
    (trie.expand r).nodeCount = trie.nodeCount := by
  simp [AcTrie.expand]

/-- A round changes the node it expands and the children of that node. -/
theorem node_expand_of_ne (hh : Head start trie label r) {i : ℕ} (hi : i ≠ r)
    (hc : i ∉ (start.node r).next.entries.map Prod.snd) :
    (trie.expand r).node i = trie.node i := by
  rw [← hh.entries] at hc
  unfold AcTrie.expand
  rw [node_modify_of_ne _ hi, node_linkChildren_of_not_mem _ _ _ hc]

theorem next_expand_of_ne {i : ℕ} (hi : i ≠ r) :
    ((trie.expand r).node i).next = (trie.node i).next := by
  unfold AcTrie.expand
  rw [node_modify_of_ne _ hi, next_linkChildren]

theorem not_mem_children_of_length_le (h : Labelled start label keywords)
    (hr : r < start.nodeCount) {i : ℕ} (hle : (label i).length ≤ (label r).length) :
    i ∉ (start.node r).next.entries.map Prod.snd := by
  intro hm
  obtain ⟨-, c, hl⟩ := (mem_children_iff h hr).mp hm
  rw [hl, List.length_append, List.length_singleton] at hle
  omega

theorem node_expand_child (h : Labelled start label keywords) (hh : Head start trie label r)
    (hcount : trie.nodeCount = start.nodeCount) {c : Char} {u : ℕ}
    (hm : (c, u) ∈ (start.node r).next.entries) :
    ∃ t < start.nodeCount, (label t).length ≤ (label r).length ∧
      label t = longest (states start label) (label u).tail ∧
      ((trie.expand r).node u).fail = t ∧
      ((trie.expand r).node u).matchedKeyword =
        ((trie.node u).matchedKeyword <|> (trie.node t).matchedKeyword) := by
  obtain ⟨hu, hlu⟩ := (mem_entries_iff h hh.lt).mp hm
  obtain ⟨t, ht, hget, hl, hlen⟩ := hh.target c
  have hur : u ≠ r := by
    rintro rfl
    simpa using congrArg List.length hlu
  have hnode : (trie.expand r).node u = { trie.node u with
      fail := t
      matchedKeyword := (trie.node u).matchedKeyword <|> (trie.node t).matchedKeyword } := by
    unfold AcTrie.expand
    rw [node_modify_of_ne _ hur, hh.entries]
    rw [node_linkChildren _ _ _ (nodup_children h hh.lt) _ _ hm, hget]
    · intro e he
      rw [hcount]
      exact ((mem_entries_iff h hh.lt).mp he).1
    · intro e _
      obtain ⟨t', -, hget', -, hlen'⟩ := hh.target e.1
      rw [hget']
      exact not_mem_children_of_length_le h hh.lt hlen'
  refine ⟨t, ht, hlen, ?_, by rw [hnode], by rw [hnode]⟩
  rw [hl, hlu, longest_tail_concat (states_prefixClosed h) hh.ne_nil]

theorem node_expand_self (h : Labelled start label keywords) (hh : Head start trie label r)
    (hcount : trie.nodeCount = start.nodeCount) :
    (trie.expand r).node r = { trie.node r with
      next := (trie.node r).next.complete (trie.node (trie.node r).fail).next } := by
  have hr : r < trie.nodeCount := hcount ▸ hh.lt
  have hnot := not_mem_children_of_length_le h hh.lt (le_refl (label r).length)
  rw [← hh.entries] at hnot
  unfold AcTrie.expand
  rw [node_modify_self (by simpa using hr), node_linkChildren_of_not_mem _ _ _ hnot]

/-- A completed row has the transitions of the longest-suffix automaton. -/
theorem complete_expand (h : Labelled start label keywords) (hh : Head start trie label r)
    (hcount : trie.nodeCount = start.nodeCount) (c : Char) :
    ∃ u < start.nodeCount, ((trie.expand r).node r).next.get c = some u ∧
      label u = longest (states start label) (label r ++ [c]) := by
  have hS := states_prefixClosed h
  rw [node_expand_self h hh hcount]
  simp only [get_complete, hh.entries]
  cases hu : (start.node r).next.entries.lookup c with
  | some u =>
    obtain ⟨hlt, hl⟩ := (h.edge r hh.lt c u).mp hu
    exact ⟨u, hlt, rfl, by rw [← hl, longest_of_mem (mem_states.mpr ⟨u, hlt, rfl⟩)]⟩
  | none =>
    obtain ⟨u, hlt, hget, hl⟩ := hh.row c
    refine ⟨u, hlt, by rw [hget]; rfl, ?_⟩
    rw [hl, longest_concat_of_not_mem hS hh.ne_nil]
    intro hm
    obtain ⟨i, hi, hli⟩ := mem_states.mp hm
    rw [(h.edge r hh.lt c i).mpr ⟨hi, hli⟩] at hu
    exact absurd hu (by simp)

/-- One round keeps the invariant. -/
theorem Building.expand (h : Labelled start label keywords)
    (hb : Building start label keywords trie finished (r :: queue)) :
    Building start label keywords (trie.expand r) (finished ++ [r])
      (queue ++ (trie.node r).next.entries.map Prod.snd) := by
  have hh := hb.head h
  have hr := hh.lt
  rw [hh.entries]
  have hmem : ∀ i, i ∈ finished ++ [r] ++ (queue ++ (start.node r).next.entries.map Prod.snd) ↔
      i ∈ finished ++ r :: queue ∨ i ∈ (start.node r).next.entries.map Prod.snd := by
    intro i
    simp only [List.mem_append, List.mem_cons]
    tauto
  have hrf : r ∉ finished := fun hf =>
    (List.nodup_append.mp hb.nodup).2.2 r hf r List.mem_cons_self rfl
  -- the children were not reached before: their parent is not finished
  have hnew : ∀ u ∈ (start.node r).next.entries.map Prod.snd, u ∉ finished ++ r :: queue := by
    intro u hu hm
    obtain ⟨hult, c, hl⟩ := (mem_children_iff h hr).mp hu
    have hune : u ≠ 0 := by
      rintro rfl
      simp [h.root] at hl
    obtain ⟨p, hp, d, hpl⟩ := hb.origin u hm hune
    have hpr : p = r := by
      refine h.inj p (hb.bound p (List.mem_append_left _ hp)) r hr ?_
      exact (List.append_inj' (hpl.symm.trans hl) rfl).1
    exact hrf (hpr ▸ hp)
  have hold : ∀ i ∈ finished ++ r :: queue, i ∉ (start.node r).next.entries.map Prod.snd :=
    fun i hi hc => hnew i hc hi
  constructor
  case count => rw [nodeCount_expand, hb.count]
  case bound =>
    intro i hi
    rcases (hmem i).mp hi with hi | hi
    · exact hb.bound i hi
    · exact ((mem_children_iff h hr).mp hi).1
  case nodup =>
    have hsplit : finished ++ [r] ++ (queue ++ (start.node r).next.entries.map Prod.snd)
        = (finished ++ r :: queue) ++ (start.node r).next.entries.map Prod.snd := by simp
    rw [hsplit]
    refine List.nodup_append.mpr ⟨hb.nodup, nodup_children h hr, ?_⟩
    intro i hi j hj hij
    exact hnew j hj (hij ▸ hi)
  case root => exact List.mem_append_left _ hb.root
  case origin =>
    intro i hi hne
    rcases (hmem i).mp hi with hi | hi
    · obtain ⟨p, hp, c, hl⟩ := hb.origin i hi hne
      exact ⟨p, List.mem_append_left _ hp, c, hl⟩
    · obtain ⟨-, c, hl⟩ := (mem_children_iff h hr).mp hi
      exact ⟨r, by simp, c, hl⟩
  case frontier =>
    intro p hp i hi c hl
    rw [hmem]
    rcases List.mem_append.mp hp with hp | hp
    · exact Or.inl (hb.frontier p hp i hi c hl)
    · rw [List.mem_singleton.mp hp] at hl
      exact Or.inr ((mem_children_iff h hr).mpr ⟨hi, c, hl⟩)
  case layered =>
    obtain ⟨hfirst, hrest⟩ := List.pairwise_cons.mp hb.layered
    have hlen : ∀ u ∈ (start.node r).next.entries.map Prod.snd,
        (label u).length = (label r).length + 1 := by
      intro u hu
      obtain ⟨-, c, hl⟩ := (mem_children_iff h hr).mp hu
      simp [hl]
    refine List.pairwise_append.mpr ⟨hrest, ?_, ?_⟩
    · refine List.pairwise_of_forall_mem_list ?_
      intro i hi j hj
      rw [hlen i hi, hlen j hj]
      omega
    · intro i hi j hj
      have := hfirst i hi
      rw [hlen j hj]
      omega
  case complete =>
    intro i hi c
    rcases List.mem_append.mp hi with hi | hi
    · have hir : i ≠ r := fun he => hrf (he ▸ hi)
      rw [next_expand_of_ne hir]
      exact hb.complete i hi c
    · rw [List.mem_singleton.mp hi]
      exact complete_expand h hh hb.count c
  case waiting =>
    intro i hi
    simp only [List.mem_append, List.mem_singleton, not_or] at hi
    rw [next_expand_of_ne hi.2]
    exact hb.waiting i hi.1
  case linked =>
    intro i hi hne
    rcases (hmem i).mp hi with hi | hi
    · have hnode : ((trie.expand r).node i).fail = (trie.node i).fail := by
        by_cases hir : i = r
        · rw [hir, node_expand_self h hh hb.count]
        · rw [node_expand_of_ne hh hir (hold i hi)]
      rw [hnode]
      exact hb.linked i hi hne
    · obtain ⟨⟨c, u⟩, hm, rfl⟩ := List.mem_map.mp hi
      obtain ⟨t, ht, -, hl, hfail, -⟩ := node_expand_child h hh hb.count hm
      rw [hfail]
      exact ⟨ht, hl⟩
  case hits =>
    intro i hi
    rcases (hmem i).mp hi with hi | hi
    · have hnode : ((trie.expand r).node i).matchedKeyword = (trie.node i).matchedKeyword := by
        by_cases hir : i = r
        · rw [hir, node_expand_self h hh hb.count]
        · rw [node_expand_of_ne hh hir (hold i hi)]
      rw [hnode]
      exact hb.hits i hi
    · obtain ⟨⟨c, u⟩, hm, rfl⟩ := List.mem_map.mp hi
      obtain ⟨hu, hlu⟩ := (mem_entries_iff h hr).mp hm
      obtain ⟨t, ht, hlen, hl, -, hkeyword⟩ := node_expand_child h hh hb.count hm
      rw [hkeyword, hb.unlinked u (hnew u hi)]
      exact hit_orElse h hu (by simp [hlu]) hl (hb.hits t (mem_reached_of_length_le h hb ht hlen))
  case unlinked =>
    intro i hi
    rw [hmem, not_or] at hi
    have hir : i ≠ r := fun he => hi.1 (he ▸ by simp)
    rw [node_expand_of_ne hh hir hi.2]
    exact hb.unlinked i hi.1

/-- When every node is finished, none is left in the queue. -/
theorem Building.queue_nil (hb : Building start label keywords trie finished queue)
    (hall : start.nodeCount ≤ finished.length) : queue = [] := by
  have hsub : (finished ++ queue).length ≤ start.nodeCount := by
    have hs : finished ++ queue ⊆ List.range start.nodeCount :=
      fun i hi => List.mem_range.mpr (hb.bound i hi)
    simpa using (hb.nodup.subperm hs).length_le
  rw [List.length_append] at hsub
  exact List.length_eq_zero_iff.mp (by omega)

/-- With a round for every node the queue runs empty. -/
theorem Building.breadthFirst (h : Labelled start label keywords) (rounds : ℕ)
    (hb : Building start label keywords trie finished queue)
    (hrounds : start.nodeCount ≤ rounds + finished.length) :
    ∃ finished', Building start label keywords (AcTrie.breadthFirst rounds queue trie)
      finished' [] := by
  induction rounds generalizing trie finished queue with
  | zero =>
    obtain rfl := hb.queue_nil (by omega)
    exact ⟨finished, hb⟩
  | succ rounds ih =>
    cases queue with
    | nil => exact ⟨finished, hb⟩
    | cons r queue =>
      refine ih (hb.expand h) ?_
      rw [List.length_append, List.length_singleton]
      omega

/-- The queue that is left after some rounds. -/
def queueAfter : ℕ → List ℕ → AcTrie → List ℕ
  | 0, queue, _ => queue
  | _ + 1, [], _ => []
  | rounds + 1, r :: queue, trie =>
    queueAfter rounds (queue ++ (trie.node r).next.entries.map Prod.snd) (trie.expand r)

/-- Every node is taken from the queue once, so the loop ends. -/
theorem Building.queueAfter_nil (h : Labelled start label keywords) (rounds : ℕ)
    (hb : Building start label keywords trie finished queue)
    (hrounds : start.nodeCount ≤ rounds + finished.length) :
    queueAfter rounds queue trie = [] := by
  induction rounds generalizing trie finished queue with
  | zero => exact hb.queue_nil (by omega)
  | succ rounds ih =>
    cases queue with
    | nil => rfl
    | cons r queue =>
      refine ih (hb.expand h) ?_
      rw [List.length_append, List.length_singleton]
      omega

/-- Once the queue is empty every node is finished. -/
theorem Building.all_finished (h : Labelled start label keywords)
    (hb : Building start label keywords trie finished []) {i : ℕ} (hi : i < start.nodeCount) :
    i ∈ finished := by
  induction hn : (label i).length using Nat.strong_induction_on generalizing i with
  | _ n ih =>
    subst hn
    rcases List.eq_nil_or_concat' (label i) with hnil | ⟨w, c, hw⟩
    · rw [h.inj i hi 0 h.pos (hnil.trans h.root.symm)]
      exact hb.root
    · obtain ⟨p, hp, hpw⟩ := h.parent i hi w c hw
      have hpf : p ∈ finished := ih _ (by simp [hw, hpw]) hp rfl
      simpa using hb.frontier p hpf i hi c (by rw [hw, hpw])

end step

/-- The children of the root are linked to the root. -/
def rooted (trie : AcTrie) : AcTrie :=
  (((trie.node 0).next.entries.map Prod.snd).foldl
    (fun t i => t.modify i fun n => { n with fail := 0 }) trie).modify 0
      fun n => { n with next := { n.next with others := some 0 } }

@[simp] theorem nodeCount_failRoot (children : List ℕ) (trie : AcTrie) :
    (children.foldl (fun t i => t.modify i fun n => { n with fail := 0 }) trie).nodeCount
      = trie.nodeCount := by
  induction children generalizing trie with
  | nil => rfl
  | cons u us ih => rw [List.foldl_cons, ih, nodeCount_modify]

theorem node_failRoot (children : List ℕ) (trie : AcTrie)
    (hb : ∀ u ∈ children, u < trie.nodeCount) (i : ℕ) :
    (children.foldl (fun t i => t.modify i fun n => { n with fail := 0 }) trie).node i =
      if i ∈ children then { trie.node i with fail := 0 } else trie.node i := by
  induction children generalizing trie with
  | nil => simp
  | cons u us ih =>
    have hu : u < trie.nodeCount := hb u List.mem_cons_self
    rw [List.foldl_cons, ih _ (by simpa using fun v hv => hb v (List.mem_cons_of_mem _ hv))]
    by_cases hi : i = u
    · subst hi
      rw [node_modify_self hu]
      simp
    · rw [node_modify_of_ne _ hi]
      simp [hi]

theorem building_rooted {start : AcTrie} {label : ℕ → Bytes} {keywords : List Bytes}
    (h : Labelled start label keywords) :
    Building start label keywords (rooted start) [0]
      ((start.node 0).next.entries.map Prod.snd) := by
  have hlt : ∀ u ∈ (start.node 0).next.entries.map Prod.snd, u < start.nodeCount :=
    fun u hu => ((mem_children_iff h h.pos).mp hu).1
  have hword : ∀ u ∈ (start.node 0).next.entries.map Prod.snd, ∃ c, label u = [c] := by
    intro u hu
    obtain ⟨-, c, hl⟩ := (mem_children_iff h h.pos).mp hu
    exact ⟨c, by rw [hl, h.root]; rfl⟩
  have hzero : 0 ∉ (start.node 0).next.entries.map Prod.snd := by
    intro hm
    obtain ⟨c, hc⟩ := hword 0 hm
    rw [h.root] at hc
    exact absurd hc (by simp)
  have hself : (rooted start).node 0 =
      { start.node 0 with next := { (start.node 0).next with others := some 0 } } := by
    unfold rooted
    rw [node_modify_self (by simpa using h.pos), node_failRoot _ _ hlt, if_neg hzero]
  have hother : ∀ i, i ≠ 0 → (rooted start).node i =
      if i ∈ (start.node 0).next.entries.map Prod.snd then { start.node i with fail := 0 }
      else start.node i := by
    intro i hi
    unfold rooted
    rw [node_modify_of_ne _ hi, node_failRoot _ _ hlt]
  constructor
  case count => simp [rooted]
  case bound =>
    intro i hi
    rcases List.mem_cons.mp hi with rfl | hi
    · exact h.pos
    · exact hlt i hi
  case nodup => exact List.nodup_cons.mpr ⟨hzero, nodup_children h h.pos⟩
  case root => exact List.mem_cons_self
  case origin =>
    intro i hi hne
    rcases List.mem_cons.mp hi with rfl | hi
    · exact absurd rfl hne
    · obtain ⟨-, c, hl⟩ := (mem_children_iff h h.pos).mp hi
      exact ⟨0, List.mem_cons_self, c, hl⟩
  case frontier =>
    intro p hp i hi c hl
    rw [List.mem_singleton.mp hp] at hl
    exact List.mem_cons_of_mem _ ((mem_children_iff h h.pos).mpr ⟨hi, c, hl⟩)
  case layered =>
    refine List.pairwise_of_forall_mem_list ?_
    intro i hi j hj
    obtain ⟨c, hc⟩ := hword i hi
    obtain ⟨d, hd⟩ := hword j hj
    simp [hc, hd]
  case complete =>
    intro i hi c
    rw [List.mem_singleton.mp hi, hself, h.root]
    unfold Row.get
    cases hu : (start.node 0).next.entries.lookup c with
    | some u =>
      obtain ⟨hult, hl⟩ := (h.edge 0 h.pos c u).mp hu
      rw [h.root] at hl
      exact ⟨u, hult, rfl, by rw [← hl, longest_of_mem (mem_states.mpr ⟨u, hult, rfl⟩)]⟩
    | none =>
      refine ⟨0, h.pos, rfl, ?_⟩
      have hnot : [c] ∉ states start label := by
        intro hm
        obtain ⟨u, hult, hl⟩ := mem_states.mp hm
        rw [(h.edge 0 h.pos c u).mpr ⟨hult, by rw [hl, h.root]; rfl⟩] at hu
        exact absurd hu (by simp)
      rw [h.root, List.nil_append, longest, if_neg hnot, longest]
  case waiting =>
    intro i hi
    rw [hother i (by simpa using hi)]
    split <;> rfl
  case linked =>
    intro i hi hne
    have hi : i ∈ (start.node 0).next.entries.map Prod.snd := by simpa [hne] using hi
    obtain ⟨c, hc⟩ := hword i hi
    rw [hother i hne, if_pos hi]
    exact ⟨h.pos, by rw [h.root, hc]; rfl⟩
  case hits =>
    intro i hi
    rcases List.mem_append.mp hi with hi | hi
    · obtain rfl := List.mem_singleton.mp hi
      have hnot : label 0 ∉ keywords := fun hk => h.nonempty _ hk h.root
      have hkeyword : ((rooted start).node 0).matchedKeyword = none := by
        rw [hself]
        exact (h.attached 0 h.pos).trans (if_neg hnot)
      rw [hkeyword]
      intro k hk hs
      rw [h.root] at hs
      exact h.nonempty k hk (List.suffix_nil.mp hs)
    · obtain ⟨c, hc⟩ := hword i hi
      have hne : i ≠ 0 := fun he => hzero (he ▸ hi)
      have hkeyword : ((rooted start).node i).matchedKeyword = (start.node i).matchedKeyword := by
        rw [hother i hne, if_pos hi]
      rw [hkeyword, h.attached i (hlt i hi)]
      split
      · rename_i hk
        exact ⟨hk, List.suffix_refl _⟩
      · rename_i hk
        intro k hkk hs
        rw [hc] at hs
        rcases List.suffix_cons_iff.mp hs with he | hs
        · exact hk (hc ▸ he ▸ hkk)
        · exact h.nonempty k hkk (List.suffix_nil.mp hs)
  case unlinked =>
    intro i hi
    simp only [List.singleton_append, List.mem_cons, not_or] at hi
    rw [hother i hi.1, if_neg hi.2]

/-- What the completed automaton promises to a search. -/
structure Automaton (trie : AcTrie) (count : ℕ) (label : ℕ → Bytes) (keywords : List Bytes)
    (words : List Bytes) : Prop where
  pos : 0 < count
  root : label 0 = []
  step : ∀ i < count, ∀ c, ∃ u < count, (trie.node i).next.get c = some u ∧
    label u = longest words (label i ++ [c])
  hits : ∀ i < count, Hit keywords (label i) (trie.node i).matchedKeyword
  closed : PrefixClosed words
  spelled : ∀ k ∈ keywords, k ∈ words

theorem automaton_build {start : AcTrie} {label : ℕ → Bytes} {keywords : List Bytes}
    (h : Labelled start label keywords) (hcount : ¬start.nodeCount ≤ 1) :
    Automaton (acTrieBuildFailureLinks start) start.nodeCount label keywords
      (states start label) := by
  obtain ⟨finished, hb⟩ := (building_rooted h).breadthFirst h start.nodeCount (by simp)
  have hbuild : acTrieBuildFailureLinks start = AcTrie.breadthFirst start.nodeCount
      ((start.node 0).next.entries.map Prod.snd) (rooted start) := by
    unfold acTrieBuildFailureLinks
    rw [if_neg hcount]
    rfl
  rw [← hbuild] at hb
  constructor
  case pos => exact h.pos
  case root => exact h.root
  case step => exact fun i hi c => hb.complete i (hb.all_finished h hi) c
  case hits => exact fun i hi => hb.hits i (List.mem_append_left _ (hb.all_finished h hi))
  case closed => exact states_prefixClosed h
  case spelled => exact fun k hk => mem_states.mpr (h.spelled k hk)

/-- What a pass over `text` that follows `read` may report. -/
def Reported (keywords : List Bytes) (read text : Bytes) : Option Bytes → Prop
  | some k => k ∈ keywords ∧ ∃ t, t <+: text ∧ k <:+ read ++ t
  | none => ∀ k ∈ keywords, ∀ t, t ≠ [] → t <+: text → ¬k <:+ read ++ t

/-- The pass over a text stops at the first keyword that ends in it. -/
theorem Automaton.run {trie : AcTrie} {count : ℕ} {label : ℕ → Bytes} {keywords words : List Bytes}
    (h : Automaton trie count label keywords words) (text read : Bytes) (state : ℕ)
    (hlt : state < count) (hl : label state = longest words read) :
    Reported keywords read text (trie.run state text) := by
  induction text generalizing read state with
  | nil =>
    intro k hk t ht hp
    exact absurd (List.prefix_nil.mp hp) ht
  | cons c text ih =>
    obtain ⟨next, hnlt, hget, hnl⟩ := h.step state hlt c
    have hread : label next = longest words (read ++ [c]) := by
      rw [hnl, hl, ← longest_concat h.closed]
    have hhit := h.hits next hnlt
    have hends : ∀ k ∈ keywords, k <:+ label next ↔ k <:+ read ++ [c] := by
      intro k hk
      rw [hread, suffix_longest_iff (h.spelled k hk)]
    cases hm : (trie.node next).matchedKeyword with
    | some k =>
      rw [hm] at hhit
      simp only [AcTrie.run, hget, hm]
      exact ⟨hhit.1, [c], by simp, (hends k hhit.1).mp hhit.2⟩
    | none =>
      rw [hm] at hhit
      have hrest := ih (read ++ [c]) next hnlt hread
      simp only [AcTrie.run, hget, hm]
      cases hrun : trie.run next text with
      | some k =>
        rw [hrun] at hrest
        obtain ⟨hk, t, ht, hs⟩ := hrest
        exact ⟨hk, c :: t, by simpa using ht, by simpa using hs⟩
      | none =>
        rw [hrun] at hrest
        intro k hk t ht hp hs
        cases t with
        | nil => exact ht rfl
        | cons d t =>
          obtain ⟨rfl, htail⟩ := List.cons_prefix_cons.mp hp
          by_cases htn : t = []
          · subst htn
            exact hhit k hk ((hends k hk).mpr hs)
          · exact hrest k hk t htn htail (by simpa using hs)

/-- Inserting a list of patterns and building the failure links. -/
def acTrieOf (patterns : List Bytes) : AcTrie :=
  acTrieBuildFailureLinks (patterns.foldl acTrieInsert acTrieCreate)

theorem nodeCount_breadthFirst (rounds : ℕ) (queue : List ℕ) (trie : AcTrie) :
    (AcTrie.breadthFirst rounds queue trie).nodeCount = trie.nodeCount := by
  induction rounds generalizing queue trie with
  | zero => rfl
  | succ rounds ih =>
    cases queue with
    | nil => rfl
    | cons r queue => rw [AcTrie.breadthFirst, ih, nodeCount_expand]

theorem nodeCount_build (trie : AcTrie) :
    (acTrieBuildFailureLinks trie).nodeCount = trie.nodeCount := by
  unfold acTrieBuildFailureLinks
  split
  · rfl
  · simp [nodeCount_breadthFirst]

/-- The search reports a keyword that was inserted and occurs, and it reports one whenever
one occurs. -/
theorem acTrieSearch_spec (patterns : List Bytes) (text : Bytes) :
    match acTrieSearch (acTrieOf patterns) text with
    | some k => k ∈ accepted patterns ∧ k <:+: text
    | none => ∀ k ∈ accepted patterns, ¬k <:+: text := by
  obtain ⟨label, keywords, h, hk⟩ := labelled_insert patterns
  unfold acTrieSearch acTrieOf
  rw [nodeCount_build]
  by_cases hcount : (patterns.foldl acTrieInsert acTrieCreate).nodeCount ≤ 1
  · rw [if_pos hcount]
    intro k hkp
    -- a keyword would be the word of a node other than the root
    obtain ⟨i, hi, hl⟩ := h.spelled k ((hk k).mpr hkp)
    have hroot : i = 0 := by omega
    rw [hroot, h.root] at hl
    exact absurd hl.symm (h.nonempty k ((hk k).mpr hkp))
  · rw [if_neg hcount]
    have ha := automaton_build h hcount
    have hrun := ha.run text [] 0 ha.pos ha.root
    cases hs : AcTrie.run _ 0 text with
    | some k =>
      rw [hs] at hrun
      obtain ⟨hkk, t, ht, hsuf⟩ := hrun
      exact ⟨(hk k).mp hkk, List.infix_iff_suffix_prefix.mpr ⟨t, by simpa using hsuf, ht⟩⟩
    | none =>
      rw [hs] at hrun
      intro k hkp hinfix
      obtain ⟨t, hsuf, hpre⟩ := List.infix_iff_suffix_prefix.mp hinfix
      have hkk := (hk k).mpr hkp
      refine hrun k hkk t ?_ hpre (by simpa using hsuf)
      rintro rfl
      exact h.nonempty k hkk (List.suffix_nil.mp hsuf)

/-- The breadth-first loop ends within a round for each node. -/
def BuildEnds (start : AcTrie) : Prop :=
  queueAfter start.nodeCount ((start.node 0).next.entries.map Prod.snd) (rooted start) = []

theorem buildEnds_insert (patterns : List Bytes) :
    BuildEnds (patterns.foldl acTrieInsert acTrieCreate) := by
  obtain ⟨label, keywords, h, -⟩ := labelled_insert patterns
  exact (building_rooted h).queueAfter_nil h _ (by simp)

/-- The search finds something exactly when an accepted keyword occurs. -/
theorem acTrieSearch_isSome_iff (patterns : List Bytes) (text : Bytes) :
    (acTrieSearch (acTrieOf patterns) text).isSome = true ↔
      ∃ k ∈ accepted patterns, k <:+: text := by
  have h := acTrieSearch_spec patterns text
  cases hs : acTrieSearch (acTrieOf patterns) text with
  | some k =>
    rw [hs] at h
    simpa using ⟨k, h⟩
  | none =>
    rw [hs] at h
    simpa using h

/-- The loops end, a hit is reported exactly if an accepted keyword occurs in the text, and
what is reported does. -/
theorem automaton_correct (patterns : List Bytes) (text : Bytes) :
    BuildEnds (patterns.foldl acTrieInsert acTrieCreate) ∧
    ((acTrieSearch (acTrieOf patterns) text).isSome = true ↔
      ∃ k ∈ accepted patterns, k <:+: text) ∧
    ∀ k, acTrieSearch (acTrieOf patterns) text = some k →
      k ∈ accepted patterns ∧ k <:+: text := by
  refine ⟨buildEnds_insert patterns, acTrieSearch_isSome_iff patterns text, fun k hk => ?_⟩
  have h := acTrieSearch_spec patterns text
  rw [hk] at h
  exact h

end Aigate.KeywordSearch
