import Aigate.SuffixStates
import Aigate.Text

/-!
# The keyword automaton

Keywords are inserted into a trie, a breadth-first pass completes it to an automaton, and
one pass over a text finds the first keyword that ends in it. The automaton is in the state
of the longest suffix of the text that is a prefix of a keyword, and it reports a hit
exactly when some keyword occurs in the text.
-/
namespace Aigate.KeywordTrie
open Text SuffixStates

/-- The 256 transitions of a node: the entries that were written, in byte order, and the
target of all the others. An unset entry, -1 in the table, is `none`. -/
structure Row where
  entries : List (Char × ℕ)
  others : Option ℕ

def Row.get (row : Row) (c : Char) : Option ℕ :=
  match row.entries.lookup c with
  | some target => some target
  | none => row.others

/-- Write an entry that was not written before, at its place in byte order. -/
def insertEntry (c : Char) (target : ℕ) : List (Char × ℕ) → List (Char × ℕ)
  | [] => [(c, target)]
  | e :: rest => if c ≤ e.1 then (c, target) :: e :: rest else e :: insertEntry c target rest

/-- An AC automaton node: transitions, failure link and the keyword that ends here. -/
structure AcNode where
  next : Row
  fail : ℕ
  matchedKeyword : Option Bytes

def AcNode.fresh : AcNode := ⟨⟨[], none⟩, 0, none⟩

/-- The node pool; index 0 is the root. -/
structure AcTrie where
  nodes : List AcNode

def AcTrie.nodeCount (trie : AcTrie) : ℕ := trie.nodes.length

def AcTrie.node (trie : AcTrie) (i : ℕ) : AcNode := trie.nodes.getD i AcNode.fresh

/-- Update a node of the pool in place. -/
def AcTrie.modify (trie : AcTrie) (i : ℕ) (f : AcNode → AcNode) : AcTrie :=
  ⟨trie.nodes.modify i f⟩

/-- Take a new node from the pool. -/
def AcTrie.push (trie : AcTrie) : AcTrie := ⟨trie.nodes ++ [AcNode.fresh]⟩

def acTrieCreate : AcTrie := ⟨[AcNode.fresh]⟩

def AcNode.setNext (c : Char) (target : ℕ) (n : AcNode) : AcNode :=
  { n with next := { n.next with entries := insertEntry c target n.next.entries } }

def AcNode.attach (keyword : Bytes) (n : AcNode) : AcNode :=
  { n with matchedKeyword := n.matchedKeyword <|> some keyword }

/-- Walk or branch along the bytes of a keyword, and attach it to the node they lead to. -/
def acTrieWalk (keyword : Bytes) : Bytes → ℕ → AcTrie → AcTrie
  | [], curr, trie => trie.modify curr (AcNode.attach keyword)
  | c :: rest, curr, trie =>
    match (trie.node curr).next.get c with
    | some next => acTrieWalk keyword rest next trie
    | none =>
      acTrieWalk keyword rest trie.nodeCount
        ((trie.push).modify curr (AcNode.setNext c trie.nodeCount))

/-- `ac_trie_insert`: an empty keyword is rejected. -/
def acTrieInsert (trie : AcTrie) (keyword : Bytes) : AcTrie :=
  if keyword = [] then trie else acTrieWalk keyword keyword 0 trie

/-- A child gets its failure link, and inherits the keyword of its failure state. -/
def AcTrie.linkChild (failRow : Row) (trie : AcTrie) (child : Char × ℕ) : AcTrie :=
  let target := (failRow.get child.1).getD 0
  trie.modify child.2 fun n =>
    { n with fail := target, matchedKeyword := n.matchedKeyword <|> (trie.node target).matchedKeyword }

/-- Missing transitions of a node are those of its failure state. -/
def Row.complete (row failRow : Row) : Row :=
  ⟨row.entries ++ failRow.entries.filter fun e => (row.entries.lookup e.1).isNone, failRow.others⟩

/-- One round of the breadth-first pass: link the children of a node, then complete it. -/
def AcTrie.expand (trie : AcTrie) (r : ℕ) : AcTrie :=
  let node := trie.node r
  let failRow := (trie.node node.fail).next
  (node.next.entries.foldl (AcTrie.linkChild failRow) trie).modify r
    fun n => { n with next := n.next.complete failRow }

/-- The breadth-first queue of `ac_trie_build_failure_links`, which holds every node once. -/
def AcTrie.breadthFirst : ℕ → List ℕ → AcTrie → AcTrie
  | 0, _, trie => trie
  | _ + 1, [], trie => trie
  | rounds + 1, r :: queue, trie =>
    breadthFirst rounds (queue ++ (trie.node r).next.entries.map Prod.snd) (trie.expand r)

/-- `ac_trie_build_failure_links`: missing transitions of the root loop back to it, its
children fail to it, and the rest is done breadth first. -/
def acTrieBuildFailureLinks (trie : AcTrie) : AcTrie :=
  if trie.nodeCount ≤ 1 then trie
  else
    let children := (trie.node 0).next.entries.map Prod.snd
    let rooted := children.foldl (fun t i => t.modify i fun n => { n with fail := 0 }) trie
    (rooted.modify 0 fun n => { n with next := { n.next with others := some 0 } }).breadthFirst
      trie.nodeCount children

/-- The single pass of `ac_trie_search` from a state. -/
def AcTrie.run (trie : AcTrie) : ℕ → Bytes → Option Bytes
  | _, [] => none
  | state, c :: rest =>
    match (trie.node state).next.get c with
    | none => none
    | some next =>
      match (trie.node next).matchedKeyword with
      | some keyword => some keyword
      | none => trie.run next rest

/-- `ac_trie_search`: the first keyword that ends in the text. -/
def acTrieSearch (trie : AcTrie) (text : Bytes) : Option Bytes :=
  if trie.nodeCount ≤ 1 then none else trie.run 0 text

theorem lookup_cons (c : Char) (e : Char × ℕ) (rest : List (Char × ℕ)) :
    (e :: rest).lookup c = if c = e.1 then some e.2 else rest.lookup c := by
  obtain ⟨k, v⟩ := e
  by_cases h : c = k
  · simp [h]
  · have hb : (c == k) = false := by simpa using h
    simp only [List.lookup, hb, h, if_false]

theorem lookup_insertEntry {c : Char} {es : List (Char × ℕ)} (h : es.lookup c = none)
    (target : ℕ) (d : Char) :
    (insertEntry c target es).lookup d = if d = c then some target else es.lookup d := by
  induction es with
  | nil => simp [insertEntry, lookup_cons]
  | cons e rest ih =>
    rw [lookup_cons] at h
    split at h
    · simp at h
    · rename_i hk
      by_cases hle : c ≤ e.1
      · simp [insertEntry, hle, lookup_cons]
      · by_cases hdk : d = e.1
        · simp [insertEntry, hle, lookup_cons, hdk, Ne.symm hk]
        · simp [insertEntry, hle, lookup_cons, hdk, ih h]

theorem keys_insertEntry (c : Char) (target : ℕ) (es : List (Char × ℕ)) :
    List.Perm ((insertEntry c target es).map Prod.fst) (c :: es.map Prod.fst) := by
  induction es with
  | nil => simp [insertEntry]
  | cons e rest ih =>
    by_cases hle : c ≤ e.1
    · simp [insertEntry, hle]
    · simp only [insertEntry, hle, if_false, List.map_cons]
      exact (List.Perm.cons _ ih).trans (List.Perm.swap _ _ _)

theorem lookup_eq_none_iff {c : Char} {es : List (Char × ℕ)} :
    es.lookup c = none ↔ c ∉ es.map Prod.fst := by
  induction es with
  | nil => simp
  | cons e rest ih =>
    rw [lookup_cons, List.map_cons, List.mem_cons, not_or, ← ih]
    by_cases hc : c = e.1 <;> simp [hc]

theorem mem_iff_lookup {es : List (Char × ℕ)} (hn : (es.map Prod.fst).Nodup) (c : Char) (u : ℕ) :
    (c, u) ∈ es ↔ es.lookup c = some u := by
  induction es with
  | nil => simp
  | cons e rest ih =>
    obtain ⟨k, v⟩ := e
    simp only [List.map_cons, List.nodup_cons] at hn
    rw [lookup_cons]
    by_cases hc : c = k
    · subst hc
      have hne : (c, u) ∉ rest := fun hm => hn.1 (List.mem_map_of_mem hm)
      simp [hne, eq_comm]
    · simp [hc, ih hn.2]

@[simp] theorem nodeCount_modify (trie : AcTrie) (i : ℕ) (f : AcNode → AcNode) :
    (trie.modify i f).nodeCount = trie.nodeCount := by
  simp [AcTrie.nodeCount, AcTrie.modify]

@[simp] theorem nodeCount_push (trie : AcTrie) : trie.push.nodeCount = trie.nodeCount + 1 := by
  simp [AcTrie.nodeCount, AcTrie.push]

theorem node_modify_self {trie : AcTrie} {i : ℕ} (hi : i < trie.nodeCount)
    (f : AcNode → AcNode) : (trie.modify i f).node i = f (trie.node i) := by
  have hi' : i < trie.nodes.length := hi
  simp [AcTrie.node, AcTrie.modify, List.getD_eq_getElem?_getD, hi']

theorem node_modify_of_ne (trie : AcTrie) {i j : ℕ} (h : j ≠ i) (f : AcNode → AcNode) :
    (trie.modify i f).node j = trie.node j := by
  simp [AcTrie.node, AcTrie.modify, List.getD_eq_getElem?_getD, h.symm]

/-- A new node is fresh, which is also what an index past the pool reads. -/
@[simp] theorem node_push (trie : AcTrie) (i : ℕ) : trie.push.node i = trie.node i := by
  unfold AcTrie.node AcTrie.push
  rcases lt_trichotomy i trie.nodes.length with h | h | h
  · simp [List.getD_eq_getElem?_getD, List.getElem?_append_left h]
  · simp [List.getD_eq_getElem?_getD, h]
  · simp [List.getD_eq_getElem?_getD, List.getElem?_eq_none, h.le, Nat.succ_le_of_lt h]

theorem node_of_le {trie : AcTrie} {i : ℕ} (h : trie.nodeCount ≤ i) :
    trie.node i = AcNode.fresh := by
  simp [AcTrie.node, List.getD_eq_getElem?_getD, List.getElem?_eq_none (show trie.nodes.length ≤ i from h)]

/-- Every node is the end of one word, the bytes on its path from the root. -/
structure Labelled (trie : AcTrie) (label : ℕ → Bytes) (keywords : List Bytes) : Prop where
  pos : 0 < trie.nodeCount
  root : label 0 = []
  inj : ∀ i < trie.nodeCount, ∀ j < trie.nodeCount, label i = label j → i = j
  parent : ∀ i < trie.nodeCount, ∀ w c, label i = w ++ [c] → ∃ p < trie.nodeCount, label p = w
  unset : ∀ i < trie.nodeCount, (trie.node i).next.others = none
  keys : ∀ i < trie.nodeCount, ((trie.node i).next.entries.map Prod.fst).Nodup
  edge : ∀ i < trie.nodeCount, ∀ c u,
    (trie.node i).next.entries.lookup c = some u ↔ u < trie.nodeCount ∧ label u = label i ++ [c]
  attached : ∀ i < trie.nodeCount,
    (trie.node i).matchedKeyword = if label i ∈ keywords then some (label i) else none
  spelled : ∀ k ∈ keywords, ∃ i < trie.nodeCount, label i = k
  nonempty : ∀ k ∈ keywords, k ≠ []

theorem get_of_unset {row : Row} (h : row.others = none) (c : Char) :
    row.get c = row.entries.lookup c := by
  unfold Row.get
  cases row.entries.lookup c <;> simp [h]

theorem labelled_create : Labelled acTrieCreate (fun _ => []) [] where
  pos := Nat.one_pos
  root := rfl
  inj i hi j hj _ := by
    simp only [AcTrie.nodeCount, acTrieCreate, List.length_singleton] at hi hj
    omega
  parent i _ w c h := by simp at h
  unset i hi := by
    obtain rfl : i = 0 := by simpa [AcTrie.nodeCount, acTrieCreate] using hi
    rfl
  keys i hi := by
    obtain rfl : i = 0 := by simpa [AcTrie.nodeCount, acTrieCreate] using hi
    exact List.nodup_nil
  edge i hi c u := by
    obtain rfl : i = 0 := by simpa [AcTrie.nodeCount, acTrieCreate] using hi
    simp [AcTrie.node, acTrieCreate, AcNode.fresh]
  attached i hi := by
    obtain rfl : i = 0 := by simpa [AcTrie.nodeCount, acTrieCreate] using hi
    rfl
  spelled := by simp
  nonempty := by simp

/-- Branching off a new node keeps the labels. -/
theorem labelled_branch {trie : AcTrie} {label : ℕ → Bytes} {keywords : List Bytes}
    (h : Labelled trie label keywords) {curr : ℕ} (hc : curr < trie.nodeCount) {c : Char}
    (hnone : (trie.node curr).next.entries.lookup c = none) :
    Labelled (trie.push.modify curr (AcNode.setNext c trie.nodeCount))
      (Function.update label trie.nodeCount (label curr ++ [c])) keywords := by
  have hlabel : ∀ i < trie.nodeCount,
      Function.update label trie.nodeCount (label curr ++ [c]) i = label i :=
    fun i hi => Function.update_of_ne (by omega) _ _
  -- no node spells the new word yet
  have hnew : ∀ i < trie.nodeCount, label i ≠ label curr ++ [c] := by
    intro i hi heq
    rw [(h.edge curr hc c i).mpr ⟨hi, heq⟩] at hnone
    exact absurd hnone (by simp)
  have hnode : ∀ i, i ≠ curr →
      (trie.push.modify curr (AcNode.setNext c trie.nodeCount)).node i = trie.node i :=
    fun i hi => by rw [node_modify_of_ne _ hi, node_push]
  have hcurr : (trie.push.modify curr (AcNode.setNext c trie.nodeCount)).node curr
      = AcNode.setNext c trie.nodeCount (trie.node curr) := by
    rw [node_modify_self (by simpa using Nat.lt_succ_of_lt hc), node_push]
  have hlast : trie.node trie.nodeCount = AcNode.fresh := node_of_le le_rfl
  have hne : trie.nodeCount ≠ curr := by omega
  constructor
  case pos => simp
  case root => rw [hlabel 0 h.pos, h.root]
  case inj =>
    intro i hi j hj hij
    simp only [nodeCount_modify, nodeCount_push] at hi hj
    rcases Nat.lt_succ_iff_lt_or_eq.mp hi with hi | rfl
    · rcases Nat.lt_succ_iff_lt_or_eq.mp hj with hj | rfl
      · rw [hlabel i hi, hlabel j hj] at hij
        exact h.inj i hi j hj hij
      · rw [hlabel i hi, Function.update_self] at hij
        exact absurd hij (hnew i hi)
    · rcases Nat.lt_succ_iff_lt_or_eq.mp hj with hj | rfl
      · rw [hlabel j hj, Function.update_self] at hij
        exact absurd hij.symm (hnew j hj)
      · rfl
  case parent =>
    intro i hi w d hw
    simp only [nodeCount_modify, nodeCount_push] at hi ⊢
    rcases Nat.lt_succ_iff_lt_or_eq.mp hi with hi | rfl
    · rw [hlabel i hi] at hw
      obtain ⟨p, hp, hpw⟩ := h.parent i hi w d hw
      exact ⟨p, by omega, by rw [hlabel p hp, hpw]⟩
    · rw [Function.update_self] at hw
      exact ⟨curr, by omega, by rw [hlabel curr hc, (List.append_inj' hw rfl).1]⟩
  case unset =>
    intro i hi
    simp only [nodeCount_modify, nodeCount_push] at hi
    by_cases hic : i = curr
    · subst hic
      rw [hcurr]
      exact h.unset i hc
    · rw [hnode i hic]
      rcases Nat.lt_succ_iff_lt_or_eq.mp hi with hi | rfl
      · exact h.unset i hi
      · rw [hlast]
        rfl
  case keys =>
    intro i hi
    simp only [nodeCount_modify, nodeCount_push] at hi
    by_cases hic : i = curr
    · subst hic
      rw [hcurr]
      refine (keys_insertEntry c _ _).nodup_iff.mpr (List.nodup_cons.mpr ⟨?_, h.keys i hc⟩)
      exact lookup_eq_none_iff.mp hnone
    · rw [hnode i hic]
      rcases Nat.lt_succ_iff_lt_or_eq.mp hi with hi | rfl
      · exact h.keys i hi
      · rw [hlast]
        exact List.nodup_nil
  case edge =>
    intro i hi d u
    simp only [nodeCount_modify, nodeCount_push] at hi ⊢
    rcases Nat.lt_succ_iff_lt_or_eq.mp hi with hi | rfl
    · rw [hlabel i hi]
      by_cases hic : i = curr
      · subst hic
        rw [hcurr]
        simp only [AcNode.setNext, lookup_insertEntry hnone]
        by_cases hd : d = c
        · subst hd
          simp only [if_true, Option.some.injEq]
          constructor
          · rintro rfl
            exact ⟨by omega, Function.update_self _ _ _⟩
          · rintro ⟨hu, hl⟩
            rcases Nat.lt_succ_iff_lt_or_eq.mp hu with hu | rfl
            · rw [hlabel u hu] at hl
              exact absurd hl (hnew u hu)
            · rfl
        · simp only [hd, if_false, h.edge i hi d u]
          constructor
          · rintro ⟨hu, hl⟩
            exact ⟨by omega, by rw [hlabel u hu, hl]⟩
          · rintro ⟨hu, hl⟩
            rcases Nat.lt_succ_iff_lt_or_eq.mp hu with hu | rfl
            · exact ⟨hu, by rwa [hlabel u hu] at hl⟩
            · rw [Function.update_self] at hl
              have := (List.append_inj' hl rfl).2
              simp only [List.cons.injEq, and_true] at this
              exact absurd this.symm hd
      · rw [hnode i hic, h.edge i hi d u]
        constructor
        · rintro ⟨hu, hl⟩
          exact ⟨by omega, by rw [hlabel u hu, hl]⟩
        · rintro ⟨hu, hl⟩
          rcases Nat.lt_succ_iff_lt_or_eq.mp hu with hu | rfl
          · exact ⟨hu, by rwa [hlabel u hu] at hl⟩
          · rw [Function.update_self] at hl
            exact absurd (h.inj _ hc _ hi (List.append_inj' hl rfl).1).symm hic
    · rw [hnode _ hne, hlast, Function.update_self]
      simp only [AcNode.fresh, List.lookup_nil, reduceCtorEq, false_iff, not_and]
      intro hu hl
      rcases Nat.lt_succ_iff_lt_or_eq.mp hu with hu | rfl
      · rw [hlabel u hu] at hl
        obtain ⟨p, hp, hpw⟩ := h.parent u hu _ _ hl
        exact hnew p hp hpw
      · rw [Function.update_self] at hl
        simpa using congrArg List.length hl
  case attached =>
    intro i hi
    simp only [nodeCount_modify, nodeCount_push] at hi
    rcases Nat.lt_succ_iff_lt_or_eq.mp hi with hi | rfl
    · rw [hlabel i hi, ← h.attached i hi]
      by_cases hic : i = curr
      · subst hic
        rw [hcurr]
        rfl
      · rw [hnode i hic]
    · rw [hnode _ hne, hlast, Function.update_self, if_neg]
      · rfl
      · intro hk
        obtain ⟨i, hi, hl⟩ := h.spelled _ hk
        exact hnew i hi hl
  case spelled =>
    intro k hk
    obtain ⟨i, hi, hl⟩ := h.spelled k hk
    exact ⟨i, by simp only [nodeCount_modify, nodeCount_push]; omega, by rw [hlabel i hi, hl]⟩
  case nonempty => exact h.nonempty

/-- Attaching a keyword to the node that it spells. -/
theorem labelled_attach {trie : AcTrie} {label : ℕ → Bytes} {keywords : List Bytes}
    (h : Labelled trie label keywords) {curr : ℕ} (hc : curr < trie.nodeCount)
    (hne : label curr ≠ []) :
    Labelled (trie.modify curr (AcNode.attach (label curr))) label (label curr :: keywords) := by
  have hnext : ∀ i, ((trie.modify curr (AcNode.attach (label curr))).node i).next
      = (trie.node i).next := by
    intro i
    by_cases hic : i = curr
    · subst hic
      rw [node_modify_self hc]
      rfl
    · rw [node_modify_of_ne _ hic]
  constructor
  case pos => simpa using h.pos
  case root => exact h.root
  case inj => simpa using h.inj
  case parent => simpa using h.parent
  case unset => simpa only [nodeCount_modify, hnext] using h.unset
  case keys => simpa only [nodeCount_modify, hnext] using h.keys
  case edge => simpa only [nodeCount_modify, hnext] using h.edge
  case attached =>
    intro i hi
    rw [nodeCount_modify] at hi
    by_cases hic : i = curr
    · subst hic
      rw [node_modify_self hc, if_pos List.mem_cons_self]
      unfold AcNode.attach
      rw [h.attached i hc]
      split <;> rfl
    · rw [node_modify_of_ne _ hic, h.attached i hi]
      have hl : label i ≠ label curr := fun he => hic (h.inj i hi curr hc he)
      simp [hl]
  case spelled =>
    intro k hk
    rw [nodeCount_modify]
    rcases List.mem_cons.mp hk with rfl | hk
    · exact ⟨curr, hc, rfl⟩
    · exact h.spelled k hk
  case nonempty =>
    intro k hk
    rcases List.mem_cons.mp hk with rfl | hk
    · exact hne
    · exact h.nonempty k hk

theorem labelled_walk {keyword : Bytes} (hne : keyword ≠ []) {keywords : List Bytes}
    (rest : Bytes) (curr : ℕ) (trie : AcTrie) (label : ℕ → Bytes)
    (h : Labelled trie label keywords) (hc : curr < trie.nodeCount)
    (hk : label curr ++ rest = keyword) :
    ∃ label', Labelled (acTrieWalk keyword rest curr trie) label' (keyword :: keywords) := by
  induction rest generalizing curr trie label with
  | nil =>
    rw [List.append_nil] at hk
    subst hk
    exact ⟨label, labelled_attach h hc hne⟩
  | cons c rest ih =>
    have hget := get_of_unset (h.unset curr hc) c
    cases hnext : (trie.node curr).next.entries.lookup c with
    | some next =>
      obtain ⟨hlt, hl⟩ := (h.edge curr hc c next).mp hnext
      rw [acTrieWalk, hget, hnext]
      exact ih next trie label h hlt (by rw [hl, ← hk, List.append_assoc]; rfl)
    | none =>
      rw [acTrieWalk, hget, hnext]
      refine ih trie.nodeCount _ _ (labelled_branch h hc hnext) (by simp) ?_
      rw [Function.update_self, ← hk, List.append_assoc]
      rfl

/-- The keywords that an insertion run accepts. -/
def accepted (patterns : List Bytes) : List Bytes := patterns.filter (· ≠ [])

/-- Inserting keywords one after the other spells each of them. -/
theorem labelled_insert (patterns : List Bytes) :
    ∃ label keywords, Labelled (patterns.foldl acTrieInsert acTrieCreate) label keywords ∧
      ∀ k, k ∈ keywords ↔ k ∈ accepted patterns := by
  suffices h : ∀ (trie : AcTrie) label keywords, Labelled trie label keywords →
      ∃ label' keywords', Labelled (patterns.foldl acTrieInsert trie) label' keywords' ∧
        ∀ k, k ∈ keywords' ↔ k ∈ keywords ∨ k ∈ accepted patterns by
    obtain ⟨label, keywords, hl, hk⟩ := h acTrieCreate _ [] labelled_create
    exact ⟨label, keywords, hl, by simpa using hk⟩
  induction patterns with
  | nil => exact fun trie label keywords h => ⟨label, keywords, h, by simp [accepted]⟩
  | cons p patterns ih =>
    intro trie label keywords h
    by_cases hp : p = []
    · obtain ⟨label', keywords', hl, hk⟩ := ih trie label keywords h
      exact ⟨label', keywords', by simpa [acTrieInsert, hp] using hl,
        by simpa [accepted, hp] using hk⟩
    · obtain ⟨label₁, h₁⟩ := labelled_walk hp p 0 trie label h h.pos (by simp [h.root])
      obtain ⟨label', keywords', hl, hk⟩ := ih _ label₁ (p :: keywords) h₁
      refine ⟨label', keywords', by simpa [acTrieInsert, hp] using hl, fun k => ?_⟩
      rw [hk k]
      simp only [accepted, List.mem_cons, List.filter_cons, hp, ne_eq, not_false_eq_true,
        decide_true, if_true]
      tauto

end Aigate.KeywordTrie
