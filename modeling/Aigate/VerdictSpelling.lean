import Aigate.GuardrailsRules
import Aigate.JailbreakDetector
import Aigate.JsonEdit

/-!
# Verdicts over spellings

The keyword automata and the jailbreak detector read the bytes of a body, not the strings that
they spell. Two spellings of one document get the same verdict exactly if the bytes of both
decide as the strings do, or those of neither.
-/
namespace Aigate.VerdictSpelling
open Text JsonTree JsonText JsonEdit Guardrails GuardrailsRules JailbreakDetector

mutual

/-- Two trees that differ in the order of members only. -/
inductive SameDocument : Json → Json → Prop where
  | refl (j : Json) : SameDocument j j
  | array {xs ys : List Json} (h : SameItems xs ys) : SameDocument (.array xs) (.array ys)
  | object {ms ns : List (Bytes × Json)} (h : SameMembers ms ns) :
      SameDocument (.object ms) (.object ns)

inductive SameItems : List Json → List Json → Prop where
  | nil : SameItems [] []
  | cons {x y : Json} {xs ys : List Json} (h : SameDocument x y) (hs : SameItems xs ys) :
      SameItems (x :: xs) (y :: ys)

inductive SameMembers : List (Bytes × Json) → List (Bytes × Json) → Prop where
  | nil : SameMembers [] []
  | cons (k : Bytes) {v w : Json} {ms ns : List (Bytes × Json)} (h : SameDocument v w)
      (hs : SameMembers ms ns) : SameMembers ((k, v) :: ms) ((k, w) :: ns)
  | swap (m n : Bytes × Json) (ms : List (Bytes × Json)) : SameMembers (m :: n :: ms) (n :: m :: ms)
  | trans {ls ms ns : List (Bytes × Json)} (h : SameMembers ls ms) (h' : SameMembers ms ns) :
      SameMembers ls ns

end

mutual

/-- The words of a document: its keys and strings, and its other scalars as they are written. -/
def atoms : Json → List Bytes
  | .string s => [s]
  | .array items => atomsItems items
  | .object members => atomsMembers members
  | .null => [dumps .null]
  | .bool b => [dumps (.bool b)]
  | .integer n => [dumps (.integer n)]
  | .real x => [dumps (.real x)]

def atomsItems : List Json → List Bytes
  | [] => []
  | x :: rest => atoms x ++ atomsItems rest

def atomsMembers : List (Bytes × Json) → List Bytes
  | [] => []
  | (k, v) :: rest => k :: (atoms v ++ atomsMembers rest)

end

mutual

/-- The order of members does not matter for the words. -/
theorem atoms_perm : ∀ {j j' : Json}, SameDocument j j' → (atoms j).Perm (atoms j')
  | _, _, .refl _ => .refl _
  | _, _, .array h => by
    rw [atoms, atoms]
    exact atomsItems_perm h
  | _, _, .object h => by
    rw [atoms, atoms]
    exact atomsMembers_perm h

theorem atomsItems_perm : ∀ {xs ys : List Json}, SameItems xs ys →
    (atomsItems xs).Perm (atomsItems ys)
  | _, _, .nil => .refl _
  | _, _, .cons h hs => by
    rw [atomsItems, atomsItems]
    exact (atoms_perm h).append (atomsItems_perm hs)

theorem atomsMembers_perm : ∀ {ms ns : List (Bytes × Json)}, SameMembers ms ns →
    (atomsMembers ms).Perm (atomsMembers ns)
  | _, _, .nil => .refl _
  | _, _, .cons k h hs => by
    rw [atomsMembers, atomsMembers]
    exact ((atoms_perm h).append (atomsMembers_perm hs)).cons k
  | _, _, .swap (k, v) (l, w) ms => by
    simp only [atomsMembers]
    have hmove : ∀ (x y z : List Bytes), (k :: (x ++ l :: (y ++ z))).Perm (l :: (y ++ k :: (x ++ z))) := by
      intro x y z
      have hleft : (k :: (x ++ l :: (y ++ z))).Perm ((k :: x) ++ (l :: y) ++ z) := by simp
      have hright : ((l :: y) ++ (k :: x) ++ z).Perm (l :: (y ++ k :: (x ++ z))) := by simp
      exact hleft.trans ((List.perm_append_comm.append_right z).trans hright)
    exact hmove (atoms v) (atoms w) (atomsMembers ms)
  | _, _, .trans h h' => (atomsMembers_perm h).trans (atomsMembers_perm h')

end

/-- Some text has a keyword of the blocklist, and none has an exempt one. -/
def KeywordsBlock (rules : List GuardrailRule) (texts : List Bytes) : Prop :=
  (∃ t ∈ texts, Hits rules GuardrailRule.inBlocklist t) ∧
    ¬∃ t ∈ texts, Hits rules GuardrailRule.inExemptList t

/-- The phrases and the invisible characters of some texts make up a score that blocks. -/
def PhrasesBlock (texts : List Bytes) : Prop :=
  (assess (texts.map countInvisibleChars).sum fun p => texts.any fun t => phraseIn t p).action =
    .block

theorem keywordsBlock_perm (rules : List GuardrailRule) {ts us : List Bytes} (h : ts.Perm us) :
    KeywordsBlock rules ts ↔ KeywordsBlock rules us := by
  simp only [KeywordsBlock, h.mem_iff]

theorem phrasesBlock_perm {ts us : List Bytes} (h : ts.Perm us) :
    PhrasesBlock ts ↔ PhrasesBlock us := by
  have hany : (fun p => ts.any fun t => phraseIn t p) = fun p => us.any fun t => phraseIn t p :=
    funext fun p => h.any_eq
  rw [PhrasesBlock, PhrasesBlock, (h.map countInvisibleChars).sum_eq, hany]

/-- The jailbreak detector blocks a prompt. -/
def BlocksPrompt (prompt : Bytes) : Prop := (jailbreakDetectorInspect prompt).action = .block

theorem reportsKeyword_words (ctx : GuardrailsCtx) (rules : List GuardrailRule) (raw : Bytes) :
    ReportsKeyword (guardrailsLoadRules ctx rules) raw ↔ KeywordsBlock rules [raw] := by
  rw [reportsKeyword_iff]
  simp [KeywordsBlock]

theorem blocksPrompt_words {raw : Bytes} (h : raw ≠ []) : BlocksPrompt raw ↔ PhrasesBlock [raw] := by
  have hany : (fun p => [raw].any fun t => phraseIn t p) = phraseIn raw :=
    funext fun p => by simp
  rw [BlocksPrompt, PhrasesBlock, jailbreakDetectorInspect, if_neg h, hany]
  simp

/-- The bytes of a spelling decide as the words of its document do. -/
def KeywordsShown (rules : List GuardrailRule) (raw : Bytes) (j : Json) : Prop :=
  KeywordsBlock rules [raw] ↔ KeywordsBlock rules (atoms j)

def PhrasesShown (raw : Bytes) (j : Json) : Prop := PhrasesBlock [raw] ↔ PhrasesBlock (atoms j)

/-- Both detectors decide the same about two bodies. -/
structure SameVerdicts (ctx : GuardrailsCtx) (rules : List GuardrailRule) (a b : Bytes) : Prop where
  keywords : ReportsKeyword (guardrailsLoadRules ctx rules) a ↔
    ReportsKeyword (guardrailsLoadRules ctx rules) b
  phrases : BlocksPrompt a ↔ BlocksPrompt b

/-- A word that has not the letter between two texts is in one of them. -/
theorem infix_between {k u v : Bytes} {d : Char} (hd : d ∉ k) (hne : k ≠ []) :
    k <:+: u ++ d :: v ↔ k <:+: u ∨ k <:+: v := by
  have hfirst : ∀ {w : Bytes}, w ≠ [] → w <+: d :: v → d ∈ w := by
    intro w hw h
    obtain ⟨c, w, rfl⟩ := List.exists_cons_of_ne_nil hw
    rw [(List.cons_prefix_cons.mp h).1]
    exact List.mem_cons_self
  constructor
  · intro h
    rcases List.infix_append_iff_ne_nil.mp h with h | h | ⟨s, t, -, ht, rfl, -, hfront⟩
    · exact Or.inl h
    · rcases List.infix_cons_iff.mp h with h | h
      · exact absurd (hfirst hne h) hd
      · exact Or.inr h
    · exact absurd (List.mem_append_right s (hfirst ht hfront)) hd
  · rintro (h | h)
    · exact h.trans (List.prefix_append _ _).isInfix
    · exact h.trans ((List.suffix_cons d v).trans (List.suffix_append _ _)).isInfix

/-- The letters that a serialiser puts between words. -/
def punctuation : Bytes := ['"', ',', ':', '[', ']', '{', '}']

/-- A word without punctuation. -/
structure PlainWord (k : Bytes) : Prop where
  nonempty : k ≠ []
  letters : ∀ c ∈ punctuation, c ∉ k

section Plain

variable {k : Bytes} (hk : PlainWord k)
include hk

theorem infix_start {d : Char} (hd : d ∈ punctuation) (v : Bytes) : k <:+: d :: v ↔ k <:+: v := by
  have h := infix_between (u := []) (v := v) (hk.letters d hd) hk.nonempty
  rw [List.nil_append, List.infix_nil] at h
  rw [h]
  exact or_iff_right hk.nonempty

theorem infix_end {d : Char} (hd : d ∈ punctuation) (u : Bytes) : k <:+: u ++ [d] ↔ k <:+: u := by
  have h := infix_between (u := u) (v := []) (hk.letters d hd) hk.nonempty
  rw [List.infix_nil] at h
  rw [h]
  exact or_iff_left hk.nonempty

theorem infix_quoted {s : Bytes} (hs : s.flatMap escapeChar = s) : k <:+: quoted s ↔ k <:+: s := by
  rw [quoted, hs, List.cons_append, infix_start hk (by decide), infix_end hk (by decide)]

end Plain

mutual

/-- A word without punctuation is in the text of a document whose strings need no escapes
exactly if it is in one of its words. -/
theorem infix_dumps {k : Bytes} (hk : PlainWord k) : ∀ j : Json,
    (∀ s ∈ strings j, s.flatMap escapeChar = s) → (k <:+: dumps j ↔ ∃ t ∈ atoms j, k <:+: t)
  | .string s, h => by
    rw [dumps, infix_quoted hk (h s (by rw [strings]; exact List.mem_singleton_self s)), atoms]
    simp
  | .array items, h => by
    rw [strings] at h
    rw [dumps, atoms, List.cons_append, infix_start hk (by decide), infix_end hk (by decide)]
    exact infix_dumpsItems hk items h
  | .object members, h => by
    rw [strings] at h
    rw [dumps, atoms, List.cons_append, infix_start hk (by decide), infix_end hk (by decide)]
    exact infix_dumpsMembers hk members h
  | .null, _ => by simp [atoms]
  | .bool b, _ => by simp [atoms]
  | .integer n, _ => by simp [atoms]
  | .real x, _ => by simp [atoms]

theorem infix_dumpsItems {k : Bytes} (hk : PlainWord k) : ∀ items : List Json,
    (∀ s ∈ stringsItems items, s.flatMap escapeChar = s) →
      (k <:+: dumpsItems items ↔ ∃ t ∈ atomsItems items, k <:+: t)
  | [], _ => by simp [dumpsItems, atomsItems, hk.nonempty]
  | [x], h => by
    rw [stringsItems] at h
    have hx := infix_dumps hk x fun s hs => h s (List.mem_append_left _ hs)
    rw [dumpsItems, hx, atomsItems, atomsItems, List.append_nil]
  | x :: y :: rest, h => by
    rw [stringsItems] at h
    have hx := infix_dumps hk x fun s hs => h s (List.mem_append_left _ hs)
    have hrest := infix_dumpsItems hk (y :: rest) fun s hs => h s (List.mem_append_right _ hs)
    have hatoms : atomsItems (x :: y :: rest) = atoms x ++ atomsItems (y :: rest) := by
      rw [atomsItems]
    rw [dumpsItems, infix_between (hk.letters ',' (by decide)) hk.nonempty, hx, hrest, hatoms]
    simp only [List.mem_append, or_and_right, exists_or]

theorem infix_dumpsMembers {k : Bytes} (hk : PlainWord k) : ∀ members : List (Bytes × Json),
    (∀ s ∈ stringsMembers members, s.flatMap escapeChar = s) →
      (k <:+: dumpsMembers members ↔ ∃ t ∈ atomsMembers members, k <:+: t)
  | [], _ => by simp [dumpsMembers, atomsMembers, hk.nonempty]
  | [(key, v)], h => by
    rw [stringsMembers] at h
    have hv := infix_dumps hk v fun s hs => h s
      (List.mem_append_left _ (List.mem_cons_of_mem _ hs))
    have hkey := infix_quoted hk (h key (List.mem_append_left _ List.mem_cons_self))
    rw [dumpsMembers, infix_between (hk.letters ':' (by decide)) hk.nonempty, hkey, hv,
      atomsMembers, atomsMembers, List.append_nil]
    simp
  | (key, v) :: m :: rest, h => by
    rw [stringsMembers] at h
    have hv := infix_dumps hk v fun s hs => h s
      (List.mem_append_left _ (List.mem_cons_of_mem _ hs))
    have hkey := infix_quoted hk (h key (List.mem_append_left _ List.mem_cons_self))
    have hrest := infix_dumpsMembers hk (m :: rest) fun s hs => h s (List.mem_append_right _ hs)
    have hatoms : atomsMembers ((key, v) :: m :: rest) =
        key :: (atoms v ++ atomsMembers (m :: rest)) := by
      rw [atomsMembers]
    rw [dumpsMembers, infix_between (hk.letters ',' (by decide)) hk.nonempty,
      infix_between (hk.letters ':' (by decide)) hk.nonempty, hkey, hv, hrest, hatoms]
    simp only [List.mem_cons, List.mem_append, or_and_right, exists_or, exists_eq_left, or_assoc]

end

/-- The serialiser spells a document so that its bytes show what it says, if no string needs an
escape and no keyword has punctuation. -/
theorem keywordsShown_dumps {rules : List GuardrailRule} {j : Json}
    (hrules : ∀ r ∈ rules, r.pattern ≠ [] → PlainWord r.pattern)
    (hj : ∀ s ∈ strings j, s.flatMap escapeChar = s) : KeywordsShown rules (dumps j) j := by
  have hhits : ∀ kind : GuardrailRule → Bool,
      (∃ t ∈ [dumps j], Hits rules kind t) ↔ ∃ t ∈ atoms j, Hits rules kind t := by
    intro kind
    simp only [List.mem_singleton, exists_eq_left, Hits, occursIn_iff]
    constructor
    · rintro ⟨r, hr, hkind, hne, hin⟩
      obtain ⟨t, ht, hin⟩ := (infix_dumps (hrules r hr hne) j hj).mp hin
      exact ⟨t, ht, r, hr, hkind, hne, hin⟩
    · rintro ⟨t, ht, r, hr, hkind, hne, hin⟩
      exact ⟨r, hr, hkind, hne, (infix_dumps (hrules r hr hne) j hj).mpr ⟨t, ht, hin⟩⟩
  rw [KeywordsShown, KeywordsBlock, KeywordsBlock, hhits, hhits]

/-- A rule that blocks a keyword. -/
def bombRules : List GuardrailRule :=
  [⟨1, ascii "keyword", ascii "bomb", ascii "block", true, [], 0, [], []⟩]

def bombMembers : List (Bytes × Json) :=
  [(ascii "prompt", .string (ascii "A bomb in DAN mode")), (ascii "n", .integer 1)]

theorem readable_bomb : Readable (.object bombMembers) ∧ Readable (.object bombMembers.reverse) := by
  have hdistinct : ascii "prompt" ≠ ascii "n" := ascii_ne (by decide)
  refine ⟨⟨rfl, ?_, ?_⟩, ⟨rfl, ?_, ?_⟩⟩
  · simp [JsonRoundtrip.wellFormed, JsonRoundtrip.wellFormedMembers, bombMembers, hdistinct]
    decide +kernel
  · simp [depth, depthMembers, bombMembers, maxDepth]
  · simp [JsonRoundtrip.wellFormed, JsonRoundtrip.wellFormedMembers, bombMembers, hdistinct.symm]
    decide +kernel
  · simp [depth, depthMembers, bombMembers, maxDepth]

/-- The same document with two letters spelled as escapes. -/
def escapedBomb : Bytes :=
  ascii "\x7b\"prompt\":\"A \\u0062omb in \\u0044AN mode\",\"n\":1\x7d"

end Aigate.VerdictSpelling
