import Mathlib.Data.List.Infix
import Mathlib.Data.Set.Function

/-!
# Chains of signed entries

Every entry has the number after the one before it, the tag of the entry before it, a payload,
and a tag over these three. Where the tags tell the signed messages apart, a chain of entries
whose messages were all signed is a first part of what was signed.
-/
namespace Aigate.SignedChains

variable {T S P : Type*}

/-- The tag and the number of the last entry. -/
structure Chain (T S : Type*) where
  last : T
  seq : S
  deriving DecidableEq

structure Entry (T S P : Type*) where
  seq : S
  prev : T
  payload : P
  tag : T
  deriving DecidableEq

/-- What the tag of an entry is taken over. -/
def Entry.message (e : Entry T S P) : T × S × P := (e.prev, e.seq, e.payload)

variable (mac : T × S × P → T) (next : S → S)

/-- The message of the next entry. -/
def Chain.message (c : Chain T S) (p : P) : T × S × P := (c.last, next c.seq, p)

def Chain.advance (c : Chain T S) (p : P) : Chain T S := ⟨mac (c.message next p), next c.seq⟩

/-- The next entry. -/
def Chain.sign (c : Chain T S) (p : P) : Entry T S P :=
  ⟨next c.seq, c.last, p, mac (c.message next p)⟩

/-- The entries of some payloads. -/
def Chain.signAll (c : Chain T S) : List P → List (Entry T S P)
  | [] => []
  | p :: ps => c.sign mac next p :: (c.advance mac next p).signAll ps

/-- All that has been given a tag. -/
def Chain.messages (c : Chain T S) : List P → List (T × S × P)
  | [] => []
  | p :: ps => c.message next p :: (c.advance mac next p).messages ps

/-- The entry continues the chain. -/
structure Chain.Accepts (c : Chain T S) (e : Entry T S P) : Prop where
  seq : e.seq = next c.seq
  prev : e.prev = c.last
  tag : e.tag = mac e.message

/-- The chain after some entries that continue it. -/
inductive Chain.Reads : Chain T S → List (Entry T S P) → Chain T S → Prop where
  | nil (c : Chain T S) : Reads c [] c
  | cons {c c' : Chain T S} {e : Entry T S P} {es : List (Entry T S P)}
      (h : c.Accepts mac next e) (hs : Reads ⟨e.tag, e.seq⟩ es c') : Reads c (e :: es) c'

variable {mac next}

theorem Chain.Accepts.eq_sign {c : Chain T S} {e : Entry T S P} (h : c.Accepts mac next e) :
    e = c.sign mac next e.payload ∧ (⟨e.tag, e.seq⟩ : Chain T S) = c.advance mac next e.payload := by
  obtain ⟨seq, prev, payload, tag⟩ := e
  obtain ⟨hseq, hprev, htag⟩ := h
  dsimp only [Entry.message] at hseq hprev htag
  subst hseq hprev htag
  exact ⟨rfl, rfl⟩

theorem Chain.accepts_sign (c : Chain T S) (p : P) : c.Accepts mac next (c.sign mac next p) :=
  ⟨rfl, rfl, rfl⟩

theorem Chain.Reads.append {c c' c'' : Chain T S} {es es' : List (Entry T S P)}
    (h : c.Reads mac next es c') (h' : c'.Reads mac next es' c'') :
    c.Reads mac next (es ++ es') c'' := by
  induction h with
  | nil c => exact h'
  | cons hfirst _ ih => exact .cons hfirst (ih h')

theorem Chain.Reads.concat {c c' : Chain T S} {es : List (Entry T S P)}
    (h : c.Reads mac next es c') (p : P) :
    c.Reads mac next (es ++ [c'.sign mac next p]) (c'.advance mac next p) :=
  h.append (.cons (c'.accepts_sign p) (.nil _))

theorem Chain.Reads.tag_eq {c c' : Chain T S} {es : List (Entry T S P)}
    (h : c.Reads mac next es c') : ∀ e ∈ es, e.tag = mac e.message := by
  induction h with
  | nil c => simp
  | cons hfirst _ ih => exact List.forall_mem_cons.mpr ⟨hfirst.tag, ih⟩

/-- Entries that continue a chain are those that signing their payloads gives. -/
theorem Chain.Reads.eq_signAll {c c' : Chain T S} {es : List (Entry T S P)}
    (h : c.Reads mac next es c') : es = c.signAll mac next (es.map Entry.payload) := by
  induction h with
  | nil c => rfl
  | cons hfirst _ ih =>
    obtain ⟨he, hchain⟩ := hfirst.eq_sign
    rw [List.map_cons, Chain.signAll, ← he, ← hchain]
    exact congrArg _ ih

theorem Chain.signAll_append (c : Chain T S) (ps qs : List P) :
    c.signAll mac next (ps ++ qs) =
      c.signAll mac next ps ++ (ps.foldl (Chain.advance mac next) c).signAll mac next qs := by
  induction ps generalizing c with
  | nil => rfl
  | cons p ps ih => exact congrArg (c.sign mac next p :: ·) (ih (c.advance mac next p))

/-- A message in a chain: what was signed before it, and what it was signed with. -/
theorem Chain.mem_messages {c : Chain T S} {ps : List P} {m : T × S × P}
    (h : m ∈ c.messages mac next ps) :
    ∃ before p behind, ps = before ++ p :: behind ∧
      m = (before.foldl (Chain.advance mac next) c).message next p := by
  induction ps generalizing c with
  | nil => cases h
  | cons p ps ih =>
    rcases List.mem_cons.mp h with rfl | h
    · exact ⟨[], p, ps, rfl, rfl⟩
    · obtain ⟨before, q, behind, rfl, rfl⟩ := ih h
      exact ⟨p :: before, q, behind, rfl, rfl⟩

theorem Chain.message_mem (c : Chain T S) (before : List P) (p : P) (behind : List P) :
    (before.foldl (Chain.advance mac next) c).message next p ∈
      c.messages mac next (before ++ p :: behind) := by
  induction before generalizing c with
  | nil => exact List.mem_cons_self
  | cons q before ih => exact List.mem_cons_of_mem _ (ih (c.advance mac next q))

/-- The tags tell what was signed apart, and none of them is what the chain starts with. -/
structure Chain.Distinct (mac : T × S × P → T) (next : S → S) (c : Chain T S) (ps : List P) :
    Prop where
  injective : ∀ m ∈ c.messages mac next ps, ∀ m' ∈ c.messages mac next ps, mac m = mac m' → m = m'
  start : ∀ m ∈ c.messages mac next ps, mac m ≠ c.last

theorem last_concat (c : Chain T S) (before : List P) (p : P) :
    ((before ++ [p]).foldl (Chain.advance mac next) c).last =
      mac ((before.foldl (Chain.advance mac next) c).message next p) := by
  rw [List.foldl_append]
  rfl

/-- The last tag tells how much has been signed. -/
theorem Chain.Distinct.eq_of_last {c : Chain T S} {ps : List P} (h : c.Distinct mac next ps)
    {u v : List P} (hu : u <+: ps) (hv : v <+: ps)
    (hlast : (u.foldl (Chain.advance mac next) c).last = (v.foldl (Chain.advance mac next) c).last) :
    u = v := by
  have hmem : ∀ {u : List P} {p : P}, u ++ [p] <+: ps →
      (u.foldl (Chain.advance mac next) c).message next p ∈ c.messages mac next ps := by
    rintro u p ⟨t, rfl⟩
    rw [List.append_assoc]
    exact c.message_mem u p t
  induction u using List.reverseRecOn generalizing v with
  | nil =>
    rcases List.eq_nil_or_concat' v with rfl | ⟨v, q, rfl⟩
    · rfl
    · rw [last_concat] at hlast
      exact absurd hlast.symm (h.start _ (hmem hv))
  | append_singleton u p ih =>
    rcases List.eq_nil_or_concat' v with rfl | ⟨v, q, rfl⟩
    · rw [last_concat] at hlast
      exact absurd hlast (h.start _ (hmem hu))
    · rw [last_concat, last_concat] at hlast
      have hsame := h.injective _ (hmem hu) _ (hmem hv) hlast
      obtain ⟨hprev, hrest⟩ := Prod.mk.inj hsame
      obtain ⟨-, rfl⟩ := Prod.mk.inj hrest
      rw [ih ((List.prefix_append u [p]).trans hu) ((List.prefix_append v [p]).trans hv) hprev]

/-- Where every message of the entries that continue a chain was signed, the payloads are
a first part of those that were signed. -/
theorem Chain.Distinct.payloads_prefix {c c' : Chain T S} {ps : List P}
    (h : c.Distinct mac next ps) {es : List (Entry T S P)} (hreads : c.Reads mac next es c')
    (hsigned : ∀ e ∈ es, e.message ∈ c.messages mac next ps) : es.map Entry.payload <+: ps := by
  have hes := hreads.eq_signAll
  clear hreads
  generalize hqs : es.map Entry.payload = qs at hes ⊢
  clear hqs
  subst hes
  induction qs using List.reverseRecOn with
  | nil => exact List.nil_prefix
  | append_singleton qs q ih =>
    rw [Chain.signAll_append] at hsigned
    have hfront := ih fun e he => hsigned e (List.mem_append_left _ he)
    have hlast := hsigned _ (List.mem_append_right _ List.mem_cons_self)
    obtain ⟨before, p, behind, rfl, heq⟩ := Chain.mem_messages hlast
    obtain ⟨hprev, hrest⟩ := Prod.mk.inj heq
    obtain ⟨-, rfl⟩ := Prod.mk.inj hrest
    obtain rfl := h.eq_of_last hfront (List.prefix_append _ _) hprev
    exact ⟨behind, List.append_assoc qs [q] behind⟩

end Aigate.SignedChains
