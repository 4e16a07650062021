import Mathlib.Data.List.Nodup
import Mathlib.Data.List.Perm.Basic

/-!
# A bounded map that evicts what was used least recently

The entries are listed from the one that was used last. What the list must be is said by the
history of the operations alone: which value was put last under a key, and how long ago a key
was used. Whatever was put is an entry still, or was given up once.
-/
namespace Aigate.RecencyList

variable {K V : Type*} [DecidableEq K]

inductive Op (K V : Type*) where
  | put (k : K) (v : V)
  | get (k : K)
  | remove (k : K)

structure Cache (K V : Type*) where
  entries : List (K × V)
  evicted : List V

def Cache.empty : Cache K V := ⟨[], []⟩

def lookup (l : List (K × V)) (k : K) : Option V := (l.find? fun e => e.1 = k).map (·.2)

def without (l : List (K × V)) (k : K) : List (K × V) := l.filter fun e => e.1 ≠ k

/-- A value is put in front. It takes the place of the one under its key, or, if the map is
full, of the last one. -/
def Cache.put (cap : ℕ) (c : Cache K V) (k : K) (v : V) : Cache K V :=
  match lookup c.entries k with
  | some old => ⟨(k, v) :: without c.entries k, c.evicted ++ [old]⟩
  | none =>
    if c.entries.length = cap then
      ⟨(k, v) :: c.entries.dropLast, c.evicted ++ (c.entries.getLast?.map (·.2)).toList⟩
    else ⟨(k, v) :: c.entries, c.evicted⟩

/-- An entry that is used comes to the front. -/
def Cache.get (c : Cache K V) (k : K) : Cache K V :=
  match lookup c.entries k with
  | some v => { c with entries := (k, v) :: without c.entries k }
  | none => c

def Cache.remove (c : Cache K V) (k : K) : Cache K V :=
  match lookup c.entries k with
  | some v => ⟨without c.entries k, c.evicted ++ [v]⟩
  | none => c

def Cache.step (cap : ℕ) (c : Cache K V) : Op K V → Cache K V
  | .put k v => c.put cap k v
  | .get k => c.get k
  | .remove k => c.remove k

/-- The map after a history, whose first operation is the last one that was done. -/
def after (cap : ℕ) : List (Op K V) → Cache K V
  | [] => .empty
  | op :: history => (after cap history).step cap op

/-- The entry that an operation takes out. -/
def Cache.displaced (cap : ℕ) (c : Cache K V) : Op K V → Option (K × V)
  | .put k _ =>
    match lookup c.entries k with
    | some old => some (k, old)
    | none => if c.entries.length = cap then c.entries.getLast? else none
  | .get _ => none
  | .remove k => (lookup c.entries k).map fun v => (k, v)

/-! ### What a history says -/

def lastPut (k : K) : List (Op K V) → Option V
  | [] => none
  | .put k' v :: history => if k' = k then some v else lastPut k history
  | _ :: history => lastPut k history

def Op.uses (k : K) : Op K V → Bool
  | .put k' _ => k' = k
  | .get k' => k' = k
  | .remove _ => false

/-- How many operations ago a key was used. -/
def age (k : K) : List (Op K V) → ℕ
  | [] => 0
  | op :: history => if op.uses k then 0 else age k history + 1

def Op.value : Op K V → Option V
  | .put _ v => some v
  | _ => none

/-- The values that were put. -/
def puts (history : List (Op K V)) : List V := history.filterMap Op.value

/-- What the entries are to be after a history. -/
structure Faithful (cap : ℕ) (history : List (Op K V)) (c : Cache K V) : Prop where
  distinct : (c.entries.map (·.1)).Nodup
  bounded : c.entries.length ≤ cap
  ordered : c.entries.Pairwise fun a b => age a.1 history < age b.1 history
  latest : ∀ e ∈ c.entries, lastPut e.1 history = some e.2
  kept : (puts history).Perm (c.entries.map (·.2) ++ c.evicted)

/-! ### Entries -/

theorem lookup_mem {l : List (K × V)} {k : K} {v : V} (h : lookup l k = some v) : (k, v) ∈ l := by
  obtain ⟨e, he, rfl⟩ := Option.map_eq_some_iff.mp h
  have hk : e.1 = k := by simpa using List.find?_some he
  rw [← hk]
  exact List.mem_of_find?_eq_some he

theorem lookup_none {l : List (K × V)} {k : K} : lookup l k = none ↔ ∀ e ∈ l, e.1 ≠ k := by
  unfold lookup
  simp [List.find?_eq_none]

theorem mem_without {l : List (K × V)} {k : K} {e : K × V} :
    e ∈ without l k ↔ e ∈ l ∧ e.1 ≠ k := by
  unfold without
  simp

theorem without_sublist (l : List (K × V)) (k : K) : (without l k).Sublist l := List.filter_sublist

theorem without_of_lookup_none {l : List (K × V)} {k : K} (h : lookup l k = none) :
    without l k = l :=
  List.filter_eq_self.mpr fun e he => decide_eq_true (lookup_none.mp h e he)

/-- The entry under a key, and the others. -/
theorem perm_without {l : List (K × V)} {k : K} {v : V} (hnodup : (l.map (·.1)).Nodup)
    (h : lookup l k = some v) : l.Perm ((k, v) :: without l k) := by
  induction l with
  | nil => cases h
  | cons e l ih =>
    obtain ⟨hfresh, hrest⟩ := List.nodup_cons.mp hnodup
    by_cases hk : e.1 = k
    · have hv : e.2 = v := by simpa [lookup, hk] using h
      have hnone : lookup l k = none := lookup_none.mpr fun e' he' hk' =>
        hfresh (List.mem_map.mpr ⟨e', he', hk'.trans hk.symm⟩)
      have hhead : without (e :: l) k = without l k := by simp [without, hk]
      rw [hhead, without_of_lookup_none hnone, ← hk, ← hv]
    · have hlater : lookup l k = some v := by simpa [lookup, hk] using h
      have hhead : without (e :: l) k = e :: without l k := by simp [without, hk]
      rw [hhead]
      exact ((ih hrest hlater).cons e).trans (List.Perm.swap _ _ _)

theorem lookup_of_mem {l : List (K × V)} (hnodup : (l.map (·.1)).Nodup) {e : K × V} (he : e ∈ l) :
    lookup l e.1 = some e.2 := by
  cases h : lookup l e.1 with
  | none => exact absurd rfl (lookup_none.mp h e he)
  | some v =>
    have hpair := List.inj_on_of_nodup_map hnodup (lookup_mem h) he rfl
    rw [← congrArg Prod.snd hpair]

/-! ### Every operation -/

/-- An operation gives up what it takes out, -/
theorem evicted_step (cap : ℕ) (c : Cache K V) (op : Op K V) :
    (c.step cap op).evicted = c.evicted ++ ((c.displaced cap op).map (·.2)).toList := by
  cases op with
  | put k v =>
    simp only [Cache.step, Cache.put, Cache.displaced]
    cases lookup c.entries k with
    | some old => rfl
    | none =>
      dsimp only
      split
      · rfl
      · exact (List.append_nil _).symm
  | get k =>
    simp only [Cache.step, Cache.get, Cache.displaced]
    cases lookup c.entries k <;> exact (List.append_nil _).symm
  | remove k =>
    simp only [Cache.step, Cache.remove, Cache.displaced]
    cases lookup c.entries k with
    | some v => rfl
    | none => exact (List.append_nil _).symm

/-- and keeps every other entry. -/
theorem mem_step {cap : ℕ} {c : Cache K V} (hnodup : (c.entries.map (·.1)).Nodup) {op : Op K V}
    {e : K × V} (he : e ∈ c.entries) (hkept : ∀ d ∈ c.displaced cap op, d.1 ≠ e.1) :
    e ∈ (c.step cap op).entries := by
  have hlookup := lookup_of_mem hnodup he
  have hother : ∀ {k : K}, e.1 ≠ k → e ∈ without c.entries k := fun hne => mem_without.mpr ⟨he, hne⟩
  cases op with
  | put k v =>
    simp only [Cache.step, Cache.put]
    cases hk : lookup c.entries k with
    | some old =>
      have hne : k ≠ e.1 := hkept (k, old) (by simp [Cache.displaced, hk])
      exact List.mem_cons_of_mem _ (hother hne.symm)
    | none =>
      dsimp only
      split
      · rename_i hfull
        apply List.mem_cons_of_mem
        have hne : c.entries ≠ [] := List.ne_nil_of_mem he
        rw [← List.dropLast_append_getLast hne, List.mem_append, List.mem_singleton] at he
        refine he.resolve_right fun hlast => ?_
        refine hkept (c.entries.getLast hne) ?_ (by rw [hlast])
        simp [Cache.displaced, hk, hfull, List.getLast?_eq_some_getLast hne]
      · exact List.mem_cons_of_mem _ he
  | get k =>
    simp only [Cache.step, Cache.get]
    cases hk : lookup c.entries k with
    | some v =>
      by_cases hne : e.1 = k
      · rw [hne, hk] at hlookup
        have heq : e = (k, v) := Prod.ext hne (Option.some.inj hlookup).symm
        rw [heq]
        exact List.mem_cons_self
      · exact List.mem_cons_of_mem _ (hother hne)
    | none => exact he
  | remove k =>
    simp only [Cache.step, Cache.remove]
    cases hk : lookup c.entries k with
    | some v =>
      have hne : k ≠ e.1 := hkept (k, v) (by simp [Cache.displaced, hk])
      exact hother hne.symm
    | none => exact he

section
variable {cap : ℕ} {history : List (Op K V)} {c : Cache K V}

theorem age_of_uses {op : Op K V} {k : K} (h : op.uses k = true) : age k (op :: history) = 0 := by
  rw [age, if_pos h]

theorem age_of_not_uses {op : Op K V} {k : K} (h : op.uses k = false) :
    age k (op :: history) = age k history + 1 := by
  rw [age, if_neg (by rw [h]; exact nofun)]

/-- Entries that an operation does not use keep their order. -/
theorem ordered_others {op : Op K V} {l : List (K × V)} (hothers : ∀ e ∈ l, op.uses e.1 = false)
    (h : l.Pairwise fun a b => age a.1 history < age b.1 history) :
    l.Pairwise fun a b => age a.1 (op :: history) < age b.1 (op :: history) := by
  refine h.imp_of_mem fun ha hb hlt => ?_
  rw [age_of_not_uses (hothers _ ha), age_of_not_uses (hothers _ hb)]
  exact Nat.succ_lt_succ hlt

/-- The entry that is used is the first one. -/
theorem ordered_front {op : Op K V} {l : List (K × V)} {k : K} {v : V} (huses : op.uses k = true)
    (hothers : ∀ e ∈ l, op.uses e.1 = false)
    (h : l.Pairwise fun a b => age a.1 history < age b.1 history) :
    ((k, v) :: l).Pairwise fun a b => age a.1 (op :: history) < age b.1 (op :: history) := by
  refine List.pairwise_cons.mpr ⟨fun e he => ?_, ordered_others hothers h⟩
  rw [age_of_uses huses, age_of_not_uses (hothers e he)]
  exact Nat.succ_pos _

omit [DecidableEq K] in
theorem distinct_front {l : List (K × V)} {k : K} {v : V} (hothers : ∀ e ∈ l, e.1 ≠ k)
    (h : (l.map (·.1)).Nodup) : (((k, v) :: l).map (·.1)).Nodup := by
  refine List.nodup_cons.mpr ⟨fun hmem => ?_, h⟩
  obtain ⟨e, he, hk⟩ := List.mem_map.mp hmem
  exact hothers e he hk

/-- A value that was an entry is given up last. -/
theorem perm_given_up (v : V) (l evicted : List V) :
    (v :: l ++ evicted).Perm (l ++ (evicted ++ [v])) := by
  rw [← List.append_assoc]
  exact (List.perm_append_singleton _ _).symm

theorem length_without_lt {l : List (K × V)} {k : K} {v : V} (h : lookup l k = some v) :
    (without l k).length < l.length :=
  List.length_filter_lt_length_iff_exists.mpr ⟨(k, v), lookup_mem h, by simp⟩

theorem Faithful.put (h : Faithful cap history c) (hcap : 0 < cap) (k : K) (v : V) :
    Faithful cap (.put k v :: history) (c.put cap k v) := by
  have huses : (Op.put k v).uses k = true := decide_eq_true rfl
  have hnot : ∀ {e : K × V}, e.1 ≠ k → (Op.put k v).uses e.1 = false := fun hne =>
    decide_eq_false hne.symm
  have hlatest : ∀ e ∈ c.entries, e.1 ≠ k → lastPut e.1 (.put k v :: history) = some e.2 := by
    intro e he hne
    rw [lastPut, if_neg hne.symm]
    exact h.latest e he
  have hfront : lastPut k (.put k v :: history) = some v := if_pos rfl
  have hputs : puts (.put k v :: history) = v :: puts history := rfl
  unfold Cache.put
  cases hlookup : lookup c.entries k with
  | some old =>
    dsimp only
    have hothers : ∀ e ∈ without c.entries k, e.1 ≠ k := fun e he => (mem_without.mp he).2
    have hsub := without_sublist c.entries k
    refine ⟨distinct_front hothers (h.distinct.sublist (hsub.map _)), ?_,
      ordered_front huses (fun e he => hnot (hothers e he)) (h.ordered.sublist hsub), ?_, ?_⟩
    · have hlt := length_without_lt hlookup
      have hbounded := h.bounded
      simp only [List.length_cons]
      omega
    · intro e he
      rcases List.mem_cons.mp he with rfl | he
      · exact hfront
      · exact hlatest e (hsub.subset he) (hothers e he)
    · rw [hputs]
      have hvalues : (c.entries.map (·.2)).Perm (old :: (without c.entries k).map (·.2)) :=
        (perm_without h.distinct hlookup).map (·.2)
      refine List.Perm.cons v (h.kept.trans ((hvalues.append_right _).trans ?_))
      exact perm_given_up _ _ _
  | none =>
    have hothers := lookup_none.mp hlookup
    dsimp only
    split
    · rename_i hfull
      obtain ⟨front, last, hsplit⟩ : ∃ front last, c.entries = front ++ [last] := by
        refine ⟨c.entries.dropLast, c.entries.getLast ?_, (List.dropLast_append_getLast _).symm⟩
        intro hnil
        rw [hnil] at hfull
        exact Nat.ne_of_lt hcap hfull
      have hdrop : c.entries.dropLast = front := by rw [hsplit, List.dropLast_concat]
      have hlast : c.entries.getLast? = some last := by rw [hsplit, List.getLast?_concat]
      have hsub : front.Sublist c.entries := by
        rw [hsplit]
        exact List.sublist_append_left _ _
      have hfrontOthers : ∀ e ∈ front, e.1 ≠ k := fun e he => hothers e (hsub.subset he)
      rw [hdrop, hlast]
      refine ⟨distinct_front hfrontOthers (h.distinct.sublist (hsub.map _)), ?_,
        ordered_front huses (fun e he => hnot (hfrontOthers e he)) (h.ordered.sublist hsub), ?_, ?_⟩
      · rw [hsplit, List.length_append] at hfull
        exact Nat.le_of_eq hfull
      · intro e he
        rcases List.mem_cons.mp he with rfl | he
        · exact hfront
        · exact hlatest e (hsub.subset he) (hfrontOthers e he)
      · rw [hputs]
        refine List.Perm.cons v (h.kept.trans ?_)
        rw [hsplit, List.map_append, List.append_assoc]
        exact List.Perm.append_left _ (List.perm_append_singleton _ _).symm
    · rename_i hroom
      have hbounded := h.bounded
      refine ⟨distinct_front hothers h.distinct, Nat.lt_of_le_of_ne hbounded hroom,
        ordered_front huses (fun e he => hnot (hothers e he)) h.ordered, ?_, ?_⟩
      · intro e he
        rcases List.mem_cons.mp he with rfl | he
        · exact hfront
        · exact hlatest e he (hothers e he)
      · rw [hputs]
        exact h.kept.cons v

theorem Faithful.get (h : Faithful cap history c) (k : K) :
    Faithful cap (.get k :: history) (c.get k) := by
  have hnot : ∀ {e : K × V}, e.1 ≠ k → (Op.get k : Op K V).uses e.1 = false := fun hne =>
    decide_eq_false hne.symm
  unfold Cache.get
  cases hlookup : lookup c.entries k with
  | some v =>
    have hothers : ∀ e ∈ without c.entries k, e.1 ≠ k := fun e he => (mem_without.mp he).2
    have hsub := without_sublist c.entries k
    have hperm := perm_without h.distinct hlookup
    refine ⟨distinct_front hothers (h.distinct.sublist (hsub.map _)), ?_,
      ordered_front (decide_eq_true rfl) (fun e he => hnot (hothers e he))
        (h.ordered.sublist hsub), ?_, ?_⟩
    · rw [← hperm.length_eq]
      exact h.bounded
    · intro e he
      exact h.latest e (hperm.mem_iff.mpr he)
    · exact h.kept.trans ((hperm.map (·.2)).append_right _)
  | none =>
    have hothers := lookup_none.mp hlookup
    exact ⟨h.distinct, h.bounded, ordered_others (fun e he => hnot (hothers e he)) h.ordered,
      h.latest, h.kept⟩

theorem Faithful.remove (h : Faithful cap history c) (k : K) :
    Faithful cap (.remove k :: history) (c.remove k) := by
  unfold Cache.remove
  cases hlookup : lookup c.entries k with
  | some v =>
    have hsub := without_sublist c.entries k
    have hperm := perm_without h.distinct hlookup
    refine ⟨h.distinct.sublist (hsub.map _), Nat.le_trans hsub.length_le h.bounded,
      ordered_others (fun _ _ => rfl) (h.ordered.sublist hsub),
      fun e he => h.latest e (hsub.subset he), ?_⟩
    exact h.kept.trans (((hperm.map (·.2)).append_right _).trans (perm_given_up _ _ _))
  | none =>
    exact ⟨h.distinct, h.bounded, ordered_others (fun _ _ => rfl) h.ordered, h.latest, h.kept⟩

end

/-- After every history the entries are what it says. -/
theorem faithful_after {cap : ℕ} (hcap : 0 < cap) (history : List (Op K V)) :
    Faithful cap history (after cap history) := by
  induction history with
  | nil => exact ⟨List.nodup_nil, Nat.zero_le _, List.Pairwise.nil, nofun, List.Perm.refl _⟩
  | cons op history ih =>
    cases op with
    | put k v => exact ih.put hcap k v
    | get k => exact ih.get k
    | remove k => exact ih.remove k

end Aigate.RecencyList
