import Aigate.JsonEdit

/-!
# Places in JSON documents

A place is the path of steps that leads to it from the root. A string may be replaced at its
place, and every other string is then read as before. A finder searches a document for a place.
-/
namespace Aigate.JsonPath
open Text JsonTree JsonEdit

/-- One step into a document. -/
inductive Step where
  | member (key : String)
  | item (i : ℕ)
  deriving DecidableEq

abbrev Path := List Step

def child (j : Json) : Step → Option Json
  | .member key => j.get key
  | .item i => j.arrayItems.bind fun items => items[i]?

def put (j v : Json) : Step → Json
  | .member key => j.set key v
  | .item i =>
    match j with
    | .array items => .array (items.set i v)
    | j => j

def valueAt (j : Json) : Path → Option Json
  | [] => some j
  | s :: p => (child j s).bind fun c => valueAt c p

def stringAt (j : Json) (p : Path) : Option Bytes := (valueAt j p).bind Json.stringValue

/-- Put a value at a place; a last member that is not there yet is added. -/
def replaceAt (j : Json) : Path → Json → Json
  | [], v => v
  | s :: p, v => put j (replaceAt ((child j s).getD .null) p v) s

theorem child_put_self {j c : Json} {s : Step} (v : Json) (h : child j s = some c) :
    child (put j v s) s = some v := by
  cases s with
  | member key => exact Json.get_set_self (isObject_of_get h)
  | item i =>
    cases j with
    | array items =>
      obtain ⟨hi, -⟩ := List.getElem?_eq_some_iff.mp h
      simp [child, put, Json.arrayItems, hi]
    | _ => cases h

theorem child_put_of_ne (j v : Json) {s s' : Step} (h : s' ≠ s) :
    child (put j v s) s' = child j s' := by
  cases s with
  | member key =>
    cases s' with
    | member key' => exact Json.get_set_of_ne j v fun hkey => h (congrArg Step.member hkey)
    | item i => cases j <;> rfl
  | item i =>
    cases j with
    | array items =>
      cases s' with
      | member key' => rfl
      | item i' =>
        have hi : i ≠ i' := fun hi => h (congrArg Step.item hi.symm)
        simp [child, put, Json.arrayItems, List.getElem?_set_ne hi]
    | _ => rfl

theorem stringValue_put (j v : Json) (s : Step) : (put j v s).stringValue = j.stringValue := by
  cases s <;> cases j <;> rfl

theorem stringAt_cons {j c : Json} {s : Step} (p : Path) (h : child j s = some c) :
    stringAt j (s :: p) = stringAt c p := by
  rw [stringAt, valueAt, h, Option.bind_some, stringAt]

theorem child_of_stringAt {j : Json} {s : Step} {p : Path} {text : Bytes}
    (h : stringAt j (s :: p) = some text) : ∃ c, child j s = some c ∧ stringAt c p = some text := by
  cases hc : child j s with
  | none =>
    rw [stringAt, valueAt, hc] at h
    cases h
  | some c => exact ⟨c, rfl, by rw [← stringAt_cons p hc, h]⟩

theorem replaceAt_cons {j c : Json} {s : Step} (p : Path) (v : Json) (h : child j s = some c) :
    replaceAt j (s :: p) v = put j (replaceAt c p v) s := by
  rw [replaceAt, h, Option.getD_some]

/-- Below a step, a replacement is one of the child. -/
theorem stringAt_replaceAt_cons {j c : Json} {s : Step} (p q : Path) (v : Json)
    (h : child j s = some c) :
    stringAt (replaceAt j (s :: p) v) (s :: q) = stringAt (replaceAt c p v) q := by
  rw [replaceAt_cons p v h, stringAt_cons q (child_put_self _ h)]

theorem stringAt_replaceAt_self {j : Json} {p : Path} {text : Bytes} (new : Bytes)
    (h : stringAt j p = some text) : stringAt (replaceAt j p (.string new)) p = some new := by
  induction p generalizing j with
  | nil => rfl
  | cons s p ih =>
    obtain ⟨c, hc, htext⟩ := child_of_stringAt h
    rw [stringAt_replaceAt_cons p p _ hc, ih htext]

/-- When a string is replaced by another, the strings at all other places stay. -/
theorem stringAt_replaceAt_of_ne {j : Json} {p q : Path} {text : Bytes} (new : Bytes)
    (h : stringAt j p = some text) (hq : q ≠ p) :
    stringAt (replaceAt j p (.string new)) q = stringAt j q := by
  induction p generalizing j q with
  | nil =>
    cases q with
    | nil => exact absurd rfl hq
    | cons s q =>
      cases j with
      | string => cases s <;> rfl
      | _ => cases h
  | cons s p ih =>
    obtain ⟨c, hc, htext⟩ := child_of_stringAt h
    cases q with
    | nil =>
      rw [replaceAt_cons p _ hc]
      exact stringValue_put j _ s
    | cons s' q =>
      by_cases hs : s' = s
      · subst hs
        rw [stringAt_replaceAt_cons p q _ hc, stringAt_cons q hc]
        exact ih htext fun hp => hq (congrArg (s' :: ·) hp)
      · rw [replaceAt_cons p _ hc, stringAt, stringAt, valueAt, valueAt, child_put_of_ne _ _ hs]

/-- A search for a place. -/
abbrev Finder := Json → Option Path

def atString : Finder
  | .string _ => some []
  | _ => none

def atMember (key : String) (f : Finder) : Finder := fun j =>
  (j.get key).bind fun c => (f c).map (Step.member key :: ·)

/-- The member itself, which need not be there. -/
def atKey (key : String) : Finder := fun j => if j.isObject then some [.member key] else none

def firstFrom (f : Finder) (i : ℕ) : List Json → Option Path
  | [] => none
  | x :: rest => ((f x).map (Step.item i :: ·)).or (firstFrom f (i + 1) rest)

def lastFrom (f : Finder) (i : ℕ) : List Json → Option Path
  | [] => none
  | x :: rest => (lastFrom f (i + 1) rest).or ((f x).map (Step.item i :: ·))

/-- In the first item with a place. -/
def atFirst (f : Finder) : Finder := fun j => j.arrayItems.bind (firstFrom f 0)

/-- In the last item with a place. -/
def atLast (f : Finder) : Finder := fun j => j.arrayItems.bind (lastFrom f 0)

/-- In the first item, which must have the place. -/
def atHead (f : Finder) : Finder := fun j =>
  match j.arrayItems with
  | some (x :: _) => (f x).map (Step.item 0 :: ·)
  | _ => none

/-- In the last item, which must have the place. -/
def atEnd (f : Finder) : Finder := fun j =>
  (j.arrayItems.map List.reverse).bind fun
    | x :: before => (f x).map (Step.item before.length :: ·)
    | [] => none

theorem firstFrom_eq_some {f : Finder} {i : ℕ} {items : List Json} {q : Path}
    (h : firstFrom f i items = some q) :
    ∃ before x after p, items = before ++ x :: after ∧ q = .item (i + before.length) :: p ∧
      f x = some p ∧ ∀ y ∈ before, f y = none := by
  induction items generalizing i with
  | nil => cases h
  | cons x rest ih =>
    rcases Option.or_eq_some_iff.mp h with h | ⟨hx, h⟩
    · obtain ⟨p, hp, rfl⟩ := Option.map_eq_some_iff.mp h
      exact ⟨[], x, rest, p, rfl, rfl, hp, nofun⟩
    · obtain ⟨before, y, after, p, rfl, rfl, hp, hnone⟩ := ih h
      refine ⟨x :: before, y, after, p, rfl, ?_, hp, ?_⟩
      · rw [List.length_cons, Nat.add_right_comm, Nat.add_assoc]
      · intro z hz
        rcases List.mem_cons.mp hz with rfl | hz
        · exact Option.map_eq_none_iff.mp hx
        · exact hnone z hz

theorem firstFrom_eq_none {f : Finder} {i : ℕ} {items : List Json} :
    firstFrom f i items = none ↔ ∀ x ∈ items, f x = none := by
  induction items generalizing i with
  | nil => simp [firstFrom]
  | cons x rest ih => simp [firstFrom, ih]

theorem firstFrom_append {f : Finder} {i : ℕ} {before after : List Json} {x : Json} {p : Path}
    (hx : f x = some p) (h : ∀ y ∈ before, f y = none) :
    firstFrom f i (before ++ x :: after) = some (.item (i + before.length) :: p) := by
  induction before generalizing i with
  | nil => simp [firstFrom, hx]
  | cons y before ih =>
    rw [List.cons_append, firstFrom, h y List.mem_cons_self,
      ih fun z hz => h z (List.mem_cons_of_mem _ hz), List.length_cons, Nat.add_right_comm,
      Nat.add_assoc]
    rfl

theorem lastFrom_eq_none {f : Finder} {i : ℕ} {items : List Json} :
    lastFrom f i items = none ↔ ∀ x ∈ items, f x = none := by
  induction items generalizing i with
  | nil => simp [lastFrom]
  | cons x rest ih => simp [lastFrom, ih, and_comm]

theorem lastFrom_eq_some {f : Finder} {i : ℕ} {items : List Json} {q : Path}
    (h : lastFrom f i items = some q) :
    ∃ before x after p, items = before ++ x :: after ∧ q = .item (i + before.length) :: p ∧
      f x = some p ∧ ∀ y ∈ after, f y = none := by
  induction items generalizing i with
  | nil => cases h
  | cons x rest ih =>
    rcases Option.or_eq_some_iff.mp h with h | ⟨hrest, h⟩
    · obtain ⟨before, y, after, p, rfl, rfl, hp, hnone⟩ := ih h
      refine ⟨x :: before, y, after, p, rfl, ?_, hp, hnone⟩
      rw [List.length_cons, Nat.add_right_comm, Nat.add_assoc]
    · obtain ⟨p, hp, rfl⟩ := Option.map_eq_some_iff.mp h
      exact ⟨[], x, rest, p, rfl, rfl, hp, lastFrom_eq_none.mp hrest⟩

theorem lastFrom_append {f : Finder} {i : ℕ} {before after : List Json} {x : Json} {p : Path}
    (hx : f x = some p) (h : ∀ y ∈ after, f y = none) :
    lastFrom f i (before ++ x :: after) = some (.item (i + before.length) :: p) := by
  induction before generalizing i with
  | nil =>
    rw [List.nil_append, lastFrom, lastFrom_eq_none.mpr h, hx]
    rfl
  | cons y before ih =>
    rw [List.cons_append, lastFrom, ih, List.length_cons, Nat.add_right_comm, Nat.add_assoc]
    rfl

theorem child_append (before after : List Json) (x : Json) :
    child (.array (before ++ x :: after)) (.item (0 + before.length)) = some x := by
  simp [child, Json.arrayItems]

theorem put_append (before after : List Json) (x v : Json) :
    put (.array (before ++ x :: after)) v (.item (0 + before.length)) =
      .array (before ++ v :: after) := by
  simp [put]

/-- A finder of the string that a reading of the document is about. -/
structure Finds (f : Finder) (text : Json → Option Bytes) : Prop where
  found : ∀ {j p}, f j = some p → (text j).isSome = true ∧ stringAt j p = text j
  missed : ∀ {j}, f j = none → text j = none

theorem finds_atString : Finds atString Json.stringValue where
  found {j p} h := by
    cases j with
    | string s =>
      cases h
      exact ⟨rfl, rfl⟩
    | _ => cases h
  missed {j} h := by
    cases j with
    | string => cases h
    | _ => rfl

theorem Finds.atMember {f : Finder} {text : Json → Option Bytes} (key : String)
    (hf : Finds f text) : Finds (atMember key f) fun j => (j.get key).bind text where
  found {j p} h := by
    obtain ⟨c, hc, h⟩ := Option.bind_eq_some_iff.mp h
    obtain ⟨p, hp, rfl⟩ := Option.map_eq_some_iff.mp h
    have hchild : child j (.member key) = some c := hc
    rw [stringAt_cons p hchild, hc, Option.bind_some]
    exact hf.found hp
  missed {j} h := by
    rw [Option.bind_eq_none_iff]
    intro c hc
    exact hf.missed (Option.map_eq_none_iff.mp (Option.bind_eq_none_iff.mp h c hc))

theorem Finds.or {f g : Finder} {text text' : Json → Option Bytes} (hf : Finds f text)
    (hg : Finds g text') : Finds (fun j => (f j).or (g j)) fun j => (text j).or (text' j) where
  found {j p} h := by
    rcases Option.or_eq_some_iff.mp h with h | ⟨hnone, h⟩
    · obtain ⟨hsome, hp⟩ := hf.found h
      rw [hp, Option.or_of_isSome hsome]
      exact ⟨hsome, rfl⟩
    · rw [hf.missed hnone, Option.none_or]
      exact hg.found h
  missed {j} h := by
    obtain ⟨h1, h2⟩ := Option.or_eq_none_iff.mp h
    rw [hf.missed h1, hg.missed h2, Option.none_or]

theorem Finds.atFirst {f : Finder} {text : Json → Option Bytes} (hf : Finds f text) :
    Finds (atFirst f) fun j => j.arrayItems.bind (·.findSome? text) where
  found {j p} h := by
    obtain ⟨items, hitems, h⟩ := Option.bind_eq_some_iff.mp h
    obtain ⟨before, x, after, p, rfl, rfl, hp, hnone⟩ := firstFrom_eq_some h
    cases j with
    | array items =>
      cases hitems
      have hbefore : before.findSome? text = none :=
        List.findSome?_eq_none_iff.mpr fun y hy => hf.missed (hnone y hy)
      obtain ⟨hsome, hp⟩ := hf.found hp
      obtain ⟨t, ht⟩ := Option.isSome_iff_exists.mp hsome
      rw [stringAt_cons p (child_append before after x), hp]
      simp [Json.arrayItems, List.findSome?_append, hbefore, ht]
    | _ => cases hitems
  missed {j} h := by
    rw [Option.bind_eq_none_iff]
    intro items hitems
    have h := Option.bind_eq_none_iff.mp h
    exact List.findSome?_eq_none_iff.mpr fun x hx =>
      hf.missed (firstFrom_eq_none.mp (h items hitems) x hx)

theorem Finds.atLast {f : Finder} {text : Json → Option Bytes} (hf : Finds f text) :
    Finds (atLast f) fun j => j.arrayItems.bind fun items => items.reverse.findSome? text where
  found {j p} h := by
    obtain ⟨items, hitems, h⟩ := Option.bind_eq_some_iff.mp h
    obtain ⟨before, x, after, p, rfl, rfl, hp, hnone⟩ := lastFrom_eq_some h
    cases j with
    | array items =>
      cases hitems
      have hafter : after.reverse.findSome? text = none :=
        List.findSome?_eq_none_iff.mpr fun y hy => hf.missed (hnone y (List.mem_reverse.mp hy))
      obtain ⟨hsome, hp⟩ := hf.found hp
      obtain ⟨t, ht⟩ := Option.isSome_iff_exists.mp hsome
      rw [stringAt_cons p (child_append before after x), hp]
      simp [Json.arrayItems, List.findSome?_append, hafter, ht]
    | _ => cases hitems
  missed {j} h := by
    rw [Option.bind_eq_none_iff]
    intro items hitems
    have h := Option.bind_eq_none_iff.mp h
    exact List.findSome?_eq_none_iff.mpr fun x hx =>
      hf.missed (lastFrom_eq_none.mp (h items hitems) x (List.mem_reverse.mp hx))

/-- A finder of places that hold certain strings. -/
def Holds (P : Bytes → Prop) (f : Finder) : Prop :=
  ∀ j p, f j = some p → ∃ text, stringAt j p = some text ∧ P text

variable {P : Bytes → Prop}

theorem Holds.atMember {f : Finder} (key : String) (hf : Holds P f) : Holds P (atMember key f) := by
  intro j p h
  obtain ⟨c, hc, h⟩ := Option.bind_eq_some_iff.mp h
  obtain ⟨p, hp, rfl⟩ := Option.map_eq_some_iff.mp h
  have hchild : child j (.member key) = some c := hc
  rw [stringAt_cons p hchild]
  exact hf c p hp

theorem atHead_eq_some {f : Finder} {j : Json} {q : Path} (h : atHead f j = some q) :
    ∃ x rest p, j = .array (x :: rest) ∧ q = .item 0 :: p ∧ f x = some p := by
  unfold atHead at h
  split at h
  · rename_i x rest hitems
    obtain ⟨p, hp, rfl⟩ := Option.map_eq_some_iff.mp h
    cases j with
    | array =>
      cases hitems
      exact ⟨x, rest, p, rfl, rfl, hp⟩
    | _ => cases hitems
  · cases h

theorem Holds.atHead {f : Finder} (hf : Holds P f) : Holds P (atHead f) := by
  intro j p h
  obtain ⟨x, rest, p, rfl, rfl, hp⟩ := atHead_eq_some h
  have hchild : child (.array (x :: rest)) (.item 0) = some x := rfl
  rw [stringAt_cons p hchild]
  exact hf x p hp

theorem Holds.atFirst {f : Finder} (hf : Holds P f) : Holds P (atFirst f) := by
  intro j p h
  obtain ⟨items, hitems, h⟩ := Option.bind_eq_some_iff.mp h
  obtain ⟨before, x, after, p, rfl, rfl, hp, -⟩ := firstFrom_eq_some h
  cases j with
  | array items =>
    cases hitems
    rw [stringAt_cons p (child_append before after x)]
    exact hf x p hp
  | _ => cases hitems

theorem Holds.or {f g : Finder} (hf : Holds P f) (hg : Holds P g) :
    Holds P fun j => (f j).or (g j) := by
  intro j p h
  rcases Option.or_eq_some_iff.mp h with h | ⟨-, h⟩
  · exact hf j p h
  · exact hg j p h

/-- A finder that finds the same place again when the string there was replaced by such a one. -/
def Stable (P : Bytes → Prop) (f : Finder) : Prop :=
  ∀ j p text new, P new → f j = some p → stringAt j p = some text →
    f (replaceAt j p (.string new)) = some p

theorem stable_atString : Stable P atString := by
  intro j p text new _ h htext
  cases j with
  | string =>
    cases h
    rfl
  | _ => cases h

theorem Stable.atMember {f : Finder} (key : String) (hf : Stable P f) :
    Stable P (atMember key f) := by
  intro j p text new hnew h htext
  obtain ⟨c, hc, h⟩ := Option.bind_eq_some_iff.mp h
  obtain ⟨p, hp, rfl⟩ := Option.map_eq_some_iff.mp h
  have hchild : child j (.member key) = some c := hc
  rw [stringAt_cons p hchild] at htext
  have hget : (replaceAt j (.member key :: p) (.string new)).get key
      = some (replaceAt c p (.string new)) := by
    rw [replaceAt_cons p _ hchild]
    exact child_put_self _ hchild
  rw [JsonPath.atMember, hget, Option.bind_some, hf c p text new hnew hp htext]
  rfl

theorem get_replaceAt_of_ne {key key' : String} (j : Json) (p : Path) (v : Json)
    (h : key ≠ key') : (replaceAt j (.member key' :: p) v).get key = j.get key :=
  child_put_of_ne j _ fun hs => h (Step.member.inj hs)

/-- Another member is searched as before. -/
theorem atMember_replaceAt_of_ne {key key' : String} (f : Finder) (j : Json) (p : Path) (v : Json)
    (h : key ≠ key') : atMember key f (replaceAt j (.member key' :: p) v) = atMember key f j := by
  rw [atMember, get_replaceAt_of_ne j p v h, atMember]

theorem Stable.atHead {f : Finder} (hf : Stable P f) : Stable P (atHead f) := by
  intro j p text new hnew h htext
  obtain ⟨x, rest, p, rfl, rfl, hp⟩ := atHead_eq_some h
  have hchild : child (.array (x :: rest)) (.item 0) = some x := rfl
  rw [stringAt_cons p hchild] at htext
  have hx := hf x p text new hnew hp htext
  rw [replaceAt_cons p _ hchild]
  exact congrArg (Option.map (Step.item 0 :: ·)) hx

theorem Stable.atFirst {f : Finder} (hf : Stable P f) : Stable P (atFirst f) := by
  intro j p text new hnew h htext
  obtain ⟨items, hitems, h⟩ := Option.bind_eq_some_iff.mp h
  obtain ⟨before, x, after, p, rfl, rfl, hp, hnone⟩ := firstFrom_eq_some h
  cases j with
  | array items =>
    cases hitems
    have hchild := child_append before after x
    rw [stringAt_cons p hchild] at htext
    rw [replaceAt_cons p _ hchild, put_append]
    exact firstFrom_append (hf x p text new hnew hp htext) hnone
  | _ => cases hitems

theorem Stable.atLast {f : Finder} (hf : Stable P f) : Stable P (atLast f) := by
  intro j p text new hnew h htext
  obtain ⟨items, hitems, h⟩ := Option.bind_eq_some_iff.mp h
  obtain ⟨before, x, after, p, rfl, rfl, hp, hnone⟩ := lastFrom_eq_some h
  cases j with
  | array items =>
    cases hitems
    have hchild := child_append before after x
    rw [stringAt_cons p hchild] at htext
    rw [replaceAt_cons p _ hchild, put_append]
    exact lastFrom_append (hf x p text new hnew hp htext) hnone
  | _ => cases hitems

/-- A finder of places that a string can be put at. -/
def Settable (f : Finder) : Prop :=
  ∀ j p new, f j = some p → stringAt (replaceAt j p (.string new)) p = some new

theorem settable_atKey (key : String) : Settable (atKey key) := by
  intro j p new h
  unfold atKey at h
  split at h
  · rename_i hobj
    cases h
    rw [replaceAt, replaceAt, stringAt, valueAt, put, child, Json.get_set_self hobj]
    rfl
  · cases h

theorem Settable.atMember {f : Finder} (key : String) (hf : Settable f) :
    Settable (atMember key f) := by
  intro j p new h
  obtain ⟨c, hc, h⟩ := Option.bind_eq_some_iff.mp h
  obtain ⟨p, hp, rfl⟩ := Option.map_eq_some_iff.mp h
  have hchild : child j (.member key) = some c := hc
  rw [stringAt_replaceAt_cons p p _ hchild, hf c p new hp]

theorem Settable.atLast {f : Finder} (hf : Settable f) : Settable (atLast f) := by
  intro j p new h
  obtain ⟨items, hitems, h⟩ := Option.bind_eq_some_iff.mp h
  obtain ⟨before, x, after, p, rfl, rfl, hp, -⟩ := lastFrom_eq_some h
  cases j with
  | array items =>
    cases hitems
    rw [stringAt_replaceAt_cons p p _ (child_append before after x), hf x p new hp]
  | _ => cases hitems

theorem Settable.atHead {f : Finder} (hf : Settable f) : Settable (atHead f) := by
  intro j p new h
  obtain ⟨x, rest, p, rfl, rfl, hp⟩ := atHead_eq_some h
  have hchild : child (.array (x :: rest)) (.item 0) = some x := rfl
  rw [stringAt_replaceAt_cons p p _ hchild, hf x p new hp]

theorem atEnd_eq_some {f : Finder} {j : Json} {q : Path} (h : atEnd f j = some q) :
    ∃ before x p, j = .array (before ++ [x]) ∧ q = .item (0 + before.length) :: p ∧
      f x = some p := by
  obtain ⟨reversed, hreversed, h⟩ := Option.bind_eq_some_iff.mp h
  obtain ⟨items, hitems, hrev⟩ := Option.map_eq_some_iff.mp hreversed
  cases j with
  | array items =>
    cases hitems
    cases reversed with
    | nil => cases h
    | cons x before =>
      obtain ⟨p, hp, rfl⟩ := Option.map_eq_some_iff.mp h
      refine ⟨before.reverse, x, p, ?_, ?_, hp⟩
      · rw [← List.reverse_cons, ← hrev, List.reverse_reverse]
      · rw [List.length_reverse, Nat.zero_add]
  | _ => cases hitems

theorem Settable.atEnd {f : Finder} (hf : Settable f) : Settable (atEnd f) := by
  intro j p new h
  obtain ⟨before, x, p, rfl, rfl, hp⟩ := atEnd_eq_some h
  rw [stringAt_replaceAt_cons p p _ (child_append before [] x), hf x p new hp]

theorem Settable.or {f g : Finder} (hf : Settable f) (hg : Settable g) :
    Settable fun j => (f j).or (g j) := by
  intro j p new h
  rcases Option.or_eq_some_iff.mp h with h | ⟨-, h⟩
  · exact hf j p new h
  · exact hg j p new h

/-- An edit of the items of an array, as one of the document that has the array as a member. -/
theorem editMember_eq {f : Finder} {edit : List Json → Option (List Json)}
    {g : Option Bytes → Json} (hf : ∀ j, j.arrayItems = none → f j = none)
    (hedit : ∀ items, (edit items).map Json.array = (f (.array items)).map fun q =>
      replaceAt (.array items) q (g (stringAt (.array items) q))) (root : Json) (key : String) :
    ((root.getArray key).bind edit).map (fun items => root.set key (.array items)) =
      (atMember key f root).map fun q => replaceAt root q (g (stringAt root q)) := by
  cases hget : root.get key with
  | none => simp [Json.getArray, atMember, hget]
  | some c =>
    have hchild : child root (.member key) = some c := hget
    cases hc : c.arrayItems with
    | none => simp [Json.getArray, atMember, hget, hc, hf c hc]
    | some items =>
      cases c with
      | array =>
        cases hc
        have h := hedit items
        rw [Json.getArray, atMember, hget, Option.bind_some, Option.bind_some, Json.arrayItems,
          Option.bind_some, Option.map_map]
        cases hq : f (.array items) with
        | none =>
          rw [hq, Option.map_none, Option.map_eq_none_iff] at h
          rw [h]
          rfl
        | some q =>
          rw [hq, Option.map_some] at h
          obtain ⟨items', hitems', heq⟩ := Option.map_eq_some_iff.mp h
          rw [hitems', Option.map_some, heq, Option.map_some, Function.comp_apply,
            stringAt_cons _ hchild, replaceAt_cons _ _ hchild, put]
      | _ => cases hc

end Aigate.JsonPath
