import Mathlib.Data.List.Infix

/-!
# Texts with marks

A text of letters and marks is rendered by writing every mark as a word. Where the words of
the marks are delimited, a part of the rendered text that has no delimiter, and is not inside
a word, comes from letters.
-/
namespace Aigate.MarkedText

variable {α μ : Type*}

inductive Piece (α μ : Type*) where
  | letter (a : α)
  | mark (e : μ)

def render (f : μ → List α) : List (Piece α μ) → List α
  | [] => []
  | .letter a :: rest => a :: render f rest
  | .mark e :: rest => f e ++ render f rest

def letters (w : List α) : List (Piece α μ) := w.map .letter

@[simp] theorem letters_append (v w : List α) :
    (letters (v ++ w) : List (Piece α μ)) = letters v ++ letters w := List.map_append

@[simp] theorem render_append (f : μ → List α) (m n : List (Piece α μ)) :
    render f (m ++ n) = render f m ++ render f n := by
  induction m with
  | nil => rfl
  | cons p m ih =>
    cases p with
    | letter a => exact congrArg (a :: ·) ih
    | mark e =>
      rw [List.cons_append, render, render, ih, List.append_assoc]

@[simp] theorem render_letters (f : μ → List α) (w : List α) : render f (letters w) = w := by
  induction w with
  | nil => rfl
  | cons a w ih => exact congrArg (a :: ·) ih

/-- A cut of the rendered text is between two pieces, or inside the word of a mark. -/
theorem render_cut {f : μ → List α} {m : List (Piece α μ)} {u v : List α}
    (h : render f m = u ++ v) :
    (∃ a b, m = a ++ b ∧ render f a = u ∧ render f b = v) ∨
      ∃ a e b p q, m = a ++ .mark e :: b ∧ f e = p ++ q ∧ p ≠ [] ∧ q ≠ [] ∧
        u = render f a ++ p ∧ v = q ++ render f b := by
  induction m generalizing u with
  | nil =>
    obtain ⟨rfl, rfl⟩ := List.append_eq_nil_iff.mp h.symm
    exact Or.inl ⟨[], [], rfl, rfl, rfl⟩
  | cons piece m ih =>
    cases u with
    | nil => exact Or.inl ⟨[], piece :: m, rfl, rfl, h⟩
    | cons c u =>
      cases piece with
      | letter a =>
        obtain ⟨rfl, hrest⟩ := List.cons.inj h
        rcases ih hrest with ⟨x, y, rfl, rfl, rfl⟩ | ⟨x, e, y, p, q, rfl, hf, hp, hq, rfl, rfl⟩
        · exact Or.inl ⟨.letter a :: x, y, rfl, rfl, rfl⟩
        · exact Or.inr ⟨.letter a :: x, e, y, p, q, rfl, hf, hp, hq, rfl, rfl⟩
      | mark e =>
        rw [render] at h
        rcases List.append_eq_append_iff.mp h with ⟨t, ht, hv⟩ | ⟨t, ht, hv⟩
        · rcases ih hv with ⟨x, y, rfl, rfl, rfl⟩ | ⟨x, e', y, p, q, rfl, hf, hp, hq, rfl, rfl⟩
          · exact Or.inl ⟨.mark e :: x, y, rfl, ht.symm, rfl⟩
          · refine Or.inr ⟨.mark e :: x, e', y, p, q, rfl, hf, hp, hq, ?_, rfl⟩
            rw [ht, render, List.append_assoc]
        · by_cases hnil : t = []
          · subst hnil
            rw [List.append_nil] at ht
            rw [List.nil_append] at hv
            refine Or.inl ⟨[.mark e], m, rfl, ?_, hv.symm⟩
            rw [render, render, List.append_nil, ht]
          · exact Or.inr ⟨[], e, m, c :: u, t, rfl, ht, List.cons_ne_nil _ _, hnil, rfl, hv⟩

/-- A word at the start of the rendered text comes from letters if no mark starts with a letter
of it. -/
theorem letters_of_head {f : μ → List α} {m : List (Piece α μ)} {w v : List α}
    (h : render f m = w ++ v) (hhead : ∀ e, .mark e ∈ m → ∃ c t, f e = c :: t ∧ c ∉ w) :
    ∃ b, m = letters w ++ b ∧ render f b = v := by
  induction w generalizing m with
  | nil => exact ⟨m, rfl, h⟩
  | cons c w ih =>
    cases m with
    | nil => cases h
    | cons piece m =>
      cases piece with
      | letter a =>
        obtain ⟨rfl, htail⟩ := List.cons.inj h
        have hrest : ∀ e, .mark e ∈ m → ∃ c t, f e = c :: t ∧ c ∉ w := by
          intro e he
          obtain ⟨d, t, hd, hnot⟩ := hhead e (List.mem_cons_of_mem _ he)
          exact ⟨d, t, hd, fun hm => hnot (List.mem_cons_of_mem _ hm)⟩
        obtain ⟨b, rfl, hb⟩ := ih htail hrest
        exact ⟨b, rfl, hb⟩
      | mark e =>
        obtain ⟨d, t, hd, hnot⟩ := hhead e List.mem_cons_self
        rw [render, hd] at h
        obtain ⟨rfl, -⟩ := List.cons.inj h
        exact absurd List.mem_cons_self hnot

/-- The word of a mark is delimited, and its delimiters are not in a given word, which is not
inside it either. -/
structure Apart (w : List α) (word : List α) : Prop where
  delimited : ∃ start body stop, word = start :: body ++ [stop] ∧ start ∉ w ∧ stop ∉ w ∧ ¬w <:+: body

/-- A part of the rendered text that is apart from every mark comes from letters. -/
theorem letters_of_apart {f : μ → List α} {m : List (Piece α μ)} {u w v : List α}
    (h : render f m = u ++ (w ++ v)) (hapart : ∀ e, .mark e ∈ m → Apart w (f e)) :
    ∃ a b, m = a ++ (letters w ++ b) ∧ render f a = u ∧ render f b = v := by
  rcases render_cut h with ⟨a, b, rfl, hu, hb⟩ | ⟨a, e, b, p, q, rfl, hf, hp, hq, -, hv⟩
  · obtain ⟨b', rfl, hb'⟩ := letters_of_head hb fun e he => by
      obtain ⟨start, body, stop, hword, hstart, -, -⟩ :=
        (hapart e (List.mem_append_right _ he)).delimited
      exact ⟨start, body ++ [stop], hword, hstart⟩
    exact ⟨a, b', rfl, hu, hb'⟩
  · -- the cut would be inside the word of a mark, before its last delimiter
    obtain ⟨start, body, stop, hword, hstart, hstop, hinfix⟩ :=
      (hapart e (List.mem_append_right _ List.mem_cons_self)).delimited
    obtain ⟨c, p, rfl⟩ := List.exists_cons_of_ne_nil hp
    rw [hword, List.cons_append, List.cons_append] at hf
    obtain ⟨q, d, rfl⟩ := (List.eq_nil_or_concat' q).resolve_left hq
    have hbody := (List.cons.inj hf).2
    rw [← List.append_assoc] at hbody
    obtain ⟨rfl, hlast⟩ := List.append_inj' hbody rfl
    obtain rfl := List.singleton_inj.mp hlast
    rw [List.append_assoc] at hv
    have hsuffix : q <:+: p ++ q := (List.suffix_append p q).isInfix
    rcases List.append_eq_append_iff.mp hv with ⟨t, ht, -⟩ | ⟨t, ht, hv⟩
    · exact absurd ((ht ▸ List.prefix_append w t).isInfix.trans hsuffix) hinfix
    · cases t with
      | nil =>
        rw [List.append_nil] at ht
        exact absurd (ht ▸ hsuffix) hinfix
      | cons c t =>
        obtain ⟨rfl, -⟩ := List.cons.inj hv
        rw [ht] at hstop
        exact absurd (List.mem_append_right _ List.mem_cons_self) hstop

/-- A word of a mark is nowhere in a delimited word. -/
structure Outside (start : α) (body : List α) (stop : α) (word : List α) : Prop where
  nonempty : word ≠ []
  start : start ∉ word
  stop : stop ∉ word
  body : ¬word <:+: body

theorem letters_until {f : μ → List α} {m : List (Piece α μ)} {start stop : α}
    {body w v : List α} (hw : w <:+: body) (h : render f m = w ++ stop :: v)
    (hmarks : ∀ e, .mark e ∈ m → Outside start body stop (f e)) :
    ∃ b, m = letters (w ++ [stop]) ++ b := by
  induction w generalizing m with
  | nil =>
    cases m with
    | nil => cases h
    | cons piece m =>
      cases piece with
      | letter a =>
        obtain ⟨rfl, -⟩ := List.cons.inj h
        exact ⟨m, rfl⟩
      | mark e =>
        have he := hmarks e List.mem_cons_self
        obtain ⟨c, t, hword⟩ := List.exists_cons_of_ne_nil he.nonempty
        rw [render, hword] at h
        obtain ⟨rfl, -⟩ := List.cons.inj h
        exact absurd (hword ▸ List.mem_cons_self) he.stop
  | cons c w ih =>
    cases m with
    | nil => cases h
    | cons piece m =>
      cases piece with
      | letter a =>
        obtain ⟨rfl, htail⟩ := List.cons.inj h
        have hw' : w <:+: body := (List.suffix_cons a w).isInfix.trans hw
        obtain ⟨b, rfl⟩ := ih hw' htail fun e he => hmarks e (List.mem_cons_of_mem _ he)
        exact ⟨b, rfl⟩
      | mark e =>
        have he := hmarks e List.mem_cons_self
        rw [render] at h
        rcases List.append_eq_append_iff.mp h with ⟨t, ht, -⟩ | ⟨t, ht, hv⟩
        · exact absurd ((ht ▸ List.prefix_append _ t).isInfix.trans hw) he.body
        · cases t with
          | nil =>
            rw [List.append_nil] at ht
            exact absurd (ht ▸ hw) he.body
          | cons d t =>
            obtain ⟨rfl, -⟩ := List.cons.inj hv
            rw [ht] at he
            exact absurd (List.mem_append_right _ List.mem_cons_self) he.stop

/-- A delimited word that is outside of every mark comes from letters. -/
theorem letters_of_delimited {f : μ → List α} {m : List (Piece α μ)} {start stop : α}
    {body u v : List α} (h : render f m = u ++ (start :: body ++ stop :: v))
    (hmarks : ∀ e, .mark e ∈ m → Outside start body stop (f e)) :
    ∃ a b, m = a ++ (letters (start :: body ++ [stop]) ++ b) := by
  rcases render_cut h with ⟨a, b, rfl, -, hb⟩ | ⟨a, e, b, p, q, rfl, hf, -, hq, -, hv⟩
  · cases b with
    | nil => cases hb
    | cons piece b =>
      cases piece with
      | letter c =>
        obtain ⟨rfl, htail⟩ := List.cons.inj hb
        obtain ⟨b', rfl⟩ := letters_until (List.infix_refl body) htail fun e he =>
          hmarks e (List.mem_append_right _ (List.mem_cons_of_mem _ he))
        exact ⟨a, b', rfl⟩
      | mark e =>
        have he := hmarks e (List.mem_append_right _ List.mem_cons_self)
        obtain ⟨c, t, hword⟩ := List.exists_cons_of_ne_nil he.nonempty
        rw [render, hword] at hb
        obtain ⟨rfl, -⟩ := List.cons.inj hb
        exact absurd (hword ▸ List.mem_cons_self) he.start
  · have he := hmarks e (List.mem_append_right _ List.mem_cons_self)
    obtain ⟨c, t, rfl⟩ := List.exists_cons_of_ne_nil hq
    obtain ⟨rfl, -⟩ := List.cons.inj hv
    exact absurd (hf ▸ List.mem_append_right _ List.mem_cons_self) he.start

/-- What is letters in the pieces is in the rendered text. -/
theorem infix_render {f : μ → List α} {m : List (Piece α μ)} {w : List α}
    (h : letters w <:+: m) : w <:+: render f m := by
  obtain ⟨a, b, rfl⟩ := h
  exact ⟨render f a, render f b, by simp⟩

end Aigate.MarkedText
