import Mathlib.Data.List.Basic
import Mathlib.Tactic.Common

/-!
# Thoughts between tags

A writer gets pieces of thoughts and of text in turn, and marks between them. It writes all of
them as one text, with a tag before the first thought and one before what follows the thoughts.
When the thoughts come in one run before the text, the result is the thoughts between the tags and
the text behind them.
-/
namespace Aigate.TaggedText

variable {α μ : Type*} (openTag closeTag : List α)

inductive Piece (α μ : Type*) where
  | thought (t : List α)
  | text (t : List α)
  | mark (m : μ)
  deriving DecidableEq

def Piece.thought? : Piece α μ → Option (List α)
  | thought t => some t
  | _ => none

def Piece.text? : Piece α μ → Option (List α)
  | text t => some t
  | _ => none

def Piece.mark? : Piece α μ → Option μ
  | mark m => some m
  | _ => none

/-- A piece as it is written without tags. -/
def Piece.plain : Piece α μ → List α ⊕ μ
  | thought t => .inl t
  | text t => .inl t
  | mark m => .inr m

inductive TagState where
  | unopened
  | opened
  | closed
  deriving DecidableEq

def TagState.think : TagState → TagState
  | unopened => opened
  | s => s

def TagState.leave : TagState → TagState
  | opened => closed
  | s => s

/-- The tag that is written before a thought. -/
def opening (s : TagState) : List (List α ⊕ μ) := if s = .unopened then [.inl openTag] else []

/-- The tag that is written before anything else, and at the end. -/
def closing (s : TagState) : List (List α ⊕ μ) := if s = .opened then [.inl closeTag] else []

def TagState.after (s : TagState) : Piece α μ → TagState
  | .thought _ => s.think
  | _ => s.leave

def emit (s : TagState) : Piece α μ → List (List α ⊕ μ)
  | .thought t => opening openTag s ++ [.inl t]
  | p => closing closeTag s ++ [p.plain]

def emitAll (s : TagState) : List (Piece α μ) → List (List α ⊕ μ)
  | [] => []
  | p :: ps => emit openTag closeTag s p ++ emitAll (s.after p) ps

/-- All that is written for some pieces, with the tag that is missing at the end. -/
def run (s : TagState) (ps : List (Piece α μ)) : List (List α ⊕ μ) :=
  emitAll openTag closeTag s ps ++ closing closeTag (ps.foldl TagState.after s)

/-- The text of what was written. -/
def shown (out : List (List α ⊕ μ)) : List α := (out.filterMap Sum.getLeft?).flatten

def marks (out : List (List α ⊕ μ)) : List μ := out.filterMap Sum.getRight?

def thoughts (ps : List (Piece α μ)) : List α := (ps.filterMap Piece.thought?).flatten

def texts (ps : List (Piece α μ)) : List α := (ps.filterMap Piece.text?).flatten

/-- Thoughts between the tags, if there are any. -/
def tagged (reasoning content : List α) : List α :=
  if reasoning = [] then content else openTag ++ reasoning ++ closeTag ++ content

/-- The thoughts come in one run, with no text before it and no thought behind it; empty pieces
may come there. -/
def Ordered (ps : List (Piece α μ)) : Prop :=
  ps.filterMap Piece.thought? = [] ∨
    ∃ (before : List (Piece α μ)) (ts : List (List α)) (after : List (Piece α μ)),
      ps = before ++ ts.map .thought ++ after ∧ ts.flatten ≠ [] ∧
        (∀ p ∈ before, p.thought? = none ∧ p.text?.getD [] = []) ∧
          ∀ p ∈ after, p.thought?.getD [] = []

section
variable (t : List α) (m : μ) (out : List (List α ⊕ μ)) (ps : List (Piece α μ))

@[simp] theorem shown_nil : shown ([] : List (List α ⊕ μ)) = [] := rfl

@[simp] theorem shown_inl : shown (.inl t :: out) = t ++ shown out := by
  simp [shown]

@[simp] theorem shown_inr : shown (.inr m :: out) = shown out := by
  simp [shown, List.filterMap_cons]

@[simp] theorem marks_nil : marks ([] : List (List α ⊕ μ)) = [] := rfl

@[simp] theorem marks_inl : marks (.inl t :: out) = marks out := by
  simp [marks, List.filterMap_cons]

@[simp] theorem marks_inr : marks (.inr m :: out) = m :: marks out := by
  simp [marks]

@[simp] theorem texts_nil : texts ([] : List (Piece α μ)) = [] := rfl

@[simp] theorem texts_thought : texts (.thought t :: ps) = texts ps := by
  simp [texts, List.filterMap_cons, Piece.text?]

@[simp] theorem texts_text : texts (.text t :: ps) = t ++ texts ps := by
  simp [texts, Piece.text?]

@[simp] theorem texts_mark : texts (.mark m :: ps) = texts ps := by
  simp [texts, List.filterMap_cons, Piece.text?]

end

theorem emitAll_append (s : TagState) (ps qs : List (Piece α μ)) :
    emitAll openTag closeTag s (ps ++ qs) =
      emitAll openTag closeTag s ps ++ emitAll openTag closeTag (ps.foldl TagState.after s) qs := by
  induction ps generalizing s with
  | nil => rfl
  | cons p rest ih => simp [emitAll, ih]

@[simp] theorem run_nil (s : TagState) :
    run openTag closeTag s ([] : List (Piece α μ)) = closing closeTag s := rfl

@[simp] theorem run_cons (s : TagState) (p : Piece α μ) (ps : List (Piece α μ)) :
    run openTag closeTag s (p :: ps) =
      emit openTag closeTag s p ++ run openTag closeTag (s.after p) ps := by
  simp [run, emitAll]

theorem marks_run (s : TagState) (ps : List (Piece α μ)) :
    marks (run openTag closeTag s ps) = ps.filterMap Piece.mark? := by
  induction ps generalizing s with
  | nil => cases s <;> rfl
  | cons p rest ih =>
    cases p <;> cases s <;>
      simp [emit, opening, closing, Piece.plain, Piece.mark?, ih, List.filterMap_cons]

/-- Once the tag is closed, only the text is shown. -/
theorem shown_run_closed {ps : List (Piece α μ)} (h : ∀ p ∈ ps, p.thought?.getD [] = []) :
    shown (run openTag closeTag .closed ps) = texts ps := by
  induction ps with
  | nil => rfl
  | cons p rest ih =>
    obtain ⟨hp, hrest⟩ := List.forall_mem_cons.mp h
    have hshown := ih hrest
    cases p with
    | thought t =>
      obtain rfl : t = [] := hp
      simpa [emit, opening, TagState.after, TagState.think] using hshown
    | text t => simpa [emit, closing, Piece.plain, TagState.after, TagState.leave] using hshown
    | mark m => simpa [emit, closing, Piece.plain, TagState.after, TagState.leave] using hshown

/-- Behind the run of thoughts, the tag is closed before the text. -/
theorem shown_run_opened {ps : List (Piece α μ)} (h : ∀ p ∈ ps, p.thought?.getD [] = []) :
    shown (run openTag closeTag .opened ps) = closeTag ++ texts ps := by
  induction ps with
  | nil => simp [closing]
  | cons p rest ih =>
    obtain ⟨hp, hrest⟩ := List.forall_mem_cons.mp h
    have hclosed : shown (run openTag closeTag .closed rest) = texts rest :=
      shown_run_closed openTag closeTag hrest
    cases p with
    | thought t =>
      obtain rfl : t = [] := hp
      simpa [emit, opening, TagState.after, TagState.think] using ih hrest
    | text t => simpa [emit, closing, Piece.plain, TagState.after, TagState.leave] using hclosed
    | mark m => simpa [emit, closing, Piece.plain, TagState.after, TagState.leave] using hclosed

/-- Before the first thought, the pieces are shown without tags. -/
theorem shown_run_before {before : List (Piece α μ)} (h : ∀ p ∈ before, p.thought? = none)
    (ps : List (Piece α μ)) :
    shown (run openTag closeTag .unopened (before ++ ps)) =
      texts before ++ shown (run openTag closeTag .unopened ps) := by
  induction before with
  | nil => rfl
  | cons p rest ih =>
    obtain ⟨hp, hrest⟩ := List.forall_mem_cons.mp h
    have hshown := ih hrest
    cases p with
    | thought t => cases hp
    | text t => simpa [emit, closing, Piece.plain, TagState.after, TagState.leave] using hshown
    | mark m => simpa [emit, closing, Piece.plain, TagState.after, TagState.leave] using hshown

/-- Thoughts go on behind the tag. -/
theorem shown_run_thoughts (ts : List (List α)) (ps : List (Piece α μ)) :
    shown (run openTag closeTag .opened (ts.map .thought ++ ps)) =
      ts.flatten ++ shown (run openTag closeTag .opened ps) := by
  induction ts with
  | nil => rfl
  | cons t rest ih => simpa [emit, opening, TagState.after, TagState.think] using ih

theorem flatten_filterMap_eq_nil {f : Piece α μ → Option (List α)} {ps : List (Piece α μ)}
    (h : ∀ p ∈ ps, (f p).getD [] = []) : (ps.filterMap f).flatten = [] := by
  refine List.flatten_eq_nil_iff.mpr fun t ht => ?_
  obtain ⟨p, hp, hf⟩ := List.mem_filterMap.mp ht
  simpa [hf] using h p hp

/-- With the thoughts in one run, they are shown between the tags. -/
theorem shown_run {ps : List (Piece α μ)} (h : Ordered ps) :
    shown (run openTag closeTag .unopened ps) =
      tagged openTag closeTag (thoughts ps) (texts ps) := by
  rcases h with hnone | ⟨before, ts, after, rfl, hne, hbefore, hafter⟩
  · have hshown := shown_run_before openTag closeTag
      (List.filterMap_eq_nil_iff.mp hnone) ([] : List (Piece α μ))
    simpa [thoughts, hnone, tagged, closing] using hshown
  · have hnothought : (before.filterMap Piece.thought?).flatten = [] :=
      flatten_filterMap_eq_nil fun p hp => by rw [(hbefore p hp).1]; rfl
    have hnotext : (before.filterMap Piece.text?).flatten = [] :=
      flatten_filterMap_eq_nil fun p hp => (hbefore p hp).2
    have hlater : (after.filterMap Piece.thought?).flatten = [] := flatten_filterMap_eq_nil hafter
    have hthoughts : thoughts (before ++ ts.map Piece.thought ++ after) = ts.flatten := by
      simp [thoughts, hnothought, hlater, List.filterMap_map, Function.comp_def, Piece.thought?]
    have htexts : texts (before ++ ts.map Piece.thought ++ after) = texts after := by
      simp [texts, hnotext, List.filterMap_map, Function.comp_def, Piece.text?]
    have hopen : shown (run openTag closeTag .unopened (ts.map Piece.thought ++ after)) =
        openTag ++ ts.flatten ++ closeTag ++ texts after := by
      cases ts with
      | nil => exact absurd rfl hne
      | cons t rest =>
        have hrest := shown_run_thoughts openTag closeTag rest after
        rw [shown_run_opened openTag closeTag hafter] at hrest
        simpa [emit, opening, TagState.after, TagState.think] using hrest
    rw [hthoughts, htexts, tagged, if_neg hne, List.append_assoc before,
      shown_run_before openTag closeTag fun p hp => (hbefore p hp).1, texts, hnotext, hopen]
    rfl

/-- Nothing is written but the tags and the pieces. -/
theorem mem_run {s : TagState} {ps : List (Piece α μ)} {x : List α ⊕ μ}
    (h : x ∈ run openTag closeTag s ps) :
    x = .inl openTag ∨ x = .inl closeTag ∨ ∃ p ∈ ps, x = p.plain := by
  have hclosing : ∀ {s}, x ∈ closing closeTag s → x = .inl closeTag := by
    intro s hx
    unfold closing at hx
    split at hx
    · exact List.mem_singleton.mp hx
    · cases hx
  induction ps generalizing s with
  | nil => exact Or.inr (Or.inl (hclosing h))
  | cons p rest ih =>
    rw [run_cons] at h
    rcases List.mem_append.mp h with hnow | hlater
    · have hemit : x ∈ opening openTag s ∨ x ∈ closing closeTag s ∨ x = p.plain := by
        cases p <;> simp only [emit, List.mem_append, List.mem_singleton] at hnow
        case thought t => exact hnow.imp id Or.inr
        all_goals exact Or.inr hnow
      rcases hemit with hopen | hclose | hplain
      · unfold opening at hopen
        split at hopen
        · exact Or.inl (List.mem_singleton.mp hopen)
        · cases hopen
      · exact Or.inr (Or.inl (hclosing hclose))
      · exact Or.inr (Or.inr ⟨p, List.mem_cons_self, hplain⟩)
    · refine (ih hlater).imp id (Or.imp id ?_)
      rintro ⟨q, hq, hx⟩
      exact ⟨q, List.mem_cons_of_mem _ hq, hx⟩

theorem plain_mem_run (s : TagState) {ps : List (Piece α μ)} {p : Piece α μ} (h : p ∈ ps) :
    p.plain ∈ run openTag closeTag s ps := by
  induction ps generalizing s with
  | nil => cases h
  | cons q rest ih =>
    rw [run_cons]
    rcases List.mem_cons.mp h with rfl | hrest
    · exact List.mem_append_left _ (by cases p <;> simp [emit, Piece.plain])
    · exact List.mem_append_right _ (ih _ hrest)

end Aigate.TaggedText
