import Aigate.PromptCompressor

/-!
# White space outside of code

What collapsing the white space of a text leaves as it is: the code between fences, and all of a
text that has no white space to collapse.
-/
namespace Aigate.TextPasses
open Text Utf8 PromptCompressor

/-- A fence, if a line starts here and fences count. -/
def fenceAt (preserveCode start : Bool) (text : Bytes) : Prop :=
  preserveCode = true ∧ start = true ∧ ['`', '`', '`'].isPrefixOf text = true

instance (preserveCode start : Bool) (text : Bytes) : Decidable (fenceAt preserveCode start text) :=
  inferInstanceAs (Decidable (_ ∧ _))

/-! ### Blocks of code -/

/-- The interiors of the blocks of code, from a place on: what was read of the block that is open.
A block without an end reaches to the end of the text. -/
def blocksFrom : ℕ → Bool → Option Bytes → Bytes → List Bytes
  | _, _, block, [] => block.toList
  | skip + 1, _, block, _ :: rest => blocksFrom skip false block rest
  | 0, start, none, c :: rest =>
    if fenceAt true start (c :: rest) then blocksFrom 2 false (some []) rest
    else blocksFrom 0 (c = '\n') none rest
  | 0, start, some block, c :: rest =>
    if fenceAt true start (c :: rest) then block :: blocksFrom 2 false none rest
    else blocksFrom 0 (c = '\n') (some (block ++ [c])) rest

def codeBlocks (text : Bytes) : List Bytes := blocksFrom 0 true none text

/-- The blocks stand in the text one behind the other. -/
inductive Keeps : List Bytes → Bytes → Prop
  | nil (text : Bytes) : Keeps [] text
  | cons (before block : Bytes) {blocks : List Bytes} {rest : Bytes} (h : Keeps blocks rest) :
    Keeps (block :: blocks) (before ++ block ++ rest)

theorem Keeps.push {blocks : List Bytes} {text : Bytes} (c : Char) (h : Keeps blocks text) :
    Keeps blocks (c :: text) := by
  cases h with
  | nil => exact Keeps.nil _
  | cons before block h => exact Keeps.cons (c :: before) block h

/-- One step of the pass: what is written, and the state behind it. -/
theorem sanitize_fence {preserveCode start : Bool} (code : Bool) (newlines : ℕ) (run : Bool)
    {c : Char} {rest : Bytes} (h : fenceAt preserveCode start (c :: rest)) :
    sanitize preserveCode 0 start code newlines run (c :: rest) =
      c :: sanitize preserveCode 2 false (!code) 0 false rest := by
  rw [sanitize]
  exact if_pos h

theorem sanitize_code {preserveCode start : Bool} (newlines : ℕ) (run : Bool) {c : Char}
    {rest : Bytes} (h : ¬ fenceAt preserveCode start (c :: rest)) :
    sanitize preserveCode 0 start true newlines run (c :: rest) =
      c :: sanitize preserveCode 0 (c = '\n') true newlines run rest := by
  unfold fenceAt at h
  rw [sanitize]
  dsimp only
  rw [if_neg h, if_pos rfl]

/-- Outside of code a character stays, becomes a blank or goes. -/
theorem sanitize_plain {preserveCode start : Bool} (newlines : ℕ) (run : Bool) {c : Char}
    {rest : Bytes} (h : ¬ fenceAt preserveCode start (c :: rest)) :
    sanitize preserveCode 0 start false newlines run (c :: rest) =
      if c = '\r' then sanitize preserveCode 0 false false newlines run rest
      else if c = '\n' then
        (if newlines < 2 then ['\n'] else []) ++
          sanitize preserveCode 0 true false (newlines + 1) false rest
      else if c = ' ' ∨ c = '\t' then
        (if run then [] else [' ']) ++ sanitize preserveCode 0 false false 0 true rest
      else c :: sanitize preserveCode 0 false false 0 false rest := by
  unfold fenceAt at h
  rw [sanitize]
  dsimp only
  rw [if_neg h, if_neg Bool.false_ne_true]
  by_cases hr : c = '\r'
  · simp [hr]
  by_cases hn : c = '\n'
  · subst hn
    by_cases hlt : newlines < 2 <;> simp [hlt]
  · have hfalse : decide (c = '\n') = false := decide_eq_false hn
    rw [if_neg hr, if_neg hn, if_neg hr, if_neg hn, hfalse]
    split <;> cases run <;> rfl

/-- The pass keeps every block, whatever it does around it. -/
theorem keeps_sanitize (text : Bytes) :
    (∀ skip start newlines run, Keeps (blocksFrom skip start none text)
      (sanitize true skip start false newlines run text)) ∧
    ∀ skip start newlines run block, skip = 0 ∨ block = [] →
      Keeps (blocksFrom skip start (some block) text)
        (block ++ sanitize true skip start true newlines run text) := by
  induction text with
  | nil =>
    refine ⟨fun skip start newlines run => ?_, fun skip start newlines run block _ => ?_⟩
    · cases skip <;> exact Keeps.nil _
    · have hkeeps := Keeps.cons [] block (Keeps.nil [])
      cases skip <;> simpa [blocksFrom, sanitize] using hkeeps
  | cons c rest ih =>
    obtain ⟨outside, inside⟩ := ih
    constructor
    · intro skip start newlines run
      cases skip with
      | succ skip => exact (outside skip false newlines run).push c
      | zero =>
        by_cases hfence : fenceAt true start (c :: rest)
        · rw [sanitize_fence false newlines run hfence, blocksFrom, if_pos hfence]
          exact (inside 2 false 0 false [] (Or.inr rfl)).push c
        · rw [sanitize_plain newlines run hfence, blocksFrom, if_neg hfence]
          by_cases hr : c = '\r'
          · rw [if_pos hr, decide_eq_false (by simp [hr])]
            exact outside 0 false newlines run
          by_cases hn : c = '\n'
          · rw [if_neg hr, if_pos hn, decide_eq_true hn]
            split
            · exact (outside 0 true (newlines + 1) false).push '\n'
            · exact outside 0 true (newlines + 1) false
          rw [if_neg hr, if_neg hn, decide_eq_false hn]
          split
          · split
            · exact outside 0 false 0 true
            · exact (outside 0 false 0 true).push ' '
          · exact (outside 0 false 0 false).push c
    · intro skip start newlines run block hblock
      cases skip with
      | succ skip =>
        obtain rfl : block = [] := hblock.resolve_left (Nat.succ_ne_zero skip)
        exact (inside skip false newlines run [] (Or.inr rfl)).push c
      | zero =>
        by_cases hfence : fenceAt true start (c :: rest)
        · rw [sanitize_fence true newlines run hfence, blocksFrom, if_pos hfence]
          exact Keeps.cons [] block ((outside 2 false 0 false).push c)
        · rw [sanitize_code newlines run hfence, blocksFrom, if_neg hfence]
          have hkeeps := inside 0 (c = '\n') newlines run (block ++ [c]) (Or.inl rfl)
          rwa [List.append_assoc] at hkeeps

/-- With code preserved, collapsing white space keeps the interior of every block. -/
theorem keeps_sanitizeWhitespace (text : Bytes) :
    Keeps (codeBlocks text) (compressorSanitizeWhitespace true text) :=
  (keeps_sanitize text).1 0 true 0 false

/-! ### Characters -/

/-- One byte of the text: it is written, or it is ASCII and so is what is written for it. -/
theorem sanitize_cons (preserveCode : Bool) (skip : ℕ) (start code : Bool) (newlines : ℕ)
    (run : Bool) (c : Char) (rest : Bytes) : ∃ w skip' start' code' newlines' run',
      sanitize preserveCode skip start code newlines run (c :: rest) =
        w ++ sanitize preserveCode skip' start' code' newlines' run' rest ∧
      (w = [c] ∨ c.toNat < 128 ∧ ∀ d ∈ w, d.toNat < 128) := by
  cases skip with
  | succ skip => exact ⟨[c], skip, false, code, newlines, run, rfl, Or.inl rfl⟩
  | zero =>
    by_cases hfence : fenceAt preserveCode start (c :: rest)
    · exact ⟨[c], _, _, _, _, _, sanitize_fence code newlines run hfence, Or.inl rfl⟩
    cases code with
    | true => exact ⟨[c], _, _, _, _, _, sanitize_code newlines run hfence, Or.inl rfl⟩
    | false =>
      rw [sanitize_plain newlines run hfence]
      split_ifs with hr hn hlt hblank hrun
      · exact ⟨[], _, _, _, _, _, rfl, Or.inr ⟨by simp [hr], by simp⟩⟩
      · exact ⟨['\n'], _, _, _, _, _, rfl, Or.inl (by rw [hn])⟩
      · exact ⟨[], _, _, _, _, _, rfl, Or.inr ⟨by simp [hn], by simp⟩⟩
      · refine ⟨[], _, _, _, _, _, rfl, Or.inr ⟨?_, by simp⟩⟩
        rcases hblank with rfl | rfl <;> decide
      · refine ⟨[' '], _, _, _, _, _, rfl, Or.inr ⟨?_, by simp⟩⟩
        rcases hblank with rfl | rfl <;> decide
      · exact ⟨[c], _, _, _, _, _, rfl, Or.inl rfl⟩

/-- The bytes of a character stay together. -/
theorem sanitize_high (preserveCode : Bool) {u : Bytes} (hu : ∀ c ∈ u, 128 ≤ c.toNat) (skip : ℕ)
    (start code : Bool) (newlines : ℕ) (run : Bool) (v : Bytes) :
    ∃ skip' start' code' newlines' run',
      sanitize preserveCode skip start code newlines run (u ++ v) =
        u ++ sanitize preserveCode skip' start' code' newlines' run' v := by
  induction u generalizing skip start code newlines run with
  | nil => exact ⟨skip, start, code, newlines, run, rfl⟩
  | cons c u ih =>
    obtain ⟨hc, hu⟩ := List.forall_mem_cons.mp hu
    obtain ⟨w, skip₁, start₁, code₁, newlines₁, run₁, hone, hw⟩ :=
      sanitize_cons preserveCode skip start code newlines run c (u ++ v)
    obtain ⟨skip₂, start₂, code₂, newlines₂, run₂, hrest⟩ :=
      ih hu skip₁ start₁ code₁ newlines₁ run₁
    obtain rfl := hw.resolve_right fun h => absurd h.1 (by omega)
    refine ⟨skip₂, start₂, code₂, newlines₂, run₂, ?_⟩
    rw [List.cons_append, hone, hrest]
    rfl

theorem utf8Check_sanitize (preserveCode : Bool) {text : Bytes} (h : utf8Check text = true)
    (skip : ℕ) (start code : Bool) (newlines : ℕ) (run : Bool) :
    utf8Check (sanitize preserveCode skip start code newlines run text) = true := by
  revert skip start code newlines run
  refine utf8Check_induction (P := fun text => ∀ skip start code newlines run,
    utf8Check (sanitize preserveCode skip start code newlines run text) = true)
    (fun skip _ _ _ _ => by cases skip <;> rfl) (fun c v hc ih => ?_) (fun u v hhigh hu ih => ?_) h
  · intro skip start code newlines run
    obtain ⟨w, skip', start', code', newlines', run', heq, hw⟩ :=
      sanitize_cons preserveCode skip start code newlines run c v
    have hascii : ∀ d ∈ w, d.toNat < 128 := by
      rcases hw with rfl | ⟨-, hw⟩
      · intro d hd
        obtain rfl := List.mem_singleton.mp hd
        exact hc
      · exact hw
    rw [heq, utf8Check_append (utf8Check_of_ascii hascii)]
    exact ih skip' start' code' newlines' run'
  · intro skip start code newlines run
    obtain ⟨skip', start', code', newlines', run', heq⟩ :=
      sanitize_high preserveCode hhigh skip start code newlines run v
    rw [heq, utf8Check_append hu]
    exact ih skip' start' code' newlines' run'

/-- What goes is ASCII: the text stays UTF-8. -/
theorem utf8Check_sanitizeWhitespace (preserveCode : Bool) {text : Bytes}
    (h : utf8Check text = true) :
    utf8Check (compressorSanitizeWhitespace preserveCode text) = true :=
  utf8Check_sanitize preserveCode h 0 true false 0 false

/-- Nothing is added. -/
theorem length_sanitize_le (preserveCode : Bool) (text : Bytes) (skip : ℕ) (start code : Bool)
    (newlines : ℕ) (run : Bool) :
    (sanitize preserveCode skip start code newlines run text).length ≤ text.length := by
  induction text generalizing skip start code newlines run with
  | nil => cases skip <;> exact Nat.le_refl _
  | cons c rest ih =>
    cases skip with
    | succ skip => exact Nat.succ_le_succ (ih _ _ _ _ _)
    | zero =>
      by_cases hfence : fenceAt preserveCode start (c :: rest)
      · rw [sanitize_fence code newlines run hfence]
        exact Nat.succ_le_succ (ih _ _ _ _ _)
      cases code with
      | true =>
        rw [sanitize_code newlines run hfence]
        exact Nat.succ_le_succ (ih _ _ _ _ _)
      | false =>
        rw [sanitize_plain newlines run hfence]
        split_ifs
        · exact Nat.le_succ_of_le (ih _ _ _ _ _)
        · exact Nat.succ_le_succ (ih _ _ _ _ _)
        · exact Nat.le_succ_of_le (ih _ _ _ _ _)
        · exact Nat.le_succ_of_le (ih _ _ _ _ _)
        · exact Nat.succ_le_succ (ih _ _ _ _ _)
        · exact Nat.succ_le_succ (ih _ _ _ _ _)

/-! ### Texts without white space to collapse -/

/-- Each character, and whether it stands in code; the fences do. -/
def marked (preserveCode : Bool) : ℕ → Bool → Bool → Bytes → List (Char × Bool)
  | _, _, _, [] => []
  | skip + 1, _, code, c :: rest => (c, true) :: marked preserveCode skip false code rest
  | 0, start, code, c :: rest =>
    if fenceAt preserveCode start (c :: rest) then
      (c, true) :: marked preserveCode 2 false (!code) rest
    else (c, code) :: marked preserveCode 0 (c = '\n') code rest

def blank : Char × Bool := (' ', false)

def newline : Char × Bool := ('\n', false)

/-- There is no carriage return and no tab, no two blanks follow each other and no three ends of
lines. -/
structure Tidy (cs : List (Char × Bool)) : Prop where
  noReturn : ('\r', false) ∉ cs
  noTab : ('\t', false) ∉ cs
  oneBlank : ¬ [blank, blank] <:+: cs
  twoNewlines : ¬ [newline, newline, newline] <:+: cs

/-- The white space of the text is as the pass leaves it; with code preserved, outside of code. -/
def Collapsed (preserveCode : Bool) (text : Bytes) : Prop :=
  Tidy (marked preserveCode 0 true false text)

/-- The same from a place on, behind so many ends of lines and perhaps a blank. -/
def TidyFrom : ℕ → Bool → List (Char × Bool) → Prop
  | _, _, [] => True
  | _, _, (_, true) :: rest => TidyFrom 0 false rest
  | newlines, run, (c, false) :: rest =>
    c ≠ '\r' ∧ c ≠ '\t' ∧ (c = '\n' → newlines < 2) ∧ (c = ' ' → run = false) ∧
      TidyFrom (if c = '\n' then newlines + 1 else 0) (c = ' ') rest

/-- A character is not put in place of a shorter rest. -/
theorem ne_cons_of_length_le {s rest : Bytes} (h : s.length ≤ rest.length) (c : Char) :
    s ≠ c :: rest := by
  rintro rfl
  simp at h

/-- The pass changes nothing exactly on a tidy text; in code and in a fence nothing is counted. -/
theorem sanitize_eq_self_iff (preserveCode : Bool) (text : Bytes) (skip : ℕ) (start code : Bool)
    (newlines : ℕ) (run : Bool) (hstate : code = true ∨ 0 < skip → newlines = 0 ∧ run = false) :
    sanitize preserveCode skip start code newlines run text = text ↔
      TidyFrom newlines run (marked preserveCode skip start code text) := by
  induction text generalizing skip start code newlines run with
  | nil => cases skip <;> simp [sanitize, marked, TidyFrom]
  | cons c rest ih =>
    have hlength := length_sanitize_le preserveCode rest
    have hfresh := fun skip start code => ih skip start code 0 false fun _ => ⟨rfl, rfl⟩
    cases skip with
    | succ skip =>
      obtain ⟨rfl, rfl⟩ := hstate (Or.inr (Nat.succ_pos skip))
      rw [sanitize, marked, TidyFrom, List.cons_eq_cons, and_iff_right rfl]
      exact hfresh skip false code
    | zero =>
      by_cases hfence : fenceAt preserveCode start (c :: rest)
      · rw [sanitize_fence code newlines run hfence, marked, if_pos hfence, TidyFrom,
          List.cons_eq_cons, and_iff_right rfl]
        exact hfresh 2 false (!code)
      rw [marked, if_neg hfence]
      cases code with
      | true =>
        obtain ⟨rfl, rfl⟩ := hstate (Or.inl rfl)
        rw [sanitize_code 0 false hfence, TidyFrom, List.cons_eq_cons, and_iff_right rfl]
        exact hfresh 0 (c = '\n') true
      | false =>
        have hnext := fun start newlines run =>
          ih 0 start false newlines run fun h => by simp at h
        rw [sanitize_plain newlines run hfence, TidyFrom]
        by_cases hr : c = '\r'
        · rw [if_pos hr]
          exact iff_of_false (ne_cons_of_length_le (hlength _ _ _ _ _) c) fun h => h.1 hr
        by_cases hn : c = '\n'
        · subst hn
          rw [if_neg hr, if_pos rfl, if_pos rfl]
          by_cases hlt : newlines < 2
          · rw [if_pos hlt, List.singleton_append, List.cons_eq_cons, and_iff_right rfl, hnext]
            simp [hlt]
          · rw [if_neg hlt, List.nil_append]
            exact iff_of_false (ne_cons_of_length_le (hlength _ _ _ _ _) _) fun h => hlt (h.2.2.1 rfl)
        rw [if_neg hr, if_neg hn, if_neg hn, decide_eq_false hn]
        by_cases hspace : c = ' '
        · subst hspace
          rw [if_pos (Or.inl rfl)]
          cases run with
          | true =>
            exact iff_of_false (ne_cons_of_length_le (hlength _ _ _ _ _) _)
              fun h => Bool.noConfusion (h.2.2.2.1 rfl)
          | false =>
            rw [if_neg Bool.false_ne_true, List.singleton_append, List.cons_eq_cons,
              and_iff_right rfl, hnext]
            simp
        by_cases htab : c = '\t'
        · subst htab
          rw [if_pos (Or.inr rfl)]
          refine iff_of_false ?_ fun h => h.2.1 rfl
          cases run with
          | true => exact ne_cons_of_length_le (hlength _ _ _ _ _) _
          | false => simp
        · rw [if_neg (by simp [hspace, htab]), List.cons_eq_cons, and_iff_right rfl, hnext]
          simp [hr, htab, hspace, hn]

theorem blanks_cons (run : Bool) (x : Char × Bool) (cs : List (Char × Bool)) :
    [blank, blank] <:+: (if run then blank :: x :: cs else x :: cs) ↔
      run = true ∧ x = blank ∨ [blank, blank] <:+: if x = blank then blank :: cs else cs := by
  have hone : [blank, blank] <:+: x :: cs ↔
      [blank, blank] <:+: if x = blank then blank :: cs else cs := by
    by_cases hx : x = blank
    · rw [if_pos hx, hx]
    · rw [if_neg hx, List.infix_cons_iff, List.cons_prefix_cons]
      simp [Ne.symm hx]
  cases run with
  | false =>
    rw [if_neg Bool.false_ne_true, hone]
    simp
  | true =>
    rw [if_pos rfl, List.infix_cons_iff, hone, List.cons_prefix_cons, List.cons_prefix_cons]
    simp [eq_comm]

theorem newlines_cons {n : ℕ} (hn : n ≤ 2) {x : Char × Bool} (hx : x ≠ newline)
    (cs : List (Char × Bool)) :
    [newline, newline, newline] <:+: List.replicate n newline ++ x :: cs ↔
      [newline, newline, newline] <:+: cs := by
  have hne : newline ≠ x := Ne.symm hx
  interval_cases n
  all_goals simp [List.replicate_succ, List.infix_cons_iff, List.cons_prefix_cons, hne]

theorem newlines_self {n : ℕ} (hn : 2 ≤ n) (cs : List (Char × Bool)) :
    [newline, newline, newline] <:+: List.replicate n newline ++ newline :: cs := by
  obtain ⟨k, rfl⟩ := Nat.exists_eq_add_of_le hn
  refine ⟨List.replicate k newline, cs, ?_⟩
  rw [Nat.add_comm, List.replicate_add, List.append_assoc, List.append_assoc]
  rfl

/-- The state stands for the characters before the place. -/
theorem tidyFrom_iff {n : ℕ} (hn : n ≤ 2) (run : Bool) (cs : List (Char × Bool)) :
    TidyFrom n run cs ↔ ('\r', false) ∉ cs ∧ ('\t', false) ∉ cs ∧
      ¬ [blank, blank] <:+: (if run then blank :: cs else cs) ∧
      ¬ [newline, newline, newline] <:+: List.replicate n newline ++ cs := by
  induction cs generalizing n run with
  | nil =>
    have hblank : ¬ [blank, blank] <:+: if run then [blank] else [] := by
      intro h
      have hle := h.length_le
      cases run <;> simp at hle
    have hnewline : ¬ [newline, newline, newline] <:+: List.replicate n newline ++ [] := by
      intro h
      have hle := h.length_le
      simp only [List.length_cons, List.length_nil, List.append_nil, List.length_replicate] at hle
      omega
    rw [List.append_nil] at hnewline
    simp [TidyFrom, hblank, hnewline]
  | cons x cs ih =>
    obtain ⟨c, mark⟩ := x
    rw [blanks_cons]
    cases mark with
    | true =>
      have hb : (c, true) ≠ blank := by simp [blank]
      have hnl : (c, true) ≠ newline := by simp [newline]
      rw [TidyFrom, ih (Nat.zero_le 2), newlines_cons hn hnl, if_neg hb]
      simp [hb]
    | false =>
      rw [TidyFrom]
      by_cases hnl : c = '\n'
      · subst hnl
        rw [if_pos rfl]
        by_cases hlt : n < 2
        · rw [ih hlt, List.replicate_succ', List.append_assoc]
          simp [hlt, blank, newline]
        · have hself := newlines_self (not_lt.mp hlt) cs
          refine iff_of_false (fun h => hlt (h.2.2.1 rfl)) fun h => h.2.2.2 hself
      · have hne : (c, false) ≠ newline := by simp [newline, hnl]
        rw [if_neg hnl, ih (Nat.zero_le 2), newlines_cons hn hne]
        by_cases hspace : c = ' '
        · subst hspace
          simp [blank, and_left_comm, and_assoc]
        · have hb : (c, false) ≠ blank := by simp [blank, hspace]
          simp [hb, hspace, hnl, eq_comm, and_assoc, and_left_comm]

/-- Collapsing white space leaves a text as it is exactly when it is collapsed. -/
theorem sanitizeWhitespace_eq_self_iff (preserveCode : Bool) (text : Bytes) :
    compressorSanitizeWhitespace preserveCode text = text ↔ Collapsed preserveCode text := by
  rw [compressorSanitizeWhitespace, sanitize_eq_self_iff preserveCode text 0 true false 0 false
    (fun _ => ⟨rfl, rfl⟩), tidyFrom_iff (Nat.zero_le 2)]
  exact ⟨fun ⟨h₁, h₂, h₃, h₄⟩ => ⟨h₁, h₂, h₃, h₄⟩, fun h => ⟨h.1, h.2, h.3, h.4⟩⟩

end Aigate.TextPasses
