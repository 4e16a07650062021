import Aigate.MarkedSearch
import Aigate.PiiRoundTrip

/-!
# Which entities are found

Whatever a session map makes of an entity, the later passes see letters they do not match. So
two runs over one text, with any two maps or with none, find the same entities.
-/
namespace Aigate.PiiScan
open Text RegexSearch PiiText PiiRestore MarkedText PiiMarks PiiRoundTrip

/-- A bracketed word that no expression matches a part of. -/
def IsMark (word : Bytes) : Prop := ∃ body, IsToken body ∧ word = bracketed body

/-- Two texts that differ in the words of some marks. -/
def Twins (s s' : Bytes) : Prop :=
  ∃ t : List (Piece Char (Bytes × Bytes)), (∀ e, .mark e ∈ t → IsMark e.1 ∧ IsMark e.2) ∧
    s = render Prod.fst t ∧ s' = render Prod.snd t

theorem isMark_tag (type : PiiType) : IsMark (bracketed type.tag) := ⟨_, isToken_tag type, rfl⟩

theorem isMark_newPlaceholder {m : SessionMap} (h : m.entries.length < maxSessionEntries)
    (type : PiiType) : IsMark (m.newPlaceholder type) := by
  have hcount := List.countP_le_length (p := (·.type = type)) (l := m.entries)
  have hmax : maxSessionEntries = 64 := rfl
  exact ⟨_, isToken_name type (by omega), rfl⟩

/-- What stands for an anonymised entity is a mark. -/
theorem isMark_getOrCreate {m : SessionMap} (hok : MapOk m.entries) (type : PiiType) (w : Bytes) :
    IsMark ((m.getOrCreate type w).2.getD (bracketed type.tag)) := by
  unfold SessionMap.getOrCreate
  split
  · exact isMark_tag type
  · split
    · rename_i e hfind
      obtain ⟨body, hbody, hname⟩ := placeholder_eq hok (List.mem_of_find?_eq_some hfind)
      exact ⟨body, hbody, hname⟩
    · split
      · rename_i hroom
        exact isMark_newPlaceholder hroom type
      · exact isMark_tag type

theorem twins_refl (s : Bytes) : Twins s s := by
  refine ⟨letters s, fun e he => ?_, (render_letters _ _).symm, (render_letters _ _).symm⟩
  obtain ⟨c, -, hc⟩ := List.mem_map.mp he
  cases hc

theorem twins_mark {word word' : Bytes} (h : IsMark word) (h' : IsMark word') :
    Twins word word' := by
  refine ⟨[.mark (word, word')], fun e he => ?_, by simp [render], by simp [render]⟩
  obtain rfl := Piece.mark.inj (List.mem_singleton.mp he)
  exact ⟨h, h'⟩

theorem Twins.append {s s' v v' : Bytes} (h : Twins s s') (hv : Twins v v') :
    Twins (s ++ v) (s' ++ v') := by
  obtain ⟨t, ht, rfl, rfl⟩ := h
  obtain ⟨t', ht', rfl, rfl⟩ := hv
  refine ⟨t ++ t', fun e he => ?_, (render_append _ _ _).symm, (render_append _ _ _).symm⟩
  rcases List.mem_append.mp he with he | he
  · exact ht e he
  · exact ht' e he

theorem Twins.nil_iff {s s' : Bytes} (h : Twins s s') : s = [] ↔ s' = [] := by
  obtain ⟨t, ht, rfl, rfl⟩ := h
  cases t with
  | nil => exact Iff.rfl
  | cons p t =>
    cases p with
    | letter c => simp [render]
    | mark e =>
      obtain ⟨⟨body, -, hbody⟩, body', -, hbody'⟩ := ht e List.mem_cons_self
      rw [render, render, hbody, hbody']
      simp [bracketed]

/-- What the same round finds in both texts. -/
inductive SameFound (s s' : Bytes) : Found → Found → Prop where
  | nothing : SameFound s s' .nothing .nothing
  | skip (u v u' v' : Bytes) (k k' : ℕ) (hs : s = u ++ v) (hs' : s' = u' ++ v')
      (hbefore : Twins u u') (hbehind : Twins v v') (hk : k = u.length) (hk' : k' = u'.length) :
      SameFound s s' (.skip k) (.skip k')
  | entity (u v u' v' w : Bytes) (so eo so' eo' : ℕ) (hs : s = u ++ (w ++ v))
      (hs' : s' = u' ++ (w ++ v')) (hbefore : Twins u u') (hbehind : Twins v v')
      (hso : so = u.length) (heo : eo = (u ++ w).length) (hso' : so' = u'.length)
      (heo' : eo' = (u' ++ w).length) : SameFound s s' (.entity so eo) (.entity so' eo')

/-- The marks of a text and their words. -/
def MarksOk (t : List (Piece Char (Bytes × Bytes))) : Prop :=
  ∀ e, .mark e ∈ t → IsMark e.1 ∧ IsMark e.2

theorem apartFrom_mark (type : PiiType) {f : Bytes × Bytes → Bytes}
    {t : List (Piece Char (Bytes × Bytes))} (ht : ∀ e, .mark e ∈ t → IsMark (f e)) :
    ApartFrom type.regex f t := by
  intro w hw e he
  obtain ⟨body, hbody, hname⟩ := ht e he
  have hentity := isEntity_of_mem hw
  exact ⟨'[', body, ']', hname, hentity.not_mem (by decide), hentity.not_mem (by decide),
    hentity.foreign.not_infix hbody⟩

theorem digitAt_last (u v : Bytes) :
    (decide (u.length > 0) && digitAt (u ++ v) (u.length - 1)) = u.getLast?.any Char.isDigit := by
  rcases List.eq_nil_or_concat' u with rfl | ⟨u, c, rfl⟩
  · rfl
  · simp [digitAt]

theorem digitAt_head (u v : Bytes) : digitAt (u ++ v) u.length = v.head?.any Char.isDigit := by
  cases v <;> simp [digitAt]

theorem Twins.last_digit {u u' : Bytes} (h : Twins u u') :
    u.getLast?.any Char.isDigit = u'.getLast?.any Char.isDigit := by
  obtain ⟨t, ht, rfl, rfl⟩ := h
  rcases List.eq_nil_or_concat' t with rfl | ⟨t, p, rfl⟩
  · rfl
  · cases p with
    | letter c => simp [render]
    | mark e =>
      obtain ⟨⟨body, -, hbody⟩, body', -, hbody'⟩ :=
        ht e (List.mem_append_right _ (List.mem_singleton_self _))
      have hlast : ∀ u body : Bytes, (u ++ bracketed body).getLast? = some ']' := by
        intro u body
        rw [bracketed, ← List.append_assoc, List.getLast?_concat]
      have hword : ∀ f : Bytes × Bytes → Bytes, render f [.mark e] = f e := fun f =>
        List.append_nil (f e)
      rw [render_append, render_append, hword, hword, hbody, hbody', hlast, hlast]

theorem Twins.head_digit {v v' : Bytes} (h : Twins v v') :
    v.head?.any Char.isDigit = v'.head?.any Char.isDigit := by
  obtain ⟨t, ht, rfl, rfl⟩ := h
  cases t with
  | nil => rfl
  | cons p t =>
    cases p with
    | letter c => rfl
    | mark e =>
      obtain ⟨⟨body, -, hbody⟩, body', -, hbody'⟩ := ht e List.mem_cons_self
      rw [render, render, hbody, hbody']
      rfl

/-- Letters that are passed over are the same in both texts. -/
theorem Twins.run {v v' : Bytes} (h : Twins v v') {p : Char → Bool} (hp : p '[' = false) :
    ∃ run rest rest', v = run ++ rest ∧ v' = run ++ rest' ∧ Twins rest rest' ∧
      runLength p v = run.length ∧ runLength p v' = run.length := by
  obtain ⟨t, ht, rfl, rfl⟩ := h
  obtain ⟨run, b, rfl, -, htake⟩ := @takeWhile_render _ _ p t
  have hhead : ∀ word, IsMark word → ∃ c rest, word = c :: rest ∧ p c = false := by
    rintro _ ⟨body, -, rfl⟩
    exact ⟨'[', body ++ [']'], rfl, hp⟩
  refine ⟨run, render Prod.fst b, render Prod.snd b, by simp, by simp,
    ⟨b, fun e he => ht e (List.mem_append_right _ he), rfl, rfl⟩, ?_, ?_⟩
  · rw [runLength, htake Prod.fst fun e he => hhead _ (ht e he).1]
  · rw [runLength, htake Prod.snd fun e he => hhead _ (ht e he).2]

theorem sameFound_run {u v u' v' w : Bytes} (hbefore : Twins u u') (hbehind : Twins v v')
    {p : Char → Bool} (hp : p '[' = false) :
    SameFound (u ++ (w ++ v)) (u' ++ (w ++ v')) (.skip (u.length + w.length + runLength p v))
      (.skip (u'.length + w.length + runLength p v')) := by
  obtain ⟨run, rest, rest', rfl, rfl, hrest, hlength, hlength'⟩ := hbehind.run hp
  refine .skip (u ++ (w ++ run)) rest (u' ++ (w ++ run)) rest' _ _ ?_ ?_ ?_ hrest ?_ ?_
  · simp
  · simp
  · exact hbefore.append (twins_refl _)
  · rw [hlength]
    simp [Nat.add_assoc]
  · rw [hlength']
    simp [Nat.add_assoc]

theorem findEntity_twins (type : PiiType) {s s' : Bytes} (h : Twins s s') :
    SameFound s s' (findEntity type s) (findEntity type s') := by
  obtain ⟨t, ht, rfl, rfl⟩ := h
  have hf := apartFrom_mark type (f := Prod.fst) fun e he => (ht e he).1
  have hg := apartFrom_mark type (f := Prod.snd) fun e he => (ht e he).2
  unfold findEntity
  rcases search_render hf hg with ⟨hnone, hnone'⟩ | ⟨a, w, b, rfl, hw, hsome, hsome'⟩
  · rw [hnone, hnone']
    exact .nothing
  · rw [hsome, hsome']
    have hbefore : Twins (render Prod.fst a) (render Prod.snd a) :=
      ⟨a, fun e he => ht e (List.mem_append_left _ he), rfl, rfl⟩
    have hbehind : Twins (render Prod.fst b) (render Prod.snd b) :=
      ⟨b, fun e he => ht e (List.mem_append_right _ (List.mem_append_right _ he)), rfl, rfl⟩
    simp only [render_append, render_letters]
    generalize render Prod.fst a = u at hbefore ⊢
    generalize render Prod.snd a = u' at hbefore ⊢
    generalize render Prod.fst b = v at hbehind ⊢
    generalize render Prod.snd b = v' at hbehind ⊢
    have hat : ∀ u v : Bytes, digitAt (u ++ (w ++ v)) (u.length + w.length) =
        v.head?.any Char.isDigit := by
      intro u v
      rw [← List.append_assoc, ← List.length_append, digitAt_head]
    have hdrop : ∀ u v : Bytes, (u ++ (w ++ v)).drop (u.length + w.length) = v := by
      intro u v
      rw [← List.append_assoc, ← List.length_append, List.drop_left]
    have hpart : ∀ u v : Bytes, ((u ++ (w ++ v)).drop u.length).take w.length = w := by
      intro u v
      rw [List.drop_left, List.take_left]
    simp only [digitAt_last, hat, hdrop, Nat.add_sub_cancel_left, hpart, hbefore.last_digit,
      hbehind.head_digit]
    split
    · exact sameFound_run hbefore hbehind (by decide)
    · split
      · obtain ⟨c, w, rfl⟩ := List.exists_cons_of_ne_nil (isEntity_of_mem hw).nonempty
        refine .skip (u ++ [c]) (w ++ v) (u' ++ [c]) (w ++ v') _ _ ?_ ?_ ?_ ?_ ?_ ?_
        · simp
        · simp
        · exact hbefore.append (twins_refl _)
        · exact (twins_refl w).append hbehind
        · simp
        · simp
      · split
        · exact .entity u v u' v' w _ _ _ _ rfl rfl hbefore hbehind rfl
            (List.length_append).symm rfl (List.length_append).symm
        · unfold PiiType.skipBeyond
          split
          · exact sameFound_run (p := isIdDigit) hbefore hbehind (by decide)
          · exact sameFound_run (p := Char.isDigit) hbefore hbehind (by decide)
          · have hzero : ∀ s, runLength (fun _ => false) s = 0 := by
              intro s
              cases s <;> rfl
            have hrun := @sameFound_run u v u' v' w hbefore hbehind (fun _ => false) rfl
            rw [hzero, hzero] at hrun
            exact hrun

/-- Two runs of a pass that have found the same entities. -/
structure SamePass (p p' : Pass) : Prop where
  out : Twins p.out p'.out
  map : KeepsOk p.map
  map' : KeepsOk p'.map
  action : p.action = p'.action
  changed : p.changed = p'.changed
  originals : p.originals = p'.originals

theorem replacement_twins {map map' : Option SessionMap} (hok : KeepsOk map) (hok' : KeepsOk map')
    (type : PiiType) (action : PiiAction) (w : Bytes) :
    Twins (replacement type action map w).2 (replacement type action map' w).2 := by
  have hmark : ∀ map, KeepsOk map → IsMark (replacement type .anonymizeRestore map w).2 := by
    intro map hok
    cases map with
    | none => exact isMark_tag type
    | some m => exact isMark_getOrCreate (hok m rfl) type w
  cases action with
  | anonymizeRestore => exact twins_mark (hmark map hok) (hmark map' hok')
  | off => exact twins_refl _
  | maskPartial => exact twins_refl _
  | redactTag => exact twins_refl _
  | block => exact twins_refl _

theorem replaceLoop_twins (type : PiiType) (action : PiiAction) {rounds rounds' : ℕ}
    {cursor cursor' : Bytes} {pass pass' : Pass} (h : SamePass pass pass')
    (hcursor : Twins cursor cursor') (hrounds : cursor.length ≤ rounds)
    (hrounds' : cursor'.length ≤ rounds') :
    SamePass (replaceLoop type action rounds cursor pass)
      (replaceLoop type action rounds' cursor' pass') := by
  have hend : ∀ rounds pass, replaceLoop type action rounds [] pass = pass := by
    intro rounds pass
    cases rounds <;> rfl
  induction rounds generalizing rounds' cursor cursor' pass pass' with
  | zero =>
    obtain rfl := List.length_eq_zero_iff.mp (Nat.le_zero.mp hrounds)
    rw [hcursor.nil_iff.mp rfl, hend, hend]
    exact h
  | succ rounds ih =>
    cases cursor with
    | nil =>
      rw [hcursor.nil_iff.mp rfl, hend, hend]
      exact h
    | cons c cursor =>
      obtain ⟨c', cursor', rfl⟩ :=
        List.exists_cons_of_ne_nil (mt hcursor.nil_iff.mpr (List.cons_ne_nil _ _))
      obtain ⟨rounds', rfl⟩ := Nat.exists_eq_succ_of_ne_zero
        (Nat.pos_iff_ne_zero.mp (Nat.zero_lt_of_lt hrounds'))
      rw [replaceLoop, replaceLoop]
      have hfinds := finds_findEntity type (c :: cursor)
      have hfinds' := finds_findEntity type (c' :: cursor')
      have hsame := findEntity_twins type hcursor
      revert hfinds hfinds' hsame
      generalize findEntity type (c :: cursor) = found
      generalize findEntity type (c' :: cursor') = found'
      intro hfinds hfinds' hsame
      cases hsame with
      | nothing => exact { h with out := h.out.append hcursor }
      | skip u v u' v' _ _ hs hs' hbefore hbehind hk hk' =>
        have hstep : 0 < u.length := hk ▸ hfinds.skip_pos
        have hstep' : 0 < u'.length := hk' ▸ hfinds'.skip_pos
        have hlength := congrArg List.length hs
        have hlength' := congrArg List.length hs'
        rw [List.length_append] at hlength hlength'
        dsimp only
        rw [hs, hs', hk, hk', List.take_left, List.take_left, List.drop_left, List.drop_left]
        exact ih { h with out := h.out.append hbefore } hbehind (by omega) (by omega)
      | entity u v u' v' w _ _ _ _ hs hs' hbefore hbehind hso heo hso' heo' =>
        have hpart : ((c :: cursor).drop _).take _ = w := hs ▸ entity_part hso heo
        have hpart' : ((c' :: cursor').drop _).take _ = w := hs' ▸ entity_part hso' heo'
        obtain ⟨hw, hwlength⟩ := hfinds.isEntity
        rw [hpart] at hw hwlength
        have hpos := List.length_pos_of_ne_nil hw.nonempty
        have hlength := congrArg List.length hs
        have hlength' := congrArg List.length hs'
        rw [List.length_append, List.length_append] at hlength hlength'
        have hdrop : ∀ u v : Bytes, (u ++ (w ++ v)).drop (u ++ w).length = v := by
          intro u v
          rw [← List.append_assoc, List.drop_left]
        dsimp only
        rw [hpart, hpart', hs, hs', heo, heo', hso, hso', hdrop, hdrop, List.take_left,
          List.take_left]
        refine ih ⟨?_, ?_, ?_, ?_, rfl, ?_⟩ hbehind (by omega) (by omega)
        · exact (h.out.append hbefore).append (replacement_twins h.map h.map' type action w)
        · exact replacement_ok h.map type action hw hwlength
        · exact replacement_ok h.map' type action hw hwlength
        · exact congrArg (PiiAction.max · action) h.action
        · dsimp only
          rw [h.originals]

/-- Two runs over one text. -/
structure SameRun (t t' : Transformed) : Prop where
  text : Twins t.text t'.text
  map : KeepsOk t.map
  map' : KeepsOk t'.map
  action : t.action = t'.action
  originals : t.originals = t'.originals

theorem replaceEntityRegex_twins (cfg : PiiConfig) (type : PiiType) {t t' : Transformed}
    (h : SameRun t t') : SameRun (replaceEntityRegex cfg t type) (replaceEntityRegex cfg t' type) := by
  unfold replaceEntityRegex
  split
  · exact h
  · have hstart : SamePass ⟨[], t.map, t.action, false, t.originals⟩
        ⟨[], t'.map, t'.action, false, t'.originals⟩ :=
      ⟨twins_refl [], h.map, h.map', h.action, rfl, h.originals⟩
    have hpass := replaceLoop_twins type (cfg.action type) hstart h.text le_rfl le_rfl
    refine ⟨?_, hpass.map, hpass.map', hpass.action, hpass.originals⟩
    dsimp only
    rw [← hpass.changed]
    split
    · exact hpass.out
    · exact h.text

theorem foldl_twins (cfg : PiiConfig) (types : List PiiType) {t t' : Transformed}
    (h : SameRun t t') :
    SameRun (types.foldl (replaceEntityRegex cfg) t) (types.foldl (replaceEntityRegex cfg) t') := by
  induction types generalizing t t' with
  | nil => exact h
  | cons type types ih => exact ih (replaceEntityRegex_twins cfg type h)

/-- The entities that the passes of some types find in a text. -/
def entitiesFound (cfg : PiiConfig) (types : List PiiType) (text : Bytes) : List Bytes :=
  (types.foldl (replaceEntityRegex cfg) ⟨text, none, .off, false, []⟩).originals

/-- A session map has no part in what is found. -/
theorem foldl_originals (cfg : PiiConfig) (types : List PiiType) (text : Bytes)
    {map : Option SessionMap} (hok : KeepsOk map) :
    (types.foldl (replaceEntityRegex cfg) ⟨text, map, .off, false, []⟩).originals =
      entitiesFound cfg types text := by
  have hstart : SameRun ⟨text, map, .off, false, []⟩ ⟨text, none, .off, false, []⟩ :=
    ⟨twins_refl text, hok, fun _ h => (Option.some_ne_none _ h.symm).elim, rfl, rfl⟩
  exact (foldl_twins cfg types hstart).originals

end Aigate.PiiScan
