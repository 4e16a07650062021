import Aigate.PiiMarks

/-!
# From the originals to placeholders and back

Every pass over a text replaces entities of one type, and what it leaves stands for the text
that was given. As long as the session map has room, the transformed text is that text with
some entities marked.
-/
namespace Aigate.PiiRoundTrip
open Text RegexSearch PiiText PiiRestore MarkedText PiiMarks

theorem tag_injective : Function.Injective PiiType.tag := by
  intro a b h
  revert h
  cases a <;> cases b <;> decide +kernel

/-- The name of a placeholder tells the type and the number. -/
theorem name_injective {a b : PiiType} {n k : ℕ}
    (h : a.tag ++ '_' :: decimal n = b.tag ++ '_' :: decimal k) : a = b ∧ n = k := by
  have hcut : ∀ (t : Bytes) (n k : ℕ), '_' :: decimal n = t ++ '_' :: decimal k → t = [] := by
    intro t n k ht
    cases t with
    | nil => rfl
    | cons c t =>
      have htail := (List.cons.inj ht).2
      have hm : '_' ∈ decimal n := by
        rw [htail]
        exact List.mem_append_right _ List.mem_cons_self
      exact absurd (decimal_digits hm) (by decide)
  have htag : a.tag = b.tag := by
    rcases List.append_eq_append_iff.mp h with ⟨t, ht, hn⟩ | ⟨t, ht, hn⟩
    · rw [hcut t _ _ hn, List.append_nil] at ht
      exact ht.symm
    · rw [hcut t _ _ hn, List.append_nil] at ht
      exact ht
  rw [htag, List.append_cancel_left_eq] at h
  exact ⟨tag_injective htag, decimal_injective (List.cons.inj h).2⟩

/-- A new entry is numbered after the others of its type. -/
theorem mapOk_new {m : SessionMap} (hok : MapOk m.entries) {type : PiiType} {w : Bytes}
    (hw : IsEntity w) (hnew : ∀ e ∈ m.entries, e.original ≠ w) :
    MapOk (m.entries ++ [⟨m.newPlaceholder type, w, type⟩]) where
  named := by
    intro e he
    rcases List.mem_append.mp he with he | he
    · obtain ⟨n, hn, hname⟩ := hok.named e he
      refine ⟨n, ?_, hname⟩
      rw [List.countP_append]
      omega
    · obtain rfl := List.mem_singleton.mp he
      refine ⟨m.entries.countP (·.type = type) + 1, ?_, rfl⟩
      rw [List.countP_append]
      simp
  distinct := by
    rw [List.map_append, List.nodup_append']
    refine ⟨hok.distinct, List.nodup_singleton _, ?_⟩
    rw [List.map_singleton, List.disjoint_singleton]
    intro hm
    obtain ⟨e, he, hsame⟩ := List.mem_map.mp hm
    obtain ⟨n, hn, hname⟩ := hok.named e he
    rw [hname] at hsame
    have hbody := List.append_cancel_right (List.cons.inj hsame).2
    obtain ⟨htype, hnumber⟩ := name_injective hbody
    rw [htype] at hn
    omega
  once := by
    rw [List.map_append, List.nodup_append']
    refine ⟨hok.once, List.nodup_singleton _, ?_⟩
    rw [List.map_singleton, List.disjoint_singleton]
    intro hm
    obtain ⟨e, he, hsame⟩ := List.mem_map.mp hm
    exact hnew e he hsame
  entity := by
    intro e he
    rcases List.mem_append.mp he with he | he
    · exact hok.entity e he
    · obtain rfl := List.mem_singleton.mp he
      exact hw

theorem mem_getOrCreate {m : SessionMap} {type : PiiType} {w : Bytes} (hok : MapOk m.entries)
    (hw : IsEntity w) (hlength : w.length < 128)
    (hroom : (∃ e ∈ m.entries, e.original = w) ∨ m.entries.length < maxSessionEntries) :
    MapOk (m.getOrCreate type w).1.entries ∧
      (∀ e ∈ m.entries, e ∈ (m.getOrCreate type w).1.entries) ∧
      (∀ e ∈ (m.getOrCreate type w).1.entries, e ∈ m.entries ∨ e.original = w) ∧
      ∃ e ∈ (m.getOrCreate type w).1.entries, e.original = w ∧
        (m.getOrCreate type w).2 = some e.placeholder := by
  unfold SessionMap.getOrCreate
  rw [if_neg hw.nonempty]
  cases hfind : m.entries.find? (·.original = w) with
  | some e =>
    have horiginal : e.original = w := by simpa using List.find?_some hfind
    exact ⟨hok, fun _ he => he, fun _ he => Or.inl he,
      e, List.mem_of_find?_eq_some hfind, horiginal, rfl⟩
  | none =>
    have hnew : ∀ e ∈ m.entries, e.original ≠ w := by
      intro e he
      have := List.find?_eq_none.mp hfind e he
      simpa using this
    have hfits : m.entries.length < maxSessionEntries := by
      rcases hroom with ⟨e, he, hsame⟩ | hfits
      · exact absurd hsame (hnew e he)
      · exact hfits
    have htake : w.take 127 = w := List.take_of_length_le (by omega)
    dsimp only
    rw [dif_pos hfits]
    dsimp only
    rw [htake]
    refine ⟨?_, fun e he => List.mem_append_left _ he, fun e he => ?_,
      ⟨m.newPlaceholder type, w, type⟩, List.mem_append_right _ (List.mem_singleton_self _), rfl,
      rfl⟩
    · exact mapOk_new hok hw hnew
    · rcases List.mem_append.mp he with he | he
      · exact Or.inl he
      · rw [List.mem_singleton.mp he]
        exact Or.inr rfl

/-- What a round finds: a part to pass over that starts with the match, or an entity. -/
inductive Finds (cursor : Bytes) : Found → Prop where
  | nothing : Finds cursor .nothing
  | skip (u x y v : Bytes) (step : ℕ) (hsplit : cursor = u ++ (x ++ y ++ v))
      (hstep : step = (u ++ x).length) (hx : x ≠ []) (hforeign : Foreign (x ++ y))
      (hopen : '[' ∉ x ++ y) (hclose : ']' ∉ x ++ y) : Finds cursor (.skip step)
  | entity (u w v : Bytes) (so eo : ℕ) (hsplit : cursor = u ++ (w ++ v)) (hso : so = u.length)
      (heo : eo = (u ++ w).length) (hw : IsEntity w) (hlength : w.length < 128) :
      Finds cursor (.entity so eo)

/-- The part that an entity takes. -/
theorem entity_part {u w v : Bytes} {so eo : ℕ} (hso : so = u.length) (heo : eo = (u ++ w).length) :
    ((u ++ (w ++ v)).drop so).take (eo - so) = w := by
  have hsub : eo - so = w.length := by
    rw [heo, hso, List.length_append]
    omega
  rw [hsub, hso, List.drop_left, List.take_left]

theorem Finds.isEntity {cursor : Bytes} {so eo : ℕ} (h : Finds cursor (.entity so eo)) :
    IsEntity ((cursor.drop so).take (eo - so)) ∧
      ((cursor.drop so).take (eo - so)).length < 128 := by
  cases h with
  | entity u w v _ _ hsplit hso heo hw hlength =>
    rw [hsplit, entity_part hso heo]
    exact ⟨hw, hlength⟩

theorem Finds.skip_pos {cursor : Bytes} {step : ℕ} (h : Finds cursor (.skip step)) : 0 < step := by
  cases h with
  | skip u x y v _ hsplit hstep hx =>
    have := List.length_pos_of_ne_nil hx
    rw [hstep, List.length_append]
    omega

theorem runLength_split (p : Char → Bool) (s : Bytes) :
    ∃ run rest, s = run ++ rest ∧ run.length = runLength p s ∧ ∀ c ∈ run, p c = true :=
  ⟨s.takeWhile p, s.dropWhile p, (List.takeWhile_append_dropWhile).symm, rfl,
    fun _ hc => List.mem_takeWhile_imp hc⟩

/-- A match, and letters behind it that are passed over with it. -/
theorem finds_run {u w s : Bytes} (hw : IsEntity w) {p : Char → Bool}
    (hp : ∀ c, p c = true → c ≠ '[' ∧ c ≠ ']') :
    Finds (u ++ (w ++ s)) (.skip ((u ++ w).length + runLength p s)) := by
  obtain ⟨run, rest, rfl, hlength, hrun⟩ := runLength_split p s
  have hnot : ∀ c, isEntityChar c = false → p c = false → c ∉ w ++ run := by
    intro c hc hpc hm
    rcases List.mem_append.mp hm with hm | hm
    · exact hw.not_mem hc hm
    · rw [hrun c hm] at hpc
      cases hpc
  have hopen : p '[' = false := by
    by_contra h
    exact (hp _ (by simpa using h)).1 rfl
  have hclose : p ']' = false := by
    by_contra h
    exact (hp _ (by simpa using h)).2 rfl
  refine .skip u (w ++ run) [] rest _ ?_ ?_ ?_ ?_ ?_ ?_
  · simp
  · rw [hlength.symm]
    simp [Nat.add_assoc]
  · simp [hw.nonempty]
  · rw [List.append_nil]
    exact hw.foreign.append_right run
  · rw [List.append_nil]
    exact hnot _ (by decide) hopen
  · rw [List.append_nil]
    exact hnot _ (by decide) hclose

theorem finds_findEntity (type : PiiType) (cursor : Bytes) :
    Finds cursor (findEntity type cursor) := by
  have hdigit : ∀ c : Char, c.isDigit = true → c ≠ '[' ∧ c ≠ ']' := by
    intro c hc
    refine ⟨?_, ?_⟩
    · rintro rfl
      revert hc
      decide
    · rintro rfl
      revert hc
      decide
  unfold findEntity
  cases hsearch : type.regex.search cursor with
  | none => exact .nothing
  | some found =>
    obtain ⟨so, eo⟩ := found
    have hmatch := search_some hsearch
    obtain ⟨u, w, s, rfl, rfl, rfl, hw⟩ : ∃ u w s, cursor = u ++ (w ++ s) ∧ so = u.length ∧
        eo = (u ++ w).length ∧ w ∈ type.regex.lang := by
      have hle := hmatch.start_le
      have hstop := hmatch.stop_le
      refine ⟨cursor.take so, (cursor.drop so).take (eo - so), cursor.drop eo, ?_, ?_, ?_,
        hmatch.matched⟩
      · have hdrop : cursor.drop eo = (cursor.drop so).drop (eo - so) := by
          rw [List.drop_drop]
          congr 1
          omega
        rw [hdrop, List.take_append_drop, List.take_append_drop]
      · rw [List.length_take]
        omega
      · rw [List.length_append, List.length_take, List.length_take, List.length_drop]
        omega
    have hentity := isEntity_of_mem hw
    have hdrop : (u ++ (w ++ s)).drop (u ++ w).length = s := by
      rw [← List.append_assoc, List.drop_left]
    have hlength : (u ++ w).length - u.length = w.length := by
      rw [List.length_append]
      omega
    dsimp only
    rw [hdrop, hlength]
    split
    · exact finds_run hentity hdigit
    · split
      · obtain ⟨c, w, rfl⟩ := List.exists_cons_of_ne_nil hentity.nonempty
        refine .skip u [c] w s _ ?_ ?_ (List.cons_ne_nil _ _) ?_ ?_ ?_
        · simp
        · simp
        · exact hentity.foreign
        · exact hentity.not_mem (by decide)
        · exact hentity.not_mem (by decide)
      · split
        · exact .entity u w s _ _ rfl rfl rfl hentity (by omega)
        · unfold PiiType.skipBeyond
          split
          · refine finds_run hentity fun c hc => ?_
            simp only [isIdDigit, Bool.or_eq_true, decide_eq_true_eq] at hc
            rcases hc with (hc | rfl) | rfl
            · exact hdigit c hc
            · decide
            · decide
          · exact finds_run hentity hdigit
          · have hzero : runLength (fun _ => false) s = 0 := by cases s <;> rfl
            have hrun := @finds_run u w s hentity (fun _ => false) (by simp)
            rw [hzero] at hrun
            exact hrun

/-- Whatever is replaced, a session map stays one. -/
def KeepsOk (map : Option SessionMap) : Prop := ∀ m, map = some m → MapOk m.entries

theorem getOrCreate_ok {m : SessionMap} (hok : MapOk m.entries) {type : PiiType} {w : Bytes}
    (hw : IsEntity w) (hlength : w.length < 128) : MapOk (m.getOrCreate type w).1.entries := by
  by_cases hroom : (∃ e ∈ m.entries, e.original = w) ∨ m.entries.length < maxSessionEntries
  · exact (mem_getOrCreate hok hw hlength hroom).1
  · rw [not_or, not_exists] at hroom
    have hnone : m.entries.find? (·.original = w) = none := by
      rw [List.find?_eq_none]
      intro e he
      simpa using fun h => hroom.1 e ⟨he, h⟩
    unfold SessionMap.getOrCreate
    rw [if_neg hw.nonempty, hnone]
    dsimp only
    rw [dif_neg hroom.2]
    exact hok

theorem replacement_ok {map : Option SessionMap} (hok : KeepsOk map) (type : PiiType)
    (action : PiiAction) {w : Bytes} (hw : IsEntity w) (hlength : w.length < 128) :
    KeepsOk (replacement type action map w).1 := by
  cases action with
  | anonymizeRestore =>
    cases map with
    | none => exact hok
    | some m =>
      intro m' hm'
      obtain rfl := Option.some.inj hm'
      exact getOrCreate_ok (hok m rfl) hw hlength
  | off => exact hok
  | maskPartial => exact hok
  | redactTag => exact hok
  | block => exact hok

theorem replaceLoop_ok (type : PiiType) (action : PiiAction) (rounds : ℕ) (cursor : Bytes)
    {pass : Pass} (hok : KeepsOk pass.map) :
    KeepsOk (replaceLoop type action rounds cursor pass).map := by
  induction rounds generalizing cursor pass with
  | zero => exact hok
  | succ rounds ih =>
    cases cursor with
    | nil => exact hok
    | cons c cursor =>
      rw [replaceLoop]
      have hfinds := finds_findEntity type (c :: cursor)
      revert hfinds
      cases findEntity type (c :: cursor) with
      | nothing => exact fun _ => hok
      | skip step => exact fun _ => ih _ hok
      | entity so eo =>
        intro hfinds
        obtain ⟨hw, hlength⟩ := hfinds.isEntity
        exact ih _ (replacement_ok hok type action hw hlength)

theorem transformPiiText_ok (cfg : PiiConfig) {map : Option SessionMap} (hok : KeepsOk map)
    (text : Bytes) : KeepsOk (transformPiiText cfg map text).map := by
  have hfold : ∀ (types : List PiiType) (t : Transformed), KeepsOk t.map →
      KeepsOk (types.foldl (replaceEntityRegex cfg) t).map := by
    intro types
    induction types with
    | nil => exact fun _ h => h
    | cons type types ih =>
      intro t h
      refine ih _ ?_
      unfold replaceEntityRegex
      split
      · exact h
      · exact replaceLoop_ok _ _ _ _ h
  unfold transformPiiText
  split
  · exact hok
  · exact hfold _ _ hok

theorem severity_le_max (a b : PiiAction) :
    a.severity ≤ (a.max b).severity ∧ b.severity ≤ (a.max b).severity := by
  unfold PiiAction.max
  split
  · rename_i h
    exact ⟨h.le, le_rfl⟩
  · rename_i h
    exact ⟨le_rfl, not_lt.mp h⟩

theorem eq_anonymizeRestore {action : PiiAction} (hoff : action ≠ .off)
    (h : action.severity ≤ 1) : action = .anonymizeRestore := by
  cases action with
  | off => exact absurd rfl hoff
  | anonymizeRestore => rfl
  | maskPartial => exact absurd h (by decide)
  | redactTag => exact absurd h (by decide)
  | block => exact absurd h (by decide)

/-- The loop forgets no entity, and reports an action at least as strong. -/
structure Extends (action : PiiAction) (originals : List Bytes) (final : Pass) : Prop where
  originals : originals <+: final.originals
  severity : action.severity ≤ final.action.severity

theorem replaceLoop_extends (type : PiiType) (action : PiiAction) (rounds : ℕ) (cursor : Bytes)
    (pass : Pass) :
    Extends pass.action pass.originals (replaceLoop type action rounds cursor pass) := by
  induction rounds generalizing cursor pass with
  | zero => exact ⟨List.prefix_refl _, le_rfl⟩
  | succ rounds ih =>
    cases cursor with
    | nil => exact ⟨List.prefix_refl _, le_rfl⟩
    | cons c cursor =>
      rw [replaceLoop]
      split
      · exact ⟨List.prefix_refl _, le_rfl⟩
      · rename_i step _
        exact ih ((c :: cursor).drop step) { pass with out := pass.out ++ (c :: cursor).take step }
      · refine ⟨List.IsPrefix.trans ?_ (Extends.originals (ih _ _)),
          le_trans ?_ (Extends.severity (ih _ _))⟩
        · dsimp only
          split
          · exact List.prefix_append _ _
          · exact List.prefix_refl _
        · exact (severity_le_max pass.action action).1

/-- A pass that finds nothing to replace leaves the text as it was. -/
theorem replaceLoop_unchanged {type : PiiType} {action : PiiAction} {rounds : ℕ} {cursor : Bytes}
    {pass : Pass} (hrounds : cursor.length ≤ rounds)
    (h : (replaceLoop type action rounds cursor pass).changed = false) :
    (replaceLoop type action rounds cursor pass).out = pass.out ++ cursor := by
  have hkeep : ∀ (rounds : ℕ) (cursor : Bytes) (pass : Pass), pass.changed = true →
      (replaceLoop type action rounds cursor pass).changed = true := by
    intro rounds
    induction rounds with
    | zero => exact fun _ _ h => h
    | succ rounds ih =>
      intro cursor pass h
      cases cursor with
      | nil => exact h
      | cons c cursor =>
        rw [replaceLoop]
        split
        · exact h
        · exact ih _ _ h
        · exact ih _ _ rfl
  induction rounds generalizing cursor pass with
  | zero =>
    rw [List.length_eq_zero_iff.mp (Nat.le_zero.mp hrounds), List.append_nil]
    rfl
  | succ rounds ih =>
    cases cursor with
    | nil => exact (List.append_nil _).symm
    | cons c cursor =>
      rw [replaceLoop] at h ⊢
      have hfinds := finds_findEntity type (c :: cursor)
      revert h hfinds
      cases findEntity type (c :: cursor) with
      | nothing => exact fun _ _ => rfl
      | skip step =>
        intro h hfinds
        have hpos := hfinds.skip_pos
        have hle : ((c :: cursor).drop step).length ≤ rounds := by
          rw [List.length_drop]
          omega
        rw [ih hle h, List.append_assoc, List.take_append_drop]
      | entity so eo =>
        intro h _
        rw [hkeep _ _ _ rfl] at h
        cases h

/-- What is promised of the entities: the types that match are all anonymised, and the map
has room for them. -/
structure Reversible (action : PiiAction) (originals : List Bytes) : Prop where
  anonymised : action = .off ∨ action = .anonymizeRestore
  room : originals.dedup.length ≤ maxSessionEntries

theorem Reversible.severity_le {action : PiiAction} {originals : List Bytes}
    (h : Reversible action originals) : action.severity ≤ 1 := by
  rcases h.anonymised with h | h
  · rw [h]
    decide
  · rw [h]
    decide

theorem replaceLoop_marked {type : PiiType} {action : PiiAction} (hoff : action ≠ .off)
    {given : Bytes} {rounds : ℕ} {cursor : Bytes} {pass : Pass} {m : SessionMap}
    (hmap : pass.map = some m) (hfits : MapFits m pass.originals)
    (hat : MarkedAt given m pass.out cursor) (hrounds : cursor.length ≤ rounds)
    (hfinal : Reversible (replaceLoop type action rounds cursor pass).action
      (replaceLoop type action rounds cursor pass).originals) :
    ∃ m', (replaceLoop type action rounds cursor pass).map = some m' ∧
      MapFits m' (replaceLoop type action rounds cursor pass).originals ∧
      Marked given m' (replaceLoop type action rounds cursor pass).out := by
  induction rounds generalizing cursor pass m with
  | zero =>
    obtain rfl := List.length_eq_zero_iff.mp (Nat.le_zero.mp hrounds)
    exact ⟨m, hmap, hfits, List.append_nil pass.out ▸ hat.finish⟩
  | succ rounds ih =>
    cases cursor with
    | nil => exact ⟨m, hmap, hfits, List.append_nil pass.out ▸ hat.finish⟩
    | cons c cursor =>
      rw [replaceLoop] at hfinal ⊢
      have hfinds := finds_findEntity type (c :: cursor)
      revert hfinal hfinds
      cases findEntity type (c :: cursor) with
      | nothing => exact fun _ _ => ⟨m, hmap, hfits, hat.finish⟩
      | skip step =>
        intro hfinal hfinds
        cases hfinds with
        | skip u x y v _ hsplit hstep hx hforeign hopen hclose =>
          have hcut : c :: cursor = (u ++ x) ++ (y ++ v) := by
            rw [hsplit]
            simp
          have hpos := List.length_pos_of_ne_nil hx
          have hlength : (y ++ v).length ≤ rounds := by
            have := congrArg List.length hcut
            rw [List.length_append, List.length_append] at this
            omega
          dsimp only at hfinal ⊢
          rw [hstep, hcut, List.take_left, List.drop_left] at hfinal ⊢
          rw [hsplit] at hat
          exact ih hmap hfits (hat.skip hfits.ok hforeign hopen hclose rfl) hlength hfinal
      | entity so eo =>
        intro hfinal hfinds
        cases hfinds with
        | entity u w v _ _ hsplit hso heo hw hlength =>
          have hcut : c :: cursor = (u ++ w) ++ v := by
            rw [hsplit, List.append_assoc]
          have hentity : ((c :: cursor).drop so).take (eo - so) = w := by
            rw [hsplit, entity_part hso heo]
          have hbefore : (c :: cursor).take so = u := by
            rw [hsplit, hso, List.take_left]
          have hbehind : (c :: cursor).drop eo = v := by
            rw [hcut, heo, List.drop_left]
          have hpos := List.length_pos_of_ne_nil hw.nonempty
          have hrest : v.length ≤ rounds := by
            have := congrArg List.length hcut
            rw [List.length_append, List.length_append] at this
            omega
          simp only [hentity, hbefore, hbehind] at hfinal ⊢
          have hextends := replaceLoop_extends type action rounds v
            ⟨pass.out ++ u ++ (replacement type action pass.map w).2,
              (replacement type action pass.map w).1, pass.action.max action, true,
              if action.transforms then pass.originals ++ [w] else pass.originals⟩
          obtain rfl := eq_anonymizeRestore hoff
            (((severity_le_max pass.action action).2.trans hextends.severity).trans
              hfinal.severity_le)
          have hroom := hfits.room
            (fun _ ho => hextends.originals.subset (List.mem_append_left _ ho))
            (hextends.originals.subset (List.mem_append_right _ (List.mem_singleton_self w)))
            hfinal.room
          obtain ⟨hok, hkept, hnew, e, he, horiginal, hplaceholder⟩ :=
            @mem_getOrCreate m type w hfits.ok hw hlength hroom
          have hrepl : replacement type .anonymizeRestore pass.map w =
              (some (m.getOrCreate type w).1, e.placeholder) := by
            rw [hmap, replacement, hplaceholder]
            rfl
          rw [hrepl] at hfinal ⊢
          rw [hsplit] at hat
          refine ih rfl ⟨hok, fun e' he' => ?_, fun o ho => ?_⟩ ?_ hrest hfinal
          · rcases hnew e' he' with hold | hold
            · exact List.mem_append_left _ (hfits.replaced e' hold)
            · rw [hold]
              exact List.mem_append_right _ (List.mem_singleton_self w)
          · rcases List.mem_append.mp ho with ho | ho
            · obtain ⟨e', he', hsame⟩ := hfits.complete o ho
              exact ⟨e', hkept e' he', hsame⟩
            · exact ⟨e, he, horiginal.trans (List.mem_singleton.mp ho).symm⟩
          · rw [List.append_assoc]
            exact hat.replace hfits.ok hw hkept he horiginal

/-- Fewer entities and a weaker action are promised as well. -/
theorem Reversible.of_extends {action : PiiAction} {originals : List Bytes} {action' : PiiAction}
    {originals' : List Bytes} (h : Reversible action' originals')
    (hseverity : action.severity ≤ action'.severity) (horiginals : originals <+: originals') :
    Reversible action originals where
  anonymised := by
    by_cases hoff : action = .off
    · exact Or.inl hoff
    · exact Or.inr (eq_anonymizeRestore hoff (hseverity.trans h.severity_le))
  room := by
    refine le_trans ?_ h.room
    have hincluded : originals.dedup ⊆ originals'.dedup := by
      intro o ho
      exact List.mem_dedup.mpr (horiginals.subset (List.mem_dedup.mp ho))
    exact (List.subperm_of_subset (List.nodup_dedup _) hincluded).length_le

/-- The text after some passes stands for the one that was given. -/
def Stands (given : Bytes) (t : Transformed) : Prop :=
  ∃ m, t.map = some m ∧ MapFits m t.originals ∧ Marked given m t.text

theorem replaceEntityRegex_extends (cfg : PiiConfig) (t : Transformed) (type : PiiType) :
    t.action.severity ≤ (replaceEntityRegex cfg t type).action.severity ∧
      t.originals <+: (replaceEntityRegex cfg t type).originals := by
  unfold replaceEntityRegex
  split
  · exact ⟨le_rfl, List.prefix_refl _⟩
  · have h := replaceLoop_extends type (cfg.action type) t.text.length t.text
      ⟨[], t.map, t.action, false, t.originals⟩
    exact ⟨h.severity, h.originals⟩

theorem replaceEntityRegex_stands {cfg : PiiConfig} {t : Transformed} {type : PiiType}
    {given : Bytes} (h : Stands given t)
    (hfinal : Reversible (replaceEntityRegex cfg t type).action
      (replaceEntityRegex cfg t type).originals) :
    Stands given (replaceEntityRegex cfg t type) := by
  obtain ⟨m, hmap, hfits, hmarked⟩ := h
  unfold replaceEntityRegex at hfinal ⊢
  split at hfinal
  · rename_i hoff
    rw [if_pos hoff]
    exact ⟨m, hmap, hfits, hmarked⟩
  · rename_i hoff
    rw [if_neg hoff]
    have hat : MarkedAt given m [] t.text := ⟨[], given, rfl, marked_start m [], hmarked⟩
    have hstart : (Pass.mk [] t.map t.action false t.originals).map = some m := hmap
    obtain ⟨m', hmap', hfits', hmarked'⟩ := replaceLoop_marked hoff hstart hfits hat le_rfl hfinal
    refine ⟨m', hmap', hfits', ?_⟩
    dsimp only
    split
    · exact hmarked'
    · rename_i hchanged
      rw [replaceLoop_unchanged le_rfl (Bool.not_eq_true _ ▸ hchanged)] at hmarked'
      exact hmarked'

theorem foldl_extends (cfg : PiiConfig) (types : List PiiType) (t : Transformed) :
    t.action.severity ≤ (types.foldl (replaceEntityRegex cfg) t).action.severity ∧
      t.originals <+: (types.foldl (replaceEntityRegex cfg) t).originals := by
  induction types generalizing t with
  | nil => exact ⟨le_rfl, List.prefix_refl _⟩
  | cons type types ih =>
    have hstep := replaceEntityRegex_extends cfg t type
    have hrest := ih (replaceEntityRegex cfg t type)
    exact ⟨hstep.1.trans hrest.1, hstep.2.trans hrest.2⟩

theorem foldl_stands {cfg : PiiConfig} {types : List PiiType} {t : Transformed} {given : Bytes}
    (h : Stands given t)
    (hfinal : Reversible (types.foldl (replaceEntityRegex cfg) t).action
      (types.foldl (replaceEntityRegex cfg) t).originals) :
    Stands given (types.foldl (replaceEntityRegex cfg) t) := by
  induction types generalizing t with
  | nil => exact h
  | cons type types ih =>
    have hrest := foldl_extends cfg types (replaceEntityRegex cfg t type)
    exact ih (replaceEntityRegex_stands h (hfinal.of_extends hrest.1 hrest.2)) hfinal

theorem mapOk_nil : MapOk [] where
  named := by simp
  distinct := List.nodup_nil
  once := List.nodup_nil
  entity := by simp

/-- Before the first pass a text stands for itself. -/
theorem stands_start (text : Bytes) : Stands text ⟨text, some .empty, .off, false, []⟩ :=
  ⟨.empty, rfl, ⟨mapOk_nil, by simp [SessionMap.empty], by simp⟩, marked_start _ _⟩

end Aigate.PiiRoundTrip
