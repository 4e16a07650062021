import Aigate.GuardrailsWebhook

/-!
# Guardrail rules as declared

A stored rule declares a type and an action. The loader puts every keyword rule and every
rule with action `block` into the keyword blocklist, every other exempt rule into the
exempt list, and keeps the first sixteen webhooks; nothing else is enforced.
-/
namespace Aigate.GuardrailsRules
open Text KeywordTrie KeywordSearch PiiText Guardrails GuardrailsWebhook

theorem isA_of_isA {rule : GuardrailRule} {t u : String} (h : rule.isA t = true) (hne : t ≠ u) :
    rule.isA u = false := by
  simp only [GuardrailRule.isA, decide_eq_true_eq, decide_eq_false_iff_not] at h ⊢
  rw [h]
  exact ascii_ne hne

/-- What one rule adds to the rules loaded so far. -/
structure Loaded (l : Loading) (rules : List GuardrailRule) : Prop where
  block : l.newBlock =
    ((rules.filter GuardrailRule.inBlocklist).map (·.pattern)).foldl acTrieInsert acTrieCreate
  exempt : l.newExempt =
    ((rules.filter GuardrailRule.inExemptList).map (·.pattern)).foldl acTrieInsert acTrieCreate
  webhooks : l.webhooks =
    ((rules.filter GuardrailRule.isWebhook).take maxWebhookRules).map WebhookRule.ofRule

theorem loaded_step {l : Loading} {rules : List GuardrailRule} (h : Loaded l rules)
    (rule : GuardrailRule) : Loaded (l.step rule) (rules ++ [rule]) := by
  have hlen : l.webhooks.length < maxWebhookRules ↔
      (rules.filter GuardrailRule.isWebhook).length < maxWebhookRules := by
    rw [h.webhooks, List.length_map, List.length_take]
    omega
  unfold Loading.step
  by_cases he : rule.enabled = true
  · by_cases hw : rule.ruleType = ascii "webhook"
    · have hwA : rule.isA "webhook" = true := by simp [GuardrailRule.isA, hw]
      have hb : rule.inBlocklist = false := by simp [GuardrailRule.inBlocklist, hwA]
      have hx : rule.inExemptList = false := by
        simp [GuardrailRule.inExemptList, isA_of_isA hwA (show "webhook" ≠ "exempt" by decide)]
      have hi : rule.isWebhook = true := by simp [GuardrailRule.isWebhook, he, hwA]
      by_cases hl : l.webhooks.length < maxWebhookRules
      · simp only [he, Bool.not_true, Bool.false_eq_true, if_false, hw, if_true, hl, dite_true]
        refine ⟨by simpa [hb] using h.block, by simpa [hx] using h.exempt, ?_⟩
        have hshort := hlen.mp hl
        rw [List.filter_append, List.filter_cons_of_pos hi, List.filter_nil,
          List.take_of_length_le (by simpa using Nat.succ_le_of_lt hshort), List.map_append]
        have hall := h.webhooks
        rw [List.take_of_length_le (Nat.le_of_lt hshort)] at hall
        exact congrArg (· ++ [WebhookRule.ofRule rule]) hall
      · simp only [he, Bool.not_true, Bool.false_eq_true, if_false, hw, if_true, hl, dite_false]
        refine ⟨by simpa [hb] using h.block, by simpa [hx] using h.exempt, ?_⟩
        have hlong : maxWebhookRules ≤ (rules.filter GuardrailRule.isWebhook).length := by
          have := hlen.not.mp hl
          omega
        rw [List.filter_append, List.take_append_of_le_length hlong, h.webhooks]
    · have hwA : rule.isA "webhook" = false := by simpa [GuardrailRule.isA] using hw
      have hi : rule.isWebhook = false := by simp [GuardrailRule.isWebhook, hwA]
      by_cases hb : rule.ruleType = ascii "keyword" ∨ rule.action = ascii "block"
      · have hbl : rule.inBlocklist = true := by
          simp only [GuardrailRule.inBlocklist, he, hwA, Bool.not_false, Bool.true_and]
          simpa [GuardrailRule.isA, GuardrailRule.does] using hb
        have hx : rule.inExemptList = false := by
          rcases hb with hk | hk
          · have hkA : rule.isA "keyword" = true := by simp [GuardrailRule.isA, hk]
            simp [GuardrailRule.inExemptList, isA_of_isA hkA (show "keyword" ≠ "exempt" by decide)]
          · simp [GuardrailRule.inExemptList, GuardrailRule.does, hk]
        simp only [he, Bool.not_true, Bool.false_eq_true, if_false, hw, hb, if_true]
        exact ⟨by simp [hbl, h.block], by simpa [hx] using h.exempt, by simpa [hi] using h.webhooks⟩
      · have hbl : rule.inBlocklist = false := by
          have := not_or.mp hb
          simp [GuardrailRule.inBlocklist, GuardrailRule.isA, GuardrailRule.does, this.1, this.2]
        simp only [he, Bool.not_true, Bool.false_eq_true, if_false, hw, hb]
        by_cases hx : rule.ruleType = ascii "exempt"
        · have hxl : rule.inExemptList = true := by
            have := (not_or.mp hb).2
            simp [GuardrailRule.inExemptList, he, GuardrailRule.isA, GuardrailRule.does, hx, this]
          simp only [hx, if_true]
          exact ⟨by simpa [hbl] using h.block, by simp [hxl, h.exempt],
            by simpa [hi] using h.webhooks⟩
        · have hxl : rule.inExemptList = false := by
            simp [GuardrailRule.inExemptList, GuardrailRule.isA, hx]
          simp only [hx, if_false]
          exact ⟨by simpa [hbl] using h.block, by simpa [hxl] using h.exempt,
            by simpa [hi] using h.webhooks⟩
  · have hbl : rule.inBlocklist = false := by simp [GuardrailRule.inBlocklist, he]
    have hxl : rule.inExemptList = false := by simp [GuardrailRule.inExemptList, he]
    have hi : rule.isWebhook = false := by simp [GuardrailRule.isWebhook, he]
    simp only [he, Bool.not_false, if_true]
    exact ⟨by simpa [hbl] using h.block, by simpa [hxl] using h.exempt,
      by simpa [hi] using h.webhooks⟩

theorem loaded_all (rules : List GuardrailRule) :
    Loaded (rules.foldl Loading.step Loading.start) rules := by
  induction rules using List.reverseRecOn with
  | nil => exact ⟨rfl, rfl, rfl⟩
  | append_singleton rules rule ih =>
    rw [List.foldl_append]
    exact loaded_step ih rule

theorem acBlock_load (ctx : GuardrailsCtx) (rules : List GuardrailRule) :
    (guardrailsLoadRules ctx rules).acBlock =
      acTrieOf ((rules.filter GuardrailRule.inBlocklist).map (·.pattern)) :=
  congrArg acTrieBuildFailureLinks (loaded_all rules).block

theorem acExempt_load (ctx : GuardrailsCtx) (rules : List GuardrailRule) :
    (guardrailsLoadRules ctx rules).acExempt =
      acTrieOf ((rules.filter GuardrailRule.inExemptList).map (·.pattern)) :=
  congrArg acTrieBuildFailureLinks (loaded_all rules).exempt

theorem webhooks_load (ctx : GuardrailsCtx) (rules : List GuardrailRule) :
    (guardrailsLoadRules ctx rules).webhooks =
      ((rules.filter GuardrailRule.isWebhook).take maxWebhookRules).map WebhookRule.ofRule :=
  (loaded_all rules).webhooks

/-- Some rule of a kind has a pattern that the keyword search can find, and it occurs. -/
def Hits (rules : List GuardrailRule) (kind : GuardrailRule → Bool) (body : Bytes) : Prop :=
  ∃ r ∈ rules, kind r = true ∧ r.pattern ≠ [] ∧ occursIn r.pattern body = true

theorem search_hits (rules : List GuardrailRule) (kind : GuardrailRule → Bool) (body : Bytes) :
    (acTrieSearch (acTrieOf ((rules.filter kind).map (·.pattern))) body).isSome = true ↔
      Hits rules kind body := by
  rw [acTrieSearch_isSome_iff]
  constructor
  · rintro ⟨k, hk, hin⟩
    simp only [accepted, List.mem_filter, List.mem_map, decide_eq_true_eq] at hk
    obtain ⟨⟨r, ⟨hr, hkind⟩, rfl⟩, hne⟩ := hk
    exact ⟨r, hr, hkind, hne, (occursIn_iff _ _).mpr hin⟩
  · rintro ⟨r, hr, hkind, hne, hin⟩
    refine ⟨r.pattern, ?_, (occursIn_iff _ _).mp hin⟩
    simp only [accepted, List.mem_filter, List.mem_map, decide_eq_true_eq]
    exact ⟨⟨r, ⟨hr, hkind⟩, rfl⟩, hne⟩

theorem not_hits_nil (rules : List GuardrailRule) (kind : GuardrailRule → Bool) :
    ¬Hits rules kind [] := by
  rintro ⟨r, -, -, hne, hin⟩
  exact hne (by simpa [occursIn] using hin)

/-- A keyword block of the inbound inspection. -/
def ReportsKeyword (ctx : GuardrailsCtx) (body : Bytes) : Prop :=
  ∃ kw, guardrailsInspectInbound ctx body = .blocked (.keyword kw)

/-- The keywords that the loaded rules block. -/
theorem reportsKeyword_iff (ctx : GuardrailsCtx) (rules : List GuardrailRule) (body : Bytes) :
    ReportsKeyword (guardrailsLoadRules ctx rules) body ↔
      Hits rules GuardrailRule.inBlocklist body ∧ ¬Hits rules GuardrailRule.inExemptList body := by
  simp only [ReportsKeyword, guardrailsInspectInbound, inspect_blocked_keyword_iff, keywordBlock,
    acBlock_load, acExempt_load]
  rw [← search_hits rules GuardrailRule.inBlocklist, ← search_hits rules GuardrailRule.inExemptList]
  by_cases hne : body = []
  · subst hne
    have hnone := (search_hits rules GuardrailRule.inBlocklist []).not.mpr (not_hits_nil _ _)
    simp [hnone]
  · rw [if_neg hne]
    cases acTrieSearch (acTrieOf ((rules.filter GuardrailRule.inBlocklist).map (·.pattern))) body
    · simp
    · cases acTrieSearch (acTrieOf ((rules.filter GuardrailRule.inExemptList).map (·.pattern))) body
      · simp
      · simp

/-- The body that goes on after an inspection, if any does. -/
def delivered (body : Bytes) : Verdict → Option Bytes
  | .pass => some body
  | .masked sanitized => some sanitized
  | .blocked _ => none

/-- The phase that a webhook rule declares, inbound when it names none. -/
def declaresPhase (rule : GuardrailRule) (phase : String) : Bool :=
  let declared := if rule.phase ≠ [] then rule.phase else ascii "inbound"
  sameIgnoringCase declared phase || sameIgnoringCase declared "both"

section declared

variable (posix : Bytes → Bytes → Bool)

/-- A rule matches a body by its own type; `posix` decides a regular expression. -/
def matchesBody (rule : GuardrailRule) (body : Bytes) : Bool :=
  (rule.isA "keyword" && occursIn rule.pattern body) ||
    (rule.isA "regex" && posix rule.pattern body)

/-- Some enabled rule with action block matches by its own type. -/
def DeclaredBlock (rules : List GuardrailRule) (body : Bytes) : Prop :=
  ∃ r ∈ rules, r.enabled = true ∧ r.does "block" = true ∧ matchesBody posix r body = true

/-- Some enabled exempt rule matches. -/
def DeclaredExempt (rules : List GuardrailRule) (body : Bytes) : Prop :=
  ∃ r ∈ rules, r.enabled = true ∧ r.isA "exempt" = true ∧ occursIn r.pattern body = true

/-- The loaded rules do to a body what the stored rules declare. -/
structure EnforcedAsDeclared (ctx : GuardrailsCtx) (rules : List GuardrailRule) (body : Bytes) :
    Prop where
  block : ReportsKeyword (guardrailsLoadRules ctx rules) body ↔
    DeclaredBlock posix rules body ∧ ¬DeclaredExempt rules body
  mask : ReportsKeyword (guardrailsLoadRules ctx rules) body →
    ReportsKeyword (guardrailsLoadRules ctx (rules.filter fun r => !r.does "mask")) body
  removed : ∀ r ∈ rules, r.enabled = true → r.does "mask" = true →
    matchesBody posix r body = true →
    ∀ out, delivered body (guardrailsInspectInbound (guardrailsLoadRules ctx rules) body)
      = some out → matchesBody posix r out = false
  webhooks : ∀ network model keyId timestamp,
    let round := guardrailsInspectWebhookInbound (guardrailsLoadRules ctx rules) network model
      keyId timestamp body
    round.decision.isBlocked = false → round.posted =
      (rules.filter fun r => r.isWebhook && declaresPhase r "inbound").map WebhookRule.ofRule

/-- A keyword rule with action block. -/
def placed (r : GuardrailRule) : Bool := r.enabled && r.isA "keyword" && r.does "block"

/-- A rule that the blocklist holds although it declares something else. -/
def misplaced (r : GuardrailRule) : Bool :=
  r.inBlocklist && !(r.isA "keyword" && r.does "block")

/-- A matching block rule that the keyword search does not stand for: a regular expression,
or an empty keyword. -/
def UnenforcedBlock (rules : List GuardrailRule) (body : Bytes) : Prop :=
  ∃ r ∈ rules, r.enabled = true ∧ r.does "block" = true ∧ matchesBody posix r body = true ∧
    ¬(r.isA "keyword" = true ∧ r.pattern ≠ [])

/-- A matching exempt rule that is not in the exempt list: one with action block, or with an
empty pattern. -/
def UnenforcedExempt (rules : List GuardrailRule) (body : Bytes) : Prop :=
  ∃ r ∈ rules, r.enabled = true ∧ r.isA "exempt" = true ∧ occursIn r.pattern body = true ∧
    (r.does "block" = true ∨ r.pattern = [])

/-- Where the loader's reading of the rules makes no difference for a body. -/
structure NoDifference (ctx : GuardrailsCtx) (rules : List GuardrailRule) (body : Bytes) :
    Prop where
  block : Hits rules GuardrailRule.inExemptList body ∨
    (¬UnenforcedExempt rules body ∧
      (Hits rules placed body ∨ (Hits rules misplaced body ↔ UnenforcedBlock posix rules body))) ∨
    (UnenforcedExempt rules body ∧ ¬Hits rules placed body ∧ ¬Hits rules misplaced body)
  mask : Hits rules GuardrailRule.inExemptList body ∨
    ¬Hits rules (fun r => r.inBlocklist && r.does "mask") body ∨
    Hits rules (fun r => r.inBlocklist && !r.does "mask") body
  removed : ∀ r ∈ rules, r.enabled = true → r.does "mask" = true →
    matchesBody posix r body = true →
    (Hits rules GuardrailRule.inBlocklist body ∧ ¬Hits rules GuardrailRule.inExemptList body) ∨
      ∀ out, delivered body (inspectPii ctx.piiCfg none body).verdict = some out →
        matchesBody posix r out = false
  webhooks : ∀ r ∈ if body = [] then rules.filter GuardrailRule.isWebhook
      else (rules.filter GuardrailRule.isWebhook).drop maxWebhookRules,
    declaresPhase r "inbound" = false

theorem declaredBlock_iff (rules : List GuardrailRule) (body : Bytes) :
    DeclaredBlock posix rules body ↔
      Hits rules placed body ∨ UnenforcedBlock posix rules body := by
  constructor
  · rintro ⟨r, hr, he, hd, hm⟩
    by_cases hk : r.isA "keyword" = true ∧ r.pattern ≠ []
    · left
      have hreg : r.isA "regex" = false := isA_of_isA hk.1 (by decide)
      refine ⟨r, hr, by simp [placed, he, hk.1, hd], hk.2, ?_⟩
      simpa [matchesBody, hk.1, hreg] using hm
    · exact Or.inr ⟨r, hr, he, hd, hm, hk⟩
  · rintro (⟨r, hr, hp, -, ho⟩ | ⟨r, hr, he, hd, hm, -⟩)
    · simp only [placed, Bool.and_eq_true] at hp
      exact ⟨r, hr, hp.1.1, hp.2, by simp [matchesBody, hp.1.2, ho]⟩
    · exact ⟨r, hr, he, hd, hm⟩

theorem declaredExempt_iff (rules : List GuardrailRule) (body : Bytes) :
    DeclaredExempt rules body ↔
      Hits rules GuardrailRule.inExemptList body ∨ UnenforcedExempt rules body := by
  constructor
  · rintro ⟨r, hr, he, hx, ho⟩
    by_cases hu : r.does "block" = true ∨ r.pattern = []
    · exact Or.inr ⟨r, hr, he, hx, ho, hu⟩
    · rw [not_or, Bool.not_eq_true] at hu
      exact Or.inl ⟨r, hr, by simp [GuardrailRule.inExemptList, he, hx, hu.1], hu.2, ho⟩
  · rintro (⟨r, hr, hx, -, ho⟩ | ⟨r, hr, he, hx, ho, -⟩)
    · simp only [GuardrailRule.inExemptList, Bool.and_eq_true] at hx
      exact ⟨r, hr, hx.1.1, hx.1.2, ho⟩
    · exact ⟨r, hr, he, hx, ho⟩

end declared

theorem hits_split (rules : List GuardrailRule) {kind p q : GuardrailRule → Bool} (body : Bytes)
    (h : ∀ r, kind r = true ↔ p r = true ∨ q r = true) :
    Hits rules kind body ↔ Hits rules p body ∨ Hits rules q body := by
  constructor
  · rintro ⟨r, hr, hk, ho⟩
    rcases (h r).mp hk with hp | hq
    · exact Or.inl ⟨r, hr, hp, ho⟩
    · exact Or.inr ⟨r, hr, hq, ho⟩
  · rintro (⟨r, hr, hp, ho⟩ | ⟨r, hr, hq, ho⟩)
    · exact ⟨r, hr, (h r).mpr (Or.inl hp), ho⟩
    · exact ⟨r, hr, (h r).mpr (Or.inr hq), ho⟩

theorem hits_filter (rules : List GuardrailRule) (kind p : GuardrailRule → Bool) (body : Bytes) :
    Hits (rules.filter p) kind body ↔ Hits rules (fun r => kind r && p r) body := by
  constructor
  · rintro ⟨r, hr, hk, ho⟩
    obtain ⟨hr, hp⟩ := List.mem_filter.mp hr
    exact ⟨r, hr, by simp [hk, hp], ho⟩
  · rintro ⟨r, hr, hk, ho⟩
    simp only [Bool.and_eq_true] at hk
    exact ⟨r, List.mem_filter.mpr ⟨hr, hk.2⟩, hk.1, ho⟩

theorem block_iff (posix : Bytes → Bytes → Bool) (ctx : GuardrailsCtx)
    (rules : List GuardrailRule) (body : Bytes) :
    (ReportsKeyword (guardrailsLoadRules ctx rules) body ↔
        DeclaredBlock posix rules body ∧ ¬DeclaredExempt rules body) ↔
      Hits rules GuardrailRule.inExemptList body ∨
        (¬UnenforcedExempt rules body ∧ (Hits rules placed body ∨
          (Hits rules misplaced body ↔ UnenforcedBlock posix rules body))) ∨
        (UnenforcedExempt rules body ∧ ¬Hits rules placed body ∧ ¬Hits rules misplaced body) := by
  have hsplit : Hits rules GuardrailRule.inBlocklist body ↔
      Hits rules placed body ∨ Hits rules misplaced body := by
    refine hits_split rules body fun r => ?_
    unfold misplaced placed GuardrailRule.inBlocklist
    cases hk : r.isA "keyword"
    · cases r.does "block" <;> simp
    · rw [isA_of_isA hk (by decide)]
      cases r.does "block" <;> cases r.enabled <;> simp
  rw [reportsKeyword_iff, hsplit, declaredBlock_iff, declaredExempt_iff]
  tauto

theorem mask_iff (ctx : GuardrailsCtx) (rules : List GuardrailRule) (body : Bytes) :
    (ReportsKeyword (guardrailsLoadRules ctx rules) body →
        ReportsKeyword (guardrailsLoadRules ctx (rules.filter fun r => !r.does "mask")) body) ↔
      Hits rules GuardrailRule.inExemptList body ∨
        ¬Hits rules (fun r => r.inBlocklist && r.does "mask") body ∨
        Hits rules (fun r => r.inBlocklist && !r.does "mask") body := by
  have hsplit : Hits rules GuardrailRule.inBlocklist body ↔
      Hits rules (fun r => r.inBlocklist && r.does "mask") body ∨
        Hits rules (fun r => r.inBlocklist && !r.does "mask") body :=
    hits_split rules body fun r => by cases r.inBlocklist <;> cases r.does "mask" <;> simp
  have hexempt : Hits rules (fun r => r.inExemptList && !r.does "mask") body →
      Hits rules GuardrailRule.inExemptList body := by
    rintro ⟨r, hr, hk, ho⟩
    simp only [Bool.and_eq_true] at hk
    exact ⟨r, hr, hk.1, ho⟩
  rw [reportsKeyword_iff, reportsKeyword_iff, hits_filter, hits_filter, hsplit]
  tauto

theorem piiCfg_load (ctx : GuardrailsCtx) (rules : List GuardrailRule) :
    (guardrailsLoadRules ctx rules).piiCfg = ctx.piiCfg := rfl

/-- What goes on after the keyword stage is what the PII stage leaves. -/
theorem delivered_inspect (ctx : GuardrailsCtx) (rules : List GuardrailRule) (body : Bytes) :
    delivered body (guardrailsInspectInbound (guardrailsLoadRules ctx rules) body) =
      if keywordBlock (guardrailsLoadRules ctx rules) body = none then
        delivered body (inspectPii ctx.piiCfg none body).verdict
      else none := by
  unfold guardrailsInspectInbound
  cases hk : keywordBlock (guardrailsLoadRules ctx rules) body with
  | some kw =>
    rw [inspect_of_keywordBlock none hk]
    simp [delivered]
  | none =>
    rw [if_pos rfl]
    by_cases hne : body = []
    · subst hne
      rfl
    · rw [inspect_of_not_keywordBlock none hne hk, piiCfg_load]

theorem keywordBlock_eq_none_iff (ctx : GuardrailsCtx) (rules : List GuardrailRule)
    (body : Bytes) : keywordBlock (guardrailsLoadRules ctx rules) body = none ↔
      ¬(Hits rules GuardrailRule.inBlocklist body ∧
        ¬Hits rules GuardrailRule.inExemptList body) := by
  rw [← reportsKeyword_iff ctx]
  simp only [ReportsKeyword, guardrailsInspectInbound, inspect_blocked_keyword_iff]
  cases keywordBlock (guardrailsLoadRules ctx rules) body <;> simp

theorem sameIgnoringCase_take (s : Bytes) {word : String} (h : word.length < 15) :
    sameIgnoringCase (s.take 15) word = sameIgnoringCase s word := by
  unfold sameIgnoringCase
  rw [decide_eq_decide]
  by_cases hs : s.length ≤ 15
  · rw [List.take_of_length_le hs]
  · have hlen : ∀ t : Bytes, word.length < t.length → lower t ≠ lower (ascii word) := by
      intro t ht he
      have := congrArg List.length he
      rw [lower_length, lower_length, ascii_length] at this
      omega
    have htake : (s.take 15).length = 15 := by
      rw [List.length_take]
      omega
    exact iff_of_false (hlen _ (by omega)) (hlen _ (by omega))

theorem covers_ofRule (rule : GuardrailRule) :
    WebhookRule.covers (WebhookRule.ofRule rule) "inbound" = declaresPhase rule "inbound" := by
  unfold WebhookRule.covers declaresPhase WebhookRule.ofRule
  simp only
  rw [sameIgnoringCase_take _ (by decide), sameIgnoringCase_take _ (by decide)]

theorem rulesCopy_load (ctx : GuardrailsCtx) (rules : List GuardrailRule) :
    rulesCopy (guardrailsLoadRules ctx rules) "inbound" =
      (((rules.filter GuardrailRule.isWebhook).take maxWebhookRules).filter
        fun r => declaresPhase r "inbound").map WebhookRule.ofRule := by
  unfold rulesCopy
  rw [webhooks_load, List.filter_map]
  simp only [Function.comp_def, covers_ofRule]

theorem map_filter_take_eq_iff {l : List GuardrailRule} {n : ℕ} {p : GuardrailRule → Bool} :
    ((l.take n).filter p).map WebhookRule.ofRule = (l.filter p).map WebhookRule.ofRule ↔
      ∀ r ∈ l.drop n, p r = false := by
  have happend : l.filter p = (l.take n).filter p ++ (l.drop n).filter p := by
    rw [← List.filter_append, List.take_append_drop]
  constructor
  · intro h
    have hlen := congrArg List.length h
    rw [happend, List.length_map, List.length_map, List.length_append] at hlen
    have hnil : (l.drop n).filter p = [] := List.length_eq_zero_iff.mp (by omega)
    simpa [List.filter_eq_nil_iff] using hnil
  · intro h
    have hnil : (l.drop n).filter p = [] := by simpa [List.filter_eq_nil_iff] using h
    rw [happend, hnil, List.append_nil]

theorem webhooks_iff (ctx : GuardrailsCtx) (rules : List GuardrailRule) (body : Bytes) :
    (∀ network model keyId timestamp,
        let round := guardrailsInspectWebhookInbound (guardrailsLoadRules ctx rules) network model
          keyId timestamp body
        round.decision.isBlocked = false → round.posted =
          (rules.filter fun r => r.isWebhook && declaresPhase r "inbound").map
            WebhookRule.ofRule) ↔
      ∀ r ∈ if body = [] then rules.filter GuardrailRule.isWebhook
          else (rules.filter GuardrailRule.isWebhook).drop maxWebhookRules,
        declaresPhase r "inbound" = false := by
  have hfilter : (rules.filter fun r => r.isWebhook && declaresPhase r "inbound") =
      (rules.filter GuardrailRule.isWebhook).filter fun r => declaresPhase r "inbound" := by
    rw [List.filter_filter]
    exact List.filter_congr fun r _ => Bool.and_comm _ _
  rw [hfilter]
  unfold guardrailsInspectWebhookInbound
  by_cases hne : body = []
  · subst hne
    simp only [if_true, Decision.isBlocked, forall_const]
    rw [eq_comm, List.map_eq_nil_iff, List.filter_eq_nil_iff]
    simp
  · simp only [hne, if_false, rulesCopy_load]
    rw [← map_filter_take_eq_iff]
    constructor
    · intro h
      have hpass := h permissive [] 0 0 (by rw [decision_permissive]; rfl)
      rwa [posted_of_not_blocked (by rw [decision_permissive]; rfl)] at hpass
    · intro h network model keyId timestamp hok
      rw [posted_of_not_blocked hok, h]

/-- A keyword rule that asks for masking. -/
def maskSecret : GuardrailRule where
  id := 1
  ruleType := ascii "keyword"
  pattern := ascii "secret"
  action := ascii "mask"
  enabled := true
  webhookSecret := []
  timeoutMs := 500
  failMode := ascii "open"
  phase := ascii "inbound"

end Aigate.GuardrailsRules
