import Aigate.Failover
import Aigate.UpstreamCall

/-!
# Who frees the bodies

The five loops over the candidates that call the upstream and wait for its whole answer. Each
takes over the body that a call hands out and frees it, wherever it leaves.
-/
namespace Aigate.BodyOwnership
open UpstreamCall

/-- A candidate: whether it is passed over, its calls, whether a converted body is sent in place of
the answer, and whether the answer is stored in the cache. -/
structure Attempt where
  skipped : Bool
  first : Transfer
  second : Transfer
  converted : Bool
  stored : Bool

/-- What a loop does with the body of a completion: it is freed once. -/
structure Pipeline where
  passesOver : Bool
  completed : Attempt → Ptr → List Op
  freed : ∀ a p q, (completed a p).count (.free q) = if p = q then 1 else 0
  kept : ∀ a p op, op ∈ completed a p → op = .read p ∨ op = .send p ∨ op = .free p ∨ op = .reply

/-- `handle_chat_sync`: the parser copies what it takes, and the body is freed before the reply,
also when it cannot be parsed. -/
def handleChatSync : Pipeline where
  passesOver := true
  completed _ p := [.read p, .free p, .reply]
  freed _ p q := by simp [List.count_cons]
  kept _ p op h := by simp_all; tauto

/-- `handle_embeddings`. -/
def handleEmbeddings : Pipeline := handleChatSync

/-- `handle_responses`. -/
def handleResponses : Pipeline where
  passesOver := true
  completed a p := [.read p] ++ (if a.stored then [.read p] else []) ++ [.send p, .free p]
  freed a p q := by cases a.stored <;> simp [List.count_cons]
  kept a p op h := by cases hstored : a.stored <;> simp_all <;> tauto

/-- `handle_anthropic_messages`: an answer of another provider is converted. -/
def handleAnthropicMessages : Pipeline where
  passesOver := false
  completed a p := [.read p, if a.converted then .reply else .send p, .free p]
  freed a p q := by cases a.converted <;> simp [List.count_cons]
  kept a p op h := by cases hconverted : a.converted <;> simp_all <;> tauto

/-- `handle_gemini`. -/
def handleGemini : Pipeline where
  passesOver := false
  completed _ p := [.read p, .send p, .free p]
  freed _ p q := by simp [List.count_cons]
  kept _ p op h := by simp_all; tauto

def isFailover (r : Answer) : Bool :=
  decide (r.rc ≠ 0) || decide (r.status = 429) ||
    (decide (500 ≤ r.status) && decide (r.status ≤ 504))

/-- What is done with an answer, and whether the next candidate is tried. -/
def leave (P : Pipeline) (a : Attempt) (r : Answer) : List Op × Bool :=
  if isFailover r = false ∧ r.status < 400 then (P.completed a r.body, false)
  else if isFailover r = false ∧ 400 ≤ r.status then
    if r.body ≠ .null ∧ r.rc = 0 then ([.send r.body, .free r.body], false)
    else ([.free r.body, .reply], false)
  else ([.free r.body], true)

/-- A lone candidate is called again when it answers with an error of its own. -/
def retryDue (alone : Bool) (r : Answer) : Bool :=
  alone && decide (r.rc = 0) && decide (500 ≤ r.status)

/-- One candidate of the loop. -/
def visit (P : Pipeline) (alone : Bool) (c : Attempt × ℕ) : List Op × Bool :=
  if P.passesOver = true ∧ c.1.skipped = true then ([], true)
  else
    let r := upstreamCallExt (c.2, 0) 0 c.1.first
    if retryDue alone r = true then
      let r' := upstreamCallExt (c.2, 1) r.status c.1.second
      (r.ops ++ .free r.body :: r'.ops ++ (leave P c.1 r').1, (leave P c.1 r').2)
    else (r.ops ++ (leave P c.1 r).1, (leave P c.1 r).2)

/-- The loop, which the chat pipeline enters behind the candidates of a race. -/
def run (P : Pipeline) (start : ℕ) (candidates : List Attempt) : List Op :=
  Failover.walk (visit P (decide (candidates.length = 1))) [.reply] (candidates.zipIdx.drop start)

/-- Each pointer that is handed out and freed was allocated, and is freed once. -/
def Owned (ops : List Op) : Prop :=
  ∀ p, .handOut p ∈ ops → .free p ∈ ops →
    (∃ b, p = .heap b ∧ .alloc b ∈ ops) ∧ ops.count (.free p) = 1

/-- The calls for a candidate. -/
def made (P : Pipeline) (alone : Bool) (a : Attempt) : List Transfer :=
  if P.passesOver = true ∧ a.skipped = true then []
  else if alone = true ∧ ∃ code ∈ a.first.code, 500 ≤ code then [a.first, a.second]
  else [a.first]

/-- No call of the loop succeeds without a body. -/
def NoneBare (P : Pipeline) (start : ℕ) (candidates : List Attempt) : Prop :=
  ∀ c, Failover.Reaches (visit P (decide (candidates.length = 1))) (candidates.zipIdx.drop start) c →
    ∀ t ∈ made P (decide (candidates.length = 1)) c.1, ¬ t.Bare

/-- Every way out frees the body, and nothing else. -/
theorem leave_count (P : Pipeline) (a : Attempt) (r : Answer) (q : Ptr) :
    (leave P a r).1.count (.free q) = if r.body = q then 1 else 0 := by
  unfold leave
  split_ifs with hcompleted
  · exact (P.freed a r.body q).trans (if_pos (by assumption))
  · exact (P.freed a r.body q).trans (if_neg (by assumption))
  all_goals simp_all

theorem leave_kept (P : Pipeline) (a : Attempt) (r : Answer) (op : Op) (h : op ∈ (leave P a r).1) :
    op = .read r.body ∨ op = .send r.body ∨ op = .free r.body ∨ op = .reply := by
  unfold leave at h
  split_ifs at h
  · exact P.kept a r.body op h
  all_goals
    simp only [List.mem_cons, List.not_mem_nil, or_false] at h
    tauto

theorem leave_handOut (P : Pipeline) (a : Attempt) (r : Answer) (p : Ptr) :
    .handOut p ∉ (leave P a r).1 := by
  intro h
  rcases leave_kept P a r _ h with h | h | h | h <;> cases h

theorem leave_free (P : Pipeline) (a : Attempt) (r : Answer) : .free r.body ∈ (leave P a r).1 := by
  apply List.count_pos_iff.mp
  rw [leave_count, if_pos rfl]
  exact Nat.one_pos

theorem leave_free_mem {P : Pipeline} {a : Attempt} {r : Answer} {q : Ptr}
    (h : .free q ∈ (leave P a r).1) : q = r.body := by
  have hpos := List.count_pos_iff.mpr h
  rw [leave_count] at hpos
  by_contra hne
  rw [if_neg (Ne.symm hne)] at hpos
  exact absurd hpos (Nat.lt_irrefl 0)

/-! What the visit of a candidate does. -/

/-- A visit is passed over, or has one call, or two. -/
inductive Visited (P : Pipeline) (alone : Bool) (c : Attempt × ℕ) : Prop where
  | skipped (hmade : made P alone c.1 = []) (hvisit : (visit P alone c).1 = [])
  | once (r : Answer) (hmade : made P alone c.1 = [c.1.first]) (h : Ends (c.2, 0) c.1.first r)
      (hvisit : (visit P alone c).1 = r.ops ++ (leave P c.1 r).1)
  | twice (r r' : Answer) (hmade : made P alone c.1 = [c.1.first, c.1.second])
      (h : Ends (c.2, 0) c.1.first r) (h' : Ends (c.2, 1) c.1.second r')
      (hvisit : (visit P alone c).1 = r.ops ++ .free r.body :: r'.ops ++ (leave P c.1 r').1)

theorem visited (P : Pipeline) (alone : Bool) (c : Attempt × ℕ) : Visited P alone c := by
  by_cases hskip : P.passesOver = true ∧ c.1.skipped = true
  · apply Visited.skipped
    · exact if_pos hskip
    · rw [visit, if_pos hskip]
  · have hends := upstreamCallExt_ends (c.2, 0) 0 c.1.first
    have hretry : retryDue alone (upstreamCallExt (c.2, 0) 0 c.1.first) = true ↔
        alone = true ∧ ∃ code ∈ c.1.first.code, 500 ≤ code := by
      rw [← hends.status_iff 500]
      simp [retryDue, and_assoc]
    by_cases hdue : alone = true ∧ ∃ code ∈ c.1.first.code, 500 ≤ code
    · have hends' := upstreamCallExt_ends (c.2, 1) (upstreamCallExt (c.2, 0) 0 c.1.first).status
        c.1.second
      refine Visited.twice _ _ ?_ hends hends' ?_
      · rw [made, if_neg hskip, if_pos hdue]
      · rw [visit, if_neg hskip]
        dsimp only
        rw [if_pos (hretry.mpr hdue)]
    · refine Visited.once _ ?_ hends ?_
      · rw [made, if_neg hskip, if_neg hdue]
      · rw [visit, if_neg hskip]
        dsimp only
        rw [if_neg (fun h => hdue (hretry.mp h))]

/-- A visit frees no block of another candidate. -/
theorem free_mem_visit {P : Pipeline} {alone : Bool} {c : Attempt × ℕ} {b : Block}
    (h : .free (.heap b) ∈ (visit P alone c).1) : b.1 = c.2 := by
  have hcall : ∀ {k : ℕ} {t : Transfer} {r : Answer}, Ends (c.2, k) t r →
      (.free (.heap b) ∈ r.ops ∨ .heap b = r.body) → b.1 = c.2 := by
    intro k t r hends hfree
    rcases hfree with hops | hbody
    · rcases hends.free_mem hops with hnull | hheap
      · cases hnull
      · exact congrArg Prod.fst (Ptr.heap.inj hheap)
    · exact congrArg Prod.fst (hends.body_block hbody.symm)
  cases visited P alone c with
  | skipped _ hvisit => simp [hvisit] at h
  | once r _ hends hvisit =>
    rw [hvisit] at h
    rcases List.mem_append.mp h with hops | hleave
    · exact hcall hends (Or.inl hops)
    · exact hcall hends (Or.inr (leave_free_mem hleave))
  | twice r r' _ hends hends' hvisit =>
    rw [hvisit] at h
    rcases List.mem_append.mp h with hcalls | hleave
    · rcases List.mem_append.mp hcalls with hops | hrest
      · exact hcall hends (Or.inl hops)
      · rcases List.mem_cons.mp hrest with hbody | hops
        · exact hcall hends (Or.inr (Op.free.inj hbody))
        · exact hcall hends' (Or.inl hops)
    · exact hcall hends' (Or.inr (leave_free_mem hleave))

/-- A call without a body hands out the literal, and it is freed. -/
theorem visit_bare {P : Pipeline} {alone : Bool} {c : Attempt × ℕ} {t : Transfer}
    (ht : t ∈ made P alone c.1) (hbare : t.Bare) :
    .handOut .literal ∈ (visit P alone c).1 ∧ .free .literal ∈ (visit P alone c).1 := by
  cases visited P alone c with
  | skipped hmade _ => simp [hmade] at ht
  | once r hmade hends hvisit =>
    obtain rfl : t = c.1.first := by simpa [hmade] using ht
    obtain ⟨hbody, hout⟩ := hends.handOut_bare hbare
    have hfree := leave_free P c.1 r
    rw [hbody] at hfree
    rw [hvisit]
    exact ⟨List.mem_append_left _ hout, List.mem_append_right _ hfree⟩
  | twice r r' hmade hends hends' hvisit =>
    rw [hvisit]
    have hwhich : t = c.1.first ∨ t = c.1.second := by simpa [hmade] using ht
    rcases hwhich with rfl | rfl
    · obtain ⟨hbody, hout⟩ := hends.handOut_bare hbare
      rw [hbody]
      simp [hout]
    · obtain ⟨hbody, hout⟩ := hends'.handOut_bare hbare
      have hfree := leave_free P c.1 r'
      rw [hbody] at hfree
      simp [hout, hfree]

/-- With a body in every answer, what a visit hands out is a block of its own, which it allocates
and frees once. -/
theorem visit_filled {P : Pipeline} {alone : Bool} {c : Attempt × ℕ}
    (hfilled : ∀ t ∈ made P alone c.1, ¬ t.Bare) {p : Ptr}
    (hp : .handOut p ∈ (visit P alone c).1) :
    ∃ b, p = .heap b ∧ b.1 = c.2 ∧ .alloc b ∈ (visit P alone c).1 ∧
      (visit P alone c).1.count (.free p) = 1 := by
  cases visited P alone c with
  | skipped _ hvisit => simp [hvisit] at hp
  | once r hmade hends hvisit =>
    rw [hvisit] at hp ⊢
    have hout : .handOut p ∈ r.ops :=
      (List.mem_append.mp hp).resolve_right (leave_handOut P c.1 r p)
    obtain ⟨hbody, hnone⟩ := hends.handOut_mem hout
    obtain ⟨hheap, halloc⟩ := hends.handOut_filled (hfilled _ (by simp [hmade])) hout
    refine ⟨_, hheap, rfl, List.mem_append_left _ halloc, ?_⟩
    rw [List.count_append, List.count_eq_zero.mpr (hnone p), leave_count, if_pos hbody.symm]
  | twice r r' hmade hends hends' hvisit =>
    rw [hvisit] at hp ⊢
    rcases List.mem_append.mp hp with hcalls | hleave
    · rcases List.mem_append.mp hcalls with hout | hrest
      · obtain ⟨hbody, hnone⟩ := hends.handOut_mem hout
        obtain ⟨hheap, halloc⟩ := hends.handOut_filled (hfilled _ (by simp [hmade])) hout
        have hsecond : .free p ∉ r'.ops := by
          intro hfree
          rw [hheap] at hfree
          rcases hends'.free_mem hfree with hnull | hother
          · cases hnull
          · simp at hother
        have hbody' : r'.body ≠ p := by
          intro hsame
          have hblock := hends'.body_block (hsame.trans hheap)
          simp at hblock
        refine ⟨_, hheap, rfl, by simp [halloc], ?_⟩
        rw [List.count_append, List.count_append, List.count_cons, leave_count, if_neg hbody',
          List.count_eq_zero.mpr (hnone p), List.count_eq_zero.mpr hsecond, ← hbody]
        simp
      · have hout : .handOut p ∈ r'.ops := by simpa using hrest
        obtain ⟨hbody, hnone⟩ := hends'.handOut_mem hout
        obtain ⟨hheap, halloc⟩ := hends'.handOut_filled (hfilled _ (by simp [hmade])) hout
        have hfirst : .free p ∉ r.ops := by
          intro hfree
          rw [hheap] at hfree
          rcases hends.free_mem hfree with hnull | hother
          · cases hnull
          · simp at hother
        have hbody' : r.body ≠ p := by
          intro hsame
          have hblock := hends.body_block (hsame.trans hheap)
          simp at hblock
        refine ⟨_, hheap, rfl, by simp [halloc], ?_⟩
        rw [List.count_append, List.count_append, List.count_cons, leave_count, if_pos hbody.symm,
          List.count_eq_zero.mpr (hnone p), List.count_eq_zero.mpr hfirst]
        simp [hbody']
    · exact absurd hleave (leave_handOut P c.1 r' p)

theorem zipIdx_drop_nodup (candidates : List Attempt) (start : ℕ) :
    (candidates.zipIdx.drop start).Nodup := by
  have hnodup : candidates.zipIdx.Nodup := by
    apply List.Nodup.of_map Prod.snd
    rw [List.zipIdx_map_snd]
    exact List.nodup_range'
  exact hnodup.sublist (List.drop_sublist _ _)

/-- The numbers of the candidates tell them apart. -/
theorem eq_of_snd_eq {candidates : List Attempt} {start : ℕ} {c c' : Attempt × ℕ}
    (h : c ∈ candidates.zipIdx.drop start) (h' : c' ∈ candidates.zipIdx.drop start)
    (hsame : c.2 = c'.2) : c = c' := by
  have hc := List.mem_zipIdx_iff_getElem?.mp (List.mem_of_mem_drop h)
  have hc' := List.mem_zipIdx_iff_getElem?.mp (List.mem_of_mem_drop h')
  rw [hsame, hc'] at hc
  exact Prod.ext (Option.some.inj hc).symm hsame

/-- The bodies are owned exactly if no call of the loop succeeds without one. -/
theorem owned_iff (P : Pipeline) (start : ℕ) (candidates : List Attempt) :
    Owned (run P start candidates) ↔ NoneBare P start candidates := by
  unfold run NoneBare
  generalize decide (candidates.length = 1) = alone
  constructor
  · intro howned c hreaches t ht hbare
    obtain ⟨hout, hfree⟩ := visit_bare ht hbare
    have hsub : _ ⊆ Failover.walk (visit P alone) [.reply] (candidates.zipIdx.drop start) :=
      hreaches.subset_walk
    obtain ⟨⟨b, hb, -⟩, -⟩ := howned .literal (hsub hout) (hsub hfree)
    cases hb
  · intro hfilled p hout _
    rcases Failover.mem_walk.mp hout with ⟨c, hreaches, hmem⟩ | ⟨-, hreply⟩
    · obtain ⟨b, rfl, hblock, halloc, hcount⟩ := visit_filled (hfilled c hreaches) hmem
      have hsub : _ ⊆ Failover.walk (visit P alone) [.reply] (candidates.zipIdx.drop start) :=
        hreaches.subset_walk
      refine ⟨⟨b, rfl, hsub halloc⟩, ?_⟩
      have hother : ∀ c' ∈ candidates.zipIdx.drop start, c' ≠ c → ∀ op ∈ (visit P alone c').1,
          (op == Op.free (.heap b)) = false := by
        intro c' hc' hne op hop
        rw [beq_eq_false_iff_ne]
        rintro rfl
        have hsame : c'.2 = c.2 := (free_mem_visit hop).symm.trans hblock
        exact hne (eq_of_snd_eq hc' hreaches.mem hsame)
      have hend : ∀ op ∈ [Op.reply], (op == Op.free (.heap b)) = false := by simp
      have hwalk := Failover.filter_walk hreaches (zipIdx_drop_nodup candidates start) hother hend
      rw [List.count_eq_length_filter, hwalk, ← List.count_eq_length_filter, hcount]
    · simp at hreply

/-- An upstream that answers without a body. -/
def noBody : Transfer := ⟨true, [], .ok, some 200⟩

/-- The empty literal is freed. -/
theorem not_owned_noBody :
    ¬ Owned (run handleEmbeddings 0 [⟨false, noBody, noBody, false, false⟩]) := by
  intro h
  obtain ⟨⟨b, hb, -⟩, -⟩ := h .literal (by decide) (by decide)
  cases hb

end Aigate.BodyOwnership
