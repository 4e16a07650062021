import Aigate.HedgedInvariant

/-!
# What comes out of the race of a hedged call

In every interleaving the control block is freed once and not used afterwards, each response
body is freed or handed to the caller once, and the call returns one result, which is a 200 if
a worker finished with one. The parties come to an end after a bounded number of steps.
-/
namespace Aigate.HedgedRace
open Text GuardedRuns

/-! ### What comes out -/

/-- Nothing can happen any more but a wake-up without a signal. -/
def Quiet (p : HedgedCall) (s : Race) : Prop := ∀ e, e ≠ .spurious → step p s e = s

/-- What the call promises about memory and its result, in one state. -/
structure Correct (p : HedgedCall) (s : Race) : Prop where
  unused : s.misused = false
  freedOnce : s.ctrlFrees ≤ 1
  oneResult : s.results.length ≤ 1
  succeeds : ∀ a ∈ s.results, ∀ w, (s.worker w).outcome = some (0, 200) →
    a.1 = 0 ∧ a.2.status = 200
  bodies : ∀ w, s.mallocs w ≤ 1 ∧ s.freed w + s.handed w ≤ s.mallocs w
  ends : Quiet p s → s.results.length = 1 ∧ s.ctrlFrees = (if s.created then 1 else 0) ∧
    ∀ w, s.freed w + s.handed w = s.mallocs w

theorem Inv.settled {s : Race} (h : Inv s) {a : Answer} (ha : a ∈ s.results) : Settled s a := by
  have hok := h.call
  unfold CallOk at hok
  cases hcall : s.call with
  | returned b =>
    rw [hcall] at hok
    rw [hok.2] at ha
    rw [List.mem_singleton.mp ha]
    exact hok.1
  | entry => rw [hcall] at hok; rw [hok.2] at ha; cases ha
  | delayWait e => rw [hcall] at hok; rw [hok.2] at ha; cases ha
  | delaySleep => rw [hcall] at hok; rw [hok.2.1] at ha; cases ha
  | raceWait b e => rw [hcall] at hok; rw [hok.2] at ha; cases ha
  | raceSleep b e => rw [hcall] at hok; rw [hok.2.1] at ha; cases ha
  | releasing b => rw [hcall] at hok; rw [hok.2.2] at ha; cases ha
  | freeing b => rw [hcall] at hok; rw [hok.2.2] at ha; cases ha

theorem Inv.results_length {s : Race} (h : Inv s) : s.results.length ≤ 1 := by
  have hok := h.call
  unfold CallOk at hok
  cases hcall : s.call <;> rw [hcall] at hok <;> simp_all

/-- A worker with something left to do does it. -/
theorem Quiet.worker {p : HedgedCall} {s : Race} (h : Quiet p s) (w : Worker) :
    s.worker w = .idle ∨ ∃ o, s.worker w = .ended o := by
  have hnow : ∀ e, e ≠ .spurious → (step p s e).worker w = s.worker w := fun e he => by rw [h e he]
  cases hw : s.worker w with
  | idle => exact Or.inl rfl
  | ended o => exact Or.inr ⟨o, rfl⟩
  | starting =>
    have := hnow (.openSession w true) (by simp)
    simp [step, hw] at this
  | running aborted =>
    have := hnow (.perform w .failed 0 0) (by simp)
    simp [step, hw] at this
  | writing chunk =>
    have := hnow (.store w false) (by simp)
    simp [step, writeSection, hw] at this
  | finished code status latNs =>
    have := hnow (.advance w) (by simp)
    simp [step, advance, hw] at this
  | noSession =>
    have := hnow (.advance w) (by simp)
    simp [step, advance, hw] at this
  | releasing o =>
    have := hnow (.advance w) (by simp)
    simp only [step, advance, hw, Function.update_self] at this
    split at this <;> cases this
  | freeing o =>
    have := hnow (.advance w) (by simp)
    simp [step, advance, hw] at this

theorem call_raceSection (s : Race) (started hedged : Bool) :
    (raceSection s started hedged).call = .raceSleep started hedged ∨
      ∃ a, (raceSection s started hedged).call = .releasing a := by
  unfold raceSection
  split
  · cases harvested s.ctrl started with
    | none => exact Or.inr ⟨_, rfl⟩
    | some w => exact Or.inr ⟨_, rfl⟩
  · exact Or.inl rfl

/-- The call does not wait for workers that are through. -/
theorem Quiet.call {p : HedgedCall} {s : Race} (h : Quiet p s) (hinv : Inv s) :
    ∃ a, s.call = .returned a := by
  have hnow : ∀ e, e ≠ .spurious → (step p s e).call = s.call := fun e he => by rw [h e he]
  have hdone : ∀ w, s.worker w ≠ .idle → s.ctrl.done w = true := by
    intro w hne
    obtain ⟨o, ho⟩ := (h.worker w).resolve_left hne
    rw [(hinv.workers w).done_eq, ho]
    rfl
  have hok := hinv.call
  unfold CallOk at hok
  cases hcall : s.call with
  | returned a => exact ⟨a, rfl⟩
  | entry =>
    have := hnow (.enter false false false) (by simp)
    simp [step, hcall, enter] at this
  | delayWait expired =>
    have := hnow (.proceed false false) (by simp)
    simp only [step, proceed, hcall] at this
    split at this
    · cases this
    · rw [show startSecondary p (touch s) false false = raceSection (touch s) false false by
        simp [startSecondary]] at this
      rcases call_raceSection (touch s) false false with hrace | ⟨a, hrace⟩ <;>
        cases hrace.symm.trans this
  | delaySleep =>
    have := hnow .expire (by simp)
    simp [step, hcall] at this
  | raceWait started hedged =>
    rw [hcall] at hok
    have := hnow (.proceed false false) (by simp)
    simp only [step, proceed, hcall] at this
    rcases call_raceSection (touch s) started hedged with hrace | ⟨a, hrace⟩ <;>
      cases hrace.symm.trans this
  | raceSleep started hedged =>
    rw [hcall] at hok
    obtain ⟨hstarted, -, hover⟩ := hok
    have hprimary := hdone .primary hstarted.primary
    have hsecondary : (!started || s.ctrl.done .secondary) = true := by
      cases started
      · rfl
      · exact hdone .secondary (hstarted.secondary.mpr rfl)
    unfold raceOver at hover
    rw [hprimary, hsecondary] at hover
    simp at hover
  | releasing a =>
    have := hnow (.proceed false false) (by simp)
    simp only [step, proceed, hcall] at this
    split at this <;> cases this
  | freeing a =>
    have := hnow (.proceed false false) (by simp)
    simp [step, proceed, hcall] at this

theorem Inv.bodies {s : Race} (h : Inv s) (w : Worker) :
    s.mallocs w ≤ 1 ∧ s.freed w + s.handed w ≤ s.mallocs w := by
  have hbalance := (h.workers w).balance
  exact ⟨(h.workers w).once, by omega⟩

/-- At the end the block is freed and every body is where it belongs. -/
theorem Inv.ends {p : HedgedCall} {s : Race} (h : Inv s) (hquiet : Quiet p s) :
    s.results.length = 1 ∧ s.ctrlFrees = (if s.created then 1 else 0) ∧
      ∀ w, s.freed w + s.handed w = s.mallocs w := by
  obtain ⟨a, hcall⟩ := hquiet.call h
  have hok := h.call
  unfold CallOk at hok
  rw [hcall] at hok
  refine ⟨by rw [hok.2]; rfl, ?_⟩
  cases hcreated : s.created with
  | false =>
    obtain ⟨hunfreed, hidle, -⟩ := h.fresh hcreated
    refine ⟨hunfreed, fun w => ?_⟩
    have hw := h.workers w
    have hkept := hw.kept (by rw [hidle w]; rfl)
    have hunused := hw.unused (hidle w)
    omega
  | true =>
    have hrefs : ∀ w, (s.worker w).refs = 0 ∧ (s.worker w).frees = 0 := by
      intro w
      rcases hquiet.worker w with hw | ⟨o, hw⟩ <;> rw [hw] <;> exact ⟨rfl, rfl⟩
    have hcallRefs : s.call.refs = 0 ∧ s.call.frees = 0 := by rw [hcall]; exact ⟨rfl, rfl⟩
    have hcount := h.count hcreated
    have hfrees := h.frees hcreated
    unfold total at hcount hfrees
    rw [(hrefs .primary).1, (hrefs .secondary).1, hcallRefs.1] at hcount
    rw [(hrefs .primary).2, (hrefs .secondary).2, hcallRefs.2, if_pos (by simpa using hcount)]
      at hfrees
    refine ⟨hfrees, fun w => ?_⟩
    have hempty : bodyCount s.ctrl w = 0 := by
      unfold bodyCount
      rw [(h.workers w).emptied (by omega)]
      rfl
    have hbalance := (h.workers w).balance
    omega

theorem Inv.correct {s : Race} (h : Inv s) (p : HedgedCall) : Correct p s := by
  refine ⟨h.clean, ?_, h.results_length, fun a ha w hw => ?_, h.bodies, fun hq => h.ends hq⟩
  · cases hcreated : s.created with
    | false => rw [(h.fresh hcreated).1]; exact Nat.zero_le 1
    | true =>
      have hfrees := h.frees hcreated
      split at hfrees <;> omega
  · refine (h.settled ha).resolve_right fun hall => ?_
    rcases hall w with hidle | ⟨o, ho, hne⟩
    · rw [hidle] at hw
      cases hw
    · exact hne (Option.some.inj (ho.symm.trans hw))

/-! ### The call comes to an end -/

/-- How far a worker is from its end. A transfer may call back any number of times. -/
def WorkerPhase.rank : WorkerPhase → ℕ
  | .idle => 7
  | .starting => 6
  | .running _ => 5
  | .writing _ => 5
  | .finished .. => 4
  | .noSession => 4
  | .releasing _ => 2
  | .freeing _ => 1
  | .ended _ => 0

def CallPhase.rank : CallPhase → ℕ
  | .entry => 8
  | .delayWait false => 7
  | .delaySleep => 6
  | .delayWait true => 5
  | .raceWait .. => 4
  | .raceSleep .. => 3
  | .releasing _ => 2
  | .freeing _ => 1
  | .returned _ => 0

def rank (s : Race) : ℕ := s.call.rank + total WorkerPhase.rank s.worker

def Event.isSpurious : Event → Bool
  | .spurious => true
  | _ => false

/-- What a transfer does before it returns. -/
def Event.isCallback : Event → Bool
  | .poll _ => true
  | .receive _ _ => true
  | .store _ _ => true
  | _ => false

theorem rank_broadcast (c : CallPhase) : (broadcast c).rank ≤ c.rank + 1 := by
  cases c <;> simp [broadcast, CallPhase.rank]

theorem rank_advance (s : Race) (w : Worker) :
    advance s w = s ∨ rank (advance s w) < rank s := by
  have hup := rank_broadcast s.call
  unfold rank
  cases hw : s.worker w with
  | finished code status latNs =>
    have := total_update WorkerPhase.rank s.worker w (.releasing (code.rc, status))
    simp only [advance, hw, touch, WorkerPhase.rank] at this ⊢
    omega
  | noSession =>
    have := total_update WorkerPhase.rank s.worker w (.releasing (-502, s.ctrl.httpStatus w))
    simp only [advance, hw, touch, WorkerPhase.rank] at this ⊢
    omega
  | releasing o =>
    have hfreeing := total_update WorkerPhase.rank s.worker w (.freeing o)
    have hended := total_update WorkerPhase.rank s.worker w (.ended o)
    simp only [advance, hw, countDown, touch, WorkerPhase.rank] at hfreeing hended ⊢
    split <;> omega
  | freeing o =>
    have := total_update WorkerPhase.rank s.worker w (.ended o)
    simp only [advance, hw, freeCtrl, touch, WorkerPhase.rank] at this ⊢
    omega
  | _ =>
    left
    simp only [advance, hw]

/-- Where a race section leaves the call, with the workers as they were. -/
theorem rank_raceSection (s : Race) (started hedged : Bool) :
    rank (raceSection s started hedged) ≤ 3 + total WorkerPhase.rank s.worker := by
  unfold raceSection
  split
  · cases harvested s.ctrl started <;> simp [rank, handOut, CallPhase.rank]
  · simp [rank, CallPhase.rank]

theorem Inv.rank_proceed {s : Race} (h : Inv s) (p : HedgedCall) (ctxOk threadOk : Bool) :
    HedgedRace.proceed p s ctxOk threadOk = s ∨
      rank (HedgedRace.proceed p s ctxOk threadOk) < rank s := by
  have hok := h.call
  unfold CallOk at hok
  cases hcall : s.call with
  | delayWait expired =>
    rw [hcall] at hok
    have hidle : s.worker .secondary = .idle := by
      by_contra hne
      exact nomatch hok.1.secondary.mp hne
    have hstart := total_update WorkerPhase.rank s.worker .secondary .starting
    rw [hidle] at hstart
    have hbefore : 5 + total WorkerPhase.rank s.worker ≤ rank s := by
      unfold rank
      rw [hcall]
      cases expired <;> simp [CallPhase.rank]
    right
    simp only [HedgedRace.proceed, hcall]
    split
    · rename_i htest
      have hawake : rank s = 7 + total WorkerPhase.rank s.worker := by
        unfold rank
        rw [hcall, htest.2]
        rfl
      rw [hawake]
      exact Nat.add_lt_add_right (show 6 < 7 by decide) _
    · unfold HedgedRace.startSecondary
      split
      · split
        · have := rank_raceSection
            { touch s with
              worker := Function.update s.worker .secondary .starting
              ctrl := { s.ctrl with refCount := s.ctrl.refCount + 1 } } true true
          simp only [WorkerPhase.rank] at hstart
          dsimp only [touch] at this ⊢
          omega
        · have := rank_raceSection (touch s) false true
          dsimp only [touch] at this ⊢
          omega
      · have := rank_raceSection (touch s) false false
        dsimp only [touch] at this ⊢
        omega
  | raceWait started hedged =>
    right
    have := rank_raceSection (touch s) started hedged
    have hbefore : rank s = 4 + total WorkerPhase.rank s.worker := by
      unfold rank
      rw [hcall]
      rfl
    simp only [HedgedRace.proceed, hcall]
    dsimp only [touch] at this ⊢
    omega
  | releasing a =>
    right
    simp only [HedgedRace.proceed, hcall, countDown, touch]
    split <;> simp [rank, hcall, CallPhase.rank]
  | freeing a =>
    right
    simp [HedgedRace.proceed, hcall, freeCtrl, touch, rank, CallPhase.rank]
  | _ =>
    left
    simp only [HedgedRace.proceed, hcall]

/-- A worker that loses some of its rank, or none. -/
theorem rank_worker {s s' : Race} {w : Worker} {x : WorkerPhase} {a : ℕ}
    (hcall : s'.call = s.call) (hs : s'.worker = Function.update s.worker w x)
    (hrank : x.rank + a ≤ (s.worker w).rank) : rank s' + a ≤ rank s := by
  have := total_update WorkerPhase.rank s.worker w x
  unfold rank
  rw [hcall, hs]
  omega

/-- A step that changes anything comes nearer to the end, but for the callbacks of a transfer and
a wake-up without a signal. -/
theorem Inv.rank_step {s : Race} (h : Inv s) (p : HedgedCall) (e : Event)
    (hchange : HedgedRace.step p s e ≠ s) :
    rank (HedgedRace.step p s e) + (if e.isSpurious || e.isCallback then 0 else 1) ≤
      rank s + (if e.isSpurious then 1 else 0) := by
  cases e with
  | enter ctrlOk ctxOk threadOk =>
    simp only [HedgedRace.step] at hchange ⊢
    split
    · rename_i hcall
      have hok := h.call
      unfold CallOk at hok
      rw [hcall] at hok
      have hidle := (h.fresh hok.1).2.1 .primary
      have hstart := total_update WorkerPhase.rank s.worker .primary .starting
      rw [hidle] at hstart
      simp only [WorkerPhase.rank] at hstart
      have hbefore : rank s = 8 + total WorkerPhase.rank s.worker := by
        unfold rank
        rw [hcall]
        rfl
      show rank _ + 1 ≤ rank s
      unfold HedgedRace.enter
      split
      · simp only [rank, CallPhase.rank] at hbefore ⊢
        omega
      · split
        · simp only [rank, CallPhase.rank] at hbefore ⊢
          omega
        · simp only [rank, CallPhase.rank] at hbefore ⊢
          omega
    · rename_i hcall
      split at hchange
      · rename_i hentry
        exact absurd hentry hcall
      · exact absurd rfl hchange
  | expire =>
    simp only [HedgedRace.step] at hchange ⊢
    split at hchange
    · rename_i hcall
      simp [rank, hcall, CallPhase.rank, Event.isSpurious, Event.isCallback]
    · exact absurd rfl hchange
  | spurious =>
    have := rank_broadcast s.call
    simp only [HedgedRace.step, rank, Event.isSpurious, Event.isCallback, Bool.true_or, if_true]
    omega
  | proceed ctxOk threadOk => exact (h.rank_proceed p ctxOk threadOk).resolve_left hchange
  | openSession w ok =>
    simp only [HedgedRace.step] at hchange ⊢
    split at hchange
    · rename_i hw
      show rank _ + 1 ≤ rank s
      refine rank_worker (w := w) rfl rfl ?_
      rw [hw]
      cases ok <;> decide
    · exact absurd rfl hchange
  | poll w =>
    simp only [HedgedRace.step] at hchange ⊢
    split at hchange
    · rename_i hw
      show rank _ + 0 ≤ rank s
      refine rank_worker (w := w) rfl rfl ?_
      rw [hw]
      exact le_refl 5
    · exact absurd rfl hchange
  | receive w chunk =>
    simp only [HedgedRace.step] at hchange ⊢
    split at hchange
    · rename_i hw
      show rank _ + 0 ≤ rank s
      refine rank_worker (w := w) rfl rfl ?_
      rw [hw]
      split <;> exact le_refl 5
    · exact absurd rfl hchange
  | store w memOk =>
    simp only [HedgedRace.step] at hchange ⊢
    split at hchange
    · rename_i chunk hw
      show rank _ + 0 ≤ rank s
      unfold writeSection
      dsimp only
      split
      · refine rank_worker (w := w) (x := .running true) rfl rfl ?_
        rw [hw]
        exact le_refl 5
      · refine rank_worker (w := w) (x := .running false) rfl rfl ?_
        rw [hw]
        exact le_refl 5
    · exact absurd rfl hchange
  | perform w code status latNs =>
    simp only [HedgedRace.step] at hchange ⊢
    split at hchange
    · rename_i aborted hw
      split at hchange
      · exact absurd rfl hchange
      · rename_i hreturns
        rw [if_neg hreturns]
        show rank _ + 1 ≤ rank s
        refine rank_worker (w := w) rfl rfl ?_
        rw [hw]
        exact le_refl 5
    · exact absurd rfl hchange
  | advance w => exact (rank_advance s w).resolve_left hchange

/-- A run in which every step changes something is at most as long as the rank, not counting the
callbacks, and the wake-ups without a signal twice. -/
theorem length_of_changes (p : HedgedCall) {s : Race} (h : Inv s) {events : List Event}
    (hrun : RunOk (step p) (fun s e => step p s e ≠ s) s events) :
    (events.filter fun e => !(e.isSpurious || e.isCallback)).length ≤
      rank s + (events.filter Event.isSpurious).length := by
  induction events generalizing s with
  | nil => exact Nat.zero_le _
  | cons e rest ih =>
    obtain ⟨hchange, hrest⟩ := hrun
    have hlater := ih (h.step p e) hrest
    have hnow := h.rank_step p e hchange
    cases hspurious : e.isSpurious <;> cases hcallback : e.isCallback <;>
      simp [hspurious, hcallback] at hnow hlater ⊢ <;> omega

/-- In every interleaving the call is correct in every state, and the parties take at most 22
steps of their own, and one for each wake-up without a signal. -/
theorem race_correct (p : HedgedCall) (events : List Event) :
    Always (step p) (Correct p) initial events ∧
      (RunOk (step p) (fun s e => step p s e ≠ s) initial events →
        (events.filter fun e => !(e.isSpurious || e.isCallback)).length ≤
          22 + (events.filter Event.isSpurious).length) := by
  constructor
  · have hstep : ∀ s e, Inv s → Inv (step p s e) := fun s e hs => hs.step p e
    have hinv : Always (step p) Inv initial events := always_of_step hstep inv_initial events
    exact fun n => (hinv n).correct p
  · exact fun hchanges => length_of_changes p inv_initial hchanges

end Aigate.HedgedRace
