import Aigate.HedgedRace

/-!
# Who owns what in the race of a hedged call

The count of the control block is that of the parties with a reference. A body is in the block,
or freed, or handed out. A worker has recorded what it has come to, and the winner is one with
a 200. The call sleeps only as long as there is a worker to wait for. Every step keeps this.
-/
namespace Aigate.HedgedRace
open Text GuardedRuns

/-! ### Who refers to the block -/

/-- The code and the status that a worker has recorded. -/
def WorkerPhase.outcome : WorkerPhase → Option (ℤ × ℤ)
  | .releasing o => some o
  | .freeing o => some o
  | .ended o => some o
  | _ => none

/-- A worker holds one reference from its start to its release. -/
def WorkerPhase.refs : WorkerPhase → ℕ
  | .idle => 0
  | .freeing _ => 0
  | .ended _ => 0
  | _ => 1

/-- A party that has counted down to zero and frees the block next. -/
def WorkerPhase.frees : WorkerPhase → ℕ
  | .freeing _ => 1
  | _ => 0

def CallPhase.refs : CallPhase → ℕ
  | .entry => 0
  | .freeing _ => 0
  | .returned _ => 0
  | _ => 1

def CallPhase.frees : CallPhase → ℕ
  | .freeing _ => 1
  | _ => 0

/-- Over both workers. -/
def total (f : WorkerPhase → ℕ) (g : Worker → WorkerPhase) : ℕ := f (g .primary) + f (g .secondary)

theorem total_update (f : WorkerPhase → ℕ) (g : Worker → WorkerPhase) (w : Worker)
    (x : WorkerPhase) : total f (Function.update g w x) + f (g w) = total f g + f x := by
  cases w <;> simp [total, Function.update] <;> omega

theorem le_total (f : WorkerPhase → ℕ) (g : Worker → WorkerPhase) (w : Worker) :
    f (g w) ≤ total f g := by
  cases w
  · exact Nat.le_add_right _ _
  · exact Nat.le_add_left _ _

@[simp] theorem broadcast_refs (c : CallPhase) : (broadcast c).refs = c.refs := by cases c <;> rfl

@[simp] theorem broadcast_frees (c : CallPhase) : (broadcast c).frees = c.frees := by
  cases c <;> rfl

/-! ### The invariant -/

/-- What the block and the ledger say about one worker. -/
structure WorkerOk (s : Race) (w : Worker) : Prop where
  done_eq : s.ctrl.done w = (s.worker w).outcome.isSome
  recorded : ∀ o, (s.worker w).outcome = some o → s.ctrl.rc w = o.1 ∧ s.ctrl.httpStatus w = o.2
  won : s.ctrl.winningIdx = some w → (s.worker w).outcome = some (0, 200)
  lost : s.ctrl.winningIdx = none → (s.worker w).outcome ≠ some (0, 200)
  balance : s.mallocs w = bodyCount s.ctrl w + s.freed w + s.handed w
  kept : (s.worker w).outcome = none → s.freed w = 0 ∧ s.handed w = 0
  once : s.mallocs w ≤ 1
  unused : s.worker w = .idle → s.mallocs w = 0
  emptied : 0 < s.ctrlFrees → s.ctrl.respBody w = none

/-- The primary was started, and the secondary if the call says so. -/
structure Started (s : Race) (started : Bool) : Prop where
  created : s.created = true
  primary : s.worker .primary ≠ .idle
  secondary : s.worker .secondary ≠ .idle ↔ started = true

/-- The answer is a 200, or every worker that was started has recorded something else. -/
def Settled (s : Race) (a : Answer) : Prop :=
  (a.1 = 0 ∧ a.2.status = 200) ∨
    ∀ w, s.worker w = .idle ∨ ∃ o, (s.worker w).outcome = some o ∧ o ≠ (0, 200)

/-- What holds where the call is. It sleeps only as long as there is something to wait for. -/
def CallOk (s : Race) : Prop :=
  match s.call with
  | .entry => s.created = false ∧ s.results = []
  | .delayWait _ => Started s false ∧ s.results = []
  | .delaySleep => Started s false ∧ s.results = [] ∧ delayTest s.ctrl = true
  | .raceWait started _ => Started s started ∧ s.results = []
  | .raceSleep started _ => Started s started ∧ s.results = [] ∧ raceOver s.ctrl started = false
  | .releasing a => s.created = true ∧ Settled s a ∧ s.results = []
  | .freeing a => s.created = true ∧ Settled s a ∧ s.results = []
  | .returned a => Settled s a ∧ s.results = [a]

structure Inv (s : Race) : Prop where
  count : s.created = true →
    s.ctrl.refCount = ((s.call.refs + total WorkerPhase.refs s.worker : ℕ) : ℤ)
  frees : s.created = true →
    s.ctrlFrees + s.call.frees + total WorkerPhase.frees s.worker =
      if s.ctrl.refCount = 0 then 1 else 0
  fresh : s.created = false → s.ctrlFrees = 0 ∧ (∀ w, s.worker w = .idle) ∧
    (s.call = .entry ∨ ∃ a, s.call = .returned a)
  clean : s.misused = false
  workers : ∀ w, WorkerOk s w
  call : CallOk s

theorem inv_initial : Inv initial where
  count h := by cases h
  frees h := by cases h
  fresh _ := ⟨rfl, fun _ => rfl, Or.inl rfl⟩
  clean := rfl
  workers _ := by
    constructor <;> simp [initial, newCtrl, WorkerPhase.outcome, bodyCount]
  call := ⟨rfl, rfl⟩

/-- While a party has a reference the block is there. -/
theorem Inv.live {s : Race} (h : Inv s)
    (href : 0 < s.call.refs + total WorkerPhase.refs s.worker) :
    s.created = true ∧ 0 < s.ctrl.refCount ∧ s.ctrlFrees = 0 ∧ s.call.frees = 0 ∧
      total WorkerPhase.frees s.worker = 0 := by
  cases hcreated : s.created with
  | false =>
    obtain ⟨-, hidle, hcall⟩ := h.fresh hcreated
    have hnone : s.call.refs = 0 := by
      rcases hcall with hcall | ⟨a, hcall⟩ <;> rw [hcall] <;> rfl
    simp only [hnone, total, hidle, WorkerPhase.refs] at href
    omega
  | true =>
    have hcount := h.count hcreated
    have hfrees := h.frees hcreated
    rw [if_neg (by omega)] at hfrees
    exact ⟨rfl, by omega, by omega, by omega, by omega⟩

theorem Inv.live_worker {s : Race} (h : Inv s) {w : Worker} (href : (s.worker w).refs = 1) :
    s.created = true ∧ 0 < s.ctrl.refCount ∧ s.ctrlFrees = 0 ∧ s.call.frees = 0 ∧
      total WorkerPhase.frees s.worker = 0 := by
  refine h.live ?_
  have := le_total WorkerPhase.refs s.worker w
  omega

/-- An access by a party with a reference is none to freed memory. -/
theorem touch_eq {s : Race} (h : s.ctrlFrees = 0) : touch s = s := by
  have hsame : (s.misused || decide (0 < s.ctrlFrees)) = s.misused := by
    rw [h]
    exact Bool.or_false _
  unfold touch
  rw [hsame]

theorem bodyCount_set (c : RaceCtrl) (w : Worker) (body : Bytes) :
    bodyCount { c with respBody := Function.update c.respBody w (some body) } w = 1 := by
  simp [bodyCount]

theorem bodyCount_le (c : RaceCtrl) (w : Worker) : bodyCount c w ≤ 1 := by
  unfold bodyCount
  split <;> omega

/-! ### A worker's own steps -/

theorem Settled.worker {s : Race} {a : Answer} (h : Settled s a) {w : Worker} {x : WorkerPhase}
    (hidle : s.worker w ≠ .idle) (hout : ∀ o, (s.worker w).outcome = some o → x.outcome = some o)
    {s' : Race} (hs : s'.worker = Function.update s.worker w x) : Settled s' a := by
  rcases h with h | h
  · exact Or.inl h
  refine Or.inr fun v => ?_
  rw [hs]
  by_cases hv : v = w
  · subst hv
    rw [Function.update_self]
    obtain ⟨o, ho, hne⟩ := (h v).resolve_left hidle
    exact Or.inr ⟨o, hout o ho, hne⟩
  · rw [Function.update_of_ne hv]
    exact h v

theorem Started.worker {s : Race} {started : Bool} (h : Started s started) {w : Worker}
    {x : WorkerPhase} (hidle : s.worker w ≠ .idle) (hx : x ≠ .idle) {s' : Race}
    (hs : s'.worker = Function.update s.worker w x) (hcreated : s'.created = s.created) :
    Started s' started := by
  have hsame : ∀ v, s'.worker v ≠ .idle ↔ s.worker v ≠ .idle := by
    intro v
    rw [hs]
    by_cases hv : v = w
    · subst hv
      rw [Function.update_self]
      exact iff_of_true hx hidle
    · rw [Function.update_of_ne hv]
  exact ⟨hcreated.trans h.created, (hsame _).mpr h.primary, (hsame _).trans h.secondary⟩

/-- The call's part stays when a worker goes from one phase to another without an outcome, or
keeps the one that it has. A call that is awake does not mind what the block says. -/
theorem CallOk.worker {s : Race} (h : CallOk s) {w : Worker} {x : WorkerPhase}
    (hidle : s.worker w ≠ .idle) (hx : x ≠ .idle)
    (hout : ∀ o, (s.worker w).outcome = some o → x.outcome = some o) {s' : Race}
    (hs : s'.worker = Function.update s.worker w x) (hcreated : s'.created = s.created)
    (hcall : s'.call = s.call) (hresults : s'.results = s.results)
    (hawake : broadcast s.call = s.call ∨
      (s'.ctrl.done = s.ctrl.done ∧ s'.ctrl.winningIdx = s.ctrl.winningIdx)) : CallOk s' := by
  unfold CallOk at h ⊢
  rw [hcall, hresults]
  cases hphase : s.call with
  | entry => simpa [hphase, hcreated] using h
  | delayWait e =>
    simp only [hphase] at h ⊢
    exact ⟨h.1.worker hidle hx hs hcreated, h.2⟩
  | delaySleep =>
    simp only [hphase] at h hawake ⊢
    obtain ⟨hdone, hwin⟩ := hawake.resolve_left nofun
    have hsame : delayTest s'.ctrl = delayTest s.ctrl := by
      unfold delayTest
      rw [hdone, hwin]
    exact ⟨h.1.worker hidle hx hs hcreated, h.2.1, hsame.trans h.2.2⟩
  | raceWait b e =>
    simp only [hphase] at h ⊢
    exact ⟨h.1.worker hidle hx hs hcreated, h.2⟩
  | raceSleep b e =>
    simp only [hphase] at h hawake ⊢
    obtain ⟨hdone, hwin⟩ := hawake.resolve_left nofun
    have hsame : raceOver s'.ctrl b = raceOver s.ctrl b := by
      unfold raceOver
      rw [hdone, hwin]
    exact ⟨h.1.worker hidle hx hs hcreated, h.2.1, hsame.trans h.2.2⟩
  | releasing a =>
    simp only [hphase] at h ⊢
    exact ⟨hcreated.trans h.1, h.2.1.worker hidle hout hs, h.2.2⟩
  | freeing a =>
    simp only [hphase] at h ⊢
    exact ⟨hcreated.trans h.1, h.2.1.worker hidle hout hs, h.2.2⟩
  | returned a =>
    simp only [hphase] at h ⊢
    exact ⟨h.1.worker hidle hout hs, h.2⟩

/-- What concerns one worker stays when nothing of it changes. -/
theorem WorkerOk.frame {s s' : Race} {w : Worker} (h : WorkerOk s w)
    (hworker : s'.worker w = s.worker w) (hdone : s'.ctrl.done w = s.ctrl.done w)
    (hrc : s'.ctrl.rc w = s.ctrl.rc w) (hstatus : s'.ctrl.httpStatus w = s.ctrl.httpStatus w)
    (hwin : s'.ctrl.winningIdx = s.ctrl.winningIdx)
    (hbody : s'.ctrl.respBody w = s.ctrl.respBody w) (hmallocs : s'.mallocs w = s.mallocs w)
    (hfreed : s'.freed w = s.freed w) (hhanded : s'.handed w = s.handed w)
    (hctrlFrees : s'.ctrlFrees = s.ctrlFrees) : WorkerOk s' w := by
  have hcount : bodyCount s'.ctrl w = bodyCount s.ctrl w := by
    unfold bodyCount
    rw [hbody]
  constructor
  · rw [hdone, hworker]
    exact h.done_eq
  · rw [hworker, hrc, hstatus]
    exact h.recorded
  · rw [hwin, hworker]
    exact h.won
  · rw [hwin, hworker]
    exact h.lost
  · rw [hmallocs, hcount, hfreed, hhanded]
    exact h.balance
  · rw [hworker, hfreed, hhanded]
    exact h.kept
  · rw [hmallocs]
    exact h.once
  · rw [hworker, hmallocs]
    exact h.unused
  · rw [hctrlFrees, hbody]
    exact h.emptied

theorem WorkerPhase.frees_of_refs {x : WorkerPhase} (h : x.refs = 1) : x.frees = 0 := by
  cases x <;> first | rfl | cases h

theorem WorkerPhase.ne_idle_of_refs {x : WorkerPhase} (h : x.refs = 1) : x ≠ .idle := by
  rintro rfl
  cases h

/-- Without a reference and an outcome a worker was never started. -/
theorem WorkerPhase.eq_idle {x : WorkerPhase} (hrefs : x.refs = 0) (hout : x.outcome = none) :
    x = .idle := by
  cases x <;> simp_all [WorkerPhase.refs, WorkerPhase.outcome]

/-- A worker that has a reference and no outcome goes on, and keeps it. -/
theorem Inv.moves {s : Race} (h : Inv s) {w : Worker} {x : WorkerPhase}
    (href : (s.worker w).refs = 1) (hout : (s.worker w).outcome = none) (hx : x.refs = 1)
    (hxout : x.outcome = none) : Inv { s with worker := Function.update s.worker w x } := by
  have hxidle := WorkerPhase.ne_idle_of_refs hx
  have hcreated := (h.live_worker href).1
  have hrefs := total_update WorkerPhase.refs s.worker w x
  have hfrees := total_update WorkerPhase.frees s.worker w x
  rw [WorkerPhase.frees_of_refs href, WorkerPhase.frees_of_refs hx] at hfrees
  have hrefsSame : total WorkerPhase.refs (Function.update s.worker w x) =
      total WorkerPhase.refs s.worker := by omega
  have hfreesSame : total WorkerPhase.frees (Function.update s.worker w x) =
      total WorkerPhase.frees s.worker := by omega
  constructor
  · simpa only [hrefsSame] using h.count
  · simpa only [hfreesSame] using h.frees
  · exact fun hnot => nomatch hcreated.symm.trans hnot
  · exact h.clean
  · intro v
    have hv := h.workers v
    by_cases hvw : v = w
    · subst hvw
      have hnow : Function.update s.worker v x v = x := Function.update_self _ _ _
      constructor <;> simp only [hnow, hxout]
      · rw [hv.done_eq, hout]
      · exact nofun
      · intro hwin
        rw [← hout]
        exact hv.won hwin
      · exact fun _ => nofun
      · exact hv.balance
      · exact fun _ => hv.kept hout
      · exact hv.once
      · exact fun hv' => absurd hv' hxidle
      · exact hv.emptied
    · exact hv.frame (Function.update_of_ne hvw _ _) rfl rfl rfl rfl rfl rfl rfl rfl rfl
  · exact h.call.worker (WorkerPhase.ne_idle_of_refs href) hxidle
      (fun o ho => by rw [hout] at ho; cases ho) rfl rfl rfl rfl (Or.inr ⟨rfl, rfl⟩)

/-- A chunk makes the body longer, and the first one makes it. -/
theorem Inv.store {s : Race} (h : Inv s) {w : Worker} {chunk : Bytes}
    (hw : s.worker w = .writing chunk) (memOk : Bool) : Inv (writeSection s w chunk memOk) := by
  have href : (s.worker w).refs = 1 := by rw [hw]; rfl
  have hout : (s.worker w).outcome = none := by rw [hw]; rfl
  have hmoved : ∀ aborted, Inv { s with worker := Function.update s.worker w (.running aborted) } :=
    fun _ => h.moves href hout rfl rfl
  unfold writeSection
  rw [touch_eq (h.live_worker href).2.2.1]
  dsimp only
  split
  · exact hmoved true
  · have hgone := hmoved false
    have hcall : s.worker w ≠ .idle := WorkerPhase.ne_idle_of_refs href
    refine ⟨hgone.count, hgone.frees, hgone.fresh, hgone.clean, fun v => ?_,
      h.call.worker (x := .running false) hcall nofun (fun o ho => by rw [hout] at ho; cases ho)
        rfl rfl rfl rfl (Or.inr ⟨rfl, rfl⟩)⟩
    have hv := hgone.workers v
    by_cases hvw : v = w
    · subst hvw
      obtain ⟨hfreed, hhanded⟩ := (h.workers v).kept hout
      have hbalance := (h.workers v).balance
      have hle := bodyCount_le s.ctrl v
      constructor
      · exact hv.done_eq
      · exact hv.recorded
      · exact hv.won
      · exact hv.lost
      · rw [bodyCount_set]
        simp only [Function.update_self]
        omega
      · exact hv.kept
      · simp only [Function.update_self]
        omega
      · simp only [Function.update_self]
        exact nofun
      · exact fun hfreed => absurd hfreed (by have := (h.live_worker href).2.2.1; dsimp only; omega)
    · exact hv.frame rfl rfl rfl rfl rfl (Function.update_of_ne hvw _ _)
        (Function.update_of_ne hvw _ _) rfl rfl rfl

/-! ### The outcome of a worker -/

/-- A broadcast leaves the call's part. -/
theorem CallOk.woken {s : Race} (h : CallOk s) : CallOk { s with call := broadcast s.call } := by
  unfold CallOk at h ⊢
  dsimp only
  cases hphase : s.call with
  | delaySleep =>
    simp only [hphase] at h
    exact ⟨⟨h.1.created, h.1.primary, h.1.secondary⟩, h.2.1⟩
  | raceSleep b e =>
    simp only [hphase] at h
    exact ⟨⟨h.1.created, h.1.primary, h.1.secondary⟩, h.2.1⟩
  | delayWait e =>
    simp only [hphase] at h
    exact ⟨⟨h.1.created, h.1.primary, h.1.secondary⟩, h.2⟩
  | raceWait b e =>
    simp only [hphase] at h
    exact ⟨⟨h.1.created, h.1.primary, h.1.secondary⟩, h.2⟩
  | _ =>
    simp only [hphase] at h
    exact h

theorem Inv.woken {s : Race} (h : Inv s) : Inv { s with call := broadcast s.call } := by
  refine ⟨?_, ?_, fun hnot => ?_, h.clean, fun v => ?_, h.call.woken⟩
  · simpa only [broadcast_refs] using h.count
  · simpa only [broadcast_frees] using h.frees
  · obtain ⟨hfrees, hidle, hcall⟩ := h.fresh hnot
    refine ⟨hfrees, hidle, ?_⟩
    rcases hcall with hcall | ⟨a, hcall⟩
    · exact Or.inl (by rw [hcall]; rfl)
    · exact Or.inr ⟨a, by rw [hcall]; rfl⟩
  · exact (h.workers v).frame rfl rfl rfl rfl rfl rfl rfl rfl rfl rfl

theorem broadcast_twice (c : CallPhase) : broadcast (broadcast c) = broadcast c := by
  cases c <;> rfl

/-- A worker records its outcome in a block that differs in nothing else, except that it may be
the first one with a 200. -/
theorem Inv.records {s : Race} (h : Inv s) {w : Worker} (o : ℤ × ℤ)
    (href : (s.worker w).refs = 1) (hout : (s.worker w).outcome = none) (c : RaceCtrl)
    (hcount : c.refCount = s.ctrl.refCount) (hbody : c.respBody = s.ctrl.respBody)
    (hdone : c.done = Function.update s.ctrl.done w true)
    (hrc : c.rc = Function.update s.ctrl.rc w o.1)
    (hstatus : ∀ v, c.httpStatus v = if v = w then o.2 else s.ctrl.httpStatus v)
    (hwin : c.winningIdx = if o = (0, 200) ∧ s.ctrl.winningIdx = none then some w
      else s.ctrl.winningIdx) :
    Inv { s with
      call := broadcast s.call
      worker := Function.update s.worker w (.releasing o)
      ctrl := c } := by
  have hcreated := (h.live_worker href).1
  have hrefs := total_update WorkerPhase.refs s.worker w (.releasing o)
  have hfrees := total_update WorkerPhase.frees s.worker w (.releasing o)
  have hone : (WorkerPhase.releasing o).refs = 1 := rfl
  rw [WorkerPhase.frees_of_refs href, WorkerPhase.frees_of_refs hone] at hfrees
  have hrefsSame : total WorkerPhase.refs (Function.update s.worker w (.releasing o)) =
      total WorkerPhase.refs s.worker := by omega
  have hfreesSame : total WorkerPhase.frees (Function.update s.worker w (.releasing o)) =
      total WorkerPhase.frees s.worker := by omega
  constructor
  · simpa only [hrefsSame, hcount, broadcast_refs] using h.count
  · simpa only [hfreesSame, hcount, broadcast_frees] using h.frees
  · exact fun hnot => nomatch hcreated.symm.trans hnot
  · exact h.clean
  · intro v
    have hv := h.workers v
    have hsameBody : bodyCount c v = bodyCount s.ctrl v := by
      unfold bodyCount
      rw [hbody]
    by_cases hvw : v = w
    · subst hvw
      have hnow : Function.update s.worker v (.releasing o) v = .releasing o :=
        Function.update_self _ _ _
      -- it has not won before it has an outcome
      have hnotYet : s.ctrl.winningIdx ≠ some v := fun hwon => by
        have := hv.won hwon
        rw [hout] at this
        cases this
      constructor <;> simp only [hnow, WorkerPhase.outcome]
      · rw [hdone, Function.update_self]
        rfl
      · intro o' ho
        obtain rfl := Option.some.inj ho
        rw [hrc, hstatus, Function.update_self, if_pos rfl]
        exact ⟨rfl, rfl⟩
      · rw [hwin]
        split
        · rename_i hfirst
          exact fun _ => congrArg some hfirst.1
        · exact fun hwon => absurd hwon hnotYet
      · rw [hwin]
        split
        · exact nofun
        · rename_i hfirst
          intro hnone ho
          exact hfirst ⟨Option.some.inj ho, hnone⟩
      · rw [hsameBody]
        exact hv.balance
      · exact nofun
      · exact hv.once
      · exact nofun
      · rw [hbody]
        exact hv.emptied
    · have hnow : Function.update s.worker w (.releasing o) v = s.worker v :=
        Function.update_of_ne hvw _ _
      constructor <;> simp only [hnow]
      · rw [hdone, Function.update_of_ne hvw]
        exact hv.done_eq
      · rw [hrc, hstatus, Function.update_of_ne hvw, if_neg hvw]
        exact hv.recorded
      · rw [hwin]
        split
        · exact fun hwon => absurd (Option.some.inj hwon).symm hvw
        · exact hv.won
      · rw [hwin]
        split
        · exact nofun
        · exact hv.lost
      · rw [hsameBody]
        exact hv.balance
      · exact hv.kept
      · exact hv.once
      · exact hv.unused
      · rw [hbody]
        exact hv.emptied
  · exact h.call.woken.worker (WorkerPhase.ne_idle_of_refs href) (WorkerPhase.ne_idle_of_refs hone)
      (fun o' ho => by rw [hout] at ho; cases ho) rfl rfl rfl rfl (Or.inl (broadcast_twice _))

/-! ### To count down, and to free -/

/-- A worker counts down, and frees the block next if it was the last. -/
theorem Inv.workerRelease {s : Race} (h : Inv s) {w : Worker} {o : ℤ × ℤ}
    (hw : s.worker w = .releasing o) : Inv (advance s w) := by
  have href : (s.worker w).refs = 1 := by rw [hw]; rfl
  obtain ⟨hcreated, hpos, hunfreed, hcallFrees, hworkerFrees⟩ := h.live_worker href
  have hcount := h.count hcreated
  have hrefsLe := le_total WorkerPhase.refs s.worker w
  unfold advance countDown
  rw [hw, touch_eq hunfreed]
  dsimp only
  obtain ⟨x, hx, hxrefs, hxout, hxfrees⟩ : ∃ x : WorkerPhase,
      x = (if s.ctrl.refCount - 1 ≤ 0 then .freeing o else .ended o) ∧ x.refs = 0 ∧
        x.outcome = some o ∧ x.frees = if s.ctrl.refCount - 1 = 0 then 1 else 0 := by
    refine ⟨_, rfl, ?_⟩
    by_cases hlast : s.ctrl.refCount - 1 ≤ 0
    · rw [if_pos hlast, if_pos (by omega)]
      exact ⟨rfl, rfl, rfl⟩
    · rw [if_neg hlast, if_neg (by omega)]
      exact ⟨rfl, rfl, rfl⟩
  rw [← hx]
  have hxidle : x ≠ .idle := by
    rintro rfl
    cases hxout
  have hrefs := total_update WorkerPhase.refs s.worker w x
  have hfrees := total_update WorkerPhase.frees s.worker w x
  rw [WorkerPhase.frees_of_refs href] at hfrees
  constructor
  · intro _
    dsimp only
    omega
  · intro _
    dsimp only
    omega
  · exact fun hnot => nomatch hcreated.symm.trans hnot
  · exact h.clean
  · intro v
    have hv := h.workers v
    by_cases hvw : v = w
    · subst hvw
      have hnow : Function.update s.worker v x v = x := Function.update_self _ _ _
      have hbefore : (s.worker v).outcome = some o := by rw [hw]; rfl
      constructor <;> simp only [hnow, hxout]
      · rw [hv.done_eq, hbefore]
      · exact fun o' ho => hv.recorded o' (hbefore.trans ho)
      · exact fun hwin => hbefore.symm.trans (hv.won hwin)
      · exact fun hwin ho => hv.lost hwin (hbefore.trans ho)
      · exact hv.balance
      · exact nofun
      · exact hv.once
      · exact fun hidle => absurd hidle hxidle
      · exact hv.emptied
    · exact hv.frame (Function.update_of_ne hvw _ _) rfl rfl rfl rfl rfl rfl rfl rfl rfl
  · refine h.call.worker (x := x) (WorkerPhase.ne_idle_of_refs href) hxidle (fun o' ho => ?_) rfl
      rfl rfl rfl (Or.inr ⟨rfl, rfl⟩)
    rw [hw] at ho
    exact hxout.trans ho

/-- Once nobody refers to the block, each body in it is freed with it. -/
theorem WorkerOk.free {s s' : Race} {w : Worker} (h : WorkerOk s w)
    (hrefs : (s.worker w).refs = 0) (hworker : s'.worker w = s.worker w ∨
      ∃ o, s.worker w = .freeing o ∧ s'.worker w = .ended o)
    (hctrl : s'.ctrl = { s.ctrl with respBody := fun _ => none })
    (hfreed : s'.freed = fun w => s.freed w + bodyCount s.ctrl w)
    (hmallocs : s'.mallocs = s.mallocs) (hhanded : s'.handed = s.handed) : WorkerOk s' w := by
  have hout : (s'.worker w).outcome = (s.worker w).outcome := by
    rcases hworker with hsame | ⟨o, hbefore, hafter⟩
    · rw [hsame]
    · rw [hbefore, hafter]
      rfl
  have hidle : s'.worker w = .idle → s.worker w = .idle := by
    intro hw
    rcases hworker with hsame | ⟨o, -, hafter⟩
    · exact hsame.symm.trans hw
    · exact nomatch hafter.symm.trans hw
  have hempty : bodyCount s'.ctrl w = 0 := by
    rw [hctrl]
    rfl
  constructor
  · rw [hctrl, hout]
    exact h.done_eq
  · rw [hctrl, hout]
    exact h.recorded
  · rw [hctrl, hout]
    exact h.won
  · rw [hctrl, hout]
    exact h.lost
  · have := h.balance
    rw [hmallocs, hempty, hfreed, hhanded]
    dsimp only
    omega
  · rw [hout, hfreed, hhanded]
    intro hnone
    have hw := WorkerPhase.eq_idle hrefs hnone
    have hunused := h.unused hw
    have := h.balance
    exact ⟨by dsimp only; omega, by omega⟩
  · rw [hmallocs]
    exact h.once
  · rw [hmallocs]
    exact fun hw => h.unused (hidle hw)
  · intro _
    rw [hctrl]

/-- A party that has counted down to zero is the only one, and nothing is freed yet. -/
theorem Inv.last {s : Race} (h : Inv s)
    (hfree : 0 < s.call.frees + total WorkerPhase.frees s.worker) :
    s.created = true ∧ s.ctrl.refCount = 0 ∧ s.ctrlFrees = 0 ∧
      s.call.frees + total WorkerPhase.frees s.worker = 1 ∧ s.call.refs = 0 ∧
        ∀ w, (s.worker w).refs = 0 := by
  cases hcreated : s.created with
  | false =>
    obtain ⟨-, hidle, hcall⟩ := h.fresh hcreated
    have hnone : s.call.frees = 0 := by
      rcases hcall with hcall | ⟨a, hcall⟩ <;> rw [hcall] <;> rfl
    simp only [hnone, total, hidle, WorkerPhase.frees] at hfree
    omega
  | true =>
    have hcount := h.count hcreated
    have hfrees := h.frees hcreated
    have hzero : s.ctrl.refCount = 0 := by
      by_contra hne
      rw [if_neg hne] at hfrees
      omega
    rw [if_pos hzero] at hfrees
    refine ⟨rfl, hzero, by omega, by omega, by omega, fun w => ?_⟩
    have := le_total WorkerPhase.refs s.worker w
    omega

theorem Inv.workerFree {s : Race} (h : Inv s) {w : Worker} {o : ℤ × ℤ}
    (hw : s.worker w = .freeing o) : Inv (advance s w) := by
  have hfree : (s.worker w).frees = 1 := by rw [hw]; rfl
  have hfreesLe := le_total WorkerPhase.frees s.worker w
  obtain ⟨hcreated, hzero, hunfreed, hone, hcallRefs, hnoRefs⟩ := h.last (by omega)
  unfold advance freeCtrl
  rw [hw, touch_eq hunfreed]
  dsimp only
  have hcount := h.count hcreated
  have hrefs := total_update WorkerPhase.refs s.worker w (.ended o)
  have hfrees := total_update WorkerPhase.frees s.worker w (.ended o)
  have hendedRefs : (WorkerPhase.ended o).refs = 0 := rfl
  have hendedFrees : (WorkerPhase.ended o).frees = 0 := rfl
  have hbefore := hnoRefs w
  constructor
  · intro _
    dsimp only
    omega
  · intro _
    dsimp only
    rw [if_pos hzero]
    omega
  · exact fun hnot => nomatch hcreated.symm.trans hnot
  · exact h.clean
  · intro v
    refine (h.workers v).free (hnoRefs v) ?_ rfl rfl rfl rfl
    by_cases hvw : v = w
    · subst hvw
      exact Or.inr ⟨o, hw, Function.update_self _ _ _⟩
    · exact Or.inl (Function.update_of_ne hvw _ _)
  · refine h.call.worker (x := .ended o) (by rw [hw]; exact nofun) nofun (fun o' ho => ?_) rfl rfl
      rfl rfl (Or.inr ⟨rfl, rfl⟩)
    rw [hw] at ho
    exact ho

/-! ### The call's own steps -/

/-- The call is somewhere else, with as many references, and nothing else has changed. -/
theorem Inv.callMoves {s : Race} (h : Inv s) {c : CallPhase} (hcreated : s.created = true)
    (hrefs : c.refs = s.call.refs) (hfrees : c.frees = s.call.frees)
    (hcall : CallOk { s with call := c }) : Inv { s with call := c } := by
  refine ⟨?_, ?_, fun hnot => (nomatch hcreated.symm.trans hnot), h.clean, fun v => ?_, hcall⟩
  · simpa only [hrefs] using h.count
  · simpa only [hfrees] using h.frees
  · exact (h.workers v).frame rfl rfl rfl rfl rfl rfl rfl rfl rfl rfl

/-- A body is handed out of the block of a worker that is done. -/
theorem WorkerOk.handOut {s s' : Race} {v w : Worker} (h : WorkerOk s v)
    (hout : (s.worker w).outcome ≠ none) (hworker : s'.worker = s.worker)
    (hctrl : ∃ flags, s'.ctrl = { s.ctrl with
      cancelFlags := flags
      respBody := Function.update s.ctrl.respBody w none })
    (hhanded : s'.handed = Function.update s.handed w (s.handed w + bodyCount s.ctrl w))
    (hmallocs : s'.mallocs = s.mallocs) (hfreed : s'.freed = s.freed)
    (hctrlFrees : s'.ctrlFrees = s.ctrlFrees) : WorkerOk s' v := by
  obtain ⟨flags, hctrl⟩ := hctrl
  by_cases hvw : v = w
  · subst hvw
    have hempty : bodyCount s'.ctrl v = 0 := by
      rw [hctrl]
      simp [bodyCount]
    constructor
    · rw [hctrl, hworker]
      exact h.done_eq
    · rw [hctrl, hworker]
      exact h.recorded
    · rw [hctrl, hworker]
      exact h.won
    · rw [hctrl, hworker]
      exact h.lost
    · have := h.balance
      rw [hmallocs, hempty, hfreed, hhanded, Function.update_self]
      omega
    · rw [hworker]
      exact fun hnone => absurd hnone hout
    · rw [hmallocs]
      exact h.once
    · rw [hworker, hmallocs]
      exact h.unused
    · rw [hctrl]
      exact fun _ => Function.update_self _ _ _
  · refine h.frame (by rw [hworker]) (by rw [hctrl]) (by rw [hctrl]) (by rw [hctrl])
      (by rw [hctrl]) ?_ (by rw [hmallocs]) (by rw [hfreed]) ?_ hctrlFrees
    · rw [hctrl]
      exact Function.update_of_ne hvw _ _
    · rw [hhanded]
      exact Function.update_of_ne hvw _ _

theorem cancelLoser_eq (c : RaceCtrl) (started : Bool) :
    ∃ flags, cancelLoser c started = { c with cancelFlags := flags } := by
  unfold cancelLoser
  split
  · exact ⟨_, rfl⟩
  · split
    · exact ⟨_, rfl⟩
    · exact ⟨c.cancelFlags, rfl⟩

/-- Once the race is over, the worker whose response is handed out is done, and has won unless
nobody has. -/
theorem harvested_of_raceOver {c : RaceCtrl} {started : Bool} (h : raceOver c started = true)
    (hdone : ∀ w, c.winningIdx = some w → c.done w = true) :
    ∃ w, harvested c started = some w ∧ c.done w = true ∧
      (c.winningIdx = some w ∨ (c.winningIdx = none ∧ c.done .primary = true ∧
        (started = true → c.done .secondary = true))) := by
  unfold harvested
  cases hwin : c.winningIdx with
  | none =>
    unfold raceOver at h
    rw [hwin] at h
    simp only [Option.isSome_none, Bool.false_or, Bool.and_eq_true, Bool.or_eq_true,
      Bool.not_eq_true'] at h
    refine ⟨.primary, ?_, h.1, Or.inr ⟨rfl, h.1, fun hstarted => ?_⟩⟩
    · rw [if_neg nofun, if_pos (Or.inr h.1)]
    · exact h.2.resolve_left (by rw [hstarted]; exact nofun)
  | some w =>
    cases w with
    | primary => exact ⟨.primary, by simp, hdone _ hwin, Or.inl rfl⟩
    | secondary => exact ⟨.secondary, by simp, hdone _ hwin, Or.inl rfl⟩

/-- The call sleeps on, or takes the response of a worker. -/
theorem Inv.race {s : Race} (h : Inv s) {started hedged : Bool}
    (hcall : s.call = .raceWait started hedged) : Inv (raceSection s started hedged) := by
  have href : s.call.refs = 1 := by rw [hcall]; rfl
  have hfree : s.call.frees = 0 := by rw [hcall]; rfl
  have hok := h.call
  unfold CallOk at hok
  rw [hcall] at hok
  obtain ⟨hstarted, hresults⟩ := hok
  have hcreated := hstarted.created
  unfold raceSection
  cases hover : raceOver s.ctrl started with
  | false =>
    rw [if_neg nofun]
    exact h.callMoves hcreated href.symm hfree.symm
      ⟨⟨hcreated, hstarted.primary, hstarted.secondary⟩, hresults, hover⟩
  | true =>
    rw [if_pos rfl]
    have hwinDone : ∀ w, s.ctrl.winningIdx = some w → s.ctrl.done w = true := by
      intro w hw
      rw [(h.workers w).done_eq, (h.workers w).won hw]
      rfl
    obtain ⟨w, hharvest, hdone, hwhy⟩ := harvested_of_raceOver hover hwinDone
    obtain ⟨flags, hflags⟩ := cancelLoser_eq s.ctrl started
    have hout : (s.worker w).outcome ≠ none := by
      intro hnone
      rw [(h.workers w).done_eq, hnone] at hdone
      cases hdone
    rw [hharvest, hflags]
    dsimp only
    unfold handOut
    refine ⟨?_, ?_, fun hnot => (nomatch hcreated.symm.trans hnot), h.clean, fun v => ?_, ?_⟩
    · have := h.count
      rw [href] at this
      exact this
    · have := h.frees
      rw [hfree] at this
      exact this
    · exact (h.workers v).handOut hout rfl ⟨flags, rfl⟩ rfl rfl rfl rfl
    · refine ⟨hcreated, ?_, hresults⟩
      rcases hwhy with hwon | ⟨hnone, hprimary, hsecondary⟩
      · have hrecorded := (h.workers w).recorded _ ((h.workers w).won hwon)
        exact Or.inl hrecorded
      · refine Or.inr fun v => ?_
        -- both workers that were started are done, and neither with a 200
        by_cases hidle : s.worker v = .idle
        · exact Or.inl hidle
        have hv : s.ctrl.done v = true := by
          cases v with
          | primary => exact hprimary
          | secondary => exact hsecondary (hstarted.secondary.mp hidle)
        rw [(h.workers v).done_eq] at hv
        obtain ⟨o, ho⟩ := Option.isSome_iff_exists.mp hv
        refine Or.inr ⟨o, ho, ?_⟩
        rintro rfl
        exact (h.workers v).lost hnone ho

theorem raceSection_call (s : Race) (c : CallPhase) (started hedged : Bool) :
    raceSection { s with call := c } started hedged = raceSection s started hedged := by
  unfold raceSection
  dsimp only
  split
  · cases harvested s.ctrl started <;> rfl
  · rfl

/-- The secondary is started with a reference of its own. -/
theorem Inv.startSecondary {s : Race} (h : Inv s) (p : HedgedCall) {expired : Bool}
    (hcall : s.call = .delayWait expired) (ctxOk threadOk : Bool) :
    Inv (startSecondary p s ctxOk threadOk) := by
  have href : s.call.refs = 1 := by rw [hcall]; rfl
  have hfree : s.call.frees = 0 := by rw [hcall]; rfl
  have hok := h.call
  unfold CallOk at hok
  rw [hcall] at hok
  obtain ⟨hstarted, hresults⟩ := hok
  have hcreated := hstarted.created
  have halone : ∀ hedged, Inv { s with call := .raceWait false hedged } := fun hedged =>
    h.callMoves hcreated href.symm hfree.symm
      ⟨⟨hcreated, hstarted.primary, hstarted.secondary⟩, hresults⟩
  unfold HedgedRace.startSecondary
  split
  · split
    · have hidle : s.worker .secondary = .idle := by
        by_contra hne
        exact nomatch hstarted.secondary.mp hne
      have hrefs := total_update WorkerPhase.refs s.worker .secondary .starting
      have hfrees := total_update WorkerPhase.frees s.worker .secondary .starting
      have hstartRefs : WorkerPhase.starting.refs = 1 := rfl
      have hstartFrees : WorkerPhase.starting.frees = 0 := rfl
      rw [hidle, show WorkerPhase.idle.refs = 0 from rfl] at hrefs
      rw [hidle, show WorkerPhase.idle.frees = 0 from rfl] at hfrees
      have hcount := h.count hcreated
      have hlive := h.live (by omega)
      have hfreesBefore := h.frees hcreated
      rw [if_neg (by omega)] at hfreesBefore
      rw [← raceSection_call _ (.raceWait true true)]
      refine Inv.race ?_ rfl
      have hwaitRefs : (CallPhase.raceWait true true).refs = 1 := rfl
      have hwaitFrees : (CallPhase.raceWait true true).frees = 0 := rfl
      constructor
      · intro _
        dsimp only
        omega
      · intro _
        dsimp only
        rw [if_neg (by omega)]
        omega
      · exact fun hnot => nomatch hcreated.symm.trans hnot
      · exact h.clean
      · intro v
        have hv := h.workers v
        cases v with
        | primary => exact hv.frame rfl rfl rfl rfl rfl rfl rfl rfl rfl rfl
        | secondary =>
          have hnone : (s.worker .secondary).outcome = none := by rw [hidle]; rfl
          constructor
          · exact hv.done_eq.trans (by rw [hnone]; rfl)
          · exact fun _ ho => nomatch ho
          · exact fun hwin => nomatch hnone.symm.trans (hv.won hwin)
          · exact fun _ ho => nomatch ho
          · exact hv.balance
          · exact fun _ => hv.kept hnone
          · exact hv.once
          · exact fun _ => hv.unused hidle
          · exact hv.emptied
      · exact ⟨⟨hcreated, hstarted.primary, iff_of_true nofun rfl⟩, hresults⟩
    · rw [← raceSection_call _ (.raceWait false true)]
      exact (halone true).race rfl
  · rw [← raceSection_call _ (.raceWait false false)]
    exact (halone false).race rfl

theorem Inv.delay {s : Race} (h : Inv s) (p : HedgedCall) {expired : Bool}
    (hcall : s.call = .delayWait expired) (ctxOk threadOk : Bool) :
    Inv (proceed p s ctxOk threadOk) := by
  have href : s.call.refs = 1 := by rw [hcall]; rfl
  have hfree : s.call.frees = 0 := by rw [hcall]; rfl
  have hok := h.call
  unfold CallOk at hok
  rw [hcall] at hok
  obtain ⟨hstarted, hresults⟩ := hok
  have hcreated := hstarted.created
  unfold proceed
  rw [hcall, touch_eq (h.live (by omega)).2.2.1]
  dsimp only
  split
  · rename_i htest
    exact h.callMoves hcreated href.symm hfree.symm
      ⟨⟨hcreated, hstarted.primary, hstarted.secondary⟩, hresults, htest.1⟩
  · exact h.startSecondary p hcall ctxOk threadOk

/-- The call counts down, and frees the block next if it is the last. -/
theorem Inv.callRelease {s : Race} (h : Inv s) (p : HedgedCall) {a : Answer}
    (hcall : s.call = .releasing a) (ctxOk threadOk : Bool) :
    Inv (proceed p s ctxOk threadOk) := by
  have href : s.call.refs = 1 := by rw [hcall]; rfl
  obtain ⟨hcreated, hpos, hunfreed, hcallFrees, hworkerFrees⟩ := h.live (by omega)
  have hcount := h.count hcreated
  have hok := h.call
  unfold CallOk at hok
  rw [hcall] at hok
  obtain ⟨-, hsettled, hresults⟩ := hok
  have hfreeingRefs : (CallPhase.freeing a).refs = 0 := rfl
  have hfreeingFrees : (CallPhase.freeing a).frees = 1 := rfl
  have hreturnedRefs : (CallPhase.returned a).refs = 0 := rfl
  have hreturnedFrees : (CallPhase.returned a).frees = 0 := rfl
  unfold proceed countDown
  rw [hcall, touch_eq hunfreed]
  dsimp only
  split
  · refine ⟨fun _ => ?_, fun _ => ?_, fun hnot => (nomatch hcreated.symm.trans hnot), h.clean,
      fun v => (h.workers v).frame rfl rfl rfl rfl rfl rfl rfl rfl rfl rfl, hcreated, hsettled,
      hresults⟩
    · dsimp only
      omega
    · dsimp only
      rw [if_pos (by omega)]
      omega
  · refine ⟨fun _ => ?_, fun _ => ?_, fun hnot => (nomatch hcreated.symm.trans hnot), h.clean,
      fun v => (h.workers v).frame rfl rfl rfl rfl rfl rfl rfl rfl rfl rfl, hsettled, ?_⟩
    · dsimp only
      omega
    · dsimp only
      rw [if_neg (by omega)]
      omega
    · dsimp only
      rw [hresults, List.nil_append]

theorem Inv.callFree {s : Race} (h : Inv s) (p : HedgedCall) {a : Answer}
    (hcall : s.call = .freeing a) (ctxOk threadOk : Bool) :
    Inv (proceed p s ctxOk threadOk) := by
  have hfree : s.call.frees = 1 := by rw [hcall]; rfl
  obtain ⟨hcreated, hzero, hunfreed, hone, hcallRefs, hnoRefs⟩ := h.last (by omega)
  have hcount := h.count hcreated
  have hok := h.call
  unfold CallOk at hok
  rw [hcall] at hok
  obtain ⟨-, hsettled, hresults⟩ := hok
  have hreturnedRefs : (CallPhase.returned a).refs = 0 := rfl
  have hreturnedFrees : (CallPhase.returned a).frees = 0 := rfl
  unfold proceed freeCtrl
  rw [hcall, touch_eq hunfreed]
  dsimp only
  refine ⟨fun _ => ?_, fun _ => ?_, fun hnot => (nomatch hcreated.symm.trans hnot), h.clean,
    fun v => (h.workers v).free (hnoRefs v) (Or.inl rfl) rfl rfl rfl rfl, hsettled, ?_⟩
  · dsimp only
    omega
  · dsimp only
    rw [if_pos hzero]
    omega
  · dsimp only
    rw [hresults, List.nil_append]

theorem Inv.proceed {s : Race} (h : Inv s) (p : HedgedCall) (ctxOk threadOk : Bool) :
    Inv (proceed p s ctxOk threadOk) := by
  cases hcall : s.call with
  | delayWait expired => exact h.delay p hcall ctxOk threadOk
  | raceWait started hedged =>
    have href : s.call.refs = 1 := by rw [hcall]; rfl
    unfold HedgedRace.proceed
    rw [hcall, touch_eq (h.live (by omega)).2.2.1]
    exact h.race hcall
  | releasing a => exact h.callRelease p hcall ctxOk threadOk
  | freeing a => exact h.callFree p hcall ctxOk threadOk
  | _ =>
    unfold HedgedRace.proceed
    rw [hcall]
    exact h

theorem WorkerOk.start {s : Race} {w : Worker} (hworker : (s.worker w).outcome = none)
    (hctrl : ∃ n, s.ctrl = { newCtrl with refCount := n }) (hmallocs : s.mallocs w = 0)
    (hfreed : s.freed w = 0) (hhanded : s.handed w = 0) : WorkerOk s w := by
  obtain ⟨n, hctrl⟩ := hctrl
  constructor
  · rw [hctrl, hworker]
    rfl
  · rw [hworker]
    exact nofun
  · rw [hctrl]
    exact nofun
  · rw [hworker]
    exact fun _ => nofun
  · rw [hctrl, hmallocs, hfreed, hhanded]
    rfl
  · exact fun _ => ⟨hfreed, hhanded⟩
  · omega
  · exact fun _ => hmallocs
  · rw [hctrl]
    exact fun _ => rfl

/-- The call begins, or fails before there is a worker. -/
theorem Inv.enter {s : Race} (h : Inv s) (hcall : s.call = .entry) (ctrlOk ctxOk threadOk : Bool) :
    Inv (enter s ctrlOk ctxOk threadOk) := by
  have hok := h.call
  unfold CallOk at hok
  rw [hcall] at hok
  obtain ⟨hcreated, hresults⟩ := hok
  obtain ⟨hunfreed, hidle, -⟩ := h.fresh hcreated
  have hsettled : ∀ s' : Race, s'.worker = s.worker → Settled s' (-502, {}) := fun s' hs =>
    Or.inr fun w => Or.inl ((congrFun hs w).trans (hidle w))
  have hledger : ∀ w, s.mallocs w = 0 ∧ s.freed w = 0 ∧ s.handed w = 0 := by
    intro w
    have hw := h.workers w
    have hkept := hw.kept (by rw [hidle w]; rfl)
    exact ⟨hw.unused (hidle w), hkept.1, hkept.2⟩
  have hnone : ∀ w, (s.worker w).outcome = none := fun w => by rw [hidle w]; rfl
  unfold HedgedRace.enter
  split
  · refine ⟨fun hc => (nomatch hcreated.symm.trans hc), fun hc => (nomatch hcreated.symm.trans hc),
      fun _ => ⟨hunfreed, hidle, Or.inr ⟨_, rfl⟩⟩, h.clean,
      fun v => (h.workers v).frame rfl rfl rfl rfl rfl rfl rfl rfl rfl rfl, hsettled _ rfl, ?_⟩
    dsimp only
    rw [hresults, List.nil_append]
  split
  · refine ⟨fun _ => ?_, fun _ => ?_, nofun, h.clean, fun v => ?_, rfl, hsettled _ rfl, hresults⟩
    · simp [newCtrl, CallPhase.refs, total, hidle, WorkerPhase.refs]
    · simp [newCtrl, CallPhase.frees, total, hidle, WorkerPhase.frees, hunfreed]
    · obtain ⟨hmallocs, hfreed, hhanded⟩ := hledger v
      exact .start (hnone v) ⟨1, rfl⟩ hmallocs hfreed hhanded
  · refine ⟨fun _ => ?_, fun _ => ?_, nofun, h.clean, fun v => ?_, ⟨rfl, nofun, ?_⟩, hresults⟩
    · simp [CallPhase.refs, total, hidle, WorkerPhase.refs, Function.update]
    · simp [CallPhase.frees, total, hidle, WorkerPhase.frees, hunfreed, Function.update]
    · obtain ⟨hmallocs, hfreed, hhanded⟩ := hledger v
      refine .start ?_ ⟨2, rfl⟩ hmallocs hfreed hhanded
      cases v with
      | primary => rfl
      | secondary => exact hnone .secondary
    · exact iff_of_false (fun hne => hne (hidle .secondary)) nofun

/-! ### Every step -/

theorem arbitrate_eq (c : RaceCtrl) (w : Worker) :
    ∃ flags, arbitrate c w = { c with
      winningIdx := if (c.rc w, c.httpStatus w) = (0, 200) ∧ c.winningIdx = none then some w
        else c.winningIdx
      cancelFlags := flags } := by
  unfold arbitrate
  by_cases h : (c.rc w, c.httpStatus w) = (0, 200) ∧ c.winningIdx = none
  · rw [if_pos ⟨(Prod.mk.inj h.1).1, (Prod.mk.inj h.1).2, h.2⟩, if_pos h]
    exact ⟨_, rfl⟩
  · rw [if_neg fun hc => h ⟨Prod.ext hc.1 hc.2.1, hc.2.2⟩, if_neg h]
    exact ⟨c.cancelFlags, rfl⟩

theorem Inv.advance {s : Race} (h : Inv s) (w : Worker) : Inv (advance s w) := by
  cases hw : s.worker w with
  | finished code status latNs =>
    have href : (s.worker w).refs = 1 := by rw [hw]; rfl
    obtain ⟨flags, hflags⟩ := arbitrate_eq (recordOutcome s.ctrl w code.rc status latNs) w
    unfold HedgedRace.advance
    rw [hw, touch_eq (h.live_worker href).2.2.1]
    dsimp only
    rw [hflags]
    refine h.records (code.rc, status) href (by rw [hw]; rfl) _ rfl rfl rfl rfl (fun v => ?_) ?_
    · simp [recordOutcome, Function.update_apply]
    · simp [recordOutcome]
  | noSession =>
    have href : (s.worker w).refs = 1 := by rw [hw]; rfl
    unfold HedgedRace.advance
    rw [hw, touch_eq (h.live_worker href).2.2.1]
    refine h.records (-502, s.ctrl.httpStatus w) href (by rw [hw]; rfl) _ rfl rfl rfl rfl
      (fun v => ?_) ?_
    · by_cases hv : v = w
      · rw [if_pos hv, hv]
        rfl
      · rw [if_neg hv]
        rfl
    · simp [recordNoSession]
  | releasing o => exact h.workerRelease hw
  | freeing o => exact h.workerFree hw
  | _ =>
    unfold HedgedRace.advance
    rw [hw]
    exact h

theorem Inv.expire {s : Race} (h : Inv s) (hcall : s.call = .delaySleep) :
    Inv { s with call := .delayWait true } := by
  have hok := h.call
  unfold CallOk at hok
  rw [hcall] at hok
  obtain ⟨⟨hcreated, hprimary, hsecondary⟩, hresults, -⟩ := hok
  exact h.callMoves hcreated (by rw [hcall]; rfl) (by rw [hcall]; rfl)
    ⟨⟨hcreated, hprimary, hsecondary⟩, hresults⟩

theorem Inv.step {s : Race} (h : Inv s) (p : HedgedCall) (e : Event) : Inv (step p s e) := by
  cases e with
  | enter ctrlOk ctxOk threadOk =>
    simp only [HedgedRace.step]
    split
    · rename_i hcall
      exact h.enter hcall ctrlOk ctxOk threadOk
    · exact h
  | expire =>
    simp only [HedgedRace.step]
    split
    · rename_i hcall
      exact h.expire hcall
    · exact h
  | spurious => exact h.woken
  | proceed ctxOk threadOk => exact h.proceed p ctxOk threadOk
  | openSession w ok =>
    simp only [HedgedRace.step]
    split
    · rename_i hw
      cases ok
      · exact h.moves (by rw [hw]; rfl) (by rw [hw]; rfl) rfl rfl
      · exact h.moves (by rw [hw]; rfl) (by rw [hw]; rfl) rfl rfl
    · exact h
  | poll w =>
    simp only [HedgedRace.step]
    split
    · rename_i hw
      have href : (s.worker w).refs = 1 := by rw [hw]; rfl
      rw [touch_eq (h.live_worker href).2.2.1]
      exact h.moves href (by rw [hw]; rfl) rfl rfl
    · exact h
  | receive w chunk =>
    simp only [HedgedRace.step]
    split
    · rename_i hw
      have href : (s.worker w).refs = 1 := by rw [hw]; rfl
      rw [touch_eq (h.live_worker href).2.2.1]
      split
      · exact h.moves href (by rw [hw]; rfl) rfl rfl
      · exact h.moves href (by rw [hw]; rfl) rfl rfl
    · exact h
  | store w memOk =>
    simp only [HedgedRace.step]
    split
    · rename_i chunk hw
      exact h.store hw memOk
    · exact h
  | perform w code status latNs =>
    simp only [HedgedRace.step]
    split
    · rename_i aborted hw
      split
      · exact h
      · exact h.moves (by rw [hw]; rfl) (by rw [hw]; rfl) rfl rfl
    · exact h
  | advance w => exact h.advance w

end Aigate.HedgedRace
