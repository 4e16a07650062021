import Aigate.EventBus

/-!
# What the event bus delivers

For each subscription id the log says which events were published while it was subscribed, and
which ones a pop of it has returned. A queue that drops its oldest event says which ones a pop
of it should have returned.
-/
namespace Aigate.EventDelivery
open Text GuardedRuns DropOldestRing EventBus

/-- A subscription as it should be: whether it lasts, and its queue. -/
structure Feed where
  subscribed : Bool
  queue : Queue EventItem

def Feed.start : Feed := ⟨false, .empty⟩

def feedStep (subId : ℤ) (f : Feed) : Observation → Feed
  | .subscribed i => if i = subId then { f with subscribed := true } else f
  | .unsubscribed i => if i = subId then { f with subscribed := false } else f
  | .published item =>
    if f.subscribed then { f with queue := f.queue.step eventQueueCapacity (.push item) } else f
  | .popped i _ =>
    if i = subId then { f with queue := f.queue.step eventQueueCapacity .pop } else f

def feed (subId : ℤ) (log : List Observation) : Feed := log.foldl (feedStep subId) .start

/-- The events that pops of an id have returned. -/
def poppedBy (subId : ℤ) : List Observation → List EventItem
  | [] => []
  | .popped i item :: log => if i = subId then item :: poppedBy subId log else poppedBy subId log
  | _ :: log => poppedBy subId log

/-- Pops of an id return what its queue gives out; this is a part of what was published while it
was subscribed, in that order; and all of it was returned, is pending or counts as dropped. The
slot of a subscription has the pending events and the counter of its queue. -/
structure Delivered (s : System) : Prop where
  popped : ∀ subId, poppedBy subId s.log = (feed subId s.log).queue.taken
  sublist : ∀ subId, (poppedBy subId s.log).Sublist (feed subId s.log).queue.arrived
  counted : ∀ subId, (feed subId s.log).queue.arrived.length =
    (poppedBy subId s.log).length + (feed subId s.log).queue.pending.length +
      (feed subId s.log).queue.dropped
  pending : ∀ i, (s.bus.subscribers i).active →
    (s.bus.subscribers i).contents eventQueueCapacity =
      (feed (s.bus.subscribers i).id s.log).queue.pending
  dropped : ∀ i, (s.bus.subscribers i).active →
    (s.bus.subscribers i).droppedCount = (feed (s.bus.subscribers i).id s.log).queue.dropped

/-- A pop that wakes to an event finds the subscription in the slot that it has waited for, and
an id is left for the next subscription. -/
def StepOk (s : System) : Event → Prop
  | .subscribe _ => s.bus.nextSubId < 2 ^ 31 - 1
  | .wake j _ => ∀ w, s.blocked[j]? = some w → (s.bus.subscribers w.slot).active →
      0 < (s.bus.subscribers w.slot).count → (s.bus.subscribers w.slot).id = w.subId
  | _ => True

theorem feed_append (subId : ℤ) (log : List Observation) (o : Observation) :
    feed subId (log ++ [o]) = feedStep subId (feed subId log) o := by
  rw [feed, List.foldl_append, List.foldl_cons, List.foldl_nil, feed]

theorem poppedBy_append (subId : ℤ) (log rest : List Observation) :
    poppedBy subId (log ++ rest) = poppedBy subId log ++ poppedBy subId rest := by
  induction log with
  | nil => rfl
  | cons o log ih =>
    cases o with
    | popped i item =>
      simp only [List.cons_append, poppedBy, ih]
      split <;> rfl
    | _ => exact ih

theorem capacity_pos : 0 < eventQueueCapacity := by decide

theorem lawful_feedStep {subId : ℤ} {f : Feed} (h : f.queue.Lawful) (o : Observation) :
    (feedStep subId f o).queue.Lawful := by
  cases o with
  | subscribed i => simp only [feedStep]; split <;> exact h
  | unsubscribed i => simp only [feedStep]; split <;> exact h
  | published item =>
    simp only [feedStep]
    split
    · exact h.step capacity_pos (.push item)
    · exact h
  | popped i item =>
    simp only [feedStep]
    split
    · exact h.step capacity_pos .pop
    · exact h

theorem lawful_feed (subId : ℤ) (log : List Observation) : (feed subId log).queue.Lawful := by
  induction log using List.reverseRecOn with
  | nil => exact Queue.lawful_empty
  | append_singleton log o ih =>
    rw [feed_append]
    exact lawful_feedStep ih o

/-- A slot is the queue of its subscription. -/
structure SlotOk (sub : EventSub) (q : Queue EventItem) : Prop where
  ring : sub.Ok eventQueueCapacity
  pending : sub.contents eventQueueCapacity = q.pending
  dropped : sub.droppedCount = q.dropped

theorem slotOk_new (subId : ℤ) :
    SlotOk { EventSub.zero with id := subId, active := true } Queue.empty :=
  ⟨⟨capacity_pos, rfl, Nat.zero_le _⟩, rfl, rfl⟩

theorem SlotOk.count_eq {sub : EventSub} {q : Queue EventItem} (h : SlotOk sub q) :
    q.pending.length = sub.count := by
  rw [← h.pending, RingBuffer.length_contents]

theorem SlotOk.makeRoom {sub : EventSub} {q : Queue EventItem} (h : SlotOk sub q) :
    SlotOk (makeRoom sub) (q.makeRoom eventQueueCapacity) ∧
      (EventBus.makeRoom sub).count < eventQueueCapacity := by
  unfold EventBus.makeRoom Queue.makeRoom
  rw [h.count_eq]
  by_cases hfull : sub.count = eventQueueCapacity
  · rw [if_pos hfull, if_pos hfull]
    have hpos : 0 < sub.count := by rw [hfull]; decide
    have htail : (sub.dropHead eventQueueCapacity).contents eventQueueCapacity = q.pending.tail := by
      rw [RingBuffer.contents_dropHead, h.pending]
    exact ⟨⟨h.ring.dropHead hpos, htail, congrArg (· + 1) h.dropped⟩,
      show sub.count - 1 < eventQueueCapacity by omega⟩
  · rw [if_neg hfull, if_neg hfull]
    exact ⟨h, lt_of_le_of_ne h.ring.count_le hfull⟩

theorem SlotOk.publishTo {sub : EventSub} {q : Queue EventItem} (h : SlotOk sub q)
    (hactive : sub.active = true) (item : EventItem) :
    SlotOk (publishTo item sub) (q.step eventQueueCapacity (.push item)) := by
  obtain ⟨⟨hring, hpending, hdropped⟩, hroom⟩ := h.makeRoom
  unfold EventBus.publishTo
  rw [if_pos hactive]
  refine ⟨hring.write hroom item, ?_, hdropped⟩
  rw [hring.contents_write hroom, hpending, Queue.step, Queue.append]

theorem SlotOk.take {sub : EventSub} {q : Queue EventItem} (h : SlotOk sub q)
    (hcount : 0 < sub.count) :
    SlotOk { sub with toRingBuffer := sub.dropHead eventQueueCapacity }
      (q.step eventQueueCapacity .pop) := by
  refine ⟨h.ring.dropHead hcount, ?_, h.dropped⟩
  rw [RingBuffer.contents_dropHead, h.pending, Queue.step]

/-- The event that is read is the one that the queue gives out. -/
theorem SlotOk.taken {sub : EventSub} {q : Queue EventItem} (h : SlotOk sub q)
    (hcount : 0 < sub.count) :
    (q.step eventQueueCapacity .pop).taken = q.taken ++ [sub.queue sub.head] := by
  rw [Queue.step, ← h.pending, h.ring.contents_take hcount]

/-- The slot of a subscription that lasts. -/
structure Lasting (next : ℤ) (sub : EventSub) (f : Feed) : Prop where
  slot : SlotOk sub f.queue
  subscribed : f.subscribed
  id_pos : 0 < sub.id
  id_le : sub.id ≤ next

/-- Every active slot is that of a subscription that lasts, and every such subscription has
one; ids that come later have not been seen. -/
structure Inv (eb : Bus) (log : List Observation) : Prop where
  slots : ∀ i, (eb.subscribers i).active →
    Lasting eb.nextSubId (eb.subscribers i) (feed (eb.subscribers i).id log)
  owned : ∀ subId, (feed subId log).subscribed →
    ∃ i, (eb.subscribers i).active ∧ (eb.subscribers i).id = subId
  unique : ∀ i j, (eb.subscribers i).active → (eb.subscribers j).active →
    (eb.subscribers i).id = (eb.subscribers j).id → i = j
  fresh : ∀ subId, eb.nextSubId < subId → feed subId log = .start
  next_pos : 0 < eb.nextSubId
  popped : ∀ subId, poppedBy subId log = (feed subId log).queue.taken

theorem inv_new : Inv eventBusNew [] where
  slots := fun _ h => by cases h
  owned := fun _ h => by cases h
  unique := fun _ _ h => by cases h
  fresh := fun _ _ => rfl
  next_pos := by decide
  popped := fun _ => rfl

theorem Inv.delivered {s : System} (h : Inv s.bus s.log) : Delivered s where
  popped := h.popped
  sublist := fun subId => by
    have hlawful := lawful_feed subId s.log
    rw [h.popped]
    exact (List.sublist_append_left _ _).trans hlawful.sublist
  counted := fun subId => by
    rw [h.popped]
    exact (lawful_feed subId s.log).counted
  pending := fun i hi => (h.slots i hi).slot.pending
  dropped := fun i hi => (h.slots i hi).slot.dropped

theorem findSub_spec {eb : Bus} {subId : ℤ} {i : Fin 8} (h : findSub eb subId = some i) :
    (eb.subscribers i).active ∧ (eb.subscribers i).id = subId := by
  have hfound := List.find?_some h
  simpa using hfound

theorem findSub_none {eb : Bus} {subId : ℤ} (h : findSub eb subId = none) (i : Fin 8)
    (hi : (eb.subscribers i).active) : (eb.subscribers i).id ≠ subId := by
  have hnone := List.find?_eq_none.mp h i (List.mem_finRange i)
  simpa [hi] using hnone

theorem freeSlot_spec {eb : Bus} {i : Fin 8} (h : freeSlot eb = some i) :
    (eb.subscribers i).active = false := by
  have hfound := List.find?_some h
  simpa using hfound

/-- An id that no active slot has does not last. -/
theorem Inv.not_subscribed {eb : Bus} {log : List Observation} (h : Inv eb log) {subId : ℤ}
    (hid : ∀ i, (eb.subscribers i).active → (eb.subscribers i).id ≠ subId) :
    (feed subId log).subscribed = false := by
  by_contra hsub
  obtain ⟨i, hi, heq⟩ := h.owned subId (by simpa using hsub)
  exact hid i hi heq

@[simp] theorem setSub_self (eb : Bus) (i : Fin 8) (sub : EventSub) :
    (eb.setSub i sub).subscribers i = sub := Function.update_self _ _ _

theorem setSub_of_ne (eb : Bus) {i k : Fin 8} (h : k ≠ i) (sub : EventSub) :
    (eb.setSub i sub).subscribers k = eb.subscribers k := Function.update_of_ne h _ _

/-- A slot that is not active any more, or not yet. -/
theorem Inv.deactivate {eb : Bus} {log : List Observation} (h : Inv eb log) (i : Fin 8)
    (sub : EventSub) (hsub : sub.active = false) {eb' : Bus}
    (heb : eb'.subscribers = (eb.setSub i sub).subscribers) (hnext : eb.nextSubId ≤ eb'.nextSubId)
    {log' : List Observation} (hpopped : ∀ subId, poppedBy subId log' = poppedBy subId log)
    (hqueue : ∀ subId, (feed subId log').queue = (feed subId log).queue)
    (hlasts : ∀ subId, (feed subId log').subscribed ↔ (feed subId log).subscribed ∧
      ¬ ((eb.subscribers i).active ∧ subId = (eb.subscribers i).id)) :
    Inv eb' log' := by
  have hother : ∀ k, (eb'.subscribers k).active →
      k ≠ i ∧ (eb.subscribers k).active ∧ eb'.subscribers k = eb.subscribers k := by
    intro k hk
    rw [heb] at hk ⊢
    by_cases hki : k = i
    · subst hki
      rw [setSub_self, hsub] at hk
      cases hk
    · rw [setSub_of_ne eb hki] at hk ⊢
      exact ⟨hki, hk, rfl⟩
  constructor
  · intro k hk
    obtain ⟨hki, hactive, hsame⟩ := hother k hk
    obtain ⟨hslot, hsubscribed, hpos, hle⟩ := h.slots k hactive
    rw [hsame]
    refine ⟨by rwa [hqueue], (hlasts _).mpr ⟨hsubscribed, ?_⟩, hpos, hle.trans hnext⟩
    intro ⟨hi, heq⟩
    exact hki (h.unique k i hactive hi heq)
  · intro subId hlast
    obtain ⟨hbefore, hnot⟩ := (hlasts subId).mp hlast
    obtain ⟨k, hk, hid⟩ := h.owned subId hbefore
    have hki : k ≠ i := by
      rintro rfl
      exact hnot ⟨hk, hid.symm⟩
    refine ⟨k, ?_, ?_⟩
    · rwa [heb, setSub_of_ne eb hki]
    · rwa [heb, setSub_of_ne eb hki]
  · intro k j hk hj heq
    obtain ⟨-, hkactive, hksame⟩ := hother k hk
    obtain ⟨-, hjactive, hjsame⟩ := hother j hj
    rw [hksame, hjsame] at heq
    exact h.unique k j hkactive hjactive heq
  · intro subId hlt
    have hbefore := h.fresh subId (by omega)
    have hq := hqueue subId
    have hl := hlasts subId
    rw [hbefore] at hq hl
    cases hf : feed subId log' with
    | mk lasts queue =>
      rw [hf] at hq hl
      simp only [Feed.start, Bool.false_eq_true, false_and, iff_false, Bool.not_eq_true] at hq hl
      rw [hq, hl, Feed.start]
  · have hpos := h.next_pos
    omega
  · intro subId
    rw [hpopped, hqueue]
    exact h.popped subId

theorem queue_unsubscribed (i subId : ℤ) (log : List Observation) :
    (feed i (log ++ [.unsubscribed subId])).queue = (feed i log).queue := by
  rw [feed_append, feedStep]
  split <;> rfl

theorem subscribed_unsubscribed (i subId : ℤ) (log : List Observation) :
    (feed i (log ++ [.unsubscribed subId])).subscribed ↔
      (feed i log).subscribed ∧ i ≠ subId := by
  rw [feed_append, feedStep]
  by_cases hi : subId = i
  · simp [hi]
  · simp [hi, Ne.symm hi]

/-- A log in which the subscriptions are the same. -/
theorem Inv.congr {eb : Bus} {log log' : List Observation} (h : Inv eb log)
    (hfeed : ∀ subId, feed subId log' = feed subId log)
    (hpopped : ∀ subId, poppedBy subId log' = poppedBy subId log) : Inv eb log' := by
  constructor
  · intro i hi
    rw [hfeed]
    exact h.slots i hi
  · intro subId hsub
    rw [hfeed] at hsub
    exact h.owned subId hsub
  · exact h.unique
  · intro subId hlt
    rw [hfeed]
    exact h.fresh subId hlt
  · exact h.next_pos
  · intro subId
    rw [hpopped, hfeed]
    exact h.popped subId

theorem Inv.unsubscribe {eb : Bus} {log : List Observation} (h : Inv eb log) (subId : ℤ) :
    Inv (eventBusUnsubscribe eb subId) (log ++ [.unsubscribed subId]) := by
  have hpopped : ∀ i, poppedBy i (log ++ [.unsubscribed subId]) = poppedBy i log := by
    intro i
    rw [poppedBy_append]
    exact List.append_nil _
  have hnobody : (∀ i, (eb.subscribers i).active → (eb.subscribers i).id ≠ subId) →
      Inv eb (log ++ [.unsubscribed subId]) := by
    intro hid
    refine h.congr (fun i => ?_) hpopped
    rw [feed_append, feedStep]
    split
    · rename_i hi
      have hnot := h.not_subscribed hid
      rw [← hi, ← hnot]
    · rfl
  unfold eventBusUnsubscribe
  split
  · apply hnobody
    intro i hi
    have hpos := (h.slots i hi).id_pos
    omega
  · cases hfind : findSub eb subId with
    | none => exact hnobody (findSub_none hfind)
    | some i =>
      obtain ⟨hi, hid⟩ := findSub_spec hfind
      dsimp only
      apply h.deactivate i { eb.subscribers i with active := false } rfl
      · rfl
      · exact le_refl eb.nextSubId
      · exact hpopped
      · exact fun j => queue_unsubscribed j subId log
      · intro j
        rw [subscribed_unsubscribed, hid]
        simp [hi]

/-- A new subscription has an id that was not seen, and an empty queue. -/
theorem Inv.subscribe {eb : Bus} {log : List Observation} (h : Inv eb log) {i : Fin 8}
    (hi : (eb.subscribers i).active = false) {eb' : Bus} (hnext : eb'.nextSubId = eb.nextSubId + 1)
    (heb : eb'.subscribers = (eb.setSub i
      { EventSub.zero with id := eb.nextSubId + 1, active := true }).subscribers) :
    Inv eb' (log ++ [.subscribed (eb.nextSubId + 1)]) := by
  have hnew : feed (eb.nextSubId + 1) (log ++ [.subscribed (eb.nextSubId + 1)]) =
      ⟨true, Queue.empty⟩ := by
    rw [feed_append, feedStep, if_pos rfl, h.fresh _ (Int.lt_succ _), Feed.start]
  have hold : ∀ subId, subId ≠ eb.nextSubId + 1 →
      feed subId (log ++ [.subscribed (eb.nextSubId + 1)]) = feed subId log := by
    intro subId hne
    rw [feed_append, feedStep, if_neg hne.symm]
  have hself : eb'.subscribers i =
      { EventSub.zero with id := eb.nextSubId + 1, active := true } := by rw [heb, setSub_self]
  have hother : ∀ k, k ≠ i → eb'.subscribers k = eb.subscribers k := by
    intro k hki
    rw [heb, setSub_of_ne eb hki]
  have hle : ∀ k, (eb.subscribers k).active → (eb.subscribers k).id ≠ eb.nextSubId + 1 := by
    intro k hk
    have := (h.slots k hk).id_le
    omega
  constructor
  · intro k hk
    by_cases hki : k = i
    · subst hki
      rw [hself, hnew, hnext]
      have hpos := h.next_pos
      exact ⟨slotOk_new _, rfl, show 0 < eb.nextSubId + 1 by omega, le_refl _⟩
    · rw [hother k hki] at hk ⊢
      obtain ⟨hslot, hsubscribed, hpos, hbound⟩ := h.slots k hk
      rw [hold _ (hle k hk), hnext]
      exact ⟨hslot, hsubscribed, hpos, by omega⟩
  · intro subId hlast
    by_cases hid : subId = eb.nextSubId + 1
    · exact ⟨i, by rw [hself], by rw [hself, hid]⟩
    · rw [hold subId hid] at hlast
      obtain ⟨k, hk, hkid⟩ := h.owned subId hlast
      have hki : k ≠ i := by
        rintro rfl
        rw [hi] at hk
        cases hk
      exact ⟨k, by rwa [hother k hki], by rwa [hother k hki]⟩
  · intro k j hk hj heq
    by_cases hki : k = i <;> by_cases hji : j = i
    · rw [hki, hji]
    · subst hki
      rw [hself, hother j hji] at heq
      rw [hother j hji] at hj
      exact absurd heq.symm (hle j hj)
    · subst hji
      rw [hself, hother k hki] at heq
      rw [hother k hki] at hk
      exact absurd heq (hle k hk)
    · rw [hother k hki, hother j hji] at heq
      rw [hother k hki] at hk
      rw [hother j hji] at hj
      exact h.unique k j hk hj heq
  · intro subId hlt
    rw [hnext] at hlt
    rw [hold subId (by omega)]
    exact h.fresh subId (by omega)
  · have hpos := h.next_pos
    omega
  · intro subId
    rw [poppedBy_append]
    by_cases hid : subId = eb.nextSubId + 1
    · rw [hid, hnew, h.popped, h.fresh _ (Int.lt_succ _)]
      rfl
    · rw [hold subId hid]
      exact (List.append_nil _).trans (h.popped subId)

theorem Inv.eventBusSubscribe {s : System} (h : Inv s.bus s.log) {condInit : Bool}
    (hok : StepOk s (.subscribe condInit)) :
    Inv (EventBus.subscribe s condInit).bus (EventBus.subscribe s condInit).log := by
  have hpos := h.next_pos
  have hid : nextId s.bus = s.bus.nextSubId + 1 := by
    rw [StepOk] at hok
    exact Int.bmod_eq_of_le (by omega) (by omega)
  unfold EventBus.subscribe EventBus.eventBusSubscribe
  rw [hid]
  by_cases hfull : s.bus.destroyed ∨ s.bus.nSubscribers ≥ 8
  · rw [if_pos hfull]
    exact h
  · rw [if_neg hfull]
    cases hfree : freeSlot s.bus with
    | none => exact h
    | some i =>
      have hi := freeSlot_spec hfree
      cases condInit with
      | true => exact h.subscribe hi rfl rfl
      | false =>
        apply h.deactivate i { EventSub.zero with id := s.bus.nextSubId + 1 } rfl
        · rfl
        · exact Int.le_of_lt (Int.lt_succ s.bus.nextSubId)
        · exact fun _ => rfl
        · exact fun _ => rfl
        · intro j
          simp [hi]

theorem publishTo_active (item : EventItem) (sub : EventSub) :
    (publishTo item sub).active = sub.active := by
  unfold publishTo makeRoom
  split <;> [split <;> rfl; rfl]

theorem publishTo_id (item : EventItem) (sub : EventSub) : (publishTo item sub).id = sub.id := by
  unfold publishTo makeRoom
  split <;> [split <;> rfl; rfl]

theorem Inv.publish {eb : Bus} {log : List Observation} (h : Inv eb log) (item : EventItem) :
    Inv { eb with subscribers := fun i => publishTo item (eb.subscribers i) }
      (log ++ [.published item]) := by
  have hfeed : ∀ subId, feed subId (log ++ [.published item]) =
      feedStep subId (feed subId log) (.published item) := fun subId => feed_append subId log _
  have hlasts : ∀ subId, (feed subId (log ++ [.published item])).subscribed =
      (feed subId log).subscribed := by
    intro subId
    rw [hfeed, feedStep]
    split <;> rfl
  constructor
  · intro i hi
    dsimp only at hi ⊢
    rw [publishTo_active] at hi
    obtain ⟨hslot, hsubscribed, hpos, hle⟩ := h.slots i hi
    rw [publishTo_id]
    refine ⟨?_, by rwa [hlasts], by rwa [publishTo_id], by rwa [publishTo_id]⟩
    rw [hfeed, feedStep, if_pos hsubscribed]
    exact hslot.publishTo hi item
  · intro subId hlast
    rw [hlasts] at hlast
    obtain ⟨i, hi, hid⟩ := h.owned subId hlast
    exact ⟨i, by rwa [publishTo_active], by rwa [publishTo_id]⟩
  · intro i j hi hj heq
    dsimp only at hi hj heq
    rw [publishTo_active] at hi hj
    rw [publishTo_id, publishTo_id] at heq
    exact h.unique i j hi hj heq
  · intro subId hlt
    have hbefore := h.fresh subId hlt
    rw [hfeed, hbefore]
    rfl
  · exact h.next_pos
  · intro subId
    rw [poppedBy_append, hfeed, feedStep, h.popped subId]
    split
    · rw [Queue.taken_push]
      exact List.append_nil _
    · exact List.append_nil _

/-- A pop takes the oldest event of the slot of its own subscription. -/
theorem Inv.take {eb : Bus} {log : List Observation} (h : Inv eb log) {i : Fin 8}
    (hi : (eb.subscribers i).active) (hcount : 0 < (eb.subscribers i).count) :
    Inv (eb.setSub i
        { eb.subscribers i with toRingBuffer := (eb.subscribers i).dropHead eventQueueCapacity })
      (log ++ [.popped (eb.subscribers i).id
        ((eb.subscribers i).queue (eb.subscribers i).head)]) := by
  obtain ⟨hslot, hsubscribed, hpos, hle⟩ := h.slots i hi
  have hfeed : ∀ subId, feed subId (log ++ [.popped (eb.subscribers i).id
      ((eb.subscribers i).queue (eb.subscribers i).head)]) =
      if (eb.subscribers i).id = subId then
        { feed subId log with queue := (feed subId log).queue.step eventQueueCapacity .pop }
      else feed subId log := by
    intro subId
    rw [feed_append, feedStep]
  have hlasts : ∀ subId, (feed subId (log ++ [.popped (eb.subscribers i).id
      ((eb.subscribers i).queue (eb.subscribers i).head)])).subscribed =
      (feed subId log).subscribed := by
    intro subId
    rw [hfeed]
    split <;> rfl
  have hsame : ∀ k, ((eb.setSub i { eb.subscribers i with
      toRingBuffer := (eb.subscribers i).dropHead eventQueueCapacity }).subscribers k).active =
        (eb.subscribers k).active ∧
      ((eb.setSub i { eb.subscribers i with
      toRingBuffer := (eb.subscribers i).dropHead eventQueueCapacity }).subscribers k).id =
        (eb.subscribers k).id := by
    intro k
    by_cases hki : k = i
    · rw [hki, setSub_self]
      exact ⟨rfl, rfl⟩
    · rw [setSub_of_ne eb hki]
      exact ⟨rfl, rfl⟩
  constructor
  · intro k hk
    rw [(hsame k).1] at hk
    rw [(hsame k).2]
    by_cases hki : k = i
    · rw [hki, setSub_self]
      refine ⟨?_, by rwa [hlasts], hpos, hle⟩
      rw [hfeed, if_pos rfl]
      exact hslot.take hcount
    · have hne : (eb.subscribers i).id ≠ (eb.subscribers k).id :=
        fun heq => hki (h.unique k i hk hi heq.symm)
      rw [setSub_of_ne eb hki, hfeed, if_neg hne]
      exact h.slots k hk
  · intro subId hlast
    rw [hlasts] at hlast
    obtain ⟨k, hk, hid⟩ := h.owned subId hlast
    exact ⟨k, by rwa [(hsame k).1], by rwa [(hsame k).2]⟩
  · intro k j hk hj heq
    rw [(hsame k).1] at hk
    rw [(hsame j).1] at hj
    rw [(hsame k).2, (hsame j).2] at heq
    exact h.unique k j hk hj heq
  · intro subId hlt
    have hne : (eb.subscribers i).id ≠ subId := by
      rintro rfl
      exact absurd hlt (not_lt.mpr hle)
    rw [hfeed, if_neg hne]
    exact h.fresh subId hlt
  · exact h.next_pos
  · intro subId
    rw [poppedBy_append, hfeed, poppedBy]
    split
    · rename_i hid
      subst hid
      rw [h.popped]
      exact (hslot.taken hcount).symm
    · exact (List.append_nil _).trans (h.popped subId)

/-- A pop that returns an event takes it from an active slot, and any other leaves the bus as it
is. -/
theorem popSlot_cases (eb : Bus) (i : Fin 8) (timeoutMs : ℤ) :
    ((eb.subscribers i).active ∧ 0 < (eb.subscribers i).count ∧
      popSlot eb i timeoutMs = (eb.setSub i
        { eb.subscribers i with toRingBuffer := (eb.subscribers i).dropHead eventQueueCapacity },
        .item ((eb.subscribers i).queue (eb.subscribers i).head))) ∨
    ((popSlot eb i timeoutMs).1 = eb ∧
      ∀ subId, returned subId (popSlot eb i timeoutMs).2 = []) := by
  unfold popSlot
  by_cases hcount : (eb.subscribers i).count = 0
  · rw [if_pos hcount]
    right
    split
    · exact ⟨rfl, fun _ => rfl⟩
    · split <;> exact ⟨rfl, fun _ => rfl⟩
  · rw [if_neg hcount]
    by_cases hgone : (eb.subscribers i).active = false ∨ eb.destroyed
    · rw [if_pos hgone]
      exact Or.inr ⟨rfl, fun _ => rfl⟩
    · rw [if_neg hgone]
      rw [not_or, Bool.not_eq_false] at hgone
      exact Or.inl ⟨hgone.1, Nat.pos_of_ne_zero hcount, rfl⟩

/-- A pop on the slot of its own subscription, or on one that has nothing for it. -/
theorem Inv.popSlot {eb : Bus} {log : List Observation} (h : Inv eb log) (i : Fin 8)
    (timeoutMs subId : ℤ) (hid : (eb.subscribers i).active → 0 < (eb.subscribers i).count →
      (eb.subscribers i).id = subId) :
    Inv (popSlot eb i timeoutMs).1
      (log ++ returned subId (EventBus.popSlot eb i timeoutMs).2) := by
  rcases popSlot_cases eb i timeoutMs with ⟨hi, hcount, heq⟩ | ⟨hbus, hnothing⟩
  · rw [heq, ← hid hi hcount]
    exact h.take hi hcount
  · rw [hbus, hnothing, List.append_nil]
    exact h

theorem Inv.pop {s : System} (h : Inv s.bus s.log) (subId timeoutMs : ℤ) :
    Inv (pop s subId timeoutMs).bus (EventBus.pop s subId timeoutMs).log := by
  have hnothing : Inv s.bus (s.log ++ []) := by rwa [List.append_nil]
  unfold EventBus.pop eventBusPop
  by_cases hpos : subId ≤ 0
  · rw [if_pos hpos]
    exact hnothing
  · rw [if_neg hpos]
    cases hfind : findSub s.bus subId with
    | none => exact hnothing
    | some i =>
      dsimp only
      by_cases hgone : s.bus.destroyed
      · rw [if_pos hgone]
        exact hnothing
      · rw [if_neg hgone]
        have hnext := h.popSlot i timeoutMs subId fun _ _ => (findSub_spec hfind).2
        cases houtcome : EventBus.popSlot s.bus i timeoutMs with
        | mk bus outcome =>
          rw [houtcome] at hnext
          cases outcome with
          | wait =>
            rw [returned, List.append_nil] at hnext
            exact hnext
          | _ => exact hnext

theorem Inv.wake {s : System} (h : Inv s.bus s.log) {j : ℕ} {timedOut : Bool}
    (hok : StepOk s (.wake j timedOut)) :
    Inv (wake s j timedOut).bus (EventBus.wake s j timedOut).log := by
  unfold EventBus.wake
  cases hblocked : s.blocked[j]? with
  | none => exact h
  | some w =>
    have hnext : Inv (popAwake s.bus w.slot w.timeoutMs timedOut).1
        (s.log ++ returned w.subId (popAwake s.bus w.slot w.timeoutMs timedOut).2) := by
      unfold popAwake
      split
      · rw [returned, List.append_nil]
        exact h
      · exact h.popSlot w.slot w.timeoutMs w.subId (hok w hblocked)
    dsimp only
    cases houtcome : popAwake s.bus w.slot w.timeoutMs timedOut with
    | mk bus outcome =>
      rw [houtcome] at hnext
      cases outcome with
      | wait =>
        rw [returned, List.append_nil] at hnext
        exact hnext
      | _ => exact hnext

theorem Inv.step {s : System} (h : Inv s.bus s.log) {e : Event} (hok : StepOk s e) :
    Inv (step s e).bus (EventBus.step s e).log := by
  cases e with
  | subscribe condInit => exact h.eventBusSubscribe hok
  | unsubscribe subId => exact h.unsubscribe subId
  | publish type eventName payload now =>
    rw [EventBus.step, EventBus.publish, eventBusPublish]
    split
    · rename_i heq
      split at heq
      · exact h
      · cases heq
    · rename_i bus heq
      split at heq
      · cases heq
      · obtain rfl := Option.some.inj heq
        exact h.publish (eventItem type eventName payload now)
  | pop subId timeoutMs => exact h.pop subId timeoutMs
  | wake j timedOut => exact h.wake hok
  | free => exact ⟨h.slots, h.owned, h.unique, h.fresh, h.next_pos, h.popped⟩

/-- In every state of such a run, the pops of an id have returned what its queue gives out. -/
theorem delivered_run (events : List Event) (hok : RunOk step StepOk start events) :
    Always step Delivered start events := by
  have hstep : ∀ s e, Inv s.bus s.log → StepOk s e → Inv (step s e).bus (step s e).log :=
    fun _ _ h hs => h.step hs
  have hinv : Always step (fun s => Inv s.bus s.log) start events :=
    always_of_runOk hstep inv_new hok
  exact fun n => (hinv n).delivered

/-- A ping, as `event_bus_publish_ping` sends it. -/
def ping : Event :=
  .publish .ping (some (ascii "ping")) (some (ascii "\x7b\"ts\":1700000000\x7d")) 1700000000

/-- A pop waits, and wakes to an event. -/
def waited : List Event := [.subscribe true, .pop 101 15000, ping, .wake 0 false]

/-- While a pop waits its subscription ends, and another one takes the slot. -/
def reused : List Event :=
  [.subscribe true, .pop 101 15000, .unsubscribe 101, .subscribe true, ping, .wake 0 false]

theorem delivered_waited : Always step Delivered start waited := by
  apply delivered_run waited
  refine ⟨show (100 : ℤ) < 2 ^ 31 - 1 by decide, trivial, trivial, fun w hw _ _ => ?_, trivial⟩
  obtain rfl := Option.some.inj hw
  rfl

/-- The pop of the first subscription returns an event of the second one. -/
theorem not_delivered_reused : ¬ Always step Delivered start reused := by
  intro h
  have hlength := congrArg List.length (h.last.popped 101)
  revert hlength
  decide +kernel

end Aigate.EventDelivery
