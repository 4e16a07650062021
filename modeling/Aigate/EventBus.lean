import Mathlib.Data.Fin.Basic
import Mathlib.Data.List.FinRange
import Aigate.DropOldestRing
import Aigate.GuardedRuns
import Aigate.Text

/-!
# The event bus

Up to 8 subscribers of telemetry events, each with a ring of 64 events. Every call is one
section under the lock of the bus, except that a pop from an empty ring gives the lock up
while it waits and looks at the same slot again when it wakes.
-/
namespace Aigate.EventBus
open Text GuardedRuns DropOldestRing

inductive EventType where
  | none
  | request
  | circuitBreaker
  | healthProbe
  | budgetAlert
  | ping
  deriving DecidableEq

structure EventItem where
  type : EventType
  eventName : Bytes
  payload : Bytes
  ts : ℤ
  deriving DecidableEq

/-- The item that `event_bus_publish` writes, in its buffers of 32 and 1024 bytes. -/
def eventItem (type : EventType) (eventName payload : Option Bytes) (now : ℤ) : EventItem :=
  ⟨type, (eventName.getD []).take 31, (payload.getD (ascii "\x7b\x7d")).take 1023, now⟩

/-- `EVENT_QUEUE_CAPACITY`. -/
def eventQueueCapacity : ℕ := 64

structure EventSub extends RingBuffer EventItem where
  droppedCount : ℕ
  active : Bool
  id : ℤ

/-- A slot of zero bytes. -/
def EventSub.zero : EventSub := ⟨⟨fun _ => ⟨.none, [], [], 0⟩, 0, 0, 0⟩, 0, false, 0⟩

structure Bus where
  subscribers : Fin 8 → EventSub
  nSubscribers : ℤ
  nextSubId : ℤ
  destroyed : Bool

def eventBusNew : Bus := ⟨fun _ => .zero, 0, 100, false⟩

def Bus.setSub (eb : Bus) (i : Fin 8) (sub : EventSub) : Bus :=
  { eb with subscribers := Function.update eb.subscribers i sub }

def freeSlot (eb : Bus) : Option (Fin 8) :=
  (List.finRange 8).find? fun i => !(eb.subscribers i).active

def findSub (eb : Bus) (subId : ℤ) : Option (Fin 8) :=
  (List.finRange 8).find? fun i =>
    (eb.subscribers i).active && decide ((eb.subscribers i).id = subId)

/-- `++next_sub_id` in 32 bits. -/
def nextId (eb : Bus) : ℤ := (eb.nextSubId + 1).bmod (2 ^ 32)

/-- The bus and the new id, if the bus has room and the condition variable can be made. -/
def eventBusSubscribe (eb : Bus) (condInit : Bool) : Bus × Option ℤ :=
  if eb.destroyed ∨ eb.nSubscribers ≥ 8 then (eb, none)
  else
    match freeSlot eb with
    | none => (eb, none)
    | some i =>
      if condInit then
        ({ eb.setSub i { EventSub.zero with id := nextId eb, active := true } with
            nSubscribers := eb.nSubscribers + 1, nextSubId := nextId eb }, some (nextId eb))
      else
        ({ eb.setSub i { EventSub.zero with id := nextId eb } with nextSubId := nextId eb }, none)

def eventBusUnsubscribe (eb : Bus) (subId : ℤ) : Bus :=
  if subId ≤ 0 then eb
  else
    match findSub eb subId with
    | none => eb
    | some i =>
      { eb.setSub i { eb.subscribers i with active := false } with
        nSubscribers := eb.nSubscribers - 1 }

/-- A full ring loses its oldest event first. -/
def makeRoom (sub : EventSub) : EventSub :=
  if sub.count = eventQueueCapacity then
    { sub with toRingBuffer := sub.dropHead eventQueueCapacity, droppedCount := sub.droppedCount + 1 }
  else sub

def publishTo (item : EventItem) (sub : EventSub) : EventSub :=
  if sub.active then
    { makeRoom sub with toRingBuffer := (makeRoom sub).write eventQueueCapacity item }
  else sub

def eventBusPublish (eb : Bus) (item : EventItem) : Option Bus :=
  if eb.destroyed then none
  else some { eb with subscribers := fun i => publishTo item (eb.subscribers i) }

/-- What a pop returns, or that it waits for an event in the slot. -/
inductive PopOutcome where
  | error
  | timeout
  | item (e : EventItem)
  | wait

/-- The loop of `event_bus_pop` on the slot that it has found, up to the wait or to the end. -/
def popSlot (eb : Bus) (i : Fin 8) (timeoutMs : ℤ) : Bus × PopOutcome :=
  if (eb.subscribers i).count = 0 then
    if eb.destroyed ∨ (eb.subscribers i).active = false then (eb, .error)
    else if timeoutMs ≤ 0 then (eb, .timeout)
    else (eb, .wait)
  else if (eb.subscribers i).active = false ∨ eb.destroyed then (eb, .error)
  else
    (eb.setSub i
      { eb.subscribers i with toRingBuffer := (eb.subscribers i).dropHead eventQueueCapacity },
      .item ((eb.subscribers i).queue (eb.subscribers i).head))

/-- A pop up to its first wait, with the slot that it waits for. -/
def eventBusPop (eb : Bus) (subId timeoutMs : ℤ) : Bus × PopOutcome × Option (Fin 8) :=
  if subId ≤ 0 then (eb, .error, none)
  else
    match findSub eb subId with
    | none => (eb, .error, none)
    | some i =>
      if eb.destroyed then (eb, .error, none)
      else
        let (eb', outcome) := popSlot eb i timeoutMs
        (eb', outcome, some i)

/-- A pop that wakes, after the time or for another reason. -/
def popAwake (eb : Bus) (i : Fin 8) (timeoutMs : ℤ) (timedOut : Bool) :
    Bus × PopOutcome :=
  if timedOut ∧ (eb.subscribers i).count = 0 then (eb, .timeout) else popSlot eb i timeoutMs

/-- What is seen of the bus from outside. -/
inductive Observation where
  | subscribed (subId : ℤ)
  | unsubscribed (subId : ℤ)
  | published (item : EventItem)
  | popped (subId : ℤ) (item : EventItem)

/-- A pop that waits. -/
structure Blocked where
  subId : ℤ
  slot : Fin 8
  timeoutMs : ℤ

structure System where
  bus : Bus
  blocked : List Blocked
  log : List Observation

inductive Event where
  | subscribe (condInit : Bool)
  | unsubscribe (subId : ℤ)
  | publish (type : EventType) (eventName payload : Option Bytes) (now : ℤ)
  | pop (subId timeoutMs : ℤ)
  | wake (j : ℕ) (timedOut : Bool)
  | free

def subscribe (s : System) (condInit : Bool) : System :=
  match eventBusSubscribe s.bus condInit with
  | (bus, none) => { s with bus := bus }
  | (bus, some subId) => { s with bus := bus, log := s.log ++ [.subscribed subId] }

def unsubscribe (s : System) (subId : ℤ) : System :=
  { s with
    bus := eventBusUnsubscribe s.bus subId
    log := s.log ++ [.unsubscribed subId] }

def publish (s : System) (item : EventItem) : System :=
  match eventBusPublish s.bus item with
  | none => s
  | some bus => { s with bus := bus, log := s.log ++ [.published item] }

/-- The event that a pop has returned is seen. -/
def returned (subId : ℤ) : PopOutcome → List Observation
  | .item e => [.popped subId e]
  | .error => []
  | .timeout => []
  | .wait => []

def pop (s : System) (subId timeoutMs : ℤ) : System :=
  match eventBusPop s.bus subId timeoutMs with
  | (bus, .wait, some i) => ⟨bus, s.blocked ++ [⟨subId, i, timeoutMs⟩], s.log⟩
  | (bus, outcome, _) => ⟨bus, s.blocked, s.log ++ returned subId outcome⟩

def wake (s : System) (j : ℕ) (timedOut : Bool) : System :=
  match s.blocked[j]? with
  | none => s
  | some w =>
    match popAwake s.bus w.slot w.timeoutMs timedOut with
    | (bus, .wait) => { s with bus := bus }
    | (bus, outcome) => ⟨bus, s.blocked.eraseIdx j, s.log ++ returned w.subId outcome⟩

/-- Of `event_bus_free` the section that marks the bus. -/
def step (s : System) : Event → System
  | .subscribe condInit => subscribe s condInit
  | .unsubscribe subId => unsubscribe s subId
  | .publish type eventName payload now => publish s (eventItem type eventName payload now)
  | .pop subId timeoutMs => pop s subId timeoutMs
  | .wake j timedOut => wake s j timedOut
  | .free => { s with bus := { s.bus with destroyed := true } }

def start : System := ⟨eventBusNew, [], []⟩

end Aigate.EventBus
