import Aigate.GuardedRuns
import Aigate.LruRefinement

/-!
# The lifetime of a cached record

`lru_get` returns the pointer that the map holds and unlocks; the resolvers of client keys and of
model routes copy the record afterwards, with no lock. When a record is still there for them.
-/
namespace Aigate.LruLifetime
open Text GuardedRuns RecencyList LruMap

/-- The two maps whose values are records that `on_evict` frees. -/
inductive Kind where
  | keys
  | routes
  deriving DecidableEq

def Kind.capacity : Kind → ℕ
  | .keys => 4096
  | .routes => 1024

/-- What a caller does next: `auth_key_resolve` and `model_router_resolve`, and the invalidates
of the admin API. A record is the number of its allocation. -/
inductive Phase where
  /-- Before `lru_get`. -/
  | looking (k : Bytes)
  /-- With the record that `lru_get` returned, until the last time it is read. -/
  | copying (k : Bytes) (v : ℕ)
  /-- Before the answer of the store. -/
  | loading (k : Bytes)
  /-- With a record of its own, before `lru_put`. -/
  | storing (k : Bytes) (v : ℕ)
  /-- Behind the unlock, before `on_evict` for the old record; its own record is read later. -/
  | handing (old : ℕ) (own : Option ℕ)
  /-- Before the record that was put is copied to the caller. -/
  | sharing (v : ℕ)
  /-- Before `lru_invalidate`. -/
  | removing (k : Bytes)
  | done
  deriving DecidableEq

/-- The operations on the map, the last one first, the callers, the number of the records, and
those that were handed to `on_evict`. -/
structure System where
  history : List (Op Bytes ℕ)
  callers : List Phase
  made : ℕ
  handed : List ℕ

def start : System := ⟨[], [], 0, []⟩

/-- What the map holds. -/
def cacheOf (kind : Kind) (g : System) : Cache Bytes ℕ := after kind.capacity g.history

inductive Event where
  | resolve (k : Bytes)
  | invalidate (k : Bytes)
  /-- The next step of a caller; whether the store has the row and there is memory for it. -/
  | advance (i : ℕ) (found : Bool)

/-- The record that a resolver reads after it has put it. -/
def ownRecord (kind : Kind) (v : ℕ) : Option ℕ :=
  match kind with
  | .keys => none
  | .routes => some v

def sharePhase : Option ℕ → Phase
  | some v => .sharing v
  | none => .done

/-- `lru_put`: an old record is handed over behind the unlock, the victim of a full map before it. -/
def store (kind : Kind) (g : System) (i : ℕ) (k : Bytes) (v : ℕ) (memory : Bool) : System :=
  match lookup (cacheOf kind g).entries k with
  | some old =>
    { g with
      history := .put k v :: g.history
      callers := g.callers.set i (.handing old (ownRecord kind v)) }
  | none =>
    if memory then
      { g with
        history := .put k v :: g.history
        callers := g.callers.set i (sharePhase (ownRecord kind v))
        handed := g.handed ++ (((cacheOf kind g).displaced kind.capacity (.put k v)).map (·.2)).toList }
    else { g with callers := g.callers.set i (sharePhase (ownRecord kind v)) }

/-- One step of a caller. -/
def advance (kind : Kind) (g : System) (i : ℕ) (found : Bool) : Phase → System
  | .looking k =>
    { g with
      history := .get k :: g.history
      callers := g.callers.set i
        (match lookup (cacheOf kind g).entries k with
        | some v => .copying k v
        | none => .loading k) }
  | .copying _ _ => { g with callers := g.callers.set i .done }
  | .loading k =>
    if found then
      { g with callers := g.callers.set i (.storing k (g.made + 1)), made := g.made + 1 }
    else { g with callers := g.callers.set i .done }
  | .storing k v => store kind g i k v found
  | .handing old own =>
    { g with callers := g.callers.set i (sharePhase own), handed := g.handed ++ [old] }
  | .sharing _ => { g with callers := g.callers.set i .done }
  | .removing k =>
    { g with
      history := .remove k :: g.history
      callers := g.callers.set i
        (match lookup (cacheOf kind g).entries k with
        | some v => .handing v none
        | none => .done) }
  | .done => g

def step (kind : Kind) (g : System) : Event → System
  | .resolve k => { g with callers := g.callers ++ [.looking k] }
  | .invalidate k => { g with callers := g.callers ++ [.removing k] }
  | .advance i found =>
    match g.callers[i]? with
    | some phase => advance kind g i found phase
    | none => g

/-- No record that a caller copies was handed to `on_evict`. -/
def Alive (g : System) : Prop := ∀ k v, Phase.copying k v ∈ g.callers → v ∉ g.handed

/-- A caller is between an `lru_get` of the key and the end of its copy. -/
def Copied (g : System) (k : Bytes) : Prop := ∃ v, Phase.copying k v ∈ g.callers

/-- The map operation of a caller that can take an entry out. -/
def Phase.change : Phase → Option (Op Bytes ℕ)
  | .storing k v => some (.put k v)
  | .removing k => some (.remove k)
  | _ => none

/-- Nothing is put under a key or invalidated, and nothing new is put into a full map whose last
entry has the key, while a caller copies the record of the key. -/
def StepOk (kind : Kind) (g : System) : Event → Prop
  | .advance i _ => ∀ phase ∈ g.callers[i]?, ∀ op ∈ phase.change,
    ∀ e ∈ (cacheOf kind g).displaced kind.capacity op, ¬ Copied g e.1
  | _ => True

/-! ### The map of the callers is `lru_t` -/

/-- After the operations of a run, `lru_t` has the entries, its lookup returns what the callers are
given, and it has handed over what the map gave up. -/
theorem lru_of_history (m : Allocator) (kind : Kind) (g : System) :
    ∃ s, run m (lruNew kind.capacity true) g.history = some s ∧
      recencyEntries s = some (cacheOf kind g).entries ∧
      s.evicted = (cacheOf kind g).evicted ∧
      ∀ k, (lruGet s k).map (·.2) = some ((lookup (cacheOf kind g).entries k).getD 0) := by
  obtain ⟨s, hrun, honEvict, -, hevicted, nodes, hrep, hentries⟩ :=
    refines_run m kind.capacity true g.history
  have hcap : (if kind.capacity < 1 then 1 else kind.capacity) = kind.capacity := by
    cases kind <;> rfl
  rw [hcap] at hentries hevicted
  refine ⟨s, hrun, ?_, ?_, fun k => ?_⟩
  · rw [hrep.recencyEntries_eq, hentries]
    rfl
  · rw [hevicted, given, if_pos honEvict]
    rfl
  · obtain ⟨s', nodes', hget, -⟩ := hrep.get k []
    rw [hget, hentries]
    rfl

/-! ### The invariant -/

/-- The record that a caller has made and not yet put. -/
def Phase.stored : Phase → Option ℕ
  | .storing _ v => some v
  | _ => none

/-- The records that were put or are to be put. -/
def records (g : System) : List ℕ := puts g.history ++ g.callers.filterMap Phase.stored

/-- Each record is its own, what a caller copies is an entry of the map, and what was handed over
or is about to be has left it. -/
structure Inv (kind : Kind) (g : System) : Prop where
  fresh : (records g).Nodup
  made_le : ∀ v ∈ records g, v ≤ g.made
  current : ∀ k v, Phase.copying k v ∈ g.callers → (k, v) ∈ (cacheOf kind g).entries
  gone : ∀ v ∈ g.handed, v ∈ (cacheOf kind g).evicted
  leaving : ∀ old own, Phase.handing old own ∈ g.callers → old ∈ (cacheOf kind g).evicted

variable {kind : Kind} {g : System}

theorem Kind.capacity_pos (kind : Kind) : 0 < kind.capacity := by
  cases kind <;> decide

/-- What is an entry has not been given up. -/
theorem Inv.alive (h : Inv kind g) : Alive g := by
  intro k v hcopying hhanded
  have hkept : (puts g.history).Perm _ := (faithful_after kind.capacity_pos g.history).kept
  have hnodup := hkept.nodup_iff.mp (List.nodup_append.mp h.fresh).1
  have hentry : v ∈ (cacheOf kind g).entries.map (·.2) :=
    List.mem_map_of_mem (h.current k v hcopying)
  exact (List.nodup_append.mp hnodup).2.2 v hentry v (h.gone v hhanded) rfl

theorem inv_start (kind : Kind) : Inv kind start :=
  ⟨List.nodup_nil, nofun, nofun, nofun, nofun⟩

/-- The records that callers have, when one of them takes a step. -/
theorem stored_set {callers : List Phase} {i : ℕ} {a : Phase} (ha : callers[i]? = some a)
    (b : Phase) : ∃ before behind,
      callers.filterMap Phase.stored = before ++ a.stored.toList ++ behind ∧
      (callers.set i b).filterMap Phase.stored = before ++ b.stored.toList ++ behind := by
  induction callers generalizing i with
  | nil => cases ha
  | cons c callers ih =>
    have hcons : ∀ (d : Phase) (rest : List Phase), (d :: rest).filterMap Phase.stored =
        d.stored.toList ++ rest.filterMap Phase.stored := by
      intro d rest
      rw [List.filterMap_cons]
      cases d.stored <;> rfl
    cases i with
    | zero =>
      obtain rfl := Option.some.inj ha
      exact ⟨[], callers.filterMap Phase.stored, hcons c callers, hcons b callers⟩
    | succ i =>
      obtain ⟨before, behind, hold, hnew⟩ := ih ha
      refine ⟨c.stored.toList ++ before, behind, ?_, ?_⟩
      · rw [hcons, hold]
        simp
      · rw [List.set_cons_succ, hcons, hnew]
        simp

theorem records_middle (old before behind : List ℕ) (v : ℕ) :
    (old ++ (before ++ [v] ++ behind)).Perm (v :: (old ++ (before ++ [] ++ behind))) := by
  have hshape : old ++ (before ++ [v] ++ behind) = (old ++ before) ++ v :: behind := by simp
  rw [hshape, List.append_nil, ← List.append_assoc]
  exact List.perm_middle

/-- The other callers still copy an entry, if the operation takes none out that is copied. -/
theorem Inv.current_step (h : Inv kind g) {op : Op Bytes ℕ}
    (hok : ∀ e ∈ (cacheOf kind g).displaced kind.capacity op, ¬ Copied g e.1) {k : Bytes} {v : ℕ}
    (hcopying : Phase.copying k v ∈ g.callers) :
    (k, v) ∈ (after kind.capacity (op :: g.history)).entries := by
  apply mem_step (faithful_after kind.capacity_pos g.history).distinct (h.current k v hcopying)
  intro e he hkey
  exact hok e he ⟨v, hkey ▸ hcopying⟩

theorem evicted_cons (kind : Kind) (g : System) (op : Op Bytes ℕ) :
    (after kind.capacity (op :: g.history)).evicted = (cacheOf kind g).evicted ++
      (((cacheOf kind g).displaced kind.capacity op).map (·.2)).toList :=
  evicted_step kind.capacity (cacheOf kind g) op

theorem mem_evicted_cons {op : Op Bytes ℕ} {v : ℕ} (h : v ∈ (cacheOf kind g).evicted) :
    v ∈ (after kind.capacity (op :: g.history)).evicted := by
  rw [evicted_cons]
  exact List.mem_append_left _ h

theorem mem_evicted_displaced {op : Op Bytes ℕ} {e : Bytes × ℕ}
    (h : (cacheOf kind g).displaced kind.capacity op = some e) :
    e.2 ∈ (after kind.capacity (op :: g.history)).evicted := by
  rw [evicted_cons, h]
  exact List.mem_append_right _ List.mem_cons_self

/-- A caller takes a step that leaves the map as it is and makes no record. -/
theorem Inv.quiet (h : Inv kind g) {i : ℕ} {a b : Phase} (ha : g.callers[i]? = some a)
    (hb : b.stored = none) (hcopy : ∀ k v, b ≠ .copying k v)
    (hhand : ∀ old own, b ≠ .handing old own) {handed : List ℕ}
    (hhanded : ∀ v ∈ handed, v ∈ (cacheOf kind g).evicted) :
    Inv kind { g with callers := g.callers.set i b, handed := handed } := by
  obtain ⟨before, behind, hold, hnew⟩ := stored_set ha b
  have hsub : (records { g with callers := g.callers.set i b, handed := handed }).Sublist
      (records g) := by
    unfold records
    dsimp only
    rw [hold, hnew, hb]
    apply List.Sublist.append_left
    apply List.Sublist.append_right
    exact List.Sublist.append_left (List.nil_sublist _) _
  refine ⟨h.fresh.sublist hsub, fun v hv => h.made_le v (hsub.subset hv), fun k v hmem => ?_,
    hhanded, fun old own hmem => ?_⟩
  · exact h.current k v ((List.mem_or_eq_of_mem_set hmem).resolve_right fun heq =>
      hcopy k v heq.symm)
  · exact h.leaving old own ((List.mem_or_eq_of_mem_set hmem).resolve_right fun heq =>
      hhand old own heq.symm)

/-- A caller uses the map. -/
theorem Inv.op (h : Inv kind g) {i : ℕ} {a b : Phase} (ha : g.callers[i]? = some a)
    {op : Op Bytes ℕ} (hok : ∀ e ∈ (cacheOf kind g).displaced kind.capacity op, ¬ Copied g e.1)
    (hstored : a.stored = op.value) (hb : b.stored = none)
    (hcopy : ∀ k v, b = .copying k v → (k, v) ∈ (after kind.capacity (op :: g.history)).entries)
    (hhand : ∀ old own, b = .handing old own →
      old ∈ (after kind.capacity (op :: g.history)).evicted) {handed : List ℕ}
    (hhanded : ∀ v ∈ handed, v ∈ (after kind.capacity (op :: g.history)).evicted) :
    Inv kind ⟨op :: g.history, g.callers.set i b, g.made, handed⟩ := by
  obtain ⟨before, behind, hold, hnew⟩ := stored_set ha b
  have hperm : (records g).Perm (records ⟨op :: g.history, g.callers.set i b, g.made, handed⟩) := by
    unfold records
    dsimp only
    rw [hold, hnew, hb, hstored]
    cases hvalue : op.value with
    | none =>
      have hputs : puts (op :: g.history) = puts g.history := by
        unfold puts
        rw [List.filterMap_cons, hvalue]
      rw [hputs]
    | some v =>
      have hputs : puts (op :: g.history) = v :: puts g.history := by
        unfold puts
        rw [List.filterMap_cons, hvalue]
      rw [hputs]
      exact records_middle _ before behind v
  refine ⟨hperm.nodup_iff.mp h.fresh, fun v hv => h.made_le v (hperm.mem_iff.mpr hv),
    fun k v hmem => ?_, hhanded, fun old own hmem => ?_⟩
  · rcases List.mem_or_eq_of_mem_set hmem with hmem | heq
    · exact h.current_step hok hmem
    · exact hcopy k v heq.symm
  · rcases List.mem_or_eq_of_mem_set hmem with hmem | heq
    · exact mem_evicted_cons (h.leaving old own hmem)
    · exact hhand old own heq.symm

theorem sharePhase_stored (own : Option ℕ) : (sharePhase own).stored = none := by
  cases own <;> rfl

theorem sharePhase_ne_copying (own : Option ℕ) (k : Bytes) (v : ℕ) :
    sharePhase own ≠ .copying k v := by
  cases own <;> exact nofun

theorem sharePhase_ne_handing (own : Option ℕ) (old : ℕ) (own' : Option ℕ) :
    sharePhase own ≠ .handing old own' := by
  cases own <;> exact nofun

/-- A caller comes. -/
theorem Inv.enter (h : Inv kind g) {b : Phase} (hb : b.stored = none)
    (hcopy : ∀ k v, b ≠ .copying k v) (hhand : ∀ old own, b ≠ .handing old own) :
    Inv kind { g with callers := g.callers ++ [b] } := by
  have hsame : records { g with callers := g.callers ++ [b] } = records g := by
    unfold records
    simp [List.filterMap_append, hb]
  refine ⟨hsame ▸ h.fresh, hsame ▸ h.made_le, fun k v hmem => ?_, h.gone, fun old own hmem => ?_⟩
  · refine h.current k v ((List.mem_append.mp hmem).resolve_right fun hlast => ?_)
    exact hcopy k v (List.mem_singleton.mp hlast).symm
  · refine h.leaving old own ((List.mem_append.mp hmem).resolve_right fun hlast => ?_)
    exact hhand old own (List.mem_singleton.mp hlast).symm

/-- A caller makes a record. -/
theorem Inv.make (h : Inv kind g) {i : ℕ} {k : Bytes} (ha : g.callers[i]? = some (.loading k)) :
    Inv kind { g with callers := g.callers.set i (.storing k (g.made + 1)), made := g.made + 1 } := by
  obtain ⟨before, behind, hold, hnew⟩ := stored_set ha (.storing k (g.made + 1))
  have hperm : (records { g with
      callers := g.callers.set i (.storing k (g.made + 1)), made := g.made + 1 }).Perm
        ((g.made + 1) :: records g) := by
    unfold records
    dsimp only
    rw [hold, hnew]
    exact records_middle _ before behind _
  refine ⟨?_, fun v hv => ?_, fun k' v hmem => ?_, h.gone, fun old own hmem => ?_⟩
  · refine hperm.nodup_iff.mpr (List.nodup_cons.mpr ⟨fun hmem => ?_, h.fresh⟩)
    exact absurd (h.made_le _ hmem) (by omega)
  · rcases List.mem_cons.mp (hperm.mem_iff.mp hv) with rfl | hv
    · exact Nat.le_refl _
    · exact Nat.le_succ_of_le (h.made_le v hv)
  · exact h.current k' v ((List.mem_or_eq_of_mem_set hmem).resolve_right nofun)
  · exact h.leaving old own ((List.mem_or_eq_of_mem_set hmem).resolve_right nofun)

/-- `lru_put`. -/
theorem Inv.store (h : Inv kind g) {i : ℕ} {k : Bytes} {v : ℕ}
    (ha : g.callers[i]? = some (.storing k v))
    (hok : ∀ e ∈ (cacheOf kind g).displaced kind.capacity (.put k v), ¬ Copied g e.1)
    (memory : Bool) : Inv kind (store kind g i k v memory) := by
  unfold LruLifetime.store
  cases hlookup : lookup (cacheOf kind g).entries k with
  | some old =>
    have hout : (cacheOf kind g).displaced kind.capacity (.put k v) = some (k, old) := by
      simp [Cache.displaced, hlookup]
    have hhanded : ∀ v' ∈ g.handed, v' ∈ (after kind.capacity (.put k v :: g.history)).evicted :=
      fun v' hv' => mem_evicted_cons (h.gone v' hv')
    refine h.op (b := .handing old (ownRecord kind v)) ha hok rfl rfl (by simp)
      (fun old' own heq => ?_) hhanded
    obtain ⟨rfl, -⟩ := Phase.handing.inj heq
    exact mem_evicted_displaced hout
  | none =>
    dsimp only
    split
    · refine h.op ha hok rfl (sharePhase_stored _)
        (fun k' v' heq => absurd heq (sharePhase_ne_copying _ k' v'))
        (fun old own heq => absurd heq (sharePhase_ne_handing _ old own)) fun v' hv' => ?_
      rcases List.mem_append.mp hv' with hv' | hv'
      · exact mem_evicted_cons (h.gone v' hv')
      · rw [evicted_cons]
        exact List.mem_append_right _ hv'
    · exact h.quiet ha (sharePhase_stored _) (sharePhase_ne_copying _) (sharePhase_ne_handing _)
        h.gone

theorem Inv.advance (h : Inv kind g) {i : ℕ} {phase : Phase} (ha : g.callers[i]? = some phase)
    (hok : ∀ op ∈ phase.change, ∀ e ∈ (cacheOf kind g).displaced kind.capacity op, ¬ Copied g e.1)
    (found : Bool) : Inv kind (advance kind g i found phase) := by
  have hsame : ∀ op, ∀ v ∈ g.handed, v ∈ (after kind.capacity (op :: g.history)).evicted :=
    fun op v hv => mem_evicted_cons (h.gone v hv)
  have hdone : (∀ v ∈ g.handed, v ∈ (cacheOf kind g).evicted) →
      Inv kind { g with callers := g.callers.set i .done } :=
    fun hgone => h.quiet (b := .done) ha rfl (by simp) (by simp) hgone
  cases phase with
  | looking k =>
    have hnone : ∀ e ∈ (cacheOf kind g).displaced kind.capacity (.get k), ¬ Copied g e.1 := by
      simp [Cache.displaced]
    cases hlookup : lookup (cacheOf kind g).entries k with
    | some v =>
      simp only [LruLifetime.advance, hlookup]
      refine h.op (b := .copying k v) ha hnone rfl rfl (fun k' v' heq => ?_) (by simp) (hsame (.get k))
      obtain ⟨rfl, rfl⟩ := Phase.copying.inj heq
      exact mem_step (faithful_after kind.capacity_pos g.history).distinct (lookup_mem hlookup)
        (by simp [Cache.displaced])
    | none =>
      simp only [LruLifetime.advance, hlookup]
      exact h.op (b := .loading k) ha hnone rfl rfl (by simp) (by simp) (hsame (.get k))
  | copying k v => exact hdone h.gone
  | loading k =>
    cases found with
    | true => exact h.make ha
    | false => exact hdone h.gone
  | storing k v => exact h.store ha (hok _ rfl) found
  | handing old own =>
    refine h.quiet ha (sharePhase_stored own) (sharePhase_ne_copying own)
      (sharePhase_ne_handing own) fun v hv => ?_
    rcases List.mem_append.mp hv with hv | hv
    · exact h.gone v hv
    · obtain rfl := List.mem_singleton.mp hv
      exact h.leaving _ own (List.mem_of_getElem? ha)
  | sharing v => exact hdone h.gone
  | removing k =>
    have hremove := hok (.remove k) rfl
    cases hlookup : lookup (cacheOf kind g).entries k with
    | some v =>
      have hout : (cacheOf kind g).displaced kind.capacity (.remove k) = some (k, v) := by
        simp [Cache.displaced, hlookup]
      simp only [LruLifetime.advance, hlookup]
      refine h.op (b := .handing v none) ha hremove rfl rfl (by simp) (fun old own heq => ?_)
        (hsame (.remove k))
      obtain ⟨rfl, -⟩ := Phase.handing.inj heq
      exact mem_evicted_displaced hout
    | none =>
      simp only [LruLifetime.advance, hlookup]
      exact h.op (b := .done) ha hremove rfl rfl (by simp) (by simp) (hsame (.remove k))
  | done => exact h

theorem Inv.step (h : Inv kind g) {e : Event} (hok : StepOk kind g e) : Inv kind (step kind g e) := by
  cases e with
  | resolve k => exact h.enter (b := .looking k) rfl nofun nofun
  | invalidate k => exact h.enter (b := .removing k) rfl nofun nofun
  | advance i found =>
    cases ha : g.callers[i]? with
    | some phase =>
      simp only [LruLifetime.step, ha]
      exact h.advance ha (hok phase ha) found
    | none =>
      simp only [LruLifetime.step, ha]
      exact h

/-- In every interleaving in which nothing takes out the entry of a key while a caller copies its
record, every record is there until its copy is made. -/
theorem alive_run (kind : Kind) (events : List Event)
    (hok : RunOk (step kind) (StepOk kind) start events) :
    Always (step kind) Alive start events := by
  have hinv : ∀ g e, Inv kind g → StepOk kind g e → Inv kind (step kind g e) :=
    fun g e h he => h.step he
  have hall := always_of_runOk hinv (inv_start kind) hok
  exact fun n => (hall n).alive

def hashOf (c : Char) : Bytes := List.replicate 64 c

/-- A key is loaded and cached, and then read from the cache. -/
def loadedThenRead : List Event :=
  [.resolve (hashOf 'a'), .advance 0 true, .advance 0 true, .advance 0 true,
    .resolve (hashOf 'a'), .advance 1 true, .advance 1 true]

/-- The same, and it is revoked while the second caller copies. -/
def revokedMeanwhile : List Event :=
  [.resolve (hashOf 'a'), .advance 0 true, .advance 0 true, .advance 0 true,
    .resolve (hashOf 'a'), .advance 1 true,
    .invalidate (hashOf 'a'), .advance 2 true, .advance 2 true]

theorem alive_loadedThenRead : Always (step .keys) Alive start loadedThenRead := by
  apply alive_run
  refine ⟨trivial, nofun, nofun, ?_, trivial, nofun, nofun, trivial⟩
  intro phase hphase op hop e he
  obtain rfl := Option.some.inj hphase
  obtain rfl := Option.some.inj hop
  exact nomatch he

theorem not_alive_revokedMeanwhile : ¬ Always (step .keys) Alive start revokedMeanwhile := by
  intro h
  have hlast := h.last (hashOf 'a') 1
  revert hlast
  decide +kernel

end Aigate.LruLifetime
