import Aigate.LuaSandbox
import Aigate.QueryParams
import Aigate.WildcardMatch

/-!
# Plugins that abort a request

The plugins of a request are run one after the other, each in a sandbox of its own. A script
aborts the request with a function of the host, which notes a status and a body and raises an
error; the loop takes a script for one that aborts if the error that leaves it has a certain
text.
-/
namespace Aigate.PluginAbort
open Text Guardrails QueryParams WildcardMatch ProtectedCalls LuaSandbox

/-- `lua_req_ctx_t`; a rewritten model is there if there is one, and `rest` is what the functions
of the host that matter here do not touch. -/
structure ReqCtx (ρ : Type*) where
  model : Option Bytes
  newModel : Option Bytes
  abortStatus : ℤ
  abortBody : Option Bytes
  rest : ρ

/-- The functions of the host; the body of an abort that is a table is given by its text. -/
inductive HostCall (ρ : Type*) where
  | abort (status : Int64) (body : Bytes)
  | setModel (m : Bytes)
  | other (f : ρ → ρ)

structure Plugin where
  enabled : Bool
  phase : Bytes
  matchModel : Bytes
  scriptCode : Option Bytes

variable {σ ρ : Type*}

/-- `l_aigate_abort`, `l_req_set_model` and the others. -/
def hostCall : HostCall ρ → ReqCtx ρ → ReqCtx ρ × Option LuaError
  | .abort status body, ctx =>
    ({ ctx with abortStatus := castInt status.toInt, abortBody := some (cString body) },
      some (some (ascii "__aigate_abort__")))
  | .setModel m, ctx => ({ ctx with newModel := some ((cString m).take 63) }, none)
  | .other f, ctx => ({ ctx with rest := f ctx.rest }, none)

/-- Lua with the functions of the host for requests. -/
structure PluginLua (σ ρ : Type*) where
  load : Bytes → Except LuaError σ
  act : σ → Act σ (ReqCtx ρ) (HostCall ρ) LuaError
  entry : σ → Bytes → Option σ

def PluginLua.lua (l : PluginLua σ ρ) : Lua σ (ReqCtx ρ) (HostCall ρ) :=
  ⟨l.load, l.act, hostCall, l.entry⟩

/-- The run of a script for a request. -/
def PluginLua.script (l : PluginLua σ ρ) (code : Bytes) (ctx : ReqCtx ρ) (n : ℕ) :
    Phase σ (ReqCtx ρ) :=
  l.lua.run code (ascii "on_request") ctx n

/-- `lua_execute_single_script`, if it returns after that many instructions. -/
def PluginLua.execute (l : PluginLua σ ρ) (fuel : ℕ) (code : Bytes) (ctx : ReqCtx ρ) :
    Option (ExecResult × ReqCtx ρ) :=
  match l.script code ctx fuel with
  | .returned r _ ctx => some (r, ctx)
  | _ => none

/-- The script of a plugin that is run for a request. -/
def Plugin.selected (p : Plugin) (ctx : ReqCtx ρ) : Option Bytes :=
  if p.enabled = true ∧ (p.phase = ascii "request" ∨ p.phase = ascii "both") ∧
      wildcardMatch p.matchModel (ctx.newModel.or ctx.model) = true then p.scriptCode
  else none

/-- `lua_plugin_mgr_exec_request`, if each script returns after that many instructions. -/
def PluginLua.execRequest (l : PluginLua σ ρ) (fuel : ℕ) :
    List Plugin → ReqCtx ρ → Option (ExecResult × ReqCtx ρ)
  | [], ctx => some (.ok, ctx)
  | p :: rest, ctx =>
    match p.selected ctx with
    | none => l.execRequest fuel rest ctx
    | some code =>
      match l.execute fuel code ctx with
      | none => none
      | some (.abort, ctx) => some (.abort, ctx)
      | some (_, ctx) => l.execRequest fuel rest ctx

/-! ### What happens during a request -/

/-- The script returns. -/
def PluginLua.Ends (l : PluginLua σ ρ) (code : Bytes) (ctx : ReqCtx ρ) (r : ExecResult)
    (ctx' : ReqCtx ρ) : Prop := ∃ fuel, l.execute fuel code ctx = some (r, ctx')

/-- The request is answered. -/
def PluginLua.Returns (l : PluginLua σ ρ) (plugins : List Plugin) (ctx : ReqCtx ρ)
    (r : ExecResult) (ctx' : ReqCtx ρ) : Prop :=
  ∃ fuel, l.execRequest fuel plugins ctx = some (r, ctx')

/-- A script is run with the context that it finds; behind its plugin are others. -/
inductive PluginLua.Visits (l : PluginLua σ ρ) :
    List Plugin → ReqCtx ρ → Bytes → ReqCtx ρ → List Plugin → Prop
  | here {p : Plugin} {rest : List Plugin} {ctx : ReqCtx ρ} {code : Bytes} :
    p.selected ctx = some code → l.Visits (p :: rest) ctx code ctx rest
  | skip {p : Plugin} {rest behind : List Plugin} {ctx c : ReqCtx ρ} {code : Bytes} :
    p.selected ctx = none → l.Visits rest ctx code c behind →
      l.Visits (p :: rest) ctx code c behind
  | later {p : Plugin} {rest behind : List Plugin} {ctx ctx' c : ReqCtx ρ} {own code : Bytes}
    {r : ExecResult} : p.selected ctx = some own → l.Ends own ctx r ctx' → r ≠ .abort →
      l.Visits rest ctx' code c behind → l.Visits (p :: rest) ctx code c behind

/-- The script calls `aigate.abort(status, body)`. -/
def PluginLua.Calls (l : PluginLua σ ρ) (code : Bytes) (ctx : ReqCtx ρ) (status : Int64)
    (body : Bytes) : Prop :=
  ∃ n, ∃ c ∈ (l.script code ctx n).config, c.left ≠ 0 ∧
    ∃ after, l.act c.state = .call (.abort status body) after

/-- An error leaves the script whose text is that of an abort. -/
def PluginLua.Marked (l : PluginLua σ ρ) (code : Bytes) (ctx : ReqCtx ρ) : Prop :=
  ∃ n, ∃ c ∈ (l.script code ctx n).config, ∃ e ctx', c.step l.lua.sandbox = .failed e ctx' ∧
    isAbort e = true

/-- What is claimed of a request: a call of the function is answered with its status and body
and no later plugin is run, and only such a call is answered so. -/
structure PluginLua.Final (l : PluginLua σ ρ) (plugins : List Plugin) (ctx : ReqCtx ρ) :
    Prop where
  aborts : ∀ code c behind, l.Visits plugins ctx code c behind →
    ∀ status body, l.Calls code c status body →
      (∃ ctx', l.Returns plugins ctx .abort ctx' ∧ ctx'.abortStatus = status.toInt ∧
        ctx'.abortBody = some body) ∧
      ∀ code' c' behind', l.Visits plugins ctx code' c' behind' → behind.length ≤ behind'.length
  only : ∀ ctx', l.Returns plugins ctx .abort ctx' →
    ∃ code c behind, l.Visits plugins ctx code c behind ∧
      ∃ status body, l.Calls code c status body

/-- What a script does: the error of an abort leaves it exactly if it has called the function,
each time with the same status, an `int`, and the same body without a zero byte. -/
structure PluginLua.Obeys (l : PluginLua σ ρ) (code : Bytes) (ctx : ReqCtx ρ) : Prop where
  marked : l.Marked code ctx ↔ ∃ status body, l.Calls code ctx status body
  same : ∀ s b s' b', l.Calls code ctx s b → l.Calls code ctx s' b' → s = s' ∧ b = b'
  fits : ∀ s b, l.Calls code ctx s b → castInt s.toInt = s.toInt ∧ nul ∉ b

/-! ### One script -/

variable {l : PluginLua σ ρ}

theorem script_succ (l : PluginLua σ ρ) (code : Bytes) (ctx : ReqCtx ρ) (n : ℕ) :
    l.script code ctx (n + 1) = l.lua.advance (ascii "on_request") (l.script code ctx n) :=
  run_succ l.lua code (ascii "on_request") ctx n

theorem script_of_returned {code : Bytes} {ctx ctx' : ReqCtx ρ} {n : ℕ} {r : ExecResult}
    {errBuf : Bytes} (h : l.script code ctx n = .returned r errBuf ctx') (k : ℕ) :
    l.script code ctx (n + k) = .returned r errBuf ctx' := by
  induction k with
  | zero => exact h
  | succ k ih =>
    rw [← Nat.add_assoc, script_succ, ih]
    rfl

theorem execute_eq_some {fuel : ℕ} {code : Bytes} {ctx ctx' : ReqCtx ρ} {r : ExecResult} :
    l.execute fuel code ctx = some (r, ctx') ↔
      ∃ errBuf, l.script code ctx fuel = .returned r errBuf ctx' := by
  unfold PluginLua.execute
  cases l.script code ctx fuel with
  | chunk c => simp
  | hook c => simp
  | returned r' errBuf world => simp

theorem execute_add {fuel : ℕ} {code : Bytes} {ctx ctx' : ReqCtx ρ} {r : ExecResult}
    (h : l.execute fuel code ctx = some (r, ctx')) (k : ℕ) :
    l.execute (fuel + k) code ctx = some (r, ctx') := by
  obtain ⟨errBuf, hrun⟩ := execute_eq_some.mp h
  exact execute_eq_some.mpr ⟨errBuf, script_of_returned hrun k⟩

theorem ends_unique {code : Bytes} {ctx c c' : ReqCtx ρ} {r r' : ExecResult}
    (h : l.Ends code ctx r c) (h' : l.Ends code ctx r' c') : r = r' ∧ c = c' := by
  obtain ⟨fuel, hfuel⟩ := h
  obtain ⟨fuel', hfuel'⟩ := h'
  have hlater := execute_add hfuel fuel'
  rw [Nat.add_comm, execute_add hfuel' fuel] at hlater
  exact (Prod.mk.inj (Option.some.inj hlater)).imp Eq.symm Eq.symm

/-- The script is taken for one that aborts exactly if an error with the text leaves it. -/
theorem marked_iff {code : Bytes} {ctx : ReqCtx ρ} :
    l.Marked code ctx ↔ ∃ ctx', l.Ends code ctx .abort ctx' := by
  constructor
  · rintro ⟨n, c, hc, e, w, hstep, habort⟩
    obtain ⟨errBuf, world, hadvance⟩ :=
      (advance_abort_iff l.lua (ascii "on_request") hc).mpr ⟨e, w, hstep, habort⟩
    refine ⟨world, n + 1, execute_eq_some.mpr ⟨errBuf, ?_⟩⟩
    rw [script_succ, hadvance]
  · rintro ⟨ctx', fuel, hfuel⟩
    obtain ⟨errBuf, hrun⟩ := execute_eq_some.mp hfuel
    induction fuel generalizing errBuf ctx' with
    | zero =>
      change l.lua.start code ctx = .returned .abort errBuf ctx' at hrun
      unfold Lua.start at hrun
      cases hload : l.lua.load code with
      | error e =>
        rw [hload] at hrun
        cases hrun
      | ok s =>
        rw [hload] at hrun
        cases hrun
    | succ n ih =>
      rw [script_succ] at hrun
      cases hconfig : (l.script code ctx n).config with
      | none =>
        rw [returned_advance hconfig] at hrun
        exact ih ctx' (execute_eq_some.mpr ⟨errBuf, hrun⟩) errBuf hrun
      | some c =>
        obtain ⟨e, w, hstep, habort⟩ :=
          (advance_abort_iff l.lua (ascii "on_request") hconfig).mp ⟨errBuf, ctx', hrun⟩
        exact ⟨n, c, hconfig, e, w, hstep, habort⟩

/-- A step that is no call of the function leaves what is noted of an abort as it is. -/
theorem noted_step {c : Config σ (ReqCtx ρ) LuaError}
    (h : c.left ≠ 0 → ∀ status body after, l.act c.state ≠ .call (.abort status body) after) :
    (c.step l.lua.sandbox).world.abortStatus = c.world.abortStatus ∧
      (c.step l.lua.sandbox).world.abortBody = c.world.abortBody := by
  by_cases hcall : c.left ≠ 0 ∧ ∃ request after, l.act c.state = .call request after
  · obtain ⟨hleft, request, after, hact⟩ := hcall
    rw [world_step_of_call hleft (m := l.lua.sandbox) hact]
    cases request with
    | abort status body => exact absurd hact (h hleft status body after)
    | setModel m => exact ⟨rfl, rfl⟩
    | other f => exact ⟨rfl, rfl⟩
  · rw [world_step_of_not_call]
    · exact ⟨rfl, rfl⟩
    · exact fun hleft request after hact => hcall ⟨hleft, request, after, hact⟩

/-- At any time either the function has not been called, or a call is noted. -/
theorem noted_run (l : PluginLua σ ρ) (code : Bytes) (ctx : ReqCtx ρ) (n : ℕ) :
    (∀ m < n, ∀ c ∈ (l.script code ctx m).config, c.left ≠ 0 →
      ∀ status body after, l.act c.state ≠ .call (.abort status body) after) ∨
    ∃ status body, l.Calls code ctx status body ∧
      (l.script code ctx n).world.abortStatus = castInt status.toInt ∧
      (l.script code ctx n).world.abortBody = some (cString body) := by
  induction n with
  | zero => exact Or.inl fun m hm => absurd hm (Nat.not_lt_zero m)
  | succ n ih =>
    rw [script_succ]
    cases hconfig : (l.script code ctx n).config with
    | none =>
      rw [returned_advance hconfig]
      refine ih.imp_left fun hnone m hm c hc => ?_
      rcases Nat.lt_succ_iff_lt_or_eq.mp hm with hlt | rfl
      · exact hnone m hlt c hc
      · rw [hconfig] at hc
        cases hc
    | some c =>
      have hworld := world_advance l.lua (ascii "on_request") hconfig
      by_cases hcall : c.left ≠ 0 ∧ ∃ status body after,
          l.act c.state = .call (.abort status body) after
      · obtain ⟨hleft, status, body, after, hact⟩ := hcall
        refine Or.inr ⟨status, body, ⟨n, c, hconfig, hleft, after, hact⟩, ?_⟩
        rw [hworld, world_step_of_call hleft (m := l.lua.sandbox) hact]
        exact ⟨rfl, rfl⟩
      · have hquiet : c.left ≠ 0 →
            ∀ status body after, l.act c.state ≠ .call (.abort status body) after :=
          fun hleft status body after hact => hcall ⟨hleft, status, body, after, hact⟩
        obtain ⟨hstatus, hbody⟩ := noted_step hquiet
        rcases ih with hnone | ⟨status, body, hcalls, hs, hb⟩
        · refine Or.inl fun m hm c' hc' => ?_
          rcases Nat.lt_succ_iff_lt_or_eq.mp hm with hlt | rfl
          · exact hnone m hlt c' hc'
          · obtain rfl := Option.some.inj (hconfig.symm.trans hc')
            exact hquiet
        · have hbefore : (l.script code ctx n).world = c.world := world_of_config hconfig
          rw [hbefore] at hs hb
          refine Or.inr ⟨status, body, hcalls, ?_, ?_⟩
          · rw [hworld, hstatus, hs]
          · rw [hworld, hbody, hb]

/-- A script that has called the function leaves a call of it noted. -/
theorem noted_of_calls {code : Bytes} {ctx ctx' : ReqCtx ρ} {r : ExecResult}
    (hends : l.Ends code ctx r ctx') {s : Int64} {b : Bytes} (hcalls : l.Calls code ctx s b) :
    ∃ status body, l.Calls code ctx status body ∧ ctx'.abortStatus = castInt status.toInt ∧
      ctx'.abortBody = some (cString body) := by
  obtain ⟨fuel, hfuel⟩ := hends
  obtain ⟨errBuf, hrun⟩ := execute_eq_some.mp hfuel
  obtain ⟨n, c, hc, hleft, after, hact⟩ := hcalls
  have hbefore : n < fuel := by
    by_contra hle
    have hlater := script_of_returned hrun (n - fuel)
    rw [Nat.add_sub_cancel' (not_lt.mp hle)] at hlater
    rw [hlater] at hc
    cases hc
  rcases noted_run l code ctx fuel with hnone | hnoted
  · exact absurd hact (hnone n hbefore c hc hleft s b after)
  · rw [hrun] at hnoted
    exact hnoted

/-! ### The list of plugins -/

variable {p : Plugin} {rest : List Plugin} {ctx : ReqCtx ρ} {own : Bytes}

/-- What a plugin that is run makes of a request. -/
theorem execRequest_selected (h : p.selected ctx = some own) {fuel : ℕ} {r : ExecResult}
    {c : ReqCtx ρ} : l.execRequest fuel (p :: rest) ctx = some (r, c) ↔
      ∃ r₁ ctx', l.execute fuel own ctx = some (r₁, ctx') ∧
        ((r₁ = .abort ∧ r = .abort ∧ c = ctx') ∨
          (r₁ ≠ .abort ∧ l.execRequest fuel rest ctx' = some (r, c))) := by
  rw [PluginLua.execRequest, h]
  dsimp only
  cases hexecute : l.execute fuel own ctx with
  | none => simp
  | some x =>
    obtain ⟨r₁, ctx'⟩ := x
    cases r₁ with
    | abort => simp [eq_comm]
    | ok => simp
    | error => simp

theorem execRequest_skip (h : p.selected ctx = none) (l : PluginLua σ ρ) (fuel : ℕ) :
    l.execRequest fuel (p :: rest) ctx = l.execRequest fuel rest ctx := by
  rw [PluginLua.execRequest, h]

theorem execRequest_add {fuel : ℕ} {plugins : List Plugin} {ctx ctx' : ReqCtx ρ} {r : ExecResult}
    (h : l.execRequest fuel plugins ctx = some (r, ctx')) (k : ℕ) :
    l.execRequest (fuel + k) plugins ctx = some (r, ctx') := by
  induction plugins generalizing ctx with
  | nil => exact h
  | cons p rest ih =>
    cases hselected : p.selected ctx with
    | none =>
      rw [execRequest_skip hselected] at h ⊢
      exact ih h
    | some own =>
      rw [execRequest_selected hselected] at h ⊢
      obtain ⟨r₁, ctx₁, hexecute, hrest⟩ := h
      exact ⟨r₁, ctx₁, execute_add hexecute k,
        hrest.imp_right fun ⟨hne, hlater⟩ => ⟨hne, ih hlater⟩⟩

theorem returns_unique {plugins : List Plugin} {c c' : ReqCtx ρ} {r r' : ExecResult}
    (h : l.Returns plugins ctx r c) (h' : l.Returns plugins ctx r' c') : r = r' ∧ c = c' := by
  obtain ⟨fuel, hfuel⟩ := h
  obtain ⟨fuel', hfuel'⟩ := h'
  have hlater := execRequest_add hfuel fuel'
  rw [Nat.add_comm, execRequest_add hfuel' fuel] at hlater
  exact (Prod.mk.inj (Option.some.inj hlater)).imp Eq.symm Eq.symm

theorem returns_skip (h : p.selected ctx = none) {r : ExecResult} {c : ReqCtx ρ} :
    l.Returns (p :: rest) ctx r c ↔ l.Returns rest ctx r c := by
  unfold PluginLua.Returns
  simp only [execRequest_skip h]

theorem returns_abort (h : p.selected ctx = some own) {ctx' : ReqCtx ρ}
    (hends : l.Ends own ctx .abort ctx') : l.Returns (p :: rest) ctx .abort ctx' := by
  obtain ⟨fuel, hfuel⟩ := hends
  exact ⟨fuel, (execRequest_selected h).mpr ⟨.abort, ctx', hfuel, Or.inl ⟨rfl, rfl, rfl⟩⟩⟩

theorem returns_later (h : p.selected ctx = some own) {ctx' : ReqCtx ρ} {r₁ : ExecResult}
    (hends : l.Ends own ctx r₁ ctx') (hne : r₁ ≠ .abort) {r : ExecResult} {c : ReqCtx ρ} :
    l.Returns (p :: rest) ctx r c ↔ l.Returns rest ctx' r c := by
  constructor
  · rintro ⟨fuel, hfuel⟩
    obtain ⟨r₂, ctx₂, hexecute, hrest⟩ := (execRequest_selected h).mp hfuel
    obtain ⟨rfl, rfl⟩ := ends_unique ⟨fuel, hexecute⟩ hends
    rcases hrest with ⟨habort, -, -⟩ | ⟨-, hlater⟩
    · exact absurd habort hne
    · exact ⟨fuel, hlater⟩
  · rintro ⟨fuel, hfuel⟩
    obtain ⟨fuel₁, hfuel₁⟩ := hends
    have hrest := execRequest_add hfuel fuel₁
    rw [Nat.add_comm] at hrest
    exact ⟨fuel₁ + fuel, (execRequest_selected h).mpr
      ⟨r₁, ctx', execute_add hfuel₁ fuel, Or.inr ⟨hne, hrest⟩⟩⟩

/-- The script of a plugin has to return for the request to be answered. -/
theorem ends_of_returns (h : p.selected ctx = some own) {r : ExecResult} {c : ReqCtx ρ}
    (hreturns : l.Returns (p :: rest) ctx r c) : ∃ r₁ ctx', l.Ends own ctx r₁ ctx' := by
  obtain ⟨fuel, hfuel⟩ := hreturns
  obtain ⟨r₁, ctx', hexecute, -⟩ := (execRequest_selected h).mp hfuel
  exact ⟨r₁, ctx', fuel, hexecute⟩

theorem visits_skip (h : p.selected ctx = none) {code : Bytes} {c : ReqCtx ρ}
    {behind : List Plugin} :
    l.Visits (p :: rest) ctx code c behind ↔ l.Visits rest ctx code c behind := by
  constructor
  · intro hvisits
    cases hvisits with
    | here hsome => rw [h] at hsome; cases hsome
    | skip _ hrest => exact hrest
    | later hsome => rw [h] at hsome; cases hsome
  · exact PluginLua.Visits.skip h

theorem visits_selected_iff (h : p.selected ctx = some own) {code : Bytes} {c : ReqCtx ρ}
    {behind : List Plugin} : l.Visits (p :: rest) ctx code c behind ↔
      (code = own ∧ c = ctx ∧ behind = rest) ∨
      ∃ r ctx', l.Ends own ctx r ctx' ∧ r ≠ .abort ∧ l.Visits rest ctx' code c behind := by
  constructor
  · intro hvisits
    cases hvisits with
    | here hsome => exact Or.inl ⟨Option.some.inj (hsome.symm.trans h), rfl, rfl⟩
    | skip hnone => rw [h] at hnone; cases hnone
    | later hsome hends hne hrest =>
      obtain rfl := Option.some.inj (hsome.symm.trans h)
      exact Or.inr ⟨_, _, hends, hne, hrest⟩
  · rintro (⟨rfl, rfl, rfl⟩ | ⟨r, ctx', hends, hne, hrest⟩)
    · exact .here h
    · exact .later h hends hne hrest

theorem length_behind {plugins behind : List Plugin} {code : Bytes} {c : ReqCtx ρ}
    (h : l.Visits plugins ctx code c behind) : behind.length < plugins.length := by
  induction h with
  | here _ => exact Nat.lt_succ_self _
  | skip _ _ ih => exact Nat.lt_succ_of_lt ih
  | later _ _ _ _ ih => exact Nat.lt_succ_of_lt ih

/-- An abort is the answer of some script that is run. -/
theorem visits_of_returns_abort {plugins : List Plugin} {ctx' : ReqCtx ρ}
    (h : l.Returns plugins ctx .abort ctx') :
    ∃ code c behind, l.Visits plugins ctx code c behind := by
  induction plugins generalizing ctx with
  | nil =>
    obtain ⟨fuel, hfuel⟩ := h
    cases hfuel
  | cons p rest ih =>
    cases hselected : p.selected ctx with
    | none =>
      obtain ⟨code, c, behind, hvisits⟩ := ih ((returns_skip hselected).mp h)
      exact ⟨code, c, behind, .skip hselected hvisits⟩
    | some own => exact ⟨own, ctx, rest, .here hselected⟩

/-! ### The law -/

/-- A script that does not return obeys exactly if it does not call the function. -/
theorem obeys_iff_of_not_marked {code : Bytes} (h : ¬l.Marked code ctx) :
    l.Obeys code ctx ↔ ∀ s b, ¬l.Calls code ctx s b := by
  constructor
  · intro hobeys s b hcalls
    exact h (hobeys.marked.mpr ⟨s, b, hcalls⟩)
  · intro hnone
    refine ⟨iff_of_false h ?_, fun s b _ _ hcalls => absurd hcalls (hnone s b),
      fun s b hcalls => absurd hcalls (hnone s b)⟩
    rintro ⟨s, b, hcalls⟩
    exact hnone s b hcalls

/-- A script that is answered with an abort obeys exactly if it calls the function, and each call
is the one that is noted. -/
theorem obeys_iff_of_abort {code : Bytes} {ctx' : ReqCtx ρ}
    (hends : l.Ends code ctx .abort ctx') : l.Obeys code ctx ↔
      (∃ s b, l.Calls code ctx s b) ∧ ∀ s b, l.Calls code ctx s b →
        ctx'.abortStatus = s.toInt ∧ ctx'.abortBody = some b := by
  have hmarked : l.Marked code ctx := marked_iff.mpr ⟨ctx', hends⟩
  constructor
  · intro hobeys
    refine ⟨hobeys.marked.mp hmarked, fun s b hcalls => ?_⟩
    obtain ⟨s', b', hcalls', hstatus, hbody⟩ := noted_of_calls hends hcalls
    obtain ⟨rfl, rfl⟩ := hobeys.same s' b' s b hcalls' hcalls
    obtain ⟨hint, hnul⟩ := hobeys.fits s' b' hcalls'
    exact ⟨hstatus.trans hint, by rw [hbody, cString_eq_self_iff.mpr hnul]⟩
  · rintro ⟨hcalled, hall⟩
    refine ⟨iff_of_true hmarked hcalled, fun s b s' b' h h' => ?_, fun s b h => ?_⟩
    · obtain ⟨hs, hb⟩ := hall s b h
      obtain ⟨hs', hb'⟩ := hall s' b' h'
      exact ⟨Int64.toInt_inj.mp (hs.symm.trans hs'), Option.some.inj (hb.symm.trans hb')⟩
    · obtain ⟨s', b', h', hstatus, hbody⟩ := noted_of_calls hends h
      obtain ⟨hs, hb⟩ := hall s b h
      obtain ⟨hs', hb'⟩ := hall s' b' h'
      have hsame : s'.toInt = s.toInt := hs'.symm.trans hs
      refine ⟨by rw [← hsame, ← hstatus, hs'], ?_⟩
      rw [Option.some.inj (hb.symm.trans hbody)]
      exact nul_not_mem_cString b'

/-- Behind a plugin that is not run nothing changes. -/
theorem final_skip (h : p.selected ctx = none) :
    l.Final (p :: rest) ctx ↔ l.Final rest ctx := by
  constructor
  · rintro ⟨haborts, honly⟩
    refine ⟨fun code c behind hvisits s b hcalls => ?_, fun ctx' hreturns => ?_⟩
    · obtain ⟨⟨ctx', hreturns, hnoted⟩, hlast⟩ :=
        haborts code c behind ((visits_skip h).mpr hvisits) s b hcalls
      exact ⟨⟨ctx', (returns_skip h).mp hreturns, hnoted⟩,
        fun code' c' behind' hvisits' => hlast code' c' behind' ((visits_skip h).mpr hvisits')⟩
    · obtain ⟨code, c, behind, hvisits, hcalls⟩ := honly ctx' ((returns_skip h).mpr hreturns)
      exact ⟨code, c, behind, (visits_skip h).mp hvisits, hcalls⟩
  · rintro ⟨haborts, honly⟩
    refine ⟨fun code c behind hvisits s b hcalls => ?_, fun ctx' hreturns => ?_⟩
    · obtain ⟨⟨ctx', hreturns, hnoted⟩, hlast⟩ :=
        haborts code c behind ((visits_skip h).mp hvisits) s b hcalls
      exact ⟨⟨ctx', (returns_skip h).mpr hreturns, hnoted⟩,
        fun code' c' behind' hvisits' => hlast code' c' behind' ((visits_skip h).mp hvisits')⟩
    · obtain ⟨code, c, behind, hvisits, hcalls⟩ := honly ctx' ((returns_skip h).mp hreturns)
      exact ⟨code, c, behind, (visits_skip h).mpr hvisits, hcalls⟩

/-- A plugin whose script aborts, or never returns, is the last one. -/
theorem visits_last_iff (h : p.selected ctx = some own)
    (hlast : ∀ r ctx', l.Ends own ctx r ctx' → r = .abort) {code : Bytes} {c : ReqCtx ρ}
    {behind : List Plugin} : l.Visits (p :: rest) ctx code c behind ↔
      code = own ∧ c = ctx ∧ behind = rest := by
  rw [visits_selected_iff h, or_iff_left]
  rintro ⟨r, ctx', hends, hne, -⟩
  exact hne (hlast r ctx' hends)

theorem final_of_never (h : p.selected ctx = some own)
    (hnever : ∀ r ctx', ¬l.Ends own ctx r ctx') :
    l.Final (p :: rest) ctx ↔ ∀ s b, ¬l.Calls own ctx s b := by
  have hnoReturn : ∀ r c, ¬l.Returns (p :: rest) ctx r c := fun r c hreturns => by
    obtain ⟨r₁, ctx', hends⟩ := ends_of_returns h hreturns
    exact hnever r₁ ctx' hends
  constructor
  · rintro ⟨haborts, -⟩ s b hcalls
    obtain ⟨⟨ctx', hreturns, -⟩, -⟩ := haborts own ctx rest (.here h) s b hcalls
    exact hnoReturn _ _ hreturns
  · intro hnone
    refine ⟨fun code c behind hvisits s b hcalls => ?_,
      fun ctx' hreturns => absurd hreturns (hnoReturn _ _)⟩
    obtain ⟨rfl, rfl, rfl⟩ := (visits_last_iff h fun r c he => absurd he (hnever r c)).mp hvisits
    exact absurd hcalls (hnone s b)

theorem final_of_abort (h : p.selected ctx = some own) {ctx' : ReqCtx ρ}
    (hends : l.Ends own ctx .abort ctx') : l.Final (p :: rest) ctx ↔ l.Obeys own ctx := by
  have hvisits : ∀ {code : Bytes} {c : ReqCtx ρ} {behind : List Plugin},
      l.Visits (p :: rest) ctx code c behind ↔ code = own ∧ c = ctx ∧ behind = rest :=
    visits_last_iff h fun r c he => (ends_unique he hends).1
  have hreturns : l.Returns (p :: rest) ctx .abort ctx' := returns_abort h hends
  rw [obeys_iff_of_abort hends]
  constructor
  · rintro ⟨haborts, honly⟩
    obtain ⟨code, c, behind, hv, hcalls⟩ := honly ctx' hreturns
    obtain ⟨rfl, rfl, rfl⟩ := hvisits.mp hv
    refine ⟨hcalls, fun s b hcall => ?_⟩
    obtain ⟨⟨c', hreturns', hnoted⟩, -⟩ := haborts _ _ _ (.here h) s b hcall
    rwa [(returns_unique hreturns' hreturns).2] at hnoted
  · rintro ⟨hcalled, hall⟩
    refine ⟨fun code c behind hv s b hcall => ?_, fun _ _ => ⟨own, ctx, rest, .here h, hcalled⟩⟩
    obtain ⟨rfl, rfl, rfl⟩ := hvisits.mp hv
    refine ⟨⟨ctx', hreturns, hall s b hcall⟩, fun code' c' behind' hv' => ?_⟩
    obtain ⟨-, -, rfl⟩ := hvisits.mp hv'
    exact Nat.le_refl _

theorem final_of_later (h : p.selected ctx = some own) {ctx' : ReqCtx ρ} {r : ExecResult}
    (hends : l.Ends own ctx r ctx') (hne : r ≠ .abort) :
    l.Final (p :: rest) ctx ↔ (∀ s b, ¬l.Calls own ctx s b) ∧ l.Final rest ctx' := by
  have hvisits : ∀ {code : Bytes} {c : ReqCtx ρ} {behind : List Plugin},
      l.Visits (p :: rest) ctx code c behind ↔
        (code = own ∧ c = ctx ∧ behind = rest) ∨ l.Visits rest ctx' code c behind := by
    intro code c behind
    rw [visits_selected_iff h]
    refine or_congr_right ⟨?_, fun hv => ⟨r, ctx', hends, hne, hv⟩⟩
    rintro ⟨r₁, ctx₁, hends₁, -, hv⟩
    rwa [(ends_unique hends₁ hends).2] at hv
  constructor
  · rintro ⟨haborts, honly⟩
    have hnone : ∀ s b, ¬l.Calls own ctx s b := by
      intro s b hcalls
      obtain ⟨⟨c, hreturns, -⟩, hlast⟩ := haborts own ctx rest (.here h) s b hcalls
      obtain ⟨code', c', behind', hv⟩ :=
        visits_of_returns_abort ((returns_later h hends hne).mp hreturns)
      have hle := hlast code' c' behind' (hvisits.mpr (Or.inr hv))
      exact absurd (length_behind hv) (Nat.not_lt.mpr hle)
    refine ⟨hnone, fun code c behind hv s b hcalls => ?_, fun c hreturns => ?_⟩
    · obtain ⟨⟨c', hreturns, hnoted⟩, hlast⟩ :=
        haborts code c behind (hvisits.mpr (Or.inr hv)) s b hcalls
      exact ⟨⟨c', (returns_later h hends hne).mp hreturns, hnoted⟩,
        fun code' c' behind' hv' => hlast code' c' behind' (hvisits.mpr (Or.inr hv'))⟩
    · obtain ⟨code, c', behind, hv, hcalls⟩ := honly c ((returns_later h hends hne).mpr hreturns)
      rcases hvisits.mp hv with ⟨rfl, rfl, rfl⟩ | hv'
      · obtain ⟨s, b, hcall⟩ := hcalls
        exact absurd hcall (hnone s b)
      · exact ⟨code, c', behind, hv', hcalls⟩
  · rintro ⟨hnone, haborts, honly⟩
    refine ⟨fun code c behind hv s b hcalls => ?_, fun c hreturns => ?_⟩
    · rcases hvisits.mp hv with ⟨rfl, rfl, rfl⟩ | hv'
      · exact absurd hcalls (hnone s b)
      · obtain ⟨⟨c', hreturns, hnoted⟩, hlast⟩ := haborts code c behind hv' s b hcalls
        refine ⟨⟨c', (returns_later h hends hne).mpr hreturns, hnoted⟩,
          fun code' c₁ behind' hv₁ => ?_⟩
        rcases hvisits.mp hv₁ with ⟨-, -, rfl⟩ | hv₂
        · exact Nat.le_of_lt (length_behind hv')
        · exact hlast code' c₁ behind' hv₂
    · obtain ⟨code, c', behind, hv, hcalls⟩ := honly c ((returns_later h hends hne).mp hreturns)
      exact ⟨code, c', behind, hvisits.mpr (Or.inr hv), hcalls⟩

/-- A request is answered with an abort exactly as its plugins have called for it, if and only
if each script that is run lets the error of its calls, and no other error like it, leave it,
and has called for one status and body. -/
theorem final_iff (l : PluginLua σ ρ) (plugins : List Plugin) (ctx : ReqCtx ρ) :
    l.Final plugins ctx ↔
      ∀ code c behind, l.Visits plugins ctx code c behind → l.Obeys code c := by
  induction plugins generalizing ctx with
  | nil =>
    have hnone : ∀ {code c behind}, ¬l.Visits [] ctx code c behind := fun hv => by cases hv
    refine iff_of_true ⟨fun code c behind hv => absurd hv hnone, fun ctx' hreturns => ?_⟩
      fun code c behind hv => absurd hv hnone
    obtain ⟨fuel, hfuel⟩ := hreturns
    cases hfuel
  | cons p rest ih =>
    cases hselected : p.selected ctx with
    | none =>
      rw [final_skip hselected, ih ctx]
      simp only [visits_skip hselected]
    | some own =>
      by_cases hends : ∃ r ctx', l.Ends own ctx r ctx'
      · obtain ⟨r, ctx', hends⟩ := hends
        by_cases hr : r = .abort
        · subst hr
          rw [final_of_abort hselected hends]
          have hlast : ∀ r c, l.Ends own ctx r c → r = .abort :=
            fun r c he => (ends_unique he hends).1
          simp only [visits_last_iff hselected hlast]
          constructor
          · rintro hobeys code c behind ⟨rfl, rfl, -⟩
            exact hobeys
          · exact fun hall => hall own ctx rest ⟨rfl, rfl, rfl⟩
        · have hmarked : ¬l.Marked own ctx := fun hmarked => by
            obtain ⟨c, habort⟩ := marked_iff.mp hmarked
            exact hr (ends_unique hends habort).1
          rw [final_of_later hselected hends hr, ih ctx', ← obeys_iff_of_not_marked hmarked]
          constructor
          · rintro ⟨hobeys, hall⟩ code c behind hv
            rcases (visits_selected_iff hselected).mp hv with ⟨rfl, rfl, -⟩ | ⟨r₁, c₁, he, -, hv'⟩
            · exact hobeys
            · rw [(ends_unique he hends).2] at hv'
              exact hall code c behind hv'
          · intro hall
            exact ⟨hall own ctx rest (.here hselected), fun code c behind hv =>
              hall code c behind (.later hselected hends hr hv)⟩
      · have hnever : ∀ r c, ¬l.Ends own ctx r c := fun r c he => hends ⟨r, c, he⟩
        have hmarked : ¬l.Marked own ctx := fun hmarked => by
          obtain ⟨c, habort⟩ := marked_iff.mp hmarked
          exact hnever _ c habort
        rw [final_of_never hselected hnever, ← obeys_iff_of_not_marked hmarked]
        have hlast : ∀ r c, l.Ends own ctx r c → r = .abort := fun r c he => absurd he (hnever r c)
        simp only [visits_last_iff hselected hlast]
        constructor
        · rintro hobeys code c behind ⟨rfl, rfl, -⟩
          exact hobeys
        · exact fun hall => hall own ctx rest ⟨rfl, rfl, rfl⟩

/-- The error of the abort goes to the `pcall` around it. -/
def swallowText : Bytes := ascii "pcall(aigate.abort, 403, 'blocked')"

def swallowing : PluginLua (List (Stmt (HostCall Unit))) Unit where
  load text :=
    if text = swallowText then .ok [.pcall (.host (.abort 403 (ascii "blocked")))]
    else .error (some (ascii "syntax error"))
  act := control fun _ => .skip
  entry _ _ := none

def swallower : Plugin := ⟨true, ascii "request", ascii "*", some swallowText⟩

def chat : ReqCtx Unit := ⟨some (ascii "gpt-4"), none, 0, none, ()⟩

theorem start_swallow : swallowing.script swallowText chat 0 =
    .chunk ⟨[.pcall (.host (.abort 403 (ascii "blocked")))], chat, [], maxInstructions⟩ := by
  change swallowing.lua.start swallowText chat = _
  simp [Lua.start, swallowing, PluginLua.lua]

/-- A script that catches the error of its abort is answered as if it had not aborted. -/
theorem not_final_swallow : ¬swallowing.Final [swallower] chat := by
  have hcall : swallowing.script swallowText chat 1 =
      .chunk ⟨[.host (.abort 403 (ascii "blocked"))], chat, [fun _ _ => []], 199999⟩ := by
    rw [script_succ, start_swallow]
    rfl
  have hend : ∃ ctx', swallowing.script swallowText chat 3 = .returned .ok [] ctx' := by
    rw [script_succ, script_succ, hcall]
    exact ⟨_, rfl⟩
  have hselected : swallower.selected chat = some swallowText := by decide +kernel
  obtain ⟨ctx', hend⟩ := hend
  have hreturns : swallowing.Returns [swallower] chat .ok ctx' :=
    (returns_later hselected ⟨3, execute_eq_some.mpr ⟨[], hend⟩⟩ (by decide)).mpr ⟨0, rfl⟩
  intro hfinal
  obtain ⟨⟨c, habort, -⟩, -⟩ := hfinal.aborts swallowText chat [] (.here hselected) 403
    (ascii "blocked") ⟨1, _, congrArg Phase.config hcall, by decide, _, rfl⟩
  exact absurd (returns_unique habort hreturns).1 (by decide)

end Aigate.PluginAbort
