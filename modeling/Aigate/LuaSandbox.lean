import Aigate.Guardrails
import Aigate.ProtectedCalls

/-!
# Running a script

A script is run in a state of its own, with a hook that raises an error after a number of
instructions. First the chunk of the script is called, then the function that it has defined
for the event, both protected by the caller. The sandbox leaves `pcall` to the script, so that
the script can have protected calls of its own.

Of Lua only this is taken: an instruction goes on, calls a function of the host, begins or ends
a protected call, or raises an error.
-/
namespace Aigate.LuaSandbox
open Text Guardrails ProtectedCalls

/-- An error value, by the text that `lua_tostring` gives for it. -/
abbrev LuaError := Option Bytes

inductive ExecResult where
  | ok
  | abort
  | error
  deriving DecidableEq, Repr

/-- `LUA_PLUGIN_MAX_INSTRUCTIONS`. -/
def maxInstructions : ℕ := 200000

/-- What Lua makes of scripts: a text is compiled, and the state behind the chunk may have a
function for the event. -/
structure Lua (σ κ η : Type*) where
  load : Bytes → Except LuaError σ
  act : σ → Act σ κ η LuaError
  host : η → κ → κ × Option LuaError
  entry : σ → Bytes → Option σ

variable {σ κ η : Type*}

/-- `lua_instruction_hook`. -/
def instructionHook : LuaError :=
  some (ascii "execution instruction quota exceeded (possible infinite loop)")

/-- The sandbox of `lua_create_sandbox`, as far as its hook goes. -/
def Lua.sandbox (lua : Lua σ κ η) : Machine σ κ η LuaError :=
  ⟨lua.act, lua.host, maxInstructions, instructionHook⟩

/-- Whether an error stands for an abort. -/
def isAbort (e : LuaError) : Bool :=
  match e with
  | some text => occursIn (ascii "__aigate_abort__") (cString text)
  | none => false

/-- Where `lua_execute_single_script` stands: in the chunk, in the function for the event, or at
its end with its result and the text for the error buffer. -/
inductive Phase (σ κ : Type*) where
  | chunk (c : Config σ κ LuaError)
  | hook (c : Config σ κ LuaError)
  | returned (r : ExecResult) (errBuf : Bytes) (world : κ)

/-- The end of a call with an error. -/
def failedCall (e : LuaError) (default : String) (world : κ) : Phase σ κ :=
  if isAbort e then .returned .abort [] world
  else .returned .error (cString (e.getD (ascii default))) world

/-- The text is compiled in a fresh sandbox. -/
def Lua.start (lua : Lua σ κ η) (scriptCode : Bytes) (world : κ) : Phase σ κ :=
  match lua.load scriptCode with
  | .error e => .returned .error (cString (e.getD (ascii "compilation error"))) world
  | .ok s => .chunk ⟨s, world, [], maxInstructions⟩

/-- The chunk goes on, or the function for the event is called. -/
def Lua.afterChunk (lua : Lua σ κ η) (entrypoint : Bytes) : Outcome σ κ LuaError → Phase σ κ
  | .running c => .chunk c
  | .finished s world left =>
    match lua.entry s entrypoint with
    | some s => .hook ⟨s, world, [], left⟩
    | none => .returned .ok [] world
  | .failed e world => failedCall e "execution error" world

def afterHook : Outcome σ κ LuaError → Phase σ κ
  | .running c => .hook c
  | .finished _ world _ => .returned .ok [] world
  | .failed e world => failedCall e "hook runtime error" world

/-- An instruction of `lua_execute_single_script`. -/
def Lua.advance (lua : Lua σ κ η) (entrypoint : Bytes) : Phase σ κ → Phase σ κ
  | .chunk c => lua.afterChunk entrypoint (c.step lua.sandbox)
  | .hook c => afterHook (c.step lua.sandbox)
  | .returned r errBuf world => .returned r errBuf world

/-- `lua_execute_single_script` after a number of instructions. -/
def Lua.run (lua : Lua σ κ η) (scriptCode entrypoint : Bytes) (world : κ) (n : ℕ) : Phase σ κ :=
  (lua.advance entrypoint)^[n] (lua.start scriptCode world)

/-- The state of the script, while it runs. -/
def Phase.config : Phase σ κ → Option (Config σ κ LuaError)
  | .chunk c => some c
  | .hook c => some c
  | .returned _ _ _ => none

def Phase.Returned (p : Phase σ κ) : Prop := p.config = none

/-- A `pcall` of the script is in progress. -/
def Phase.InPcall (p : Phase σ κ) : Prop := ∃ c ∈ p.config, c.frames ≠ []

/-- The error of the hook is due, and the script catches it. -/
def Phase.Caught (p : Phase σ κ) : Prop := ∃ c ∈ p.config, c.left = 0 ∧ c.frames ≠ []

/-- How many instructions are left. -/
def Phase.left (p : Phase σ κ) : ℕ := (p.config.map Config.left).getD 0

/-! ### One instruction -/

theorem returned_failedCall (e : LuaError) (default : String) (world : κ) :
    (failedCall e default world : Phase σ κ).Returned := by
  unfold failedCall
  split <;> rfl

theorem returned_advance {lua : Lua σ κ η} {entrypoint : Bytes} {p : Phase σ κ}
    (h : p.Returned) : lua.advance entrypoint p = p := by
  cases p with
  | chunk c => cases h
  | hook c => cases h
  | returned r errBuf world => rfl

/-- What an instruction of the script makes of a phase. -/
theorem advance_cases (lua : Lua σ κ η) (entrypoint : Bytes) {p : Phase σ κ}
    {c : Config σ κ LuaError} (h : c ∈ p.config) :
    (∃ c', c.step lua.sandbox = .running c' ∧
      (lua.advance entrypoint p = .chunk c' ∨ lua.advance entrypoint p = .hook c')) ∨
    (∃ s world left, c.step lua.sandbox = .finished s world left ∧
      (lua.advance entrypoint p = .returned .ok [] world ∨
        ∃ s', lua.advance entrypoint p = .hook ⟨s', world, [], left⟩)) ∨
    (∃ e world default, c.step lua.sandbox = .failed e world ∧
      lua.advance entrypoint p = failedCall e default world) := by
  cases p with
  | returned r errBuf world => cases h
  | chunk c₀ =>
    obtain rfl := Option.some.inj h
    rw [Lua.advance]
    cases c₀.step lua.sandbox with
    | running c' => exact Or.inl ⟨c', rfl, Or.inl rfl⟩
    | failed e world => exact Or.inr (Or.inr ⟨e, world, "execution error", rfl, rfl⟩)
    | finished s world left =>
      refine Or.inr (Or.inl ⟨s, world, left, rfl, ?_⟩)
      rw [Lua.afterChunk]
      cases lua.entry s entrypoint with
      | none => exact Or.inl rfl
      | some s' => exact Or.inr ⟨s', rfl⟩
  | hook c₀ =>
    obtain rfl := Option.some.inj h
    rw [Lua.advance]
    cases c₀.step lua.sandbox with
    | running c' => exact Or.inl ⟨c', rfl, Or.inr rfl⟩
    | failed e world => exact Or.inr (Or.inr ⟨e, world, "hook runtime error", rfl, rfl⟩)
    | finished s world left => exact Or.inr (Or.inl ⟨s, world, left, rfl, Or.inl rfl⟩)

theorem config_advance (lua : Lua σ κ η) (entrypoint : Bytes) {p : Phase σ κ}
    {c : Config σ κ LuaError} (h : c ∈ p.config) :
    (∃ c', c.step lua.sandbox = .running c' ∧ (lua.advance entrypoint p).config = some c') ∨
    (∃ s world left, c.step lua.sandbox = .finished s world left ∧
      ∀ c' ∈ (lua.advance entrypoint p).config, c'.left = left ∧ c'.frames = []) ∨
    (∃ e world, c.step lua.sandbox = .failed e world ∧
      (lua.advance entrypoint p).Returned) := by
  rcases advance_cases lua entrypoint h with ⟨c', hstep, hnext⟩ |
    ⟨s, world, left, hstep, hnext⟩ | ⟨e, world, default, hstep, hnext⟩
  · refine Or.inl ⟨c', hstep, ?_⟩
    rcases hnext with hnext | hnext <;> rw [hnext] <;> rfl
  · refine Or.inr (Or.inl ⟨s, world, left, hstep, fun c' hc' => ?_⟩)
    rcases hnext with hnext | ⟨s', hnext⟩
    · rw [hnext] at hc'
      cases hc'
    · rw [hnext] at hc'
      obtain rfl := Option.some.inj hc'
      exact ⟨rfl, rfl⟩
  · refine Or.inr (Or.inr ⟨e, world, hstep, ?_⟩)
    rw [hnext]
    exact returned_failedCall e default world

/-- An instruction takes one from the count. -/
theorem left_advance {lua : Lua σ κ η} {entrypoint : Bytes} {p : Phase σ κ}
    {c c' : Config σ κ LuaError} (h : c ∈ p.config) (hleft : c.left ≠ 0)
    (h' : c' ∈ (lua.advance entrypoint p).config) : c'.left + 1 = c.left := by
  rcases config_advance lua entrypoint h with
    ⟨c₁, hstep, hc₁⟩ | ⟨s, world, n, hstep, hall⟩ | ⟨e, world, -, hret⟩
  · obtain rfl := Option.some.inj (hc₁.symm.trans h')
    exact left_step hleft (by rw [hstep]; rfl)
  · rw [(hall c' h').1]
    exact left_step hleft (by rw [hstep]; rfl)
  · rw [hret] at h'
    cases h'

/-- The state of the host. -/
def Phase.world : Phase σ κ → κ
  | .chunk c => c.world
  | .hook c => c.world
  | .returned _ _ world => world

theorem world_failedCall (e : LuaError) (default : String) (world : κ) :
    (failedCall e default world : Phase σ κ).world = world := by
  unfold failedCall
  split <;> rfl

theorem world_of_config {p : Phase σ κ} {c : Config σ κ LuaError} (h : c ∈ p.config) :
    p.world = c.world := by
  cases p with
  | chunk c₀ => exact congrArg Config.world (Option.some.inj h)
  | hook c₀ => exact congrArg Config.world (Option.some.inj h)
  | returned r errBuf world => cases h

theorem world_advance (lua : Lua σ κ η) (entrypoint : Bytes) {p : Phase σ κ}
    {c : Config σ κ LuaError} (h : c ∈ p.config) :
    (lua.advance entrypoint p).world = (c.step lua.sandbox).world := by
  rcases advance_cases lua entrypoint h with ⟨c', hstep, hnext⟩ |
    ⟨s, world, left, hstep, hnext⟩ | ⟨e, world, default, hstep, hnext⟩
  · rcases hnext with hnext | hnext <;> rw [hnext, hstep] <;> rfl
  · rcases hnext with hnext | ⟨s', hnext⟩ <;> rw [hnext, hstep] <;> rfl
  · rw [hnext, hstep]
    exact world_failedCall e default world

theorem failedCall_abort {e : LuaError} {default : String} {w w' : κ} {errBuf : Bytes}
    (h : (failedCall e default w : Phase σ κ) = .returned .abort errBuf w') :
    isAbort e = true := by
  unfold failedCall at h
  split at h
  · assumption
  · cases h

/-- The result is an abort exactly if the error that leaves the script stands for one. -/
theorem advance_abort_iff (lua : Lua σ κ η) (entrypoint : Bytes) {p : Phase σ κ}
    {c : Config σ κ LuaError} (h : c ∈ p.config) :
    (∃ errBuf world, lua.advance entrypoint p = .returned .abort errBuf world) ↔
      ∃ e world, c.step lua.sandbox = .failed e world ∧ isAbort e = true := by
  constructor
  · rintro ⟨errBuf, world', habort⟩
    rcases advance_cases lua entrypoint h with ⟨c', -, hnext⟩ |
      ⟨s, world, left, -, hnext⟩ | ⟨e, world, default, hstep, hnext⟩
    · rcases hnext with hnext | hnext <;> cases habort.symm.trans hnext
    · rcases hnext with hnext | ⟨s', hnext⟩ <;> cases habort.symm.trans hnext
    · exact ⟨e, world, hstep, failedCall_abort (hnext.symm.trans habort)⟩
  · rintro ⟨e', world', hfailed, habort⟩
    rcases advance_cases lua entrypoint h with ⟨c', hstep, -⟩ |
      ⟨s, world, left, hstep, -⟩ | ⟨e, world, default, hstep, hnext⟩
    · cases hfailed.symm.trans hstep
    · cases hfailed.symm.trans hstep
    · obtain ⟨rfl, rfl⟩ := Outcome.failed.inj (hfailed.symm.trans hstep)
      exact ⟨[], world', hnext.trans (if_pos habort)⟩

/-- Without an instruction left the script ends, if no `pcall` is in progress, and goes on
otherwise. -/
theorem returned_advance_iff {lua : Lua σ κ η} {entrypoint : Bytes} {p : Phase σ κ}
    {c : Config σ κ LuaError} (h : c ∈ p.config) (hleft : c.left = 0) :
    (lua.advance entrypoint p).Returned ↔ c.frames = [] := by
  have hstep := step_of_done (m := lua.sandbox) hleft
  unfold Config.unwind at hstep
  dsimp only at hstep
  cases hframes : c.frames with
  | nil =>
    rw [hframes] at hstep
    refine iff_of_true ?_ rfl
    rcases config_advance lua entrypoint h with
      ⟨c₁, h₁, -⟩ | ⟨s, world, n, h₁, -⟩ | ⟨e, world, -, hret⟩
    · cases hstep.symm.trans h₁
    · cases hstep.symm.trans h₁
    · exact hret
  | cons after frames =>
    rw [hframes] at hstep
    refine iff_of_false ?_ (List.cons_ne_nil _ _)
    rcases config_advance lua entrypoint h with
      ⟨c₁, -, hc₁⟩ | ⟨s, world, n, h₁, -⟩ | ⟨e, world, h₁, -⟩
    · intro hret
      rw [hret] at hc₁
      cases hc₁
    · cases hstep.symm.trans h₁
    · cases hstep.symm.trans h₁

/-! ### The run -/

/-- A script that starts has all instructions left, and no `pcall` is in progress. -/
theorem config_start {lua : Lua σ κ η} {scriptCode : Bytes} {world : κ}
    {c : Config σ κ LuaError} (h : c ∈ (lua.start scriptCode world).config) :
    c.left = maxInstructions ∧ c.frames = [] := by
  unfold Lua.start at h
  split at h
  · cases h
  · obtain rfl := Option.some.inj h
    exact ⟨rfl, rfl⟩

theorem run_succ (lua : Lua σ κ η) (scriptCode entrypoint : Bytes) (world : κ) (n : ℕ) :
    lua.run scriptCode entrypoint world (n + 1) =
      lua.advance entrypoint (lua.run scriptCode entrypoint world n) :=
  Function.iterate_succ_apply' _ _ _

/-- The script has returned to its caller at some time. -/
def Lua.Terminates (lua : Lua σ κ η) (scriptCode entrypoint : Bytes) (world : κ) : Prop :=
  ∃ n, (lua.run scriptCode entrypoint world n).Returned

/-- Control has left the script once the instructions and the hook have been executed. -/
def Lua.LeavesInTime (lua : Lua σ κ η) (scriptCode entrypoint : Bytes) (world : κ) : Prop :=
  (lua.run scriptCode entrypoint world (maxInstructions + 1)).Returned

theorem terminates_iff (lua : Lua σ κ η) (scriptCode entrypoint : Bytes) (world : κ) :
    lua.Terminates scriptCode entrypoint world ↔
      ∃ b, ∀ n ≥ b, ¬(lua.run scriptCode entrypoint world n).Caught := by
  refine ends_iff Phase.left (fun n hn => ?_) (fun n hn => ?_) fun n hn hcaught => ?_
  · rw [run_succ, returned_advance hn]
    exact hn
  · rintro ⟨c, hc, -⟩
    rw [hn] at hc
    cases hc
  · rw [run_succ] at hn ⊢
    obtain ⟨c', hc'⟩ := Option.ne_none_iff_exists'.mp hn
    have hrunning : ¬(lua.run scriptCode entrypoint world n).Returned := fun hret =>
      hn (by rw [returned_advance hret]; exact hret)
    obtain ⟨c, hc⟩ := Option.ne_none_iff_exists'.mp hrunning
    have hleft : c.left ≠ 0 := fun hzero => by
      have hframes : c.frames = [] := by
        by_contra hne
        exact hcaught ⟨c, hc, hzero, hne⟩
      exact hn ((returned_advance_iff hc hzero).mpr hframes)
    have hlt := left_advance hc hleft hc'
    rw [Phase.left, Phase.left, hc', hc]
    dsimp only [Option.map_some, Option.getD_some]
    omega

/-- Up to the limit each instruction of a running script is counted. -/
theorem left_run (lua : Lua σ κ η) (scriptCode entrypoint : Bytes) (world : κ) {n : ℕ}
    (hn : n ≤ maxInstructions) {c : Config σ κ LuaError}
    (hc : c ∈ (lua.run scriptCode entrypoint world n).config) : c.left + n = maxInstructions := by
  induction n generalizing c with
  | zero => exact (config_start hc).1
  | succ n ih =>
    rw [run_succ] at hc
    cases hbefore : (lua.run scriptCode entrypoint world n).config with
    | none =>
      rw [returned_advance hbefore, hbefore] at hc
      cases hc
    | some c₀ =>
      have hcount := ih (Nat.le_of_succ_le hn) hbefore
      have hless := left_advance hbefore (by omega) hc
      omega

theorem leavesInTime_iff (lua : Lua σ κ η) (scriptCode entrypoint : Bytes) (world : κ) :
    lua.LeavesInTime scriptCode entrypoint world ↔
      ¬(lua.run scriptCode entrypoint world maxInstructions).InPcall := by
  unfold Lua.LeavesInTime
  rw [run_succ]
  cases hconfig : (lua.run scriptCode entrypoint world maxInstructions).config with
  | none =>
    refine iff_of_true ?_ ?_
    · rw [returned_advance hconfig]
      exact hconfig
    · rintro ⟨c, hc, -⟩
      rw [hconfig] at hc
      cases hc
  | some c =>
    have hcount := left_run lua scriptCode entrypoint world (Nat.le_refl _) hconfig
    rw [returned_advance_iff hconfig (by omega)]
    constructor
    · rintro hframes ⟨c', hc', hne⟩
      obtain rfl := Option.some.inj (hconfig.symm.trans hc')
      exact hne hframes
    · intro hnot
      by_contra hne
      exact hnot ⟨c, hconfig, hne⟩

/-- A script without protected calls never has one in progress. -/
theorem frames_run (lua : Lua σ κ η) (hplain : ∀ s body after, lua.act s ≠ .protect body after)
    (scriptCode entrypoint : Bytes) (world : κ) (n : ℕ) :
    ¬(lua.run scriptCode entrypoint world n).InPcall := by
  induction n with
  | zero =>
    rintro ⟨c, hc, hne⟩
    exact hne (config_start hc).2
  | succ n ih =>
    rintro ⟨c', hc', hne⟩
    rw [run_succ] at hc'
    cases hbefore : (lua.run scriptCode entrypoint world n).config with
    | none =>
      rw [returned_advance hbefore, hbefore] at hc'
      cases hc'
    | some c =>
      have hframes : c.frames = [] := by
        by_contra hframes
        exact ih ⟨c, hbefore, hframes⟩
      rcases config_advance lua entrypoint hbefore with
        ⟨c₁, hstep, hc₁⟩ | ⟨s, w, k, -, hall⟩ | ⟨e, w, -, hret⟩
      · obtain rfl := Option.some.inj (hc₁.symm.trans hc')
        exact hne (frames_step hplain hframes hstep)
      · exact hne (hall c' hc').2
      · rw [hret] at hc'
        cases hc'

/-- A script returns exactly if it catches the error of the hook finitely often, and control
leaves it in time exactly if no `pcall` of it is in progress when the instructions have been
executed, as in a script without `pcall`. -/
theorem script_returns_iff (lua : Lua σ κ η) (scriptCode entrypoint : Bytes) (world : κ) :
    (lua.Terminates scriptCode entrypoint world ↔
      ∃ b, ∀ n ≥ b, ¬(lua.run scriptCode entrypoint world n).Caught) ∧
    (lua.LeavesInTime scriptCode entrypoint world ↔
      ¬(lua.run scriptCode entrypoint world maxInstructions).InPcall) ∧
    ((∀ s body after, lua.act s ≠ .protect body after) →
      lua.LeavesInTime scriptCode entrypoint world) :=
  ⟨terminates_iff lua scriptCode entrypoint world,
    leavesInTime_iff lua scriptCode entrypoint world,
    fun hplain => (leavesInTime_iff lua scriptCode entrypoint world).mpr
      (frames_run lua hplain scriptCode entrypoint world maxInstructions)⟩

/-! ### The control flow of scripts -/

/-- The statements of a script that matter to its control. -/
inductive Stmt (η : Type) where
  | skip
  | seq (first second : Stmt η)
  | whileTrue (body : Stmt η)
  | call (function : Bytes)
  | host (h : η)
  | pcall (body : Stmt η)
  | error (e : LuaError)

/-- The first of the statements that are left to execute; a body that ends leaves its call. -/
def control {η : Type} (functions : Bytes → Stmt η) :
    List (Stmt η) → Act (List (Stmt η)) κ η LuaError
  | [] => .leave []
  | .skip :: rest => .next rest
  | .seq first second :: rest => .next (first :: second :: rest)
  | .whileTrue body :: rest => .next (body :: .whileTrue body :: rest)
  | .call function :: rest => .next (functions function :: rest)
  | .host h :: rest => .call h fun _ => rest
  | .pcall body :: rest => .protect [body] fun _ _ => rest
  | .error e :: _ => .raise e

def spinText : Bytes :=
  ascii "while true do pcall(function() while true do end end) end"

/-- Lua with this text, without functions of the host. -/
def spinning : Lua (List (Stmt Empty)) Unit Empty where
  load text :=
    if text = spinText then .ok [.whileTrue (.pcall (.whileTrue .skip))]
    else .error (some (ascii "syntax error"))
  act := control fun _ => .skip
  host h := nomatch h
  entry _ _ := none

/-- Where the run stands: in front of the loop with all instructions left, in front of the
protected call, or in the inner loop. -/
def Spins (c : Config (List (Stmt Empty)) Unit LuaError) : Prop :=
  (c.frames = [] ∧ c.left = maxInstructions ∧
    c.state = [.whileTrue (.pcall (.whileTrue .skip))]) ∨
  (c.frames = [] ∧ c.left + 1 = maxInstructions ∧
    c.state = [.pcall (.whileTrue .skip), .whileTrue (.pcall (.whileTrue .skip))]) ∨
  (c.frames = [fun _ _ => [.whileTrue (.pcall (.whileTrue .skip))]] ∧
    (c.state = [.whileTrue .skip] ∨ c.state = [.skip, .whileTrue .skip]))

theorem Spins.step {c : Config (List (Stmt Empty)) Unit LuaError} (h : Spins c) :
    ∃ c', c.step spinning.sandbox = .running c' ∧ Spins c' := by
  obtain ⟨state, world, frames, left⟩ := c
  rcases h with ⟨hframes, hleft, hstate⟩ | ⟨hframes, hleft, hstate⟩ | ⟨hframes, hstate⟩
  · dsimp only at hframes hleft hstate
    subst hframes hleft hstate
    exact ⟨_, rfl, Or.inr (Or.inl ⟨rfl, rfl, rfl⟩)⟩
  · dsimp only at hframes hleft hstate
    obtain rfl : left = 199999 := by
      rw [maxInstructions] at hleft
      omega
    subst hframes hstate
    exact ⟨_, rfl, Or.inr (Or.inr ⟨rfl, Or.inl rfl⟩)⟩
  · dsimp only at hframes hstate
    subst hframes
    cases left with
    | zero => exact ⟨_, rfl, Or.inl ⟨rfl, rfl, rfl⟩⟩
    | succ left =>
      rcases hstate with hstate | hstate
      · subst hstate
        exact ⟨_, rfl, Or.inr (Or.inr ⟨rfl, Or.inr rfl⟩)⟩
      · subst hstate
        exact ⟨_, rfl, Or.inr (Or.inr ⟨rfl, Or.inl rfl⟩)⟩

/-- A script that catches the error of the hook in a loop does not return. -/
theorem not_terminates_spin : ¬spinning.Terminates spinText (ascii "on_request") () := by
  have hstart : spinning.start spinText () =
      .chunk ⟨[.whileTrue (.pcall (.whileTrue .skip))], (), [], maxInstructions⟩ := by
    simp [Lua.start, spinning]
  have hall : ∀ n, ∃ c, spinning.run spinText (ascii "on_request") () n = .chunk c ∧ Spins c := by
    intro n
    induction n with
    | zero => exact ⟨_, hstart, Or.inl ⟨rfl, rfl, rfl⟩⟩
    | succ n ih =>
      obtain ⟨c, hrun, hspins⟩ := ih
      obtain ⟨c', hstep, hspins'⟩ := hspins.step
      refine ⟨c', ?_, hspins'⟩
      rw [run_succ, hrun, Lua.advance, hstep]
      rfl
  rintro ⟨n, hn⟩
  obtain ⟨c, hrun, -⟩ := hall n
  rw [hrun] at hn
  cases hn

end Aigate.LuaSandbox
