import DriverSF.PendingCommand

namespace DriverSF

variable {W : Type} {g : Game W} {L L' : LuaState W}

/-- The game leaves the DLL's own variables alone: nothing it runs causes a further hook
call, and no other thread submits meanwhile. -/
structure Quiet (g : Game W) : Prop where
  gettable : ∀ env t k, (g.gettable env t k).1.vars = env.vars
  settable : ∀ env t k v, (g.settable env t k v).vars = env.vars
  newCclosure : ∀ env fn, (g.newCclosure env fn).1.vars = env.vars
  parser : ∀ env chunk name, (g.parser env chunk name).1.vars = env.vars
  call : ∀ env handler func args, (g.call env handler func args).1.vars = env.vars

example : Quiet (W := Unit) ⟨fun _ => [], fun env _ _ => (env, .nil), fun env _ _ _ => env,
    fun env _ => (env, 0), fun env _ _ => (env, .ok 0), fun env _ _ _ => (env, .ok [])⟩ :=
  ⟨fun _ _ _ => rfl, fun _ _ _ _ => rfl, fun _ _ => rfl, fun _ _ _ => rfl, fun _ _ _ _ => rfl⟩

/-- The variables of the hook that the session machine has too. -/
structure HookVars where
  buffer : Bytes
  execute : Bool
  configMenuEnable : Bool
  gameRunningHookComplete : Bool

def Vars.shared (vars : Vars) : HookVars :=
  ⟨vars.buffer, vars.execute, vars.configMenuEnable, vars.gameRunningHookComplete⟩

def Session.shared (s : Session) : HookVars :=
  ⟨s.buffer, s.execute, s.configMenuEnable, s.gameRunningHookComplete⟩

def HookVars.setDone (v : HookVars) : Startup → HookVars
  | .configMenu => { v with configMenuEnable := false }
  | .bootstrap => { v with gameRunningHookComplete := true }

def LuaState.shared (L : LuaState W) : HookVars := L.env.vars.shared

theorem loggerDll_shared (L : LuaState W) (context message : Bytes) :
    (loggerDll L context message).shared = L.shared := rfl

theorem luaSettop_env {idx : Int} (h : luaSettop L idx = some L') : L'.env = L.env := by
  unfold luaSettop at h
  split at h <;> split at h
  next => cases Option.some.inj h; rfl
  next => simp at h
  next => cases Option.some.inj h; rfl
  next => simp at h

theorem luaPop_shared {n : Nat} (h : luaPop L n = some L') : L'.shared = L.shared := by
  rw [LuaState.shared, luaSettop_env h, LuaState.shared]

theorem luaTolstring_env {idx : Int} {s : Option Bytes} (h : luaTolstring g L idx = some (s, L')) :
    L'.env = L.env := by
  obtain ⟨o, _, h⟩ := Option.bind_eq_some_iff.mp h
  split at h
  next => cases Option.some.inj h; rfl
  next =>
    obtain ⟨p, _, h⟩ := Option.bind_eq_some_iff.mp h
    cases Option.some.inj h
    rfl
  next => cases Option.some.inj h; rfl

theorem luaGetupvalue_env {funcindex : Int} {n : Nat} {name : Option Bytes}
    (h : luaGetupvalue L funcindex n = some (name, L')) : L'.env = L.env := by
  obtain ⟨fi, _, h⟩ := Option.bind_eq_some_iff.mp h
  split at h <;> cases Option.some.inj h <;> rfl

theorem findUpvalueString_env {index : Int} {upvalueName s : Bytes} {rounds i : Nat}
    (h : findUpvalueString g index upvalueName rounds L i = some (s, L')) : L'.env = L.env := by
  induction rounds generalizing L i with
  | zero => simp [findUpvalueString] at h
  | succ rounds ih =>
    obtain ⟨⟨name, L1⟩, found, h⟩ := Option.bind_eq_some_iff.mp h
    have same := luaGetupvalue_env found
    cases name with
    | none => cases Option.some.inj h; exact same
    | some currentName =>
      simp only at h
      split at h
      next =>
        obtain ⟨t, _, h⟩ := Option.bind_eq_some_iff.mp h
        split at h
        next =>
          obtain ⟨⟨str, L2⟩, read, h⟩ := Option.bind_eq_some_iff.mp h
          cases Option.some.inj h
          exact (luaTolstring_env read).trans same
        next => cases Option.some.inj h; exact same
      next =>
        obtain ⟨L2, popped, h⟩ := Option.bind_eq_some_iff.mp h
        exact (ih h).trans ((luaSettop_env popped).trans same)

theorem getUpvalueString_shared {funcIndex : Int} {upvalueName s : Bytes}
    (h : getUpvalueString g L funcIndex upvalueName = some (s, L')) : L'.shared = L.shared := by
  obtain ⟨t, _, h⟩ := Option.bind_eq_some_iff.mp h
  split at h
  next => cases Option.some.inj h; rfl
  next =>
    obtain ⟨⟨result, L1⟩, found, h⟩ := Option.bind_eq_some_iff.mp h
    obtain ⟨L2, restored, h⟩ := Option.bind_eq_some_iff.mp h
    cases Option.some.inj h
    rw [LuaState.shared, luaSettop_env restored, findUpvalueString_env found, LuaState.shared]

theorem luaGetfield_shared (quiet : Quiet g) {idx : Int} {k : Bytes}
    (h : luaGetfield g L idx k = some L') : L'.shared = L.shared := by
  obtain ⟨o, _, h⟩ := Option.bind_eq_some_iff.mp h
  obtain ⟨t, _, h⟩ := Option.bind_eq_some_iff.mp h
  cases Option.some.inj h
  exact congrArg Vars.shared (quiet.gettable L.env t k)

theorem luaSetfield_shared (quiet : Quiet g) {idx : Int} {k : Bytes}
    (h : luaSetfield g L idx k = some L') : L'.shared = L.shared := by
  obtain ⟨o, _, h⟩ := Option.bind_eq_some_iff.mp h
  obtain ⟨t, _, h⟩ := Option.bind_eq_some_iff.mp h
  obtain ⟨o', _, h⟩ := Option.bind_eq_some_iff.mp h
  obtain ⟨v, _, h⟩ := Option.bind_eq_some_iff.mp h
  exact (luaPop_shared h).trans (congrArg Vars.shared (quiet.settable L.env t k v))

theorem setCfunctionInTable_shared (quiet : Quiet g) {tableIndex : Int} {fieldName : Bytes}
    {func : CFunction} (h : setCfunctionInTable g L tableIndex fieldName func = some L') :
    L'.shared = L.shared :=
  (luaSetfield_shared quiet h).trans (congrArg Vars.shared (quiet.newCclosure L.env func))

theorem setCfunctionsInTop_shared (quiet : Quiet g) {fields : List (Bytes × CFunction)}
    (h : setCfunctionsInTop g L fields = some L') : L'.shared = L.shared := by
  induction fields generalizing L with
  | nil => cases Option.some.inj h; rfl
  | cons field rest ih =>
    obtain ⟨L1, stored, h⟩ := Option.bind_eq_some_iff.mp h
    exact (ih h).trans (setCfunctionInTable_shared quiet stored)

theorem overridePrint_shared (quiet : Quiet g) (h : overridePrint g L = some L') :
    L'.shared = L.shared := by
  unfold overridePrint at h
  split at h
  next => cases Option.some.inj h; rfl
  next =>
    obtain ⟨L1, stored, h⟩ := Option.bind_eq_some_iff.mp h
    cases Option.some.inj h
    have same := setCfunctionInTable_shared quiet stored
    exact same

theorem overrideDevelopment_shared (quiet : Quiet g) (h : overrideDevelopment g L = some L') :
    L'.shared = L.shared := by
  unfold overrideDevelopment at h
  split at h
  next => cases Option.some.inj h; rfl
  next =>
    obtain ⟨L1, read, h⟩ := Option.bind_eq_some_iff.mp h
    have same := luaGetfield_shared quiet read
    obtain ⟨t, _, h⟩ := Option.bind_eq_some_iff.mp h
    split at h
    next =>
      obtain ⟨L2, stored, h⟩ := Option.bind_eq_some_iff.mp h
      have same' := setCfunctionsInTop_shared quiet stored
      exact (luaPop_shared h).trans (same'.trans same)
    next => exact (luaPop_shared h).trans same

theorem checkLuaStatus_shared {status : Int} {info : Bytes} {ok : Bool}
    (h : checkLuaStatus g L status info = some (ok, L')) :
    ok = decide (status = 0) ∧ L'.shared = L.shared := by
  unfold checkLuaStatus at h
  split at h
  next error =>
    obtain ⟨⟨msg, L1⟩, read, h⟩ := Option.bind_eq_some_iff.mp h
    obtain ⟨L2, popped, h⟩ := Option.bind_eq_some_iff.mp h
    cases Option.some.inj h
    have same : L1.shared = L.shared := congrArg (Vars.shared ∘ Env.vars) (luaTolstring_env read)
    exact ⟨by simp [error], (luaPop_shared popped).trans same⟩
  next ok =>
    cases Option.some.inj h
    exact ⟨by simpa using ok, rfl⟩

theorem executeLuaExit_shared {top : Nat} {ok ran : Bool}
    (h : executeLuaExit L top ok = some (ran, L')) :
    ran = ok ∧ L'.shared = { L.shared with buffer := [] } := by
  obtain ⟨L1, restored, h⟩ := Option.bind_eq_some_iff.mp h
  cases Option.some.inj h
  refine ⟨rfl, ?_⟩
  simp only [LuaState.shared, LuaState.modifyVars, luaSettop_env restored, Vars.shared]

theorem luaPcall_outcome {nargs : Nat} {nresults errfunc status : Int}
    (h : luaPcall g L nargs nresults errfunc = some (status, L')) :
    ∃ handler func args below, L'.env = (g.call L.env handler func args).1 ∧
      status = ((g.call L.env handler func args).2.apply nresults below).1 := by
  rcases top : L.stack.drop nargs with _ | ⟨func, below⟩
  · by_cases e : errfunc = 0 <;> simp [luaPcall, top, e] at h
  · by_cases room : L.floor ≤ below.length
    · by_cases e : errfunc = 0
      · simp only [luaPcall, top, e, if_true, if_pos room] at h
        cases Option.some.inj h
        exact ⟨none, func, (L.stack.take nargs).reverse, below, rfl, rfl⟩
      · simp only [luaPcall, top, e, if_false, if_pos room] at h
        obtain ⟨handler, _, h⟩ := Option.bind_eq_some_iff.mp h
        cases Option.some.inj h
        exact ⟨handler, func, (L.stack.take nargs).reverse, below, rfl, rfl⟩
    · by_cases e : errfunc = 0 <;> simp [luaPcall, top, e, room] at h

theorem luaPcall_shared (quiet : Quiet g) {nargs : Nat} {nresults errfunc status : Int}
    (h : luaPcall g L nargs nresults errfunc = some (status, L')) : L'.shared = L.shared := by
  obtain ⟨handler, func, args, below, env, _⟩ := luaPcall_outcome h
  rw [LuaState.shared, env, quiet.call]
  rfl

def CallOutcome.succeeded : CallOutcome → Bool
  | .ok _ => true
  | .error _ _ => false

theorem CallOutcome.decide_status (o : CallOutcome) (nresults : Int) (below : List Value) :
    decide ((o.apply nresults below).1 = 0) = o.succeeded := by
  cases o with
  | ok results => rfl
  | error e obj => simp [CallOutcome.apply, CallOutcome.succeeded, e.status_ne_zero]

/-- What the game makes of a chunk: the outcome of the parser, and then of the chunk. -/
inductive ChunkRun where
  | loadError (e : LuaError) (message : Value)
  | ran (closure : Nat) (o : CallOutcome)

def ChunkRun.succeeded : ChunkRun → Bool
  | .loadError _ _ => false
  | .ran _ o => o.succeeded

theorem callLoadedChunk_shared (quiet : Quiet g) {top : Nat} {name : Bytes} {ran : Bool}
    (h : callLoadedChunk g ⟨true, true⟩ L top name = some (ran, L')) :
    (∃ o : CallOutcome, ran = o.succeeded) ∧ L'.shared = { L.shared with buffer := [] } := by
  obtain ⟨⟨status, L1⟩, called, h⟩ := Option.bind_eq_some_iff.mp h
  obtain ⟨⟨ok, L2⟩, checked, h⟩ := Option.bind_eq_some_iff.mp h
  obtain ⟨rfl, same⟩ := checkLuaStatus_shared checked
  obtain ⟨rfl, cleared⟩ := executeLuaExit_shared h
  rw [oLuaPcall, if_pos rfl] at called
  obtain ⟨handler, func, args, below, _, rfl⟩ := luaPcall_outcome called
  refine ⟨⟨_, CallOutcome.decide_status _ 0 below⟩, ?_⟩
  rw [cleared, same, luaPcall_shared quiet called]

theorem executeBuffer_shared (quiet : Quiet g) {ran : Bool} {name : Bytes}
    (h : executeBuffer g ⟨true, true⟩ L name = some (ran, L')) :
    (∃ r : ChunkRun, ran = r.succeeded) ∧ L'.shared = { L.shared with buffer := [] } := by
  have kept := quiet.parser L.env L.env.vars.buffer name
  rcases parsed : g.parser L.env L.env.vars.buffer name with ⟨env, o⟩
  simp only [executeBuffer, lualLoadbufferOverride, luaLoadOverride, hookCall, if_true,
    luadProtectedparser, Option.getD_some, parsed] at h kept
  obtain ⟨⟨ok, L1⟩, checked, h⟩ := Option.bind_eq_some_iff.mp h
  obtain ⟨rfl, same⟩ := checkLuaStatus_shared checked
  have before : L1.shared = L.shared := same.trans (congrArg Vars.shared kept)
  cases o with
  | error e message =>
    simp only [ParserOutcome.apply, e.status_ne_zero, decide_false, Bool.false_eq_true,
      if_false] at h
    obtain ⟨rfl, cleared⟩ := executeLuaExit_shared h
    exact ⟨⟨.loadError e message, rfl⟩, by rw [cleared, before]⟩
  | ok closure =>
    simp only [ParserOutcome.apply, decide_true, if_true] at h
    obtain ⟨⟨o, rfl⟩, cleared⟩ := callLoadedChunk_shared quiet h
    exact ⟨⟨.ran closure o, rfl⟩, by rw [cleared, before]⟩

/-- The session machine stands in the hook with the variables that the function has. -/
structure Agrees (v : HookVars) (s : Session) : Prop where
  hooks : s.hooks = ⟨true, true⟩
  shared : s.shared = v

abbrev HookRun (s s' : Session) : Prop :=
  Trace.Reaches step (fun a => a.ofGameThread true = true) s s'

/-- Where a hook call is after it has served the mailbox in a stage. -/
def Frame.after (f : Frame) (text : Bytes) : Stage → Bool → List Frame
  | .startup startup, true => [{ f with pc := .setFlag startup text }]
  | stage, _ => f.next stage

/-- The steps of `execute_lua` from the load on. -/
def ChunkRun.rest : ChunkRun → List Action
  | .loadError e message => [.load (.error e message), .clearBuffer]
  | .ran closure o => [.load (.ok closure), .call, .finish o, .clearBuffer]

theorem ChunkRun.rest_ofGameThread (r : ChunkRun) : ∀ a ∈ r.rest, a.ofGameThread true = true := by
  cases r <;> simp [ChunkRun.rest, Action.ofGameThread]

theorem exec_chunkRun {s : Session} {f : Frame} {rest : List Frame} {stage : Stage}
    (hooks : s.hooks = ⟨true, true⟩) (frames : s.frames = f :: rest) (pc : f.pc = .load stage)
    (r : ChunkRun) :
    ∃ s' f', Trace.exec step s r.rest = some s' ∧
      Agrees { s.shared with buffer := [] } s' ∧
      s'.frames = Frame.after f' s.buffer stage r.succeeded ++ rest := by
  let clearing (ok : Bool) : Frame :=
    { f with pc := .clearBuffer stage s.buffer ok, slots := setTop f.top f.slots }
  cases r with
  | loadError e message =>
    refine ⟨_, clearing false, by simp [ChunkRun.rest, Trace.exec, step, frames, hookStep, pc,
      hooks, hookCall, ParserOutcome.apply, e.status_ne_zero]; rfl, ⟨rfl, rfl⟩, ?_⟩
    cases stage <;> rfl
  | ran closure o =>
    cases o with
    | ok results =>
      refine ⟨_, clearing true, by simp [ChunkRun.rest, Trace.exec, step, frames, hookStep, pc,
        hooks, hookCall, ParserOutcome.apply, CallOutcome.apply]; rfl, ⟨rfl, rfl⟩, ?_⟩
      cases stage <;> rfl
    | error e obj =>
      refine ⟨_, clearing false, by simp [ChunkRun.rest, Trace.exec, step, frames, hookStep, pc,
        hooks, hookCall, ParserOutcome.apply, CallOutcome.apply, e.status_ne_zero]; rfl,
        ⟨rfl, rfl⟩, ?_⟩
      cases stage <;> rfl

theorem executeLua_agrees {s : Session} {f : Frame} {rest : List Frame} {stage : Stage}
    {name : Bytes} {ran : Bool} (quiet : Quiet g) (agrees : Agrees L.shared s)
    (frames : s.frames = f :: rest) (pc : f.pc = .testExecute stage)
    (h : executeLua g ⟨true, true⟩ L name = some (ran, L')) :
    ∃ s' f' text, HookRun s s' ∧ Agrees L'.shared s' ∧
      s'.frames = Frame.after f' text stage ran ++ rest := by
  have same : s.execute = L.env.vars.execute := congrArg HookVars.execute agrees.shared
  unfold executeLua at h
  split at h
  next execute =>
    obtain ⟨⟨r, rfl⟩, cleared⟩ := executeBuffer_shared quiet h
    let loading : Session := { s with
      execute := false
      frames := { f with pc := .load stage, top := f.slots.length } :: rest }
    have start : Trace.exec step s [.testExecute, .clearExecute] = some loading := by
      simp [Trace.exec, step, frames, hookStep, pc, same.trans execute, loading]
    obtain ⟨s', f', served, after, at'⟩ := exec_chunkRun (s := loading) agrees.hooks rfl rfl r
    have vars : L'.shared = { loading.shared with buffer := [] } := by
      rw [cleared]
      have shared : s.shared = L.shared := agrees.shared
      simp only [LuaState.shared, Session.shared, Vars.shared, HookVars.mk.injEq] at shared
      simp [LuaState.shared, LuaState.modifyVars, Vars.shared, Session.shared, loading, shared]
    have taken : HookRun s loading := ⟨_, by simp [Action.ofGameThread], start⟩
    exact ⟨s', f', s.buffer, taken.trans ⟨_, r.rest_ofGameThread, served⟩, vars ▸ after, at'⟩
  next execute =>
    cases Option.some.inj h
    refine ⟨{ s with frames := f.next stage ++ rest }, f, [],
      .single (a := .testExecute) rfl ?_, ⟨agrees.hooks, agrees.shared⟩, ?_⟩
    · simp [step, frames, hookStep, pc, same, execute]
    · cases stage <;> rfl

theorem startup_agrees {s : Session} {f : Frame} {rest : List Frame} {stage : Startup}
    {name : Bytes} {ran : Bool} (quiet : Quiet g) (agrees : Agrees L.shared s)
    (frames : s.frames = f :: rest) (pc : f.pc = .guard stage) (wants : s.wants stage true = true)
    (h : executeLua g ⟨true, true⟩ (L.modifyVars fun vars => executeLuaBuffer vars stage.chunk) name =
      some (ran, L')) :
    ∃ s' f', HookRun s s' ∧ Agrees (if ran then L'.shared.setDone stage else L'.shared) s' ∧
      s'.frames = Frame.next f' (.startup stage) ++ rest := by
  let stored : Session := { s with
    buffer := stage.chunk
    execute := true
    ledger := (s.ledger.store stage.chunk).complete s.ledger.texts.length
    frames := { f with pc := .testExecute (.startup stage) } :: rest }
  have start : Trace.exec step s [.guard true, .storeBuffer, .storeExecute] = some stored := by
    simp [Trace.exec, step, frames, hookStep, pc, wants, stored]
  have agrees' : Agrees (L.modifyVars fun vars => executeLuaBuffer vars stage.chunk).shared
      stored := by
    have shared : s.shared = L.shared := agrees.shared
    simp only [LuaState.shared, Session.shared, Vars.shared, HookVars.mk.injEq] at shared
    refine ⟨agrees.hooks, ?_⟩
    simp [LuaState.shared, LuaState.modifyVars, executeLuaBuffer, Vars.shared, Session.shared,
      stored, shared]
  obtain ⟨s', f', text, served, after, at'⟩ := executeLua_agrees quiet agrees' rfl rfl h
  have entered : HookRun s stored := ⟨_, by simp [Action.ofGameThread], start⟩
  cases ran with
  | false => exact ⟨s', f', entered.trans served, after, at'⟩
  | true =>
    have flag : step s' .setFlag = some { s'.setDone stage with
        ledger := { s'.ledger with flagged := (f'.number, stage, text) :: s'.ledger.flagged }
        frames := Frame.next { f' with pc := .setFlag stage text } (.startup stage) ++ rest } := by
      simp [step, at', Frame.after, hookStep]
    refine ⟨_, _, (entered.trans served).trans (.single (a := .setFlag) rfl flag), ?_, rfl⟩
    refine ⟨?_, ?_⟩
    · cases stage <;> exact after.hooks
    · have shared : s'.shared = L'.shared := after.shared
      cases stage <;> simp [← shared, Session.shared, Session.setDone, HookVars.setDone]

theorem overrideConfigMenu_agrees {s : Session} {f : Frame} {rest : List Frame}
    (quiet : Quiet g) (agrees : Agrees L.shared s) (frames : s.frames = f :: rest)
    (pc : f.pc = .guard .configMenu) (h : overrideConfigMenu g ⟨true, true⟩ L = some L') :
    ∃ s' f', HookRun s s' ∧ Agrees L'.shared s' ∧ s'.frames = f' :: rest ∧
      f'.pc = .guard .bootstrap := by
  have same : s.configMenuEnable = L.env.vars.configMenuEnable :=
    congrArg HookVars.configMenuEnable agrees.shared
  unfold overrideConfigMenu at h
  split at h
  next enabled =>
    obtain ⟨⟨ran, L1⟩, served, h⟩ := Option.bind_eq_some_iff.mp h
    have wants : s.wants .configMenu true = true := by
      simp [Session.wants, Session.done, same, enabled]
    obtain ⟨s', f', run, after, at'⟩ := startup_agrees quiet agrees frames pc wants served
    refine ⟨s', _, run, ?_, at', rfl⟩
    cases ran <;> cases Option.some.inj h <;> exact after
  next disabled =>
    cases Option.some.inj h
    have wants : s.wants .configMenu false = false := by
      simp [Session.wants, Session.done, same, disabled]
    refine ⟨{ s with frames := { f with pc := .guard .bootstrap } :: rest }, _,
      .single (a := .guard false) rfl ?_, ⟨agrees.hooks, agrees.shared⟩, rfl, rfl⟩
    simp [step, frames, hookStep, pc, wants, Frame.next]

/-- Between two states with the same variables, at most the custom scripts are loaded. -/
def LoadsAtMost (g : Game W) (hooks : Hooks) (L L' : LuaState W) : Prop :=
  L'.shared = L.shared ∨
    ∃ L1 L2, L1.shared = L.shared ∧ loadInitialLua g hooks L1 = some L2 ∧ L'.shared = L2.shared

theorem bootstrapFromGameLauncher_loads (quiet : Quiet g) {hooks : Hooks}
    (h : bootstrapFromGameLauncher g hooks L = some L') : LoadsAtMost g hooks L L' := by
  obtain ⟨L1, setter, h⟩ := Option.bind_eq_some_iff.mp h
  have before := luaGetfield_shared quiet setter
  obtain ⟨t, _, h⟩ := Option.bind_eq_some_iff.mp h
  split at h
  next =>
    obtain ⟨⟨state, L2⟩, read, h⟩ := Option.bind_eq_some_iff.mp h
    have reading := getUpvalueString_shared read
    simp only at h
    split at h
    next =>
      obtain ⟨L3, loaded, h⟩ := Option.bind_eq_some_iff.mp h
      exact Or.inr ⟨L2, L3, by rw [reading, before], loaded, luaPop_shared h⟩
    next =>
      have popped : L'.shared = L2.shared := luaPop_shared (n := 1) h
      exact Or.inl (by rw [popped, reading, before])
  next => exact Or.inl (by rw [luaPop_shared h, loggerDll_shared, before])

theorem luaGameRunningHookBootstrap_loads (quiet : Quiet g) {hooks : Hooks}
    (h : luaGameRunningHookBootstrap g hooks L = some L') :
    L'.shared = L.shared ∨
      (L.env.vars.gameRunningHookComplete = false ∧ LoadsAtMost g hooks L L') := by
  unfold luaGameRunningHookBootstrap at h
  split at h
  next => cases Option.some.inj h; exact Or.inl rfl
  next incomplete =>
    refine Or.inr ⟨by simpa using incomplete, ?_⟩
    obtain ⟨L1, launcher, h⟩ := Option.bind_eq_some_iff.mp h
    have before := luaGetfield_shared quiet launcher
    obtain ⟨t, _, h⟩ := Option.bind_eq_some_iff.mp h
    simp only at h
    split at h
    next =>
      obtain ⟨L2, inner, h⟩ := Option.bind_eq_some_iff.mp h
      have popped := luaPop_shared h
      rcases bootstrapFromGameLauncher_loads quiet inner with kept | ⟨L3, L4, same, loaded, after⟩
      · exact Or.inl (by rw [popped, kept, before])
      · exact Or.inr ⟨L3, L4, same.trans before, loaded, popped.trans after⟩
    next =>
      have popped : L'.shared = L1.shared := luaPop_shared (n := 1) h
      exact Or.inl (by rw [popped, before])

theorem luaGameRunningHookBootstrap_agrees {s : Session} {f : Frame} {rest : List Frame}
    (quiet : Quiet g) (agrees : Agrees L.shared s) (frames : s.frames = f :: rest)
    (pc : f.pc = .guard .bootstrap)
    (h : luaGameRunningHookBootstrap g ⟨true, true⟩ L = some L') :
    ∃ s' f', HookRun s s' ∧ Agrees L'.shared s' ∧ s'.frames = f' :: rest ∧
      f'.pc = .testExecute .dllExecute := by
  have skip : L'.shared = L.shared → ∃ s' f', HookRun s s' ∧ Agrees L'.shared s' ∧
      s'.frames = f' :: rest ∧ f'.pc = .testExecute .dllExecute := by
    intro kept
    have wants : s.wants .bootstrap false = false := by simp [Session.wants]
    refine ⟨{ s with frames := { f with pc := .testExecute .dllExecute } :: rest }, _,
      .single (a := .guard false) rfl ?_, ⟨agrees.hooks, agrees.shared.trans kept.symm⟩, rfl, rfl⟩
    simp [step, frames, hookStep, pc, wants, Frame.next]
  rcases luaGameRunningHookBootstrap_loads quiet h with
    kept | ⟨incomplete, kept | ⟨L1, L2, before, h, after⟩⟩
  · exact skip kept
  · exact skip kept
  · have same : s.gameRunningHookComplete = L.env.vars.gameRunningHookComplete :=
      congrArg HookVars.gameRunningHookComplete agrees.shared
    have wants : s.wants .bootstrap true = true := by
      simp [Session.wants, Session.done, same, incomplete]
    obtain ⟨⟨ran, L3⟩, served, h⟩ := Option.bind_eq_some_iff.mp h
    have logged : Agrees (loggerDll L1 (bytes "pcall")
        (bytes "GameState is 'Game Running'. Loading initial custom lua...")).shared s := by
      rw [loggerDll_shared, before]
      exact agrees
    obtain ⟨s', f', run, agrees', at'⟩ := startup_agrees quiet logged frames pc wants served
    refine ⟨s', _, run, ?_, at', rfl⟩
    rw [after]
    cases ran <;> cases Option.some.inj h <;> exact agrees'

/-- Whenever `lua_pcall_hook` has a result, the session machine can make the same call: a run
of the game thread's steps that ends with the variables of the result and has returned. -/
theorem luaPcallHook_agrees {s : Session} {nArgs : Nat} {nResults errFunc res : Int}
    (quiet : Quiet g) (game : s.inGameCode = true) (agrees : Agrees L.shared s)
    (h : luaPcallHook g ⟨true, true⟩ L nArgs nResults errFunc = some (res, L')) :
    ∃ s', HookRun s s' ∧ Agrees L'.shared s' ∧ s'.frames = s.frames := by
  obtain ⟨⟨status, L1⟩, original, h⟩ := Option.bind_eq_some_iff.mp h
  obtain ⟨L2, stages, h⟩ := Option.bind_eq_some_iff.mp h
  cases Option.some.inj h
  obtain ⟨L3, print, stages⟩ := Option.bind_eq_some_iff.mp stages
  obtain ⟨L4, development, stages⟩ := Option.bind_eq_some_iff.mp stages
  obtain ⟨L5, configMenu, stages⟩ := Option.bind_eq_some_iff.mp stages
  obtain ⟨L6, bootstrap, stages⟩ := Option.bind_eq_some_iff.mp stages
  obtain ⟨⟨ran, L7⟩, served, stages⟩ := Option.bind_eq_some_iff.mp stages
  cases Option.some.inj stages
  have before : L4.shared = L.shared := by
    rw [overrideDevelopment_shared quiet development, overridePrint_shared quiet print]
    have same : L1.shared = (recordGameState L).shared := luaPcall_shared quiet original
    exact same
  let s1 : Session := { s with
    ledger := { s.ledger with calls := s.ledger.calls + 1 }
    frames := ⟨.guard .configMenu, [], 0, [], s.ledger.calls⟩ :: s.frames }
  have entered : HookRun s s1 := by
    refine ⟨[.pcall, .original []], by simp [Action.ofGameThread], ?_⟩
    simp [Trace.exec, step, game, agrees.hooks, hookStep, s1]
  have agrees1 : Agrees L4.shared s1 := ⟨agrees.hooks, agrees.shared.trans before.symm⟩
  obtain ⟨s2, f2, run2, agrees2, frames2, pc2⟩ :=
    overrideConfigMenu_agrees quiet agrees1 rfl rfl configMenu
  obtain ⟨s3, f3, run3, agrees3, frames3, pc3⟩ :=
    luaGameRunningHookBootstrap_agrees quiet agrees2 frames2 pc2 bootstrap
  obtain ⟨s4, f4, text, run4, agrees4, frames4⟩ := executeLua_agrees quiet agrees3 frames3 pc3 served
  exact ⟨s4, ((entered.trans run2).trans run3).trans run4, agrees4, frames4⟩

end DriverSF
