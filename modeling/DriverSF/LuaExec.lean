import DriverSF.LuaHelpers

namespace DriverSF

variable {W : Type} {g : Game W} {L : LuaState W} {upper below : List Value}

def executeLuaBuffer (vars : Vars) (input : Bytes) : Vars :=
  { vars with buffer := input, execute := true }

/-- The chunk that opens a script of the game's scripts folder. -/
def luaFileChunk (path : Bytes) : Bytes :=
  bytes "debugOpen(\"" ++ (bytes "..\\\\..\\\\scripts\\\\" ++ path) ++ bytes "\")\n"

def executeLuaFile (vars : Vars) (path : Bytes) : Vars :=
  executeLuaBuffer vars (luaFileChunk path)

def luaLoadOverride (g : Game W) (hooks : Hooks) (L : LuaState W) (data : Bytes)
    (chunkName : Option Bytes) : Int × LuaState W :=
  hookCall hooks.oLuadProtectedparser
    (luadProtectedparser g L data (chunkName.getD (bytes "?"))) L

def lualLoadbufferOverride (g : Game W) (hooks : Hooks) (L : LuaState W) (buff name : Bytes) :
    Int × LuaState W :=
  luaLoadOverride g hooks L buff (some name)

def oLuaPcall (g : Game W) (hooks : Hooks) (L : LuaState W) (nargs : Nat)
    (nresults errfunc : Int) : Option (Int × LuaState W) :=
  if hooks.oLuaPcall then luaPcall g L nargs nresults errfunc else some (0, L)

/-- The common exit of `execute_lua`: restore the stack top and clear the buffer. -/
def executeLuaExit (L : LuaState W) (top : Nat) (ok : Bool) : Option (Bool × LuaState W) := do
  let L ← luaSettop L top
  return (ok, L.modifyVars fun vars => { vars with buffer := [] })

/-- The part of `execute_lua` after the chunk has been loaded. -/
def callLoadedChunk (g : Game W) (hooks : Hooks) (L : LuaState W) (top : Nat)
    (chunkName : Bytes) : Option (Bool × LuaState W) := do
  let (status, L) ← oLuaPcall g hooks L 0 0 0
  let (ok, L) ← checkLuaStatus g L status chunkName
  executeLuaExit L top ok

/-- The part of `execute_lua` after `execute` has been cleared. -/
def executeBuffer (g : Game W) (hooks : Hooks) (L : LuaState W) (chunkName : Bytes) :
    Option (Bool × LuaState W) := do
  let top := luaGettop L
  let (status, L) := lualLoadbufferOverride g hooks L L.env.vars.buffer chunkName
  let (ok, L) ← checkLuaStatus g L status chunkName
  if ok then callLoadedChunk g hooks L top chunkName else executeLuaExit L top false

def executeLua (g : Game W) (hooks : Hooks) (L : LuaState W) (chunkName : Bytes) :
    Option (Bool × LuaState W) :=
  if L.env.vars.execute then
    executeBuffer g hooks (L.modifyVars fun vars => { vars with execute := false }) chunkName
  else
    return (false, L)

def loadInitialLua (g : Game W) (hooks : Hooks) (L : LuaState W) : Option (LuaState W) := do
  let L := loggerDll L (bytes "pcall")
    (bytes "GameState is 'Game Running'. Loading initial custom lua...")
  let L := L.modifyVars fun vars => executeLuaFile vars (bytes "load.lua")
  let (ran, L) ← executeLua g hooks L (bytes "load.lua")
  if ran then
    return L.modifyVars fun vars => { vars with gameRunningHookComplete := true }
  else
    return L

/-- The inner part of the bootstrap, with the `GameLauncher` table on the top. -/
def bootstrapFromGameLauncher (g : Game W) (hooks : Hooks) (L : LuaState W) :
    Option (LuaState W) := do
  let L ← luaGetfield g L (-1) (bytes "SetGameState")
  if (← luaType L (-1)) = .function then
    let (currentGameState, L) ← getUpvalueString g L (-1) (bytes "GameState")
    let L ← if currentGameState = bytes "Game Running" then loadInitialLua g hooks L else some L
    luaPop L 1
  else
    luaPop (loggerDll L (bytes "pcall") (bytes
      "Skipping initial file load: GameLauncher.SetGameState not found or not a function.")) 1

def luaGameRunningHookBootstrap (g : Game W) (hooks : Hooks) (L : LuaState W) :
    Option (LuaState W) :=
  if L.env.vars.gameRunningHookComplete then
    return L
  else do
    let L ← luaGetfield g L luaGlobalsindex (bytes "GameLauncher")
    let L ← if (← luaType L (-1)) = .table then bootstrapFromGameLauncher g hooks L else some L
    luaPop L 1

theorem executeLuaExit_above (pushed : List Value) (h : L.Above (pushed ++ upper) below)
    (ok : Bool) :
    ∃ L', executeLuaExit L (upper.length + below.length) ok = some (ok, L') ∧
      L'.Above upper below := by
  obtain ⟨L1, hs, h1⟩ := luaSettop_above h
  exact ⟨_, by simp only [executeLuaExit, hs, Option.bind_eq_bind, Option.bind_some]; rfl,
    h1.modifyVars _⟩

theorem lualLoadbufferOverride_above (g : Game W) (h : L.Above upper below) (buff name : Bytes) :
    (∃ closure L', lualLoadbufferOverride g ⟨true, true⟩ L buff name = (0, L') ∧
        L'.Above (.function closure :: upper) below) ∨
      ∃ e message L', lualLoadbufferOverride g ⟨true, true⟩ L buff name = (LuaError.status e, L') ∧
        L'.Above (message :: upper) below := by
  rcases hp : g.parser L.env buff name with ⟨env, o⟩
  rcases o.apply_cases L.stack with ⟨closure, ho⟩ | ⟨e, message, ho⟩
  · refine Or.inl ⟨closure, { L with env := env, stack := .function closure :: L.stack }, ?_, ?_, h.2⟩
    · simp [lualLoadbufferOverride, luaLoadOverride, hookCall, luadProtectedparser, hp, ho]
    · simp [h.1]
  · refine Or.inr ⟨e, message, { L with env := env, stack := message :: L.stack }, ?_, ?_, h.2⟩
    · simp [lualLoadbufferOverride, luaLoadOverride, hookCall, luadProtectedparser, hp, ho]
    · simp [h.1]

theorem callLoadedChunk_above (g : Game W) {closure : Nat}
    (h : L.Above (.function closure :: upper) below) (chunkName : Bytes) :
    ∃ ran L', callLoadedChunk g ⟨true, true⟩ L (upper.length + below.length) chunkName =
        some (ran, L') ∧ L'.Above upper below := by
  rcases luaPcall_chunk_above g h with ⟨L1, hc, h1⟩ | ⟨e, obj, L1, hc, h1⟩
  · obtain ⟨L2, hx, h2⟩ := executeLuaExit_above [] h1 true
    exact ⟨true, L2, by simp [callLoadedChunk, oLuaPcall, hc, checkLuaStatus_ok, hx], h2⟩
  · obtain ⟨L2, hk, h2⟩ := checkLuaStatus_error_above g h1 e chunkName
    obtain ⟨L3, hx, h3⟩ := executeLuaExit_above [] h2 false
    exact ⟨false, L3, by simp [callLoadedChunk, oLuaPcall, hc, hk, hx], h3⟩

theorem executeBuffer_above (g : Game W) (h : L.Above upper below) (chunkName : Bytes) :
    ∃ ran L', executeBuffer g ⟨true, true⟩ L chunkName = some (ran, L') ∧
      L'.Above upper below := by
  have top := luaGettop_above h
  rcases lualLoadbufferOverride_above g h L.env.vars.buffer chunkName with
    ⟨closure, L1, hl, h1⟩ | ⟨e, message, L1, hl, h1⟩
  · obtain ⟨ran, L2, hc, h2⟩ := callLoadedChunk_above g h1 chunkName
    exact ⟨ran, L2, by simp [executeBuffer, top, hl, checkLuaStatus_ok, hc], h2⟩
  · obtain ⟨L2, hk, h2⟩ := checkLuaStatus_error_above g h1 e chunkName
    obtain ⟨L3, hx, h3⟩ := executeLuaExit_above [] h2 false
    exact ⟨false, L3, by simp [executeBuffer, top, hl, hk, hx], h3⟩

theorem executeLua_above (g : Game W) (h : L.Above upper below) (chunkName : Bytes) :
    ∃ ran L', executeLua g ⟨true, true⟩ L chunkName = some (ran, L') ∧ L'.Above upper below := by
  by_cases he : L.env.vars.execute
  · obtain ⟨ran, L', hx, h'⟩ := executeBuffer_above g
      (h.modifyVars fun vars => { vars with execute := false }) chunkName
    exact ⟨ran, L', by rw [executeLua, if_pos he, hx], h'⟩
  · exact ⟨false, L, by rw [executeLua, if_neg he]; rfl, h⟩

theorem loadInitialLua_above (g : Game W) (h : L.Above upper below) :
    ∃ L', loadInitialLua g ⟨true, true⟩ L = some L' ∧ L'.Above upper below := by
  have hl := h.loggerDll (bytes "pcall")
    (bytes "GameState is 'Game Running'. Loading initial custom lua...")
  obtain ⟨ran, L1, hx, h1⟩ := executeLua_above g
    (hl.modifyVars fun vars => executeLuaFile vars (bytes "load.lua")) (bytes "load.lua")
  cases ran with
  | false => exact ⟨L1, by simp [loadInitialLua, hx], h1⟩
  | true => exact ⟨_, by simp [loadInitialLua, hx]; rfl, h1.modifyVars _⟩

theorem bootstrapFromGameLauncher_above (g : Game W) {launcher : Value}
    (h : L.Above (launcher :: upper) below) :
    ∃ L', bootstrapFromGameLauncher g ⟨true, true⟩ L = some L' ∧
      L'.Above (launcher :: upper) below := by
  obtain ⟨v, L1, hg, h1⟩ := luaGetfield_above g h (index2adr_top h) (bytes "SetGameState")
  by_cases hv : v.type = .function
  · obtain ⟨state, L2, hs, h2⟩ := getUpvalueString_top_above g h1 (bytes "GameState")
    by_cases hr : state = bytes "Game Running"
    · obtain ⟨L3, hi, h3⟩ := loadInitialLua_above g h2
      obtain ⟨L4, hp, h4, _⟩ := luaPop_above h3
      exact ⟨L4, by simp [bootstrapFromGameLauncher, hg, luaType_top h1, hv, hs, hr, hi, hp], h4⟩
    · obtain ⟨L4, hp, h4, _⟩ := luaPop_above h2
      exact ⟨L4, by simp [bootstrapFromGameLauncher, hg, luaType_top h1, hv, hs, hr, hp], h4⟩
  · obtain ⟨L4, hp, h4, _⟩ := luaPop_above (h1.loggerDll (bytes "pcall") (bytes
      "Skipping initial file load: GameLauncher.SetGameState not found or not a function."))
    exact ⟨L4, by simp [bootstrapFromGameLauncher, hg, luaType_top h1, hv, hp], h4⟩

theorem luaGameRunningHookBootstrap_above (g : Game W) (h : L.Above upper below) :
    ∃ L', luaGameRunningHookBootstrap g ⟨true, true⟩ L = some L' ∧ L'.Above upper below := by
  by_cases hc : L.env.vars.gameRunningHookComplete
  · exact ⟨L, by rw [luaGameRunningHookBootstrap, if_pos hc]; rfl, h⟩
  · obtain ⟨v, L1, hg, h1⟩ := luaGetfield_above g h index2adr_globals (bytes "GameLauncher")
    by_cases hv : v.type = .table
    · obtain ⟨L2, hb, h2⟩ := bootstrapFromGameLauncher_above g h1
      obtain ⟨L3, hp, h3, _⟩ := luaPop_above h2
      exact ⟨L3, by simp [luaGameRunningHookBootstrap, hc, hg, luaType_top h1, hv, hb, hp], h3⟩
    · obtain ⟨L3, hp, h3, _⟩ := luaPop_above h1
      exact ⟨L3, by simp [luaGameRunningHookBootstrap, hc, hg, luaType_top h1, hv, hp], h3⟩

end DriverSF
