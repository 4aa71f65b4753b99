import DriverSF.LuaExec

namespace DriverSF

variable {W : Type} {g : Game W} {L : LuaState W} {upper below : List Value}

def overridePrint (g : Game W) (L : LuaState W) : Option (LuaState W) :=
  if L.env.vars.printOverrridden then
    return L
  else do
    let L ← setCfunctionInTable g L luaGlobalsindex (bytes "print") .luabPrintOverride
    let L := loggerDll L (bytes "pcall") (bytes "Applied custom 'print' function.")
    return L.modifyVars fun vars => { vars with printOverrridden := true }

/-- The fields of `Development` in the order in which they are replaced. -/
def developmentFunctions : List (Bytes × CFunction) :=
  [(bytes "removeBatch", .developmentRemoveBatchOverride),
   (bytes "startBatch", .developmentStartBatch),
   (bytes "clearScreen", .developmentClearScreenOverride),
   (bytes "eraseText", .developmentEraseTextOverride),
   (bytes "add2DText", .developmentAdd2dTextOverride)]

def setCfunctionsInTop (g : Game W) : LuaState W → List (Bytes × CFunction) → Option (LuaState W)
  | L, [] => some L
  | L, (fieldName, func) :: rest => do
    let L ← setCfunctionInTable g L (-1) fieldName func
    setCfunctionsInTop g L rest

def overrideDevelopment (g : Game W) (L : LuaState W) : Option (LuaState W) :=
  if L.env.vars.developmentOverridden then
    return L
  else do
    let L ← luaGetfield g L luaGlobalsindex (bytes "Development")
    if (← luaType L (-1)) = .table then
      let L ← setCfunctionsInTop g L developmentFunctions
      let L := loggerDll L (bytes "pcall") (bytes "Applied custom 'Development' functions.")
      luaPop (L.modifyVars fun vars => { vars with developmentOverridden := true }) 1
    else
      luaPop L 1

def flagGameDevMenuChunk : Bytes := bytes "flagGameDevMenu()"

def overrideConfigMenu (g : Game W) (hooks : Hooks) (L : LuaState W) : Option (LuaState W) :=
  if L.env.vars.configMenuEnable then do
    let L := L.modifyVars fun vars => executeLuaBuffer vars flagGameDevMenuChunk
    let (ran, L) ← executeLua g hooks L (bytes "load buffer")
    if ran then
      let L := loggerDll L (bytes "pcall") (bytes "GameDevMenu flag set.")
      return L.modifyVars fun vars => { vars with configMenuEnable := false }
    else
      return L
  else
    return L

def recordGameState (L : LuaState W) : LuaState W :=
  L.modifyVars fun vars => { vars with pGameState := vars.pGameState.or (some L.addr) }

/-- The stages that `lua_pcall_hook` runs after the original call. -/
def injectedStages (g : Game W) (hooks : Hooks) (L : LuaState W) : Option (LuaState W) := do
  let L ← overridePrint g L
  let L ← overrideDevelopment g L
  let L ← overrideConfigMenu g hooks L
  let L ← luaGameRunningHookBootstrap g hooks L
  let (_, L) ← executeLua g hooks L (bytes "DLL_Execute")
  return L

/-- `lua_pcall_hook`. Once the original call has returned, every slot on the stack
belongs to the caller and is off limits to the injected stages. -/
def luaPcallHook (g : Game W) (hooks : Hooks) (L : LuaState W) (nArgs : Nat)
    (nResults errFunc : Int) : Option (Int × LuaState W) := do
  let (res, L) ← oLuaPcall g hooks (recordGameState L) nArgs nResults errFunc
  let L ← injectedStages g hooks { L with floor := L.stack.length }
  return (res, L)

theorem overridePrint_above (g : Game W) (h : L.Above upper below) :
    ∃ L', overridePrint g L = some L' ∧ L'.Above upper below := by
  by_cases hp : L.env.vars.printOverrridden
  · exact ⟨L, by rw [overridePrint, if_pos hp]; rfl, h⟩
  · obtain ⟨L1, hs, h1⟩ := setCfunctionInTable_globals_above g h (bytes "print") .luabPrintOverride
    exact ⟨_, by simp [overridePrint, hp, hs]; rfl, (h1.loggerDll _ _).modifyVars _⟩

theorem setCfunctionsInTop_above (g : Game W) {table : Value} (fields : List (Bytes × CFunction))
    (h : L.Above (table :: upper) below) :
    ∃ L', setCfunctionsInTop g L fields = some L' ∧ L'.Above (table :: upper) below := by
  induction fields generalizing L with
  | nil => exact ⟨L, rfl, h⟩
  | cons field rest ih =>
    obtain ⟨L1, hs, h1⟩ := setCfunctionInTable_top_above g h field.1 field.2
    obtain ⟨L2, hr, h2⟩ := ih h1
    exact ⟨L2, by simp [setCfunctionsInTop, hs, hr], h2⟩

theorem overrideDevelopment_above (g : Game W) (h : L.Above upper below) :
    ∃ L', overrideDevelopment g L = some L' ∧ L'.Above upper below := by
  by_cases hd : L.env.vars.developmentOverridden
  · exact ⟨L, by rw [overrideDevelopment, if_pos hd]; rfl, h⟩
  · obtain ⟨v, L1, hg, h1⟩ := luaGetfield_above g h index2adr_globals (bytes "Development")
    by_cases hv : v.type = .table
    · obtain ⟨L2, hs, h2⟩ := setCfunctionsInTop_above g developmentFunctions h1
      obtain ⟨L3, hp, h3, _⟩ := luaPop_above ((h2.loggerDll (bytes "pcall")
        (bytes "Applied custom 'Development' functions.")).modifyVars
          fun vars => { vars with developmentOverridden := true })
      exact ⟨L3, by simp [overrideDevelopment, hd, hg, luaType_top h1, hv, hs, hp], h3⟩
    · obtain ⟨L3, hp, h3, _⟩ := luaPop_above h1
      exact ⟨L3, by simp [overrideDevelopment, hd, hg, luaType_top h1, hv, hp], h3⟩

theorem overrideConfigMenu_above (g : Game W) (h : L.Above upper below) :
    ∃ L', overrideConfigMenu g ⟨true, true⟩ L = some L' ∧ L'.Above upper below := by
  by_cases hc : L.env.vars.configMenuEnable
  · obtain ⟨ran, L1, hx, h1⟩ := executeLua_above g
      (h.modifyVars fun vars => executeLuaBuffer vars flagGameDevMenuChunk) (bytes "load buffer")
    cases ran with
    | false => exact ⟨L1, by simp [overrideConfigMenu, hc, hx], h1⟩
    | true =>
      exact ⟨_, by simp [overrideConfigMenu, hc, hx]; rfl, (h1.loggerDll _ _).modifyVars _⟩
  · exact ⟨L, by rw [overrideConfigMenu, if_neg hc]; rfl, h⟩

theorem injectedStages_above (g : Game W) (h : L.Above upper below) :
    ∃ L', injectedStages g ⟨true, true⟩ L = some L' ∧ L'.Above upper below := by
  obtain ⟨L1, e1, h1⟩ := overridePrint_above g h
  obtain ⟨L2, e2, h2⟩ := overrideDevelopment_above g h1
  obtain ⟨L3, e3, h3⟩ := overrideConfigMenu_above g h2
  obtain ⟨L4, e4, h4⟩ := luaGameRunningHookBootstrap_above g h3
  obtain ⟨ran, L5, e5, h5⟩ := executeLua_above g h4 (bytes "DLL_Execute")
  exact ⟨L5, by simp [injectedStages, e1, e2, e3, e4, e5], h5⟩

def callerView (r : Int × LuaState W) : Int × List Value := (r.1, r.2.stack)

/-- With both hooks installed, `lua_pcall_hook` has a result after every outcome of the
original call, so no stage reads or pops a slot of the caller; it returns the original
status and leaves exactly the stack that the original call left. -/
theorem luaPcallHook_transparent (g : Game W) (L : LuaState W) (nArgs : Nat)
    (nResults errFunc : Int) :
    (luaPcallHook g ⟨true, true⟩ L nArgs nResults errFunc).map callerView =
      (luaPcall g (recordGameState L) nArgs nResults errFunc).map callerView := by
  cases hp : luaPcall g (recordGameState L) nArgs nResults errFunc with
  | none => simp [luaPcallHook, oLuaPcall, hp]
  | some r =>
    have start : ({ r.2 with floor := r.2.stack.length } : LuaState W).Above [] r.2.stack :=
      ⟨rfl, rfl⟩
    obtain ⟨L2, hs, hstack, _⟩ := injectedStages_above g start
    simp [luaPcallHook, oLuaPcall, hp, hs, callerView, hstack]

end DriverSF
