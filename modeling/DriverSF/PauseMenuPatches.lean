import DriverSF.LuaValue
import DriverSF.CallbackCode

namespace DriverSF

open CallbackCode

/-- The functions of the game around the pause menu, the `other` ones named by a number. -/
inductive Original where
  | addPauseMenu
  | clearPauseMenu
  | triggerPauseMenu
  | pauseMenuResume
  | stepMenuSelect
  | enableGameControls
  | disableGameControls
  | registerState (i : Nat)
  | resetState
  | other (ref : Nat)
  deriving DecidableEq, Repr

/-- Functions of the game and closures of the script. Only `PauseMenu.resume` captures a
local of the script, the function that it replaces. -/
inductive Fn where
  | original (o : Original)
  | clearPauseMenu
  | triggerPauseMenu
  | pauseMenuResume (originalPauseMenuResume : Fn)
  | customStepMenuSelect
  deriving DecidableEq, Repr

inductive ScriptValue where
  | nil
  | boolean (b : Bool)
  | string (s : Bytes)
  | function (f : Fn)
  | table (ref : Nat)
  deriving DecidableEq, Repr

def ScriptValue.truthy : ScriptValue → Bool
  | .nil => false
  | .boolean b => b
  | _ => true

inductive Entry where
  | clearPauseMenu
  | triggerPauseMenu
  | pauseMenuResume
  | menuSelect
  deriving DecidableEq, Repr

/-- The globals and table fields that the script assigns. -/
structure Globals where
  globalMenus : ScriptValue
  globalDrawMenu : ScriptValue
  originalClearPauseMenu : ScriptValue
  clearPauseMenu : Fn
  originalTriggerPauseMenu : ScriptValue
  triggerPauseMenu : Fn
  pauseMenuResume : Fn
  originalStepMenuSelect : ScriptValue
  customStepMenuSelect : ScriptValue
  menuSelect : Fn
  deriving DecidableEq, Repr

def Globals.game : Globals where
  globalMenus := .nil
  globalDrawMenu := .nil
  originalClearPauseMenu := .nil
  clearPauseMenu := .original .clearPauseMenu
  originalTriggerPauseMenu := .nil
  triggerPauseMenu := .original .triggerPauseMenu
  pauseMenuResume := .original .pauseMenuResume
  originalStepMenuSelect := .nil
  customStepMenuSelect := .nil
  menuSelect := .original .stepMenuSelect

def Globals.entry (G : Globals) : Entry → Fn
  | .clearPauseMenu => G.clearPauseMenu
  | .triggerPauseMenu => G.triggerPauseMenu
  | .pauseMenuResume => G.pauseMenuResume
  | .menuSelect => G.menuSelect

/-- The upvalue cells, and the rest of what the game's functions can change: the pause menu,
the controls and everything else. -/
structure Shared (σ : Type) where
  game : σ
  cell : Nat → ScriptValue
  enableCustomMenus : Bool

/-- The game's functions: their code, and their upvalues with a name, each in a cell. A
function without debug names, or in C, shows none. -/
structure PauseGame (σ : Type) where
  code : Original → Code (Shared σ) Entry
  upvalues : Original → List (Bytes × Nat)

/-- The loop of `getUpvalueByName` over the upvalues of its function. -/
def getUpvalueByName (cell : Nat → ScriptValue) (upvalueName : Bytes) :
    List (Bytes × Nat) → ScriptValue × Bool
  | [] => (.nil, false)
  | (name, c) :: rest =>
    if name = upvalueName then (cell c, true) else getUpvalueByName cell upvalueName rest

/-- The loop of `setUpvalueByName`. -/
def setUpvalueByName (cell : Nat → ScriptValue) (upvalueName : Bytes) (newValue : ScriptValue) :
    List (Bytes × Nat) → Bool × (Nat → ScriptValue)
  | [] => (false, cell)
  | (name, c) :: rest =>
    if name = upvalueName then (true, fun i => if i = c then newValue else cell i)
    else setUpvalueByName cell upvalueName newValue rest

variable {σ : Type}

/-- The cells that a search by name can find. The patches refer to globals only, apart from
the one local of `PauseMenu.resume`, which the script never searches. -/
def PauseGame.upvaluesOf (g : PauseGame σ) : Fn → List (Bytes × Nat)
  | .original o => g.upvalues o
  | _ => []

/-- Calls a value, which raises an error unless it is a function. -/
def callValue (call : Fn → Shared σ → Outcome (Shared σ)) (v : ScriptValue) (s : Shared σ) :
    Outcome (Shared σ) :=
  match v with
  | .function f => call f s
  | _ => some (.raised, s)

/-- `if enableCustomMenus then setUpvalueByName(originalClearPauseMenu, "activeMenu", "Main")`. -/
def resetActiveMenu (g : PauseGame σ) (G : Globals) (s : Shared σ) : Outcome (Shared σ) :=
  if s.enableCustomMenus then
    match G.originalClearPauseMenu with
    | .function f =>
      let (_, cell) := setUpvalueByName s.cell (bytes "activeMenu") (.string (bytes "Main"))
        (g.upvaluesOf f)
      some (.returned, { s with cell })
    | _ => some (.raised, s)
  else some (.returned, s)

/-- The lookup of the Right Alt chunk and of the menu callback. -/
def lookupPauseMenuShown (g : PauseGame σ) (G : Globals) (s : Shared σ) :
    Option (ScriptValue × Bool) :=
  match G.originalClearPauseMenu with
  | .function f => some (getUpvalueByName s.cell (bytes "pauseMenuShown") (g.upvaluesOf f))
  | _ => none

/-- A call with the globals as the script has left them. Depth is used up by every call; a
call for which no depth suffices ends in Lua's stack overflow. -/
def PauseGame.call (g : PauseGame σ) (G : Globals) : Nat → Fn → Shared σ → Outcome (Shared σ)
  | 0, _, _ => none
  | depth + 1, .original o, s =>
    (g.code o).run (fun e => g.call G depth (G.entry e)) s
  | depth + 1, .clearPauseMenu, s =>
    (callValue (g.call G depth) G.originalClearPauseMenu s).seq fun s =>
    (resetActiveMenu g G s).seq fun s =>
    g.call G depth (.original .enableGameControls) s
  | depth + 1, .triggerPauseMenu, s =>
    (resetActiveMenu g G s).seq fun s =>
    (callValue (g.call G depth) G.originalTriggerPauseMenu s).seq fun s =>
    g.call G depth (.original .disableGameControls) s
  | depth + 1, .pauseMenuResume originalPauseMenuResume, s =>
    (g.call G depth originalPauseMenuResume s).seq fun s =>
    g.call G depth G.clearPauseMenu s
  | depth + 1, .customStepMenuSelect, s =>
    (callValue (g.call G depth) G.originalStepMenuSelect s).seq fun s =>
    match lookupPauseMenuShown g G s with
    | some (shown, _) =>
      if shown.truthy then callValue (g.call G depth) G.globalDrawMenu s else some (.returned, s)
    | none => some (.raised, s)

/-- The assignments of `pause_menu_patches.lua`. -/
def patchGlobals (g : PauseGame σ) (s : Shared σ) (G : Globals) : Globals where
  globalMenus := (getUpvalueByName s.cell (bytes "menus") (g.upvalues .addPauseMenu)).1
  globalDrawMenu :=
    (getUpvalueByName s.cell (bytes "drawMenu") (g.upvaluesOf G.triggerPauseMenu)).1
  originalClearPauseMenu := .function G.clearPauseMenu
  clearPauseMenu := .clearPauseMenu
  originalTriggerPauseMenu := .function G.triggerPauseMenu
  triggerPauseMenu := .triggerPauseMenu
  pauseMenuResume := .pauseMenuResume G.pauseMenuResume
  originalStepMenuSelect := .function G.menuSelect
  customStepMenuSelect := .function .customStepMenuSelect
  menuSelect := .customStepMenuSelect

/-- One execution of `pause_menu_patches.lua`: the assignments, then the three calls of the
game's control handler. -/
def pauseMenuPatches (g : PauseGame σ) (depth : Nat) (G : Globals) (s : Shared σ) :
    Globals × Outcome (Shared σ) :=
  let G := patchGlobals g s G
  (G, (g.call G depth (.original (.registerState 0)) s).seq fun s =>
    (g.call G depth (.original (.registerState 1)) s).seq fun s =>
    g.call G depth (.original .resetState) s)

/-- A call of an entry ends with a result. -/
def PauseGame.Ends (g : PauseGame σ) (G : Globals) (e : Entry) (s : Shared σ)
    (r : Result × Shared σ) : Prop :=
  ∃ depth, g.call G depth (G.entry e) s = some r

end DriverSF
