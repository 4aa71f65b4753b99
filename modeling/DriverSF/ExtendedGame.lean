import DriverSF.PauseMenuPatches

namespace DriverSF

open CallbackCode

variable {σ : Type} {g : PauseGame σ} {G : Globals}

def Entry.original : Entry → Original
  | .clearPauseMenu => .clearPauseMenu
  | .triggerPauseMenu => .triggerPauseMenu
  | .pauseMenuResume => .pauseMenuResume
  | .menuSelect => .stepMenuSelect

/-- `activeMenu` of the game set to "Main" if the custom menus are enabled. -/
def PauseGame.resetCode (g : PauseGame σ) : Code (Shared σ) Entry :=
  .act (fun s =>
    if s.enableCustomMenus then
      { s with cell := (setUpvalueByName s.cell (bytes "activeMenu") (.string (bytes "Main"))
          (g.upvalues .clearPauseMenu)).2 }
    else s) fun _ => .ret

/-- A function as code; one that the script has replaced is called by its entry. -/
def PauseGame.fnCode (g : PauseGame σ) : Fn → Code (Shared σ) Entry
  | .original o => g.code o
  | .clearPauseMenu => .invoke .clearPauseMenu
  | .triggerPauseMenu => .invoke .triggerPauseMenu
  | .pauseMenuResume original => (g.fnCode original).seq (.invoke .clearPauseMenu)
  | .customStepMenuSelect => .invoke .menuSelect

def PauseGame.valueCode (g : PauseGame σ) : ScriptValue → Code (Shared σ) Entry
  | .function f => g.fnCode f
  | _ => .raise

/-- The draw function called if the pause menu is shown. -/
def PauseGame.refreshCode (g : PauseGame σ) (draw : ScriptValue) : Code (Shared σ) Entry :=
  .act id fun s =>
    if (getUpvalueByName s.cell (bytes "pauseMenuShown")
        (g.upvalues .clearPauseMenu)).1.truthy then g.valueCode draw
    else .ret

/-- The game that the script is meant to make of the game: what the patches add stands in the
game's own functions, and no global is read or assigned. -/
def PauseGame.extended (g : PauseGame σ) (draw : ScriptValue) : PauseGame σ where
  code
    | .clearPauseMenu => (g.code .clearPauseMenu).seq (g.resetCode.seq (g.code .enableGameControls))
    | .triggerPauseMenu =>
      g.resetCode.seq ((g.code .triggerPauseMenu).seq (g.code .disableGameControls))
    | .pauseMenuResume => (g.code .pauseMenuResume).seq (.invoke .clearPauseMenu)
    | .stepMenuSelect => (g.code .stepMenuSelect).seq (g.refreshCode draw)
    | o => g.code o
  upvalues := g.upvalues

/-- The entries can be ranked so that no function of the game calls back an entry of the rank
of the entry that it works for. `PauseMenu.resume` comes above `clearPauseMenu`. -/
structure PauseGame.Ranked (g : PauseGame σ) (draw : ScriptValue) (rank : Entry → Nat) : Prop where
  clearPauseMenu : (g.code .clearPauseMenu).Calls fun e => rank e < rank .clearPauseMenu
  enableGameControls : (g.code .enableGameControls).Calls fun e => rank e < rank .clearPauseMenu
  triggerPauseMenu : (g.code .triggerPauseMenu).Calls fun e => rank e < rank .triggerPauseMenu
  disableGameControls : (g.code .disableGameControls).Calls fun e => rank e < rank .triggerPauseMenu
  pauseMenuResume : (g.code .pauseMenuResume).Calls fun e => rank e < rank .pauseMenuResume
  clears : rank .clearPauseMenu < rank .pauseMenuResume
  stepMenuSelect : (g.code .stepMenuSelect).Calls fun e => rank e < rank .menuSelect
  draw : (g.valueCode draw).Calls fun e => rank e < rank .menuSelect

theorem PauseGame.Ranked.calls {draw : ScriptValue} {rank : Entry → Nat} (h : g.Ranked draw rank)
    (e : Entry) : ((g.extended draw).code e.original).Calls fun e' => rank e' < rank e := by
  cases e with
  | clearPauseMenu =>
    exact h.clearPauseMenu.seq (Code.Calls.seq (fun _ => trivial) h.enableGameControls)
  | triggerPauseMenu =>
    exact Code.Calls.seq (fun _ => trivial) (h.triggerPauseMenu.seq h.disableGameControls)
  | pauseMenuResume => exact h.pauseMenuResume.seq (.invoke h.clears)
  | menuSelect =>
    refine h.stepMenuSelect.seq fun s => ?_
    dsimp only
    split
    · exact h.draw
    · trivial

/-- The globals that one execution of the script in the game leaves. -/
structure PatchedOnce (G : Globals) : Prop where
  originalClearPauseMenu : G.originalClearPauseMenu = .function (.original .clearPauseMenu)
  clearPauseMenu : G.clearPauseMenu = .clearPauseMenu
  originalTriggerPauseMenu : G.originalTriggerPauseMenu = .function (.original .triggerPauseMenu)
  triggerPauseMenu : G.triggerPauseMenu = .triggerPauseMenu
  pauseMenuResume : G.pauseMenuResume = .pauseMenuResume (.original .pauseMenuResume)
  originalStepMenuSelect : G.originalStepMenuSelect = .function (.original .stepMenuSelect)
  menuSelect : G.menuSelect = .customStepMenuSelect

theorem PatchedOnce.lookup (once : PatchedOnce G) (s : Shared σ) :
    lookupPauseMenuShown g G s =
      some (getUpvalueByName s.cell (bytes "pauseMenuShown") (g.upvalues .clearPauseMenu)) := by
  rw [lookupPauseMenuShown, once.originalClearPauseMenu]
  rfl

end DriverSF
