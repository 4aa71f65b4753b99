import DriverSF.ExtendedGame

namespace DriverSF

open CallbackCode

variable {σ : Type} {g : PauseGame σ} {G : Globals}

def showMenu (shown : Bool) (s : Shared Bool) : Shared Bool :=
  { s with cell := fun i => if i = 1 then .boolean shown else s.cell i }

/-- A game that records whether its controls are enabled and its menu is shown; opening the
menu closes the one before. -/
def smallGame : PauseGame Bool where
  code
    | .clearPauseMenu => .act (showMenu false) fun _ => .ret
    | .triggerPauseMenu =>
      Code.seq (.invoke .clearPauseMenu) (.act (showMenu true) fun _ => .ret)
    | .enableGameControls => .act (fun s => { s with game := true }) fun _ => .ret
    | .disableGameControls => .act (fun s => { s with game := false }) fun _ => .ret
    | _ => .ret
  upvalues
    | .clearPauseMenu => [(bytes "activeMenu", 0), (bytes "pauseMenuShown", 1)]
    | .triggerPauseMenu => [(bytes "drawMenu", 2)]
    | .addPauseMenu => [(bytes "menus", 3)]
    | _ => []

def smallGame.start : Shared Bool :=
  ⟨true, fun i => if i = 2 then .function (.original (.other 0)) else .nil, true⟩

def smallGame.once : Globals := (pauseMenuPatches smallGame 3 Globals.game smallGame.start).1

end DriverSF
