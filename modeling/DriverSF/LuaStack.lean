import DriverSF.LuaValue

namespace DriverSF

inductive CFunction where
  | luabPrintOverride
  | developmentRemoveBatchOverride
  | developmentStartBatch
  | developmentClearScreenOverride
  | developmentEraseTextOverride
  | developmentAdd2dTextOverride
  deriving DecidableEq, Repr

/-- The DLL's own variables that the `lua_pcall` hook reads or writes. -/
structure Vars where
  printOverrridden : Bool
  developmentOverridden : Bool
  configMenuEnable : Bool
  gameRunningHookComplete : Bool
  execute : Bool
  buffer : Bytes
  pGameState : Option Nat
  console : Console

def idleVars : Vars where
  printOverrridden := false
  developmentOverridden := false
  configMenuEnable := false
  gameRunningHookComplete := false
  execute := false
  buffer := []
  pGameState := none
  console := ⟨false, []⟩

/-- Everything a Lua call can reach besides the stack of its caller. -/
structure Env (W : Type) where
  world : W
  globals : Value
  closure : Nat → Closure
  cell : Nat → Value
  vars : Vars

inductive ParserOutcome where
  | ok (closure : Nat)
  | error (e : LuaError) (message : Value)
  deriving DecidableEq, Repr

inductive CallOutcome where
  | ok (results : List Value)
  | error (e : LuaError) (obj : Value)
  deriving DecidableEq, Repr

/-- The parts of the game and its Lua machine that the DLL runs but does not contain.
Each may run any Lua code, and so may change everything in the environment. -/
structure Game (W : Type) where
  number2str : LuaNumber → Bytes
  gettable : Env W → Value → Bytes → Env W × Value
  settable : Env W → Value → Bytes → Value → Env W
  newCclosure : Env W → CFunction → Env W × Nat
  parser : Env W → Bytes → Bytes → Env W × ParserOutcome
  call : Env W → Option Value → Value → List Value → Env W × CallOutcome

/-- A machine whose calls do nothing and whose tables are empty. -/
def idleGame : Game Unit where
  number2str _ := []
  gettable env _ _ := (env, .nil)
  settable env _ _ _ := env
  newCclosure env _ := (env, 0)
  parser env _ _ := (env, .ok 0)
  call env _ _ _ := (env, .ok [])

/-- A `lua_State` in the frame of the running C function, the top of its stack first.
Slots below `floor` are off limits: an operation that would read or pop one has no result. -/
structure LuaState (W : Type) where
  addr : Nat
  env : Env W
  stack : List Value
  floor : Nat

variable {W : Type}

def LuaState.push (L : LuaState W) (v : Value) : LuaState W :=
  { L with stack := v :: L.stack }

/-- The offset from the top of a stack slot that an index names. -/
def stackPos (L : LuaState W) (idx : Int) : Option Nat :=
  if 0 < idx ∧ L.floor < idx.toNat ∧ idx.toNat ≤ L.stack.length then
    some (L.stack.length - idx.toNat)
  else if luaRegistryindex < idx ∧ idx < 0 ∧ (-idx).toNat + L.floor ≤ L.stack.length then
    some ((-idx).toNat - 1)
  else
    none

/-- `index2adr`; the inner `none` is `luaO_nilobject`. -/
def index2adr (L : LuaState W) (idx : Int) : Option (Option Value) :=
  if 0 < idx ∧ L.stack.length < idx.toNat then
    some none
  else if idx = luaGlobalsindex then
    some (some L.env.globals)
  else
    (stackPos L idx).map fun p => L.stack[p]?

def luaGettop (L : LuaState W) : Nat := L.stack.length

def setTop (n : Nat) (stack : List Value) : List Value :=
  if n ≤ stack.length then stack.drop (stack.length - n)
  else List.replicate (n - stack.length) .nil ++ stack

def luaSettop (L : LuaState W) (idx : Int) : Option (LuaState W) :=
  if 0 ≤ idx then
    if L.floor ≤ idx.toNat then some { L with stack := setTop idx.toNat L.stack } else none
  else if (-(idx + 1)).toNat + L.floor ≤ L.stack.length then
    some { L with stack := L.stack.drop (-(idx + 1)).toNat }
  else
    none

def luaPop (L : LuaState W) (n : Nat) : Option (LuaState W) :=
  luaSettop L (-(n : Int) - 1)

def luaType (L : LuaState W) (idx : Int) : Option LuaType :=
  (index2adr L idx).map fun o => (o.map Value.type).getD .none

def luaPushcclosure (g : Game W) (L : LuaState W) (fn : CFunction) : LuaState W :=
  let (env, ref) := g.newCclosure L.env fn
  { L with env }.push (.function ref)

def luaGetfield (g : Game W) (L : LuaState W) (idx : Int) (k : Bytes) : Option (LuaState W) := do
  let t ← ← index2adr L idx
  let (env, v) := g.gettable L.env t k
  return { L with env }.push v

def luaSetfield (g : Game W) (L : LuaState W) (idx : Int) (k : Bytes) : Option (LuaState W) := do
  let t ← ← index2adr L idx
  let v ← ← index2adr L (-1)
  luaPop { L with env := g.settable L.env t k v } 1

/-- `lua_tolstring`, which replaces a number in its slot by its string. -/
def luaTolstring (g : Game W) (L : LuaState W) (idx : Int) : Option (Option Bytes × LuaState W) := do
  match ← index2adr L idx with
  | some (.string s) => return (some s, L)
  | some (.number n) =>
    let p ← stackPos L idx
    return (some (g.number2str n), { L with stack := L.stack.set p (.string (g.number2str n)) })
  | _ => return (none, L)

/-- `aux_upvalue`: C upvalues have the empty name, stripped Lua upvalues do not exist. -/
def auxUpvalue (env : Env W) (fi : Option Value) (n : Nat) : Option (Bytes × Value) :=
  match fi, n with
  | some (.function ref), n + 1 =>
    match env.closure ref with
    | .c upvalue => (upvalue[n]?).map fun v => ([], v)
    | .lua names upvals _ => do
      let name ← names[n]?
      let cell ← upvals[n]?
      return (name, env.cell cell)
  | _, _ => none

def luaGetupvalue (L : LuaState W) (funcindex : Int) (n : Nat) :
    Option (Option Bytes × LuaState W) := do
  let fi ← index2adr L funcindex
  match auxUpvalue L.env fi n with
  | some (name, val) => return (some name, L.push val)
  | none => return (none, L)

/-- Status and stack after `luaD_protectedparser`. -/
def ParserOutcome.apply (o : ParserOutcome) (stack : List Value) : Int × List Value :=
  match o with
  | .ok closure => (0, .function closure :: stack)
  | .error e message => (e.status, message :: stack)

def luadProtectedparser (g : Game W) (L : LuaState W) (chunk name : Bytes) : Int × LuaState W :=
  let (env, o) := g.parser L.env chunk name
  let (status, stack) := o.apply L.stack
  (status, { L with env, stack })

/-- The results that a call with `nresults` leaves, first result first. -/
def adjustResults (nresults : Int) (results : List Value) : List Value :=
  if nresults = luaMultret then results
  else results.take nresults.toNat ++ List.replicate (nresults.toNat - results.length) .nil

@[simp] theorem adjustResults_zero (results : List Value) : adjustResults 0 results = [] := by
  simp [adjustResults, luaMultret]

/-- Status and stack after `lua_pcall` has removed the function and its arguments. -/
def CallOutcome.apply (o : CallOutcome) (nresults : Int) (below : List Value) : Int × List Value :=
  match o with
  | .ok results => (0, (adjustResults nresults results).reverse ++ below)
  | .error e obj => (e.status, obj :: below)

/-- `lua_pcall` on the function and the `nargs` arguments on the top of the stack. -/
def luaPcall (g : Game W) (L : LuaState W) (nargs : Nat) (nresults errfunc : Int) :
    Option (Int × LuaState W) := do
  let handler ← if errfunc = 0 then some none else (index2adr L errfunc).bind fun o => o.map some
  match L.stack.drop nargs with
  | [] => none
  | func :: below =>
    if L.floor ≤ below.length then
      let (env, o) := g.call L.env handler func (L.stack.take nargs).reverse
      let (status, stack) := o.apply nresults below
      return (status, { L with env, stack })
    else none

/-- Which of the two inline hooks hold a trampoline to the original function. -/
structure Hooks where
  oLuaPcall : Bool
  oLuadProtectedparser : Bool
  deriving DecidableEq, Repr

/-- `call<int>` of an inline hook; an empty hook calls nothing and returns zero. -/
def hookCall {α : Type} (installed : Bool) (original : Int × α) (skipped : α) : Int × α :=
  if installed then original else (0, skipped)

end DriverSF
