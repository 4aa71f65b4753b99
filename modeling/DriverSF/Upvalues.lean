import DriverSF.Objects
import DriverSF.Simulation

namespace DriverSF

open Objects

variable {V : Type}

/-- What the `v` of an upvalue points to: a slot of the stack, or its own value. -/
inductive Place (V : Type) where
  | slot (level : Nat)
  | own (value : V)
  deriving DecidableEq, Repr

/-- An `UpVal`, with the mark of the collector that `isdead` tests. -/
structure UpVal (V : Type) where
  v : Place V
  dead : Bool

/-- The stack of a thread, the upvalues that there are, the open ones from the top of the stack
down, and the `upvals` of the closures that can still be reached. -/
structure UpvalState (V : Type) where
  stack : List V
  upvals : List (Cell (UpVal V))
  openupval : List Nat
  closures : List (Option (List Nat))

def UpvalState.start : UpvalState V := ⟨[], [], [], []⟩

/-- The slot that an open upvalue points to. -/
def openLevel (upvals : List (Cell (UpVal V))) (id : Nat) : Option Nat :=
  match live upvals id with
  | some ⟨.slot level, _⟩ => some level
  | _ => none

/-- The loop of `luaF_findupval`: the upvalue found or chained in the proper position, and the
chain. -/
def findChain (upvals : List (Cell (UpVal V))) (level new : Nat) :
    List Nat → Option (Nat × List Nat)
  | [] => some (new, [new])
  | id :: chain => do
    let at_ ← openLevel upvals id
    if level ≤ at_ then
      if at_ = level then return (id, id :: chain)
      else do
        let (found, chain) ← findChain upvals level new chain
        return (found, id :: chain)
    else return (new, new :: id :: chain)

def luaFFindupval (s : UpvalState V) (level : Nat) : Option (Nat × UpvalState V) := do
  let (id, chain) ← findChain s.upvals level s.upvals.length s.openupval
  if id = s.upvals.length then
    -- not found: create a new one
    return (id, { s with
      upvals := create s.upvals ⟨.slot level, false⟩
      openupval := chain })
  else
    -- is it dead? ressurect it
    return (id, { s with upvals := update s.upvals id fun uv => { uv with dead := false } })

/-- The loop of `luaF_close`. -/
def closeChain (stack : List V) (level : Nat) :
    List (Cell (UpVal V)) → List Nat → Option (List (Cell (UpVal V)) × List Nat)
  | upvals, [] => some (upvals, [])
  | upvals, id :: chain => do
    let uv ← live upvals id
    match uv.v with
    | .own _ => none
    | .slot at_ =>
      if level ≤ at_ then
        if uv.dead then closeChain stack level (release upvals id) chain
        else do
          let value ← stack[at_]?
          -- now current value lives here
          closeChain stack level (update upvals id fun uv => { uv with v := .own value }) chain
      else return (upvals, id :: chain)

def luaFClose (s : UpvalState V) (level : Nat) : Option (UpvalState V) := do
  let (upvals, openupval) ← closeChain s.stack level s.upvals s.openupval
  return { s with upvals, openupval }

/-- The pseudo-instructions behind `OP_CLOSURE`, `MOVE` with the slot of its register. -/
inductive Capture where
  | getupval (b : Nat)
  | move (level : Nat)

/-- The loop of `OP_CLOSURE` over the upvalues, in a closure with `upvals`. -/
def captureAll (upvals : List Nat) :
    List Capture → UpvalState V → Option (List Nat × UpvalState V)
  | [], s => some ([], s)
  | .getupval b :: captures, s => do
    let id ← upvals[b]?
    let (ids, s) ← captureAll upvals captures s
    return (id :: ids, s)
  | .move level :: captures, s =>
    if level < s.stack.length then do
      let (id, s) ← luaFFindupval s level
      let (ids, s) ← captureAll upvals captures s
      return (id :: ids, s)
    else none

/-- The `upvals` of a closure, by its place among all closures made. -/
def closureAt (closures : List (Option (List Nat))) (cl : Nat) : Option (List Nat) :=
  closures[cl]?.join

def readUpval (s : UpvalState V) (id : Nat) : Option V := do
  let uv ← live s.upvals id
  match uv.v with
  | .slot level => s.stack[level]?
  | .own value => some value

def writeUpval (s : UpvalState V) (id : Nat) (x : V) : Option (UpvalState V) := do
  let uv ← live s.upvals id
  match uv.v with
  | .slot level => if level < s.stack.length then some { s with stack := s.stack.set level x } else none
  | .own _ => some { s with upvals := update s.upvals id fun uv => { uv with v := .own x } }

/-- Some closure that can be reached has the upvalue. -/
def held (closures : List (Option (List Nat))) (id : Nat) : Bool :=
  closures.any fun cl => (cl.getD []).contains id

/-- What a thread does with its stack and with closures, and the collector between. `getUpval` and
`setUpval` are the instructions and `lua_getupvalue` and `lua_setupvalue`. -/
inductive UpvalAction (V : Type) where
  | push (x : V)
  | getSlot (level : Nat)
  | setSlot (level : Nat) (x : V)
  | closure (cl : Option Nat) (captures : List Capture)
  | getUpval (cl j : Nat)
  | setUpval (cl j : Nat) (x : V)
  | close (level : Nat)
  | leave (level : Nat)
  | drop (cl : Nat)
  | collect (id : Nat)
  | sweep (id : Nat)

/-- The collector finds an upvalue that nothing refers to: it is dead while it is open. -/
def collectUpval (s : UpvalState V) (id : Nat) : UpvalState V :=
  if held s.closures id then s
  else
    match live s.upvals id with
    | some ⟨.slot _, _⟩ =>
      { s with upvals := update s.upvals id fun uv => { uv with dead := true } }
    | some ⟨.own _, _⟩ => { s with upvals := release s.upvals id }
    | none => s

/-- The collector sweeps an open upvalue. -/
def sweepUpval (s : UpvalState V) (id : Nat) : UpvalState V :=
  match live s.upvals id with
  | some ⟨.slot _, true⟩ =>
    { s with upvals := release s.upvals id, openupval := s.openupval.erase id }
  | _ => s

def upvalStep (s : UpvalState V) : UpvalAction V → Option (Option V × UpvalState V)
  | .push x => some (none, { s with stack := s.stack ++ [x] })
  | .getSlot level => do
    let x ← s.stack[level]?
    return (some x, s)
  | .setSlot level x =>
    if level < s.stack.length then some (none, { s with stack := s.stack.set level x }) else none
  | .closure cl captures => do
    let upvals ← match cl with
      | none => some []
      | some cl => closureAt s.closures cl
    let (ids, s) ← captureAll upvals captures s
    return (none, { s with closures := s.closures ++ [some ids] })
  | .getUpval cl j => do
    let upvals ← closureAt s.closures cl
    let id ← upvals[j]?
    let x ← readUpval s id
    return (some x, s)
  | .setUpval cl j x => do
    let upvals ← closureAt s.closures cl
    let id ← upvals[j]?
    let s ← writeUpval s id x
    return (none, s)
  | .close level => do
    let s ← luaFClose s level
    return (none, s)
  | .leave level => do
    -- a return or an error closes the upvalues of the slots that it gives up
    let s ← luaFClose s level
    return (none, { s with stack := s.stack.take level })
  | .drop cl => some (none, { s with closures := s.closures.set cl none })
  | .collect id => some (none, collectUpval s id)
  | .sweep id => some (none, sweepUpval s id)

end DriverSF
