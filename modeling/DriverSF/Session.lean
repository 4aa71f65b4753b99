import DriverSF.LuaPcallHook

namespace DriverSF

inductive Startup where
  | configMenu
  | bootstrap
  deriving DecidableEq, Repr

/-- The three users of `execute_lua` inside one `lua_pcall_hook` call. -/
inductive Stage where
  | startup (s : Startup)
  | dllExecute
  deriving DecidableEq, Repr

/-- The text that a startup stage submits. -/
def Startup.chunk : Startup → Bytes
  | .configMenu => flagGameDevMenuChunk
  | .bootstrap => luaFileChunk (bytes "load.lua")

/-- The next step of a `lua_pcall_hook` call. `storeExecute` carries the number of the
submission; from `call` on, the text is the one that this `execute_lua` has loaded. -/
inductive Pc where
  | original
  | guard (s : Startup)
  | storeBuffer (s : Startup)
  | storeExecute (s : Startup) (id : Nat)
  | testExecute (stage : Stage)
  | clearExecute (stage : Stage)
  | load (stage : Stage)
  | call (stage : Stage) (text : Bytes)
  | running (stage : Stage) (text : Bytes)
  | clearBuffer (stage : Stage) (text : Bytes) (ok : Bool)
  | setFlag (s : Startup) (text : Bytes)
  deriving DecidableEq, Repr

/-- A `lua_pcall_hook` call in progress: its next step, the Lua stack in the frame of its
caller, the saved `top` of `execute_lua`, the slots that the original call left, and its
number, which no step reads. -/
structure Frame where
  pc : Pc
  slots : List Value
  top : Nat
  caller : List Value
  number : Nat
  deriving DecidableEq, Repr

/-- A thread outside the hook that submits commands. -/
inductive Submitter where
  | idle
  | ready (text : Bytes)
  | stored (id : Nat)
  deriving DecidableEq, Repr

/-- The history of the session. No step of the program reads it. Hook calls are numbered in
the order in which they begin, submissions in the order of their assignments to `buffer`;
`holder` is the submission that `buffer` holds. -/
structure Ledger where
  texts : List Bytes
  holder : Option Nat
  completed : List Nat
  loaded : List (Option Nat × Bytes)
  replaced : List (Nat × Nat)
  calls : Nat
  finished : List (Nat × Stage × Bytes)
  flagged : List (Nat × Startup × Bytes)
  deriving DecidableEq, Repr

structure Session where
  buffer : Bytes
  execute : Bool
  configMenuEnable : Bool
  gameRunningHookComplete : Bool
  hooks : Hooks
  frames : List Frame
  submitters : List Submitter
  ledger : Ledger
  deriving DecidableEq, Repr

def Ledger.empty : Ledger := ⟨[], none, [], [], [], 0, [], []⟩

/-- A session before any hook call, with any startup flags and any number of submitters. -/
def Session.start (hooks : Hooks) (configMenuEnable gameRunningHookComplete : Bool)
    (submitters : Nat) : Session :=
  ⟨[], false, configMenuEnable, gameRunningHookComplete, hooks, [],
    List.replicate submitters .idle, .empty⟩

def Ledger.loadedIds (l : Ledger) : List Nat := l.loaded.filterMap Prod.fst

/-- The submission that `buffer` holds and no `execute_lua` has loaded. -/
def Ledger.pending (l : Ledger) : Option Nat :=
  l.holder.filter fun i => i ∉ l.loadedIds

def Ledger.store (l : Ledger) (text : Bytes) : Ledger :=
  { l with
    texts := l.texts ++ [text]
    holder := some l.texts.length
    replaced := (l.pending.map fun i => (i, l.texts.length)).toList ++ l.replaced }

def Ledger.complete (l : Ledger) (id : Nat) : Ledger :=
  { l with completed := id :: l.completed }

def Ledger.load (l : Ledger) (text : Bytes) : Ledger :=
  { l with loaded := (l.holder, text) :: l.loaded }

def Ledger.clear (l : Ledger) : Ledger := { l with holder := none }

def Session.done (s : Session) : Startup → Bool
  | .configMenu => !s.configMenuEnable
  | .bootstrap => s.gameRunningHookComplete

def Session.setDone (s : Session) : Startup → Session
  | .configMenu => { s with configMenuEnable := false }
  | .bootstrap => { s with gameRunningHookComplete := true }

/-- The game's own Lua code runs inside an original call or inside a chunk. -/
def Pc.inGameCode : Pc → Bool
  | .original => true
  | .running _ _ => true
  | _ => false

def Session.inGameCode (s : Session) : Bool :=
  match s.frames with
  | [] => true
  | f :: _ => f.pc.inGameCode

/-- Where a hook call goes on after a stage; after the last one it returns. -/
def Frame.next (f : Frame) : Stage → List Frame
  | .startup .configMenu => [{ f with pc := .guard .bootstrap }]
  | .startup .bootstrap => [{ f with pc := .testExecute .dllExecute }]
  | .dllExecute => []

/-- The atomic steps. The arguments are what the step cannot determine itself: the slots
an original call leaves, whether `GameState` reads "Game Running", the outcome of the
parser and of a chunk, and the thread and the text of a submission. -/
inductive Action where
  | pcall
  | original (slots : List Value)
  | guard (running : Bool)
  | storeBuffer
  | storeExecute
  | testExecute
  | clearExecute
  | load (o : ParserOutcome)
  | call
  | finish (o : CallOutcome)
  | clearBuffer
  | setFlag
  | readLine (thread : Nat) (text : Bytes)
  | pressRightAlt (thread : Nat)
  | submitBuffer (thread : Nat)
  | submitExecute (thread : Nat)
  | installPcall
  | installParser
  deriving DecidableEq, Repr

def toggleMenuChunk : Bytes := bytes
  "if getUpvalueByName(originalClearPauseMenu, \"pauseMenuShown\") then clearPauseMenu() else TriggerPauseMenu() end"

/-- The guard of a startup stage: its flag, and for the custom scripts the game state. -/
def Session.wants (s : Session) (stage : Startup) (running : Bool) : Bool :=
  !s.done stage && (stage = .configMenu || running)

/-- A step of the game thread inside the innermost hook call `f`. -/
def hookStep (s : Session) (f : Frame) (rest : List Frame) : Pc → Action → Option Session
  | .original, .original slots =>
    some { s with frames := { f with pc := .guard .configMenu, slots, caller := slots } :: rest }
  | .guard stage, .guard running =>
    if s.wants stage running then
      some { s with frames := { f with pc := .storeBuffer stage } :: rest }
    else
      some { s with frames := f.next (.startup stage) ++ rest }
  | .storeBuffer stage, .storeBuffer =>
    some { s with
      buffer := stage.chunk
      ledger := s.ledger.store stage.chunk
      frames := { f with pc := .storeExecute stage s.ledger.texts.length } :: rest }
  | .storeExecute stage id, .storeExecute =>
    some { s with
      execute := true
      ledger := s.ledger.complete id
      frames := { f with pc := .testExecute (.startup stage) } :: rest }
  | .testExecute stage, .testExecute =>
    if s.execute then
      some { s with frames := { f with pc := .clearExecute stage } :: rest }
    else
      some { s with frames := f.next stage ++ rest }
  | .clearExecute stage, .clearExecute =>
    some { s with
      execute := false
      frames := { f with pc := .load stage, top := f.slots.length } :: rest }
  | .load stage, .load o =>
    let (status, slots) := hookCall s.hooks.oLuadProtectedparser (o.apply f.slots) f.slots
    let pc := if status = 0 then .call stage s.buffer else .clearBuffer stage s.buffer false
    -- an error message is popped by check_lua_status, and the top is restored
    let slots := if status = 0 then slots else setTop f.top (slots.drop 1)
    some { s with
      ledger := s.ledger.load s.buffer
      frames := { f with pc, slots } :: rest }
  | .call stage text, .call =>
    match f.slots with
    | [] => none
    | _ :: below =>
      some { s with frames := { f with pc := .running stage text, slots := below } :: rest }
  | .running stage text, .finish o =>
    let (status, slots) := o.apply 0 f.slots
    let ok := decide (status = 0)
    let slots := setTop f.top (if ok then slots else slots.drop 1)
    some { s with
      ledger := if ok then
          { s.ledger with finished := (f.number, stage, text) :: s.ledger.finished }
        else s.ledger
      frames := { f with pc := .clearBuffer stage text ok, slots } :: rest }
  | .clearBuffer stage text ok, .clearBuffer =>
    let frames := match stage, ok with
      | .startup startup, true => [{ f with pc := .setFlag startup text }]
      | stage, _ => f.next stage
    some { s with
      buffer := []
      ledger := s.ledger.clear
      frames := frames ++ rest }
  | .setFlag stage text, .setFlag =>
    some { s.setDone stage with
      ledger := { s.ledger with flagged := (f.number, stage, text) :: s.ledger.flagged }
      frames := f.next (.startup stage) ++ rest }
  | _, _ => none

/-- A step of one of the threads that submit commands. -/
def submitStep (s : Session) (thread : Nat) : Submitter → Action → Option Session
  | .idle, .readLine _ text =>
    some { s with submitters := s.submitters.set thread (.ready text) }
  | .idle, .pressRightAlt _ =>
    if s.execute then some s
    else some { s with submitters := s.submitters.set thread (.ready toggleMenuChunk) }
  | .ready text, .submitBuffer _ =>
    some { s with
      buffer := text
      ledger := s.ledger.store text
      submitters := s.submitters.set thread (.stored s.ledger.texts.length) }
  | .stored id, .submitExecute _ =>
    some { s with
      execute := true
      ledger := s.ledger.complete id
      submitters := s.submitters.set thread .idle }
  | _, _ => none

def step (s : Session) (a : Action) : Option Session :=
  match a with
  | .pcall =>
    if s.inGameCode then
      if s.hooks.oLuaPcall then
        some { s with
          ledger := { s.ledger with calls := s.ledger.calls + 1 }
          frames := ⟨.original, [], 0, [], s.ledger.calls⟩ :: s.frames }
      else some s
    else none
  | .readLine thread _ | .pressRightAlt thread | .submitBuffer thread | .submitExecute thread => do
    submitStep s thread (← s.submitters[thread]?) a
  | .installPcall =>
    if s.hooks.oLuaPcall then none
    else some { s with hooks := { s.hooks with oLuaPcall := true } }
  | .installParser =>
    if s.hooks.oLuaPcall && !s.hooks.oLuadProtectedparser then
      some { s with hooks := { s.hooks with oLuadProtectedparser := true } }
    else none
  | a =>
    match s.frames with
    | [] => none
    | f :: rest => hookStep s f rest f.pc a

/-- A console line, submitted without interruption. -/
def submitLine (text : Bytes) : List Action :=
  [.readLine 0 text, .submitBuffer 0, .submitExecute 0]

/-- A hook call up to the guard of its first stage. -/
def enterHook : List Action := [.pcall, .original []]

/-- A hook call with no startup stage to do, up to the run of the text in the mailbox. -/
def callChunk (closure : Nat) : List Action :=
  enterHook ++ [.guard false, .guard false, .testExecute, .clearExecute, .load (.ok closure), .call]

/-- A startup stage from its guard to the run of the chunk it loads, with the steps of
other threads between its store and its load. -/
def stageUntilRun (between : List Action) : List Action :=
  [.guard true, .storeBuffer] ++ between ++
    [.storeExecute, .testExecute, .clearExecute, .load (.ok 1), .call]

/-- The rest of a startup stage whose chunk ends without error. -/
def stageAfterRun : List Action := [.finish (.ok []), .clearBuffer, .setFlag]

end DriverSF
