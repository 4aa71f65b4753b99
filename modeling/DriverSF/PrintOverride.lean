import DriverSF.LuaExec

namespace DriverSF

variable {W : Type} {g : Game W} {L : LuaState W}

def luaPushvalue (L : LuaState W) (idx : Int) : Option (LuaState W) :=
  (index2adr L idx).map fun o => L.push (o.getD .nil)

/-- `lua_call`: an error is passed to the caller. -/
def luaCall (g : Game W) (L : LuaState W) (nargs : Nat) (nresults : Int) :
    Option (Except (LuaError × Value) (LuaState W)) :=
  match L.stack.drop nargs with
  | [] => none
  | func :: below =>
    if L.floor ≤ below.length then
      match g.call L.env none func (L.stack.take nargs).reverse with
      | (env, .ok results) =>
        some (.ok { L with env, stack := (adjustResults nresults results).reverse ++ below })
      | (_, .error e obj) => some (.error (e, obj))
    else none

/-- `logger::lua`. -/
def Console.lua (c : Console) (logLua : Bool) (message : Bytes) : Console :=
  if logLua then { c with lines := c.lines ++ [bytes "[LUA] " ++ message] } else c

def loggerLua (logLua : Bool) (L : LuaState W) (message : Bytes) : LuaState W :=
  L.modifyVars fun vars => { vars with console := vars.console.lua logLua message }

/-- The body of the loop of `luab_print_override`. -/
def printOverrideArgument (g : Game W) (hooks : Hooks) (L : LuaState W) (i : Nat)
    (result : Bytes) : Option (Bytes × LuaState W) := do
  let L ← luaPushvalue L (-1)
  let L ← luaPushvalue L i
  let (_, L) ← oLuaPcall g hooks L 1 1 0
  let (s, L) ← luaTolstring g L (-1)
  let result := result ++ (s.map cstr).getD []
  let result := if i > 1 then result ++ [9] else result
  let L ← luaPop L 1
  return (result, L)

def printOverrideLoop (g : Game W) (hooks : Hooks) :
    List Nat → LuaState W → Bytes → Option (Bytes × LuaState W)
  | [], L, result => some (result, L)
  | i :: rest, L, result => do
    let (result, L) ← printOverrideArgument g hooks L i result
    printOverrideLoop g hooks rest L result

def luabPrintOverride (g : Game W) (hooks : Hooks) (logLua : Bool) (L : LuaState W) :
    Option (Int × LuaState W) := do
  let n := luaGettop L
  let L ← luaGetfield g L luaGlobalsindex (bytes "tostring")
  let (result, L) ← printOverrideLoop g hooks (List.range' 1 n) L []
  return (0, if result = [] then L else loggerLua logLua L result)

def notStringError : LuaError × Value :=
  (.errRun, .string (bytes "'tostring' must return a string to 'print'"))

/-- The body of the loop of `luaB_print`, with what it has written to `stdout`. -/
def luaBPrintArgument (g : Game W) (L : LuaState W) (i : Nat) (out : Bytes) :
    Option (Except (LuaError × Value) (Bytes × LuaState W)) := do
  let L ← luaPushvalue L (-1)
  let L ← luaPushvalue L i
  match ← luaCall g L 1 1 with
  | .error e => return .error e
  | .ok L =>
    match ← luaTolstring g L (-1) with
    | (none, _) => return .error notStringError
    | (some s, L) =>
      let out := if i > 1 then out ++ [9] else out
      let out := out ++ cstr s
      let L ← luaPop L 1
      return .ok (out, L)

def luaBPrintLoop (g : Game W) :
    List Nat → LuaState W → Bytes → Option (Except (LuaError × Value) (Bytes × LuaState W))
  | [], L, out => some (.ok (out, L))
  | i :: rest, L, out => do
    match ← luaBPrintArgument g L i out with
    | .error e => return .error e
    | .ok (out, L) => luaBPrintLoop g rest L out

def luaBPrint (g : Game W) (L : LuaState W) :
    Option (Except (LuaError × Value) (Bytes × LuaState W)) := do
  let n := luaGettop L
  let L ← luaGetfield g L luaGlobalsindex (bytes "tostring")
  match ← luaBPrintLoop g (List.range' 1 n) L [] with
  | .error e => return .error e
  | .ok (out, L) => return .ok (out ++ [10], L)

/-- The value that a protected call with one result leaves. -/
def CallOutcome.left : CallOutcome → Value
  | .ok results => results.head?.getD .nil
  | .error _ obj => obj

/-- The calls of `tostring` on the arguments in order: what they leave, and the environment
after them. -/
def tostringCalls (g : Game W) (tostring : Value) : Env W → List Value → List Value × Env W
  | env, [] => ([], env)
  | env, a :: args =>
    let (env, o) := g.call env none tostring [a]
    let (left, env) := tostringCalls g tostring env args
    (o.left :: left, env)

/-- The text of a string or a number. -/
def textOf (g : Game W) : Value → Option Bytes
  | .string s => some (cstr s)
  | .number n => some (cstr (g.number2str n))
  | _ => none

theorem adjustResults_one (results : List Value) :
    adjustResults 1 results = [results.head?.getD .nil] := by
  cases results <;> simp [adjustResults, luaMultret]

theorem CallOutcome.apply_one (o : CallOutcome) (below : List Value) :
    (o.apply 1 below).2 = o.left :: below := by
  cases o with
  | ok results => simp [apply, left, adjustResults_one]
  | error e obj => rfl

theorem oLuaPcall_one (g : Game W) (parser : Bool) {a f : Value} {below : List Value}
    (stack : L.stack = a :: f :: below) (floor : L.floor = 0) :
    ∃ status, oLuaPcall g ⟨true, parser⟩ L 1 1 0 =
      some (status, { L with
        env := (g.call L.env none f [a]).1
        stack := (g.call L.env none f [a]).2.left :: below }) := by
  refine ⟨((g.call L.env none f [a]).2.apply 1 below).1, ?_⟩
  unfold oLuaPcall luaPcall
  simp [stack, floor, CallOutcome.apply_one]

theorem luaCall_ok {a f : Value} {below results : List Value} {env : Env W}
    (stack : L.stack = a :: f :: below) (floor : L.floor = 0)
    (h : g.call L.env none f [a] = (env, .ok results)) :
    luaCall g L 1 1 =
      some (.ok { L with env, stack := (CallOutcome.ok results).left :: below }) := by
  simp [luaCall, stack, floor, h, adjustResults_one, CallOutcome.left]

theorem luaCall_error {a f obj : Value} {below : List Value} {env : Env W} {e : LuaError}
    (stack : L.stack = a :: f :: below) (floor : L.floor = 0)
    (h : g.call L.env none f [a] = (env, .error e obj)) :
    luaCall g L 1 1 = some (.error (e, obj)) := by
  simp [luaCall, stack, floor, h]

/-- What `lua_tolstring` reads on the top of the stack, which it may change. -/
theorem luaTolstring_first (g : Game W) {a : Value} {below : List Value}
    (stack : L.stack = a :: below) (floor : L.floor = 0) :
    ∃ s a', luaTolstring g L (-1) = some (s, { L with stack := a' :: below }) ∧
      s.map cstr = textOf g a := by
  have above : L.Above (a :: below) [] := ⟨by rw [stack, List.append_nil], floor⟩
  have index := index2adr_top above
  have slot := stackPos_top above
  have same : ({ L with stack := a :: below } : LuaState W) = L := by rw [← stack]
  cases a with
  | string s => exact ⟨some s, .string s, by rw [same]; simp [luaTolstring, index], rfl⟩
  | number n =>
    refine ⟨some (g.number2str n), .string (g.number2str n), ?_, rfl⟩
    simp [luaTolstring, index, slot, stack]
  | _ => exact ⟨none, _, by rw [same]; simp [luaTolstring, index], rfl⟩

theorem luaPop_first {a : Value} {below : List Value} (stack : L.stack = a :: below)
    (floor : L.floor = 0) : luaPop L 1 = some { L with stack := below } := by
  unfold luaPop luaSettop
  simp [stack, floor]

/-- Both loops push the function and an argument before their call. -/
theorem luaPushvalue_eq {v : Value} {idx : Int} (h : index2adr L idx = some (some v)) :
    luaPushvalue L idx = some (L.push v) := by
  simp [luaPushvalue, h]

theorem printOverrideArgument_eq (g : Game W) (parser : Bool) {f a : Value} {below : List Value}
    {i : Nat} (stack : L.stack = f :: below) (floor : L.floor = 0)
    (argument : index2adr (L.push f) i = some (some a)) (result : Bytes) :
    printOverrideArgument g ⟨true, parser⟩ L i result =
      some (result ++ (textOf g (g.call L.env none f [a]).2.left).getD [] ++
          (if i > 1 then [9] else []),
        { L with env := (g.call L.env none f [a]).1 }) := by
  have pushed := luaPushvalue_eq (index2adr_first stack floor)
  have pushed' := luaPushvalue_eq argument
  obtain ⟨status, called⟩ := oLuaPcall_one (L := (L.push f).push a) g parser rfl floor
  change _ = some (status, { L with
    env := (g.call L.env none f [a]).1
    stack := (g.call L.env none f [a]).2.left :: L.stack }) at called
  obtain ⟨s, a', read, text⟩ := luaTolstring_first (L := { L with
    env := (g.call L.env none f [a]).1
    stack := (g.call L.env none f [a]).2.left :: L.stack }) g rfl floor
  have popped := luaPop_first (L := { L with
    env := (g.call L.env none f [a]).1
    stack := a' :: L.stack }) rfl floor
  unfold printOverrideArgument
  simp only [pushed, pushed', called, read, popped, Option.bind_eq_bind, Option.bind_some, text]
  by_cases later : i > 1
  · simp [later]
  · simp [later]

/-- The line that the remaining arguments add, each but the very first with its tab behind it. -/
def overrideLine (first : Bool) : List Bytes → Bytes
  | [] => []
  | t :: ts => t ++ (if first then [] else [9]) ++ overrideLine false ts

/-- The number of an argument names it while the function is on top of the arguments. -/
theorem argument_index {f a : Value} {args done : List Value}
    (stack : L.stack = f :: (done ++ a :: args).reverse) (floor : L.floor = 0) :
    index2adr (L.push f) ((done.length + 1 : Nat) : Int) = some (some a) := by
  have bottom : (L.push f).stack = (f :: f :: args.reverse) ++ a :: done.reverse := by
    simp [LuaState.push, stack]
  have found := index2adr_bottom bottom floor
  rwa [List.length_reverse] at found

theorem range'_cons (k n : Nat) : List.range' k (n + 1) = k :: List.range' (k + 1) n :=
  List.range'_succ

/-- The loop calls `tostring` on the remaining arguments in order and appends their texts. -/
theorem printOverrideLoop_eq (g : Game W) (parser : Bool) {f : Value} {args done : List Value}
    (stack : L.stack = f :: (done ++ args).reverse) (floor : L.floor = 0) (result : Bytes) :
    printOverrideLoop g ⟨true, parser⟩ (List.range' (done.length + 1) args.length) L result =
      some (result ++ overrideLine (done.length = 0)
          ((tostringCalls g f L.env args).1.map fun v => (textOf g v).getD []),
        { L with env := (tostringCalls g f L.env args).2 }) := by
  induction args generalizing L done result with
  | nil => simp [printOverrideLoop, tostringCalls, overrideLine]
  | cons a args ih =>
    have step := printOverrideArgument_eq g parser stack floor (argument_index stack floor) result
    have shape : ({ L with env := (g.call L.env none f [a]).1 } : LuaState W).stack =
        f :: ((done ++ [a]) ++ args).reverse := by simp [stack]
    have rest := ih shape floor (result ++
      (textOf g (g.call L.env none f [a]).2.left).getD [] ++
        (if done.length + 1 > 1 then [9] else []))
    have count : (done ++ [a]).length + 1 = done.length + 1 + 1 := by simp
    have not_first : decide ((done ++ [a]).length = 0) = false := by simp
    rw [count, not_first] at rest
    rw [List.length_cons, range'_cons, printOverrideLoop, step]
    refine Eq.trans rest ?_
    by_cases first : done.length = 0
    · simp [first, tostringCalls, overrideLine]
    · simp [first, Nat.pos_of_ne_zero first, tostringCalls, overrideLine]

theorem luaBPrintArgument_ok {f a : Value} {below : List Value} {i : Nat}
    (stack : L.stack = f :: below) (floor : L.floor = 0)
    (argument : index2adr (L.push f) i = some (some a)) {out out' : Bytes} {L' : LuaState W}
    (h : luaBPrintArgument g L i out = some (.ok (out', L'))) :
    out' = out ++ (if i > 1 then [9] else []) ++
        (textOf g (g.call L.env none f [a]).2.left).getD [] ∧
      L' = { L with env := (g.call L.env none f [a]).1 } := by
  have pushed := luaPushvalue_eq (index2adr_first stack floor)
  have pushed' := luaPushvalue_eq argument
  unfold luaBPrintArgument at h
  simp only [pushed, pushed', Option.bind_eq_bind, Option.bind_some] at h
  rcases result : g.call L.env none f [a] with ⟨env, results | ⟨e, obj⟩⟩
  · have called := luaCall_ok (L := (L.push f).push a) rfl floor result
    obtain ⟨s, a', read, text⟩ := luaTolstring_first (L := { L with
      env := env
      stack := (CallOutcome.ok results).left :: L.stack }) g rfl floor
    have popped := luaPop_first (L := { L with env := env, stack := a' :: L.stack }) rfl floor
    change luaCall g ((L.push f).push a) 1 1 = some (.ok { L with
      env := env
      stack := (CallOutcome.ok results).left :: L.stack }) at called
    cases s with
    | none => simp [called, read] at h
    | some s =>
      simp only [called, read, popped, Option.bind_some, Option.pure_def, Option.some.injEq,
        Except.ok.injEq, Prod.mk.injEq] at h
      obtain ⟨rfl, rfl⟩ := h
      refine ⟨?_, rfl⟩
      rw [← text, Option.map_some, Option.getD_some]
      by_cases later : i > 1 <;> simp [later]
  · have called := luaCall_error (L := (L.push f).push a) rfl floor result
    simp [called] at h

/-- The line of `luaB_print`, with a tab before each argument but the very first. -/
def printLine (first : Bool) : List Bytes → Bytes
  | [] => []
  | t :: ts => (if first then [] else [9]) ++ t ++ printLine false ts

theorem luaBPrintLoop_ok {f : Value} {args done : List Value}
    (stack : L.stack = f :: (done ++ args).reverse) (floor : L.floor = 0) {out out' : Bytes}
    {L' : LuaState W}
    (h : luaBPrintLoop g (List.range' (done.length + 1) args.length) L out = some (.ok (out', L'))) :
    out' = out ++ printLine (done.length = 0)
        ((tostringCalls g f L.env args).1.map fun v => (textOf g v).getD []) ∧
      L' = { L with env := (tostringCalls g f L.env args).2 } := by
  induction args generalizing L done out with
  | nil =>
    obtain ⟨rfl, rfl⟩ := Prod.mk.inj (Except.ok.inj (Option.some.inj h))
    simp [tostringCalls, printLine]
  | cons a args ih =>
    rw [List.length_cons, range'_cons, luaBPrintLoop] at h
    obtain ⟨r, argument, h⟩ := Option.bind_eq_some_iff.mp h
    cases r with
    | error e => simp at h
    | ok r =>
      obtain ⟨out₁, L₁⟩ := r
      obtain ⟨rfl, rfl⟩ := luaBPrintArgument_ok stack floor (argument_index stack floor) argument
      have shape : ({ L with env := (g.call L.env none f [a]).1 } : LuaState W).stack =
          f :: ((done ++ [a]) ++ args).reverse := by simp [stack]
      have count : done.length + 1 + 1 = (done ++ [a]).length + 1 := by simp
      rw [count] at h
      obtain ⟨rfl, rfl⟩ := ih shape floor h
      have not_first : decide ((done ++ [a]).length = 0) = false := by simp
      rw [not_first]
      refine ⟨?_, rfl⟩
      by_cases first : done.length = 0
      · simp [first, tostringCalls, printLine]
      · simp [first, Nat.pos_of_ne_zero first, tostringCalls, printLine]

theorem append_printLine (t : Bytes) (ts : List Bytes) :
    t ++ printLine false ts = [9].intercalate (t :: ts) := by
  induction ts generalizing t with
  | nil => simp [printLine]
  | cons u ts ih =>
    rw [printLine, List.intercalate_cons_cons, ← ih u]
    simp

theorem printLine_eq (ts : List Bytes) : printLine true ts = [9].intercalate ts := by
  cases ts with
  | nil => rfl
  | cons t ts =>
    rw [← append_printLine]
    rfl

/-- Each of the texts with one tab before it or behind it. -/
inductive BesideTabs : List Bytes → Bytes → Prop
  | nil : BesideTabs [] []
  | before {ts : List Bytes} {line : Bytes} (t : Bytes) (h : BesideTabs ts line) :
    BesideTabs (t :: ts) ([9] ++ t ++ line)
  | behind {ts : List Bytes} {line : Bytes} (t : Bytes) (h : BesideTabs ts line) :
    BesideTabs (t :: ts) (t ++ [9] ++ line)

/-- The texts in order, with one tab next to each of them after the first. -/
inductive Separated : List Bytes → Bytes → Prop
  | nil : Separated [] []
  | cons {ts : List Bytes} {line : Bytes} (t : Bytes) (h : BesideTabs ts line) :
    Separated (t :: ts) (t ++ line)

theorem overrideLine_besideTabs (ts : List Bytes) : BesideTabs ts (overrideLine false ts) := by
  induction ts with
  | nil => exact .nil
  | cons t ts ih => exact .behind t ih

theorem overrideLine_separated (ts : List Bytes) : Separated ts (overrideLine true ts) := by
  cases ts with
  | nil => exact .nil
  | cons t ts =>
    rw [overrideLine, if_pos rfl, List.append_nil]
    exact .cons t (overrideLine_besideTabs ts)

/-- The texts of the arguments of `print`, and the environment after the calls of `tostring`. -/
def printedTexts (g : Game W) (L : LuaState W) (args : List Value) : List Bytes × Env W :=
  let (env, tostring) := g.gettable L.env L.env.globals (bytes "tostring")
  let (left, env) := tostringCalls g tostring env args
  (left.map fun v => (textOf g v).getD [], env)

/-- The lines that the override logs. -/
def loggedLines (line : Bytes) : List Bytes :=
  if line = [] then [] else [bytes "[LUA] " ++ line]

def Env.withLines (env : Env W) (lines : List Bytes) : Env W :=
  { env with vars := { env.vars with console := { env.vars.console with
      lines := env.vars.console.lines ++ lines } } }

/-- The function that both loops call is on top of the arguments. -/
theorem getTostring (g : Game W) {args : List Value} (frame : CallFrame L args) :
    ∃ L₁ f, luaGetfield g L luaGlobalsindex (bytes "tostring") = some L₁ ∧
      L₁.stack = f :: ([] ++ args).reverse ∧ L₁.floor = 0 ∧ luaGettop L = args.length ∧
      printedTexts g L args =
        ((tostringCalls g f L₁.env args).1.map fun v => (textOf g v).getD [],
          (tostringCalls g f L₁.env args).2) := by
  refine ⟨LuaState.push { L with env := (g.gettable L.env L.env.globals (bytes "tostring")).1 }
    (g.gettable L.env L.env.globals (bytes "tostring")).2, _, ?_, ?_, frame.floor,
    luaGettop_frame frame, rfl⟩
  · simp [luaGetfield, index2adr_globals]
  · simp only [LuaState.push, frame.stack, List.nil_append]

theorem luabPrintOverride_eq (g : Game W) (parser : Bool) {args : List Value}
    (frame : CallFrame L args) :
    ∃ L', luabPrintOverride g ⟨true, parser⟩ true L = some (0, L') ∧
      L'.env = (printedTexts g L args).2.withLines
        (loggedLines (overrideLine true (printedTexts g L args).1)) := by
  obtain ⟨L₁, f, got, stack, floor, count, texts⟩ := getTostring g frame
  have loop := printOverrideLoop_eq g parser stack floor []
  simp only [List.length_nil, Nat.zero_add, decide_true, List.nil_append] at loop
  simp only [luabPrintOverride, got, count, loop, Option.bind_eq_bind, Option.bind_some,
    Option.pure_def]
  refine ⟨_, rfl, ?_⟩
  rw [texts]
  unfold loggedLines
  split
  next => simp [Env.withLines]
  next => rfl

theorem luaBPrint_ok {args : List Value} (frame : CallFrame L args) {out : Bytes}
    {L' : LuaState W} (h : luaBPrint g L = some (.ok (out, L'))) :
    out = printLine true (printedTexts g L args).1 ++ [10] ∧
      L'.env = (printedTexts g L args).2 := by
  obtain ⟨L₁, f, got, stack, floor, count, texts⟩ := getTostring g frame
  simp only [luaBPrint, got, count, Option.bind_eq_bind, Option.bind_some] at h
  obtain ⟨r, loop, h⟩ := Option.bind_eq_some_iff.mp h
  cases r with
  | error e => simp at h
  | ok r =>
    obtain ⟨written, L₂⟩ := r
    obtain ⟨rfl, rfl⟩ := Prod.mk.inj (Except.ok.inj (Option.some.inj h))
    have ran : luaBPrintLoop g (List.range' (([] : List Value).length + 1) args.length) L₁ [] =
        some (.ok (written, L₂)) := loop
    obtain ⟨rfl, rfl⟩ := luaBPrintLoop_ok stack floor ran
    rw [texts]
    exact ⟨rfl, rfl⟩

theorem tostringCalls_length (g : Game W) (f : Value) (env : Env W) (args : List Value) :
    (tostringCalls g f env args).1.length = args.length := by
  induction args generalizing env with
  | nil => rfl
  | cons a args ih => rw [tostringCalls, List.length_cons, List.length_cons, ih]

theorem printLine_of_single {ts : List Bytes} (single : ts.length ≤ 1) :
    printLine true ts = overrideLine true ts := by
  match ts, single with
  | [], _ => rfl
  | [t], _ => simp [printLine, overrideLine]

/-- The override never raises. It logs the texts of the arguments in order, with one tab next to
each after the first, unless the line is empty; where `luaB_print` does not raise, it writes the
same texts after the same calls, and a single one in the same line. -/
theorem luabPrintOverride_logs (g : Game W) (parser : Bool) {args : List Value}
    (frame : CallFrame L args) :
    ∃ line L', luabPrintOverride g ⟨true, parser⟩ true L = some (0, L') ∧
      L'.env = (printedTexts g L args).2.withLines (loggedLines line) ∧
      Separated (printedTexts g L args).1 line ∧
      ∀ out after, luaBPrint g L = some (.ok (out, after)) →
        out = [9].intercalate (printedTexts g L args).1 ++ [10] ∧
        after.env = (printedTexts g L args).2 ∧
        (args.length ≤ 1 → out = line ++ [10]) := by
  obtain ⟨L', logged, env⟩ := luabPrintOverride_eq g parser frame
  refine ⟨_, L', logged, env, overrideLine_separated _, ?_⟩
  intro out after printed
  obtain ⟨rfl, same⟩ := luaBPrint_ok frame printed
  refine ⟨by rw [printLine_eq], same, ?_⟩
  intro single
  have count : (printedTexts g L args).1.length = args.length := by
    rw [printedTexts, List.length_map, tostringCalls_length]
  rw [printLine_of_single (by omega)]

/-- A call of the override logs the line that `luaB_print` writes, or raises like it. -/
def PrintAgrees (g : Game W) (L : LuaState W) : Prop :=
  ∀ outcome, luaBPrint g L = some outcome →
    match outcome with
    | .ok (out, after) => ∃ line L', out = line ++ [10] ∧
        luabPrintOverride g ⟨true, true⟩ true L = some (0, L') ∧
        L'.env = after.env.withLines [bytes "[LUA] " ++ line]
    | .error _ => luabPrintOverride g ⟨true, true⟩ true L = none

def printState (args : List Value) : LuaState Unit where
  addr := 1
  env := ⟨(), .table 0, fun _ => .c [], fun _ => .nil, idleVars⟩
  stack := args.reverse
  floor := 0

/-- `tostring` on strings. -/
def stringGame : Game Unit := { idleGame with call := fun env _ _ args => (env, .ok args) }

def twoStrings : List Value := [.string (bytes "a"), .string (bytes "b")]

theorem luabPrintOverride_logs_pair :
    ∃ line L', luabPrintOverride stringGame ⟨true, true⟩ true (printState twoStrings) =
        some (0, L') ∧
      L'.env = (printedTexts stringGame (printState twoStrings) twoStrings).2.withLines
        (loggedLines line) ∧
      Separated (printedTexts stringGame (printState twoStrings) twoStrings).1 line ∧
      ∀ out after, luaBPrint stringGame (printState twoStrings) = some (.ok (out, after)) →
        out = [9].intercalate (printedTexts stringGame (printState twoStrings) twoStrings).1 ++
          [10] ∧
        after.env = (printedTexts stringGame (printState twoStrings) twoStrings).2 ∧
        (twoStrings.length ≤ 1 → out = line ++ [10]) :=
  luabPrintOverride_logs stringGame true ⟨rfl, rfl⟩

/-- `print()` is an empty line in Lua and nothing here, and with a `tostring` that returns nothing
`print(nil)` raises an error in Lua and does not here. -/
theorem emptyLine_breaks_printAgrees :
    (¬ PrintAgrees idleGame (printState [])) ∧ ¬ PrintAgrees idleGame (printState [.nil]) := by
  constructor
  · intro agrees
    obtain ⟨line, L', _, ran, env⟩ := agrees (.ok ([10], _)) rfl
    obtain ⟨_, rfl⟩ := Prod.mk.inj (Option.some.inj ran)
    have lines := congrArg (fun env => env.vars.console.lines) env
    simp [Env.withLines, printState, idleVars, idleGame] at lines
  · intro agrees
    have raised := congrArg Option.isSome (agrees (.error notStringError) rfl)
    revert raised
    decide

end DriverSF
