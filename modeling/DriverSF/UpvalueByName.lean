import Mathlib.Logic.Function.Basic
import DriverSF.LuaHelpers

namespace DriverSF

variable {W : Type}

def Closure.isC : Closure → Bool
  | .lua _ _ _ => false
  | .c _ => true

def Env.setCell (env : Env W) (c : Nat) (v : Value) : Env W :=
  { env with cell := Function.update env.cell c v }

/-- `lua_setupvalue`: the name, and the heap after the write. -/
def luaSetupvalue (env : Env W) (func : Value) (n : Nat) (v : Value) : Option (Bytes × Env W) :=
  match func, n with
  | .function ref, n + 1 =>
    match env.closure ref with
    | .c upvalue =>
      if n < upvalue.length then
        some ([], { env with
          closure := Function.update env.closure ref (.c (upvalue.set n v)) })
      else none
    | .lua names upvals _ => do
      let name ← names[n]?
      let cell ← upvals[n]?
      return (name, env.setCell cell v)
  | _, _ => none

/-- How a call made by a script ends. -/
inductive ScriptResult (α : Type) where
  | raised
  | returned (a : α)
  deriving DecidableEq, Repr

/-- `auxupvalue`: an error for anything but a function, and nothing for a C function. -/
def auxupvalue {α : Type} (env : Env W) (func : Value) (access : Option (Bytes × α)) :
    ScriptResult (Option (Bytes × α)) :=
  match func with
  | .function ref =>
    -- cannot touch C upvalues from Lua
    if (env.closure ref).isC then .returned none
    else .returned (access.map fun (name, a) => (cstr name, a))
  | _ => .raised

def dbGetupvalue (env : Env W) (func : Value) (n : Nat) :
    ScriptResult (Option (Bytes × Value)) :=
  auxupvalue env func (auxUpvalue env (some func) n)

def dbSetupvalue (env : Env W) (func : Value) (n : Nat) (v : Value) :
    ScriptResult (Option (Bytes × Env W)) :=
  auxupvalue env func (luaSetupvalue env func n v)

/-- The loop of both functions from upvalue `i` on, with a bound on its rounds. -/
def upvalueLoop {α : Type} (env : Env W) (func : Value) (upvalueName : Bytes)
    (hit : Nat → Value → ScriptResult α) (missing : α) : Nat → Nat → Option (ScriptResult α)
  | 0, _ => none
  | rounds + 1, i =>
    match dbGetupvalue env func i with
    | .raised => some .raised
    | .returned none => some (.returned missing)
    | .returned (some (name, value)) =>
      if name = upvalueName then some (hit i value)
      else upvalueLoop env func upvalueName hit missing rounds (i + 1)

def upvalueRounds (env : Env W) : Value → Nat
  | .function ref => (env.closure ref).upvalueCount + 1
  | _ => 1

namespace Utils

def getUpvalueByName (env : Env W) (func : Value) (upvalueName : Bytes) :
    Option (ScriptResult (Value × Bool)) :=
  upvalueLoop env func upvalueName (fun _ value => .returned (value, true)) (.nil, false)
    (upvalueRounds env func) 1

/-- The write at the upvalue that was found. -/
def setFound (env : Env W) (func : Value) (i : Nat) (newValue : Value) :
    ScriptResult (Bool × Env W) :=
  match dbSetupvalue env func i newValue with
  | .raised => .raised
  | .returned (some (_, env')) => .returned (true, env')
  | .returned none => .returned (false, env)

def setUpvalueByName (env : Env W) (func : Value) (upvalueName : Bytes) (newValue : Value) :
    Option (ScriptResult (Bool × Env W)) :=
  upvalueLoop env func upvalueName (fun i _ => setFound env func i newValue) (false, env)
    (upvalueRounds env func) 1

end Utils

/-- The names and cells of the upvalues that a script can reach. -/
def Closure.entries : Closure → List (Bytes × Nat)
  | .lua names upvals _ => names.zip upvals
  | .c _ => []

theorem Closure.entries_length_le (f : Closure) : f.entries.length ≤ f.upvalueCount := by
  cases f with
  | lua names upvals named => simp [entries, upvalueCount, named]
  | c upvalue => simp [entries]

/-- The cell of the first upvalue with the name. -/
def resolve (env : Env W) (f : Nat) (n : Bytes) : Option Nat :=
  ((env.closure f).entries.find? fun e => cstr e.1 = n).map Prod.snd

theorem entries_getElem? {env : Env W} {f : Nat} {names : List Bytes} {upvals : List Nat}
    {named : names.length ≤ upvals.length} (h : env.closure f = .lua names upvals named) (k : Nat) :
    (env.closure f).entries[k]? = do
      let name ← names[k]?
      let cell ← upvals[k]?
      return (name, cell) := by
  rw [h, Closure.entries, List.zip, List.getElem?_zipWith]
  cases names[k]? <;> cases upvals[k]? <;> rfl

theorem auxUpvalue_lua {env : Env W} {f : Nat} {names : List Bytes} {upvals : List Nat}
    {named : names.length ≤ upvals.length} (h : env.closure f = .lua names upvals named) (k : Nat) :
    auxUpvalue env (some (.function f)) (k + 1) =
      (env.closure f).entries[k]?.map fun e => (e.1, env.cell e.2) := by
  rw [entries_getElem? h, auxUpvalue]
  simp only [h]
  cases names[k]? <;> cases upvals[k]? <;> rfl

theorem dbGetupvalue_function (env : Env W) (f k : Nat) :
    dbGetupvalue env (.function f) (k + 1) =
      .returned ((env.closure f).entries[k]?.map fun e => (cstr e.1, env.cell e.2)) := by
  cases h : env.closure f with
  | c upvalue => simp [dbGetupvalue, auxupvalue, h, Closure.isC, Closure.entries]
  | lua names upvals named =>
    rw [dbGetupvalue, auxUpvalue_lua h, auxupvalue]
    simp only [h, Closure.isC, Bool.false_eq_true, if_false, Option.map_map]
    rfl

theorem dbSetupvalue_function (env : Env W) (f k : Nat) (v : Value) :
    dbSetupvalue env (.function f) (k + 1) v =
      .returned ((env.closure f).entries[k]?.map fun e => (cstr e.1, env.setCell e.2 v)) := by
  cases h : env.closure f with
  | c upvalue => simp [dbSetupvalue, auxupvalue, h, Closure.isC, Closure.entries]
  | lua names upvals named =>
    have entry := entries_getElem? h k
    rw [h] at entry
    rw [entry, dbSetupvalue, auxupvalue, luaSetupvalue]
    simp only [h, Closure.isC, Bool.false_eq_true, if_false]
    cases names[k]? <;> cases upvals[k]? <;> rfl

/-- The loop stops at the first upvalue with the name, if one is left. -/
theorem upvalueLoop_eq {α : Type} {env : Env W} {f : Nat} {n : Bytes}
    {hit : Nat → Value → ScriptResult α} {missing : α} (out : Nat → ScriptResult α)
    (found : ∀ k e, (env.closure f).entries[k]? = some e → hit (k + 1) (env.cell e.2) = out e.2)
    {rounds k : Nat} (reached : k ≤ (env.closure f).entries.length)
    (enough : (env.closure f).entries.length < rounds + k) :
    upvalueLoop env (.function f) n hit missing rounds (k + 1) =
      some (match ((env.closure f).entries.drop k).find? fun e => cstr e.1 = n with
        | some e => out e.2
        | none => .returned missing) := by
  induction rounds generalizing k with
  | zero => omega
  | succ rounds ih =>
    rw [upvalueLoop, dbGetupvalue_function]
    cases entry : (env.closure f).entries[k]? with
    | none =>
      have past := List.getElem?_eq_none_iff.mp entry
      rw [List.drop_eq_nil_of_le past]
      rfl
    | some e =>
      obtain ⟨inside, rfl⟩ := List.getElem?_eq_some_iff.mp entry
      rw [List.drop_eq_getElem_cons inside, List.find?_cons]
      by_cases same : cstr ((env.closure f).entries[k]).1 = n
      · simp [same, found k _ entry]
      · simp [same, ih (k := k + 1) (by omega) (by omega)]

theorem upvalueLoop_resolve {α : Type} {env : Env W} {f : Nat} {n : Bytes}
    {hit : Nat → Value → ScriptResult α} {missing : α} (out : Nat → ScriptResult α)
    (found : ∀ k e, (env.closure f).entries[k]? = some e → hit (k + 1) (env.cell e.2) = out e.2) :
    upvalueLoop env (.function f) n hit missing (upvalueRounds env (.function f)) 1 =
      some (match resolve env f n with
        | some c => out c
        | none => .returned missing) := by
  have enough := (env.closure f).entries_length_le
  rw [upvalueLoop_eq out found (Nat.zero_le _) (by rw [upvalueRounds]; omega), resolve, List.drop_zero]
  cases (env.closure f).entries.find? fun e => cstr e.1 = n <;> rfl

namespace Utils

theorem getUpvalueByName_eq (env : Env W) (f : Nat) (n : Bytes) :
    getUpvalueByName env (.function f) n =
      some (.returned (match resolve env f n with
        | some c => (env.cell c, true)
        | none => (.nil, false))) := by
  rw [getUpvalueByName,
    upvalueLoop_resolve (fun c => .returned (env.cell c, true)) fun _ _ _ => rfl]
  cases resolve env f n <;> rfl

theorem setFound_entry {env : Env W} {f k : Nat} {e : Bytes × Nat}
    (h : (env.closure f).entries[k]? = some e) (v : Value) :
    setFound env (.function f) (k + 1) v = .returned (true, env.setCell e.2 v) := by
  rw [setFound, dbSetupvalue_function, h]
  rfl

theorem setUpvalueByName_eq (env : Env W) (f : Nat) (n : Bytes) (v : Value) :
    setUpvalueByName env (.function f) n v =
      some (.returned (match resolve env f n with
        | some c => (true, env.setCell c v)
        | none => (false, env))) := by
  rw [setUpvalueByName,
    upvalueLoop_resolve (fun c => .returned (true, env.setCell c v)) fun _ _ h =>
      setFound_entry h v]
  cases resolve env f n <;> rfl

/-- Both searches end and find the cell to which the name resolves, the one reads it, and a write
of the other changes what is read through every name of that cell and nothing else. -/
theorem setUpvalueByName_lawful (env : Env W) (f : Nat) (n : Bytes) (v : Value) :
    ∃ value found done env',
      getUpvalueByName env (.function f) n = some (.returned (value, found)) ∧
      setUpvalueByName env (.function f) n v = some (.returned (done, env')) ∧
      (done = true ↔ found = true) ∧
      (found = true ↔ (resolve env f n).isSome) ∧
      (∀ c, resolve env f n = some c → value = env.cell c) ∧
      (done = false → env' = env) ∧
      (done = true → ∃ c, resolve env f n = some c ∧ env' = env.setCell c v ∧
        ∀ g m, getUpvalueByName env' (.function g) m =
          if resolve env g m = some c then some (.returned (v, true))
          else getUpvalueByName env (.function g) m) := by
  rw [getUpvalueByName_eq, setUpvalueByName_eq]
  cases found : resolve env f n with
  | none =>
    exact ⟨.nil, false, false, env, rfl, rfl, Iff.rfl, by simp, by simp, fun _ => rfl, by simp⟩
  | some c =>
    refine ⟨env.cell c, true, true, env.setCell c v, rfl, rfl, Iff.rfl, by simp, ?_, by simp, ?_⟩
    · intro d same
      rw [Option.some.inj same]
    intro _
    refine ⟨c, rfl, rfl, ?_⟩
    intro g m
    have same : resolve (env.setCell c v) g m = resolve env g m := rfl
    rw [getUpvalueByName_eq, getUpvalueByName_eq, same]
    cases resolve env g m with
    | none => rfl
    | some d =>
      by_cases hd : d = c
      · rw [hd, if_pos rfl]
        simp [Env.setCell]
      · rw [if_neg (fun h => hd (Option.some.inj h))]
        simp [Env.setCell, hd]

end Utils

end DriverSF
