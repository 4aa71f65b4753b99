import Mathlib.Data.List.Basic

namespace DriverSF

abbrev Bytes := List UInt8

/-- The bytes of an ASCII literal of the source. -/
def bytes (s : String) : Bytes :=
  s.toList.map fun c => UInt8.ofNat c.toNat

/-- What a C string function sees of a buffer: everything before the first NUL. -/
def cstr (s : Bytes) : Bytes :=
  s.takeWhile (· ≠ 0)

/-- A `lua_Number`: an integer value, or another double with its printed form. -/
inductive LuaNumber where
  | int (i : Int)
  | other (text : Bytes)
  deriving DecidableEq, Repr

/-- A `TValue`; collectable objects other than strings are named by their address. -/
inductive Value where
  | nil
  | boolean (b : Bool)
  | lightuserdata (p : Nat)
  | number (n : LuaNumber)
  | string (s : Bytes)
  | table (ref : Nat)
  | function (ref : Nat)
  | userdata (ref : Nat)
  | thread (ref : Nat)
  deriving DecidableEq, Repr

inductive LuaType where
  | none | nil | boolean | lightuserdata | number | string | table | function | userdata | thread
  deriving DecidableEq, Repr

def Value.type : Value → LuaType
  | .nil => .nil
  | .boolean _ => .boolean
  | .lightuserdata _ => .lightuserdata
  | .number _ => .number
  | .string _ => .string
  | .table _ => .table
  | .function _ => .function
  | .userdata _ => .userdata
  | .thread _ => .thread

/-- The non-zero statuses of `lua.h` that `luaD_pcall` returns. -/
inductive LuaError where
  | errRun | errSyntax | errMem | errErr
  deriving DecidableEq, Repr

def LuaError.status : LuaError → Int
  | .errRun => 2
  | .errSyntax => 3
  | .errMem => 4
  | .errErr => 5

theorem LuaError.status_ne_zero (e : LuaError) : e.status ≠ 0 := by
  cases e <;> decide

/-- A `Closure`. The names of a Lua closure are those of its prototype, which a
stripped chunk does not have; its values live in shared upvalue cells. -/
inductive Closure where
  | lua (names : List Bytes) (upvals : List Nat) (named : names.length ≤ upvals.length)
  | c (upvalue : List Value)
  deriving DecidableEq

def luaGlobalsindex : Int := -10002
def luaRegistryindex : Int := -10000
def luaMultret : Int := -1

/-- The console window of `logger.cpp`. -/
structure Console where
  logDll : Bool
  lines : List Bytes

/-- `logger::dll`. -/
def Console.dll (c : Console) (context message : Bytes) : Console :=
  if c.logDll then
    { c with lines := c.lines ++ [bytes "[DLL:" ++ context ++ bytes "] " ++ message] }
  else c

theorem bind_eq_ok_iff {ε α β : Type} {x : Except ε α} {f : α → Except ε β} {b : β} :
    x >>= f = .ok b ↔ ∃ a, x = .ok a ∧ f a = .ok b := by
  cases x with
  | error e =>
    constructor
    · rintro ⟨⟩
    · rintro ⟨_, ⟨⟩, _⟩
  | ok a =>
    constructor
    · exact fun h => ⟨a, rfl, h⟩
    · rintro ⟨_, ⟨⟩, h⟩
      exact h

end DriverSF
