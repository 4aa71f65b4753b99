import Mathlib.Algebra.Group.Int.Defs
import DriverSF.ByteCodec
import DriverSF.Prototype

namespace DriverSF

open ByteCodec

/-- `sizeof` on the 32-bit build. -/
def sizeofInt : Nat := 4
def sizeofSizeT : Nat := 4
def sizeofInstruction : Nat := 4
def sizeofNumber : Nat := 8

/-- `luaU_header`, on a little-endian machine. -/
def luaUHeader : Bytes :=
  bytes "\x1bLua" ++ [0x51, 0, 1, UInt8.ofNat sizeofInt, UInt8.ofNat sizeofSizeT,
    UInt8.ofNat sizeofInstruction, UInt8.ofNat sizeofNumber, 0]

/-- The blocks that `DumpBlock` gets, one after the other. -/
abbrev Blocks := List Bytes

def dumpChar (y : Int) : Blocks := [[UInt8.ofNat (y % 256).toNat]]

def dumpInt (x : Int) : Blocks := [encode sizeofInt (x % 2 ^ 32).toNat]

def dumpNumber (x : UInt64) : Blocks := [encode sizeofNumber x.toNat]

def dumpString : Option Bytes → Blocks
  | none => [encode sizeofSizeT 0]
  | some s => [encode sizeofSizeT (s.length + 1), s ++ [0]]

def dumpWords (words : List UInt32) : Bytes := words.flatMap fun w => encode 4 w.toNat

/-- `DumpVector` of words. -/
def dumpVector (words : List UInt32) : Blocks := dumpInt words.length ++ [dumpWords words]

/-- A vector whose entries are dumped one by one. -/
def dumpEach {α : Type} (entry : α → Blocks) (entries : List α) : Blocks :=
  dumpInt entries.length ++ entries.flatMap entry

def dumpConstant : Constant → Blocks
  | .nil => dumpChar 0
  | .boolean b => dumpChar 1 ++ dumpChar b
  | .number n => dumpChar 3 ++ dumpNumber n
  | .string s => dumpChar 4 ++ dumpString s

def dumpLocVar (v : LocVar) : Blocks := dumpString v.varname ++ dumpInt v.startpc ++ dumpInt v.endpc

/-- A vector of which a stripped dump keeps nothing. -/
def unstripped {α : Type} (strip : Bool) (entries : List α) : List α := if strip then [] else entries

def dumpDebug (strip : Bool) (f : ProtoFields) : Blocks :=
  dumpVector (unstripped strip f.lineinfo) ++
    dumpEach dumpLocVar (unstripped strip f.locvars) ++
    dumpEach dumpString (unstripped strip f.upvalues)

mutual

def dumpFunction (strip : Bool) (p : Option Bytes) : Proto → Blocks
  | ⟨f, fs⟩ =>
    dumpString (if f.source = p ∨ strip then none else f.source) ++
      dumpInt f.linedefined ++ dumpInt f.lastlinedefined ++
      dumpChar f.nups.toNat ++ dumpChar f.numparams.toNat ++
      dumpChar f.isVararg.toNat ++ dumpChar f.maxstacksize.toNat ++
      dumpVector f.code ++
      dumpEach dumpConstant f.k ++
      (dumpInt fs.length ++ dumpFunctions strip f.source fs) ++
      dumpDebug strip f

def dumpFunctions (strip : Bool) (p : Option Bytes) : List Proto → Blocks
  | [] => []
  | g :: gs => dumpFunction strip p g ++ dumpFunctions strip p gs

end

/-- What `luaU_dump` writes if no write fails. -/
def chunkBlocks (strip : Bool) (f : Proto) : Blocks := luaUHeader :: dumpFunction strip none f

def chunkOf (strip : Bool) (f : Proto) : Bytes := (chunkBlocks strip f).flatten

variable {δ : Type}

/-- A `lua_Writer` with its data; a status other than 0 is a failure. -/
abbrev LuaWriter (δ : Type) := δ → Bytes → Int × δ

/-- The data after some writes that have not failed. -/
def Writes (writer : LuaWriter δ) : δ → Blocks → δ → Prop
  | data, [], data' => data = data'
  | data, b :: bs, data' => ∃ next, writer data b = (0, next) ∧ Writes writer next bs data'

end DriverSF
