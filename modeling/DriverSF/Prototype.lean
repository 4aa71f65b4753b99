import DriverSF.LuaValue

namespace DriverSF

inductive OpCode where
  | opMove | opLoadk | opLoadbool | opLoadnil | opGetupval
  | opGetglobal | opGettable
  | opSetglobal | opSetupval | opSettable
  | opNewtable
  | opSelf
  | opAdd | opSub | opMul | opDiv | opMod | opPow | opUnm | opNot | opLen
  | opConcat
  | opJmp
  | opEq | opLt | opLe
  | opTest | opTestset
  | opCall | opTailcall | opReturn
  | opForloop | opForprep
  | opTforloop | opSetlist
  | opClose | opClosure
  | opVararg
  deriving DecidableEq, Repr

/-- The operations in the order of their codes. -/
def opCodes : List OpCode :=
  [.opMove, .opLoadk, .opLoadbool, .opLoadnil, .opGetupval, .opGetglobal, .opGettable,
    .opSetglobal, .opSetupval, .opSettable, .opNewtable, .opSelf, .opAdd, .opSub, .opMul, .opDiv,
    .opMod, .opPow, .opUnm, .opNot, .opLen, .opConcat, .opJmp, .opEq, .opLt, .opLe, .opTest,
    .opTestset, .opCall, .opTailcall, .opReturn, .opForloop, .opForprep, .opTforloop, .opSetlist,
    .opClose, .opClosure, .opVararg]

abbrev Instruction := UInt32

/-- `GET_OPCODE`; `none` from `NUM_OPCODES` on. -/
def getOpcode (i : Instruction) : Option OpCode := opCodes[(i &&& 0x3f).toNat]?

def getArgA (i : Instruction) : Nat := ((i >>> 6) &&& 0xff).toNat
def getArgC (i : Instruction) : Nat := ((i >>> 14) &&& 0x1ff).toNat
def getArgB (i : Instruction) : Nat := ((i >>> 23) &&& 0x1ff).toNat
def getArgBx (i : Instruction) : Nat := ((i >>> 14) &&& 0x3ffff).toNat

def maxargSBx : Int := 131071

def getArgSBx (i : Instruction) : Int := getArgBx i - maxargSBx

def createABC (o : OpCode) (a b c : Nat) : Instruction :=
  UInt32.ofNat (opCodes.idxOf o) ||| (UInt32.ofNat a <<< 6) ||| (UInt32.ofNat b <<< 23) |||
    (UInt32.ofNat c <<< 14)

def createABx (o : OpCode) (a bc : Nat) : Instruction :=
  UInt32.ofNat (opCodes.idxOf o) ||| (UInt32.ofNat a <<< 6) ||| (UInt32.ofNat bc <<< 14)

/-- This bit 1 means constant (0 means register). -/
def bitrk : Nat := 256

def isk (x : Nat) : Bool := x &&& bitrk != 0

def indexk (r : Nat) : Nat := r - (r &&& bitrk)

/-- An invalid register that fits in 8 bits. -/
def noReg : Nat := 255

inductive OpMode where
  | iABC | iABx | iAsBx
  deriving DecidableEq, Repr

inductive OpArgMask where
  | opArgN | opArgU | opArgR | opArgK
  deriving DecidableEq, Repr

/-- An entry of `luaP_opmodes`. -/
structure OpModes where
  testT : Bool
  testA : Bool
  b : OpArgMask
  c : OpArgMask
  mode : OpMode
  deriving DecidableEq, Repr

def luaPOpmodes : OpCode → OpModes
  | .opMove => ⟨false, true, .opArgR, .opArgN, .iABC⟩
  | .opLoadk => ⟨false, true, .opArgK, .opArgN, .iABx⟩
  | .opLoadbool => ⟨false, true, .opArgU, .opArgU, .iABC⟩
  | .opLoadnil => ⟨false, true, .opArgR, .opArgN, .iABC⟩
  | .opGetupval => ⟨false, true, .opArgU, .opArgN, .iABC⟩
  | .opGetglobal => ⟨false, true, .opArgK, .opArgN, .iABx⟩
  | .opGettable => ⟨false, true, .opArgR, .opArgK, .iABC⟩
  | .opSetglobal => ⟨false, false, .opArgK, .opArgN, .iABx⟩
  | .opSetupval => ⟨false, false, .opArgU, .opArgN, .iABC⟩
  | .opSettable => ⟨false, false, .opArgK, .opArgK, .iABC⟩
  | .opNewtable => ⟨false, true, .opArgU, .opArgU, .iABC⟩
  | .opSelf => ⟨false, true, .opArgR, .opArgK, .iABC⟩
  | .opAdd => ⟨false, true, .opArgK, .opArgK, .iABC⟩
  | .opSub => ⟨false, true, .opArgK, .opArgK, .iABC⟩
  | .opMul => ⟨false, true, .opArgK, .opArgK, .iABC⟩
  | .opDiv => ⟨false, true, .opArgK, .opArgK, .iABC⟩
  | .opMod => ⟨false, true, .opArgK, .opArgK, .iABC⟩
  | .opPow => ⟨false, true, .opArgK, .opArgK, .iABC⟩
  | .opUnm => ⟨false, true, .opArgR, .opArgN, .iABC⟩
  | .opNot => ⟨false, true, .opArgR, .opArgN, .iABC⟩
  | .opLen => ⟨false, true, .opArgR, .opArgN, .iABC⟩
  | .opConcat => ⟨false, true, .opArgR, .opArgR, .iABC⟩
  | .opJmp => ⟨false, false, .opArgR, .opArgN, .iAsBx⟩
  | .opEq => ⟨true, false, .opArgK, .opArgK, .iABC⟩
  | .opLt => ⟨true, false, .opArgK, .opArgK, .iABC⟩
  | .opLe => ⟨true, false, .opArgK, .opArgK, .iABC⟩
  | .opTest => ⟨true, true, .opArgR, .opArgU, .iABC⟩
  | .opTestset => ⟨true, true, .opArgR, .opArgU, .iABC⟩
  | .opCall => ⟨false, true, .opArgU, .opArgU, .iABC⟩
  | .opTailcall => ⟨false, true, .opArgU, .opArgU, .iABC⟩
  | .opReturn => ⟨false, false, .opArgU, .opArgN, .iABC⟩
  | .opForloop => ⟨false, true, .opArgR, .opArgN, .iAsBx⟩
  | .opForprep => ⟨false, true, .opArgR, .opArgN, .iAsBx⟩
  | .opTforloop => ⟨true, false, .opArgN, .opArgU, .iABC⟩
  | .opSetlist => ⟨false, false, .opArgU, .opArgU, .iABC⟩
  | .opClose => ⟨false, false, .opArgN, .opArgN, .iABC⟩
  | .opClosure => ⟨false, true, .opArgU, .opArgN, .iABx⟩
  | .opVararg => ⟨false, true, .opArgU, .opArgN, .iABC⟩

/-- A `TValue` of a constant table. A boolean is the C `int` that holds it, a number its bits, and
a string may be NULL. -/
inductive Constant where
  | nil
  | boolean (b : Int)
  | number (bits : UInt64)
  | string (s : Option Bytes)
  deriving DecidableEq, Repr

def Constant.isString : Constant → Bool
  | .string _ => true
  | _ => false

structure LocVar where
  varname : Option Bytes
  startpc : Int
  endpc : Int
  deriving DecidableEq, Repr

/-- The fields of a `Proto` besides the functions defined inside it. A `TString *` that may be NULL
is an `Option`; equal strings are the same object. -/
structure ProtoFields where
  source : Option Bytes
  linedefined : Int
  lastlinedefined : Int
  nups : UInt8
  numparams : UInt8
  isVararg : UInt8
  maxstacksize : UInt8
  code : List Instruction
  k : List Constant
  lineinfo : List UInt32
  locvars : List LocVar
  upvalues : List (Option Bytes)
  deriving DecidableEq, Repr

structure Proto extends ProtoFields where
  p : List Proto

def varargIsvararg : UInt8 := 2
def varargNeedsarg : UInt8 := 4

/-- A property of all functions that holds of each one if it holds of those defined inside it. -/
theorem Proto.induction {motive : Proto → Prop}
    (step : ∀ (f : ProtoFields) (p : List Proto), (∀ g ∈ p, motive g) → motive ⟨f, p⟩)
    (f : Proto) : motive f :=
  @Proto.rec motive (fun p => ∀ g ∈ p, motive g) step (List.forall_mem_nil _)
    (fun _ _ hg hgs => List.forall_mem_cons.mpr ⟨hg, hgs⟩) f

/-- The property holds of a function and of all functions defined inside it. -/
inductive Proto.All (good : Proto → Prop) : Proto → Prop
  | mk {f : Proto} (here : good f) (inside : ∀ g ∈ f.p, All good g) : All good f

end DriverSF
