import DriverSF.ChunkDump
import DriverSF.CodeCheck
import DriverSF.ZioStream

namespace DriverSF

open ByteCodec

/-- Why `luaU_undump` does not return: `error` with its message, `luaM_toobig`, no stack left for
another `LoadFunction`, or a read outside an array or buffer. -/
inductive LoadError where
  | errSyntax (message : Bytes)
  | tooBig
  | noStack
  | undefined
  deriving DecidableEq, Repr

abbrev Load := StateT Zio (Except LoadError)

def loadError (name why : Bytes) : LoadError :=
  .errSyntax (name ++ bytes ": " ++ why ++ bytes " in precompiled chunk")

def maxSizet : Nat := 2 ^ 32 - 3

/-- The check of `luaM_newvector`. -/
def newVector (n size : Nat) : Load Unit :=
  if n + 1 ≤ maxSizet / size then pure () else throw .tooBig

def sizeofTValue : Nat := 16
def sizeofPointer : Nat := 4
def sizeofLocVar : Nat := 12

/-- A signed `char`. -/
def charOf (b : UInt8) : Int := if b.toNat < 128 then b.toNat else b.toNat - 256

section Loaders

variable (name : Bytes)

def loadBlock (size : Nat) : Load Bytes := fun z =>
  match luaZRead z size with
  | none => .error .undefined
  | some (missing, b, z) =>
    if missing ≠ 0 then .error (loadError name (bytes "unexpected end")) else .ok (b, z)

def loadByte : Load UInt8 := do
  let b ← loadBlock name 1
  return UInt8.ofNat (decode b)

def loadChar : Load Int := do
  let b ← loadByte name
  return charOf b

def loadInt : Load Nat := do
  let b ← loadBlock name sizeofInt
  if decode b < 2 ^ 31 then return decode b
  else throw (loadError name (bytes "bad integer"))

def loadNumber : Load UInt64 := do
  let b ← loadBlock name sizeofNumber
  return UInt64.ofNat (decode b)

def loadString : Load (Option Bytes) := do
  let b ← loadBlock name sizeofSizeT
  let size := decode b
  if size = 0 then return none
  else do
    let s ← loadBlock name size
    -- remove trailing '\0'
    return some (s.take (size - 1))

/-- The words of a block. -/
def wordsOf : Nat → Bytes → List UInt32
  | 0, _ => []
  | n + 1, b => UInt32.ofNat (decode (b.take 4)) :: wordsOf n (b.drop 4)

def loadWords : Load (List UInt32) := do
  let n ← loadInt name
  newVector n 4
  let b ← loadBlock name (n * 4)
  return wordsOf n b

def loadConstant : Load Constant := do
  let t ← loadChar name
  if t = 0 then return .nil
  else if t = 1 then do
    let b ← loadChar name
    return .boolean b
  else if t = 3 then do
    let n ← loadNumber name
    return .number n
  else if t = 4 then do
    let s ← loadString name
    return .string s
  else throw (loadError name (bytes "bad constant"))

def loadLocVar : Load LocVar := do
  let varname ← loadString name
  let startpc ← loadInt name
  let endpc ← loadInt name
  return ⟨varname, startpc, endpc⟩

/-- A vector whose entries are loaded one by one. -/
def loadVector {α : Type} (size : Nat) (entry : Load α) : Load (List α) := do
  let n ← loadInt name
  newVector n size
  readMany entry n

/-- The check of the loaded function. -/
def loadChecked (f : Proto) : Load Proto :=
  match luaGCheckcode f with
  | some true => pure f
  | some false => throw (loadError name (bytes "bad code"))
  | none => throw .undefined

/-- `LoadFunction`, with the number of its calls that the stack still has room for. -/
def loadFunction : Nat → Option Bytes → Load Proto
  | 0, _ => throw .noStack
  | frames + 1, p => do
    let source ← loadString name
    let source := source.or p
    let linedefined ← loadInt name
    let lastlinedefined ← loadInt name
    let nups ← loadByte name
    let numparams ← loadByte name
    let isVararg ← loadByte name
    let maxstacksize ← loadByte name
    let code ← loadWords name
    let k ← loadVector name sizeofTValue (loadConstant name)
    let fs ← loadVector name sizeofPointer (loadFunction frames source)
    let lineinfo ← loadWords name
    let locvars ← loadVector name sizeofLocVar (loadLocVar name)
    let upvalues ← loadVector name sizeofPointer (loadString name)
    loadChecked name ⟨⟨source, linedefined, lastlinedefined, nups, numparams, isVararg,
      maxstacksize, code, k, lineinfo, locvars, upvalues⟩, fs⟩

def loadHeader : Load Unit := do
  let s ← loadBlock name luaUHeader.length
  if s = luaUHeader then return ()
  else throw (loadError name (bytes "bad header"))

end Loaders

/-- The name of the chunk in the messages. -/
def loadName (name : Bytes) : Bytes :=
  match name with
  | c :: rest =>
    if c = 0x40 ∨ c = 0x3d then rest
    else if c = 0x1b then bytes "binary string"
    else name
  | [] => name

def luaUUndump (frames : Nat) (name : Bytes) : Load Proto := do
  loadHeader (loadName name)
  loadFunction (loadName name) frames (some (bytes "=?"))

end DriverSF
