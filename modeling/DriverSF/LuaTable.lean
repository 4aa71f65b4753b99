import Mathlib.Algebra.Group.Nat.Defs
import DriverSF.LuaValue

namespace DriverSF

/-- The keys of tables, as `luaO_rawequalObj` tells them apart: every value but nil and NaN. The
hash is what `mainposition` takes modulo the size. -/
class TableKey (K : Type) where
  hashvalue : K → Nat
  hashpow2 : K → Bool
  iscollectable : K → Bool
  arrayindex : K → Option Int
  ofInt : Int → K
  arrayindex_ofInt : ∀ i : Int, -2147483648 ≤ i → i < 2147483648 → arrayindex (ofInt i) = some i
  ofInt_arrayindex : ∀ k i, arrayindex k = some i → ofInt i = k

open TableKey

/-- A key of the API. -/
inductive TValue (K : Type) where
  | nil
  | nan
  | key (k : K)

inductive TableError where
  | nilIndex
  | nanIndex
  | overflow
  | invalidKey
  | fault
  deriving DecidableEq

def TableError.message : TableError → Bytes
  | .nilIndex => bytes "table index is nil"
  | .nanIndex => bytes "table index is NaN"
  | .overflow => bytes "table overflow"
  | .invalidKey => bytes "invalid key to 'next'"
  | .fault => []

/-- A node of the hash part. The key is none while the node is free, and stays when it is dead. -/
structure Node (K V : Type) where
  key : Option K
  dead : Bool
  val : Option V
  next : Option Nat

/-- A table; without nodes it has the `dummynode`. -/
structure Table (K V : Type) where
  array : List (Option V)
  node : List (Node K V)
  lastfree : Nat

/-- Where `luaH_get` finds the value of a key. -/
inductive Slot where
  | array (i : Nat)
  | node (i : Nat)
  deriving DecidableEq

section Definitions

variable {K V : Type} [DecidableEq K] [TableKey K]

def mainposition (size : Nat) (k : K) : Nat :=
  if hashpow2 k then hashvalue k &&& (size - 1) else hashvalue k % ((size - 1) ||| 1)

/-- The loops that go along the nodes of a chain, to the first one with a property. -/
def findNode (node : List (Node K V)) (p : Node K V → Bool) :
    Nat → Nat → Except TableError (Option Nat)
  | 0, _ => .error .fault
  | fuel + 1, i =>
    match node[i]? with
    | none => .error .fault
    | some n =>
      if p n then .ok (some i)
      else
        match n.next with
        | none => .ok none
        | some j => findNode node p fuel j

def Node.holds (k : K) (n : Node K V) : Bool := !n.dead && n.key == some k

def searchNode (t : Table K V) (k : K) : Except TableError (Option Slot) :=
  if t.node.length = 0 then .ok none
  else do
    let i ← findNode t.node (Node.holds k) t.node.length (mainposition t.node.length k)
    return i.map Slot.node

def luaHGetnum (t : Table K V) (key : Int) : Except TableError (Option Slot) :=
  if 0 < key ∧ key ≤ t.array.length then .ok (some (.array (key.toNat - 1)))
  else searchNode t (ofInt key)

def luaHGet (t : Table K V) (k : K) : Except TableError (Option Slot) :=
  match arrayindex k with
  | some i => luaHGetnum t i
  | none => searchNode t k

/-- What a slot has. -/
def Table.value (t : Table K V) : Slot → Option V
  | .array i => t.array[i]?.join
  | .node i => t.node[i]?.bind Node.val

/-- `setobj2t` to a slot. -/
def Table.store (t : Table K V) (slot : Slot) (v : Option V) : Table K V :=
  match slot with
  | .array i => { t with array := t.array.set i v }
  | .node i => { t with node := t.node.modify i fun n => { n with val := v } }

/-- The free place found, and the new `lastfree`. -/
def getfreepos (node : List (Node K V)) : Nat → Option Nat × Nat
  | 0 => (none, 0)
  | i + 1 => if (node[i]?.bind Node.key).isNone then (some i, i) else getfreepos node i

/-- `newkey` without its rehash: the node with the new key, if there is a place for it. -/
def placeKey (t : Table K V) (k : K) : Except TableError (Option Nat × Table K V) :=
  let mp := mainposition t.node.length k
  if t.node.length = 0 then .ok (none, t)
  else
    match t.node[mp]? with
    | none => .error .fault
    | some m =>
      if m.val.isNone then
        .ok (some mp, { t with node := t.node.set mp { m with key := some k, dead := false } })
      else
        match getfreepos t.node t.lastfree, m.key with
        | (none, lastfree), _ => .ok (none, { t with lastfree })
        | (some _, _), none => .error .fault
        | (some n, lastfree), some km => do
          let othern := mainposition t.node.length km
          if othern ≠ mp then
            -- move colliding node into free position
            match ← findNode t.node (fun x => x.next == some mp) t.node.length othern with
            | none => .error .fault
            | some prev =>
              let node := (t.node.modify prev fun x => { x with next := some n }).set n m
              return (some mp, { t with
                node := node.set mp ⟨some k, false, none, none⟩
                lastfree })
          else
            -- new node will go into free position
            let node := t.node.set n ⟨some k, false, none, m.next⟩
            return (some n, { t with node := node.set mp { m with next := some n }, lastfree })

/-- `luaH_set` and `luaH_setnum` over the `newkey` they call. -/
def luaHSetWith (newkey : Table K V → K → Except TableError (Slot × Table K V)) (t : Table K V)
    (k : K) : Except TableError (Slot × Table K V) := do
  match ← luaHGet t k with
  | some slot => return (slot, t)
  | none => newkey t k

def luaHSetnumWith (newkey : Table K V → K → Except TableError (Slot × Table K V)) (t : Table K V)
    (key : Int) : Except TableError (Slot × Table K V) := do
  match ← luaHGetnum t key with
  | some slot => return (slot, t)
  | none => newkey t (ofInt key)

def maxbits : Nat := 26
def maxasize : Nat := 2 ^ maxbits

def ceillog2 (x : Nat) : Nat := if x ≤ 1 then 0 else Nat.log2 (x - 1) + 1

/-- How many are counted, and the counts. -/
def countint (k : K) (nums : List Nat) : Nat × List Nat :=
  match arrayindex k with
  | some i =>
    if 0 < i ∧ i ≤ maxasize then (1, nums.modify (ceillog2 i.toNat) (· + 1)) else (0, nums)
  | none => (0, nums)

/-- The slices that are left, from the slice `lg` on, where `i` keys are counted. -/
def numusearrayLoop (array : List (Option V)) : Nat → Nat → Nat → Nat → List Nat → Nat →
    Nat × List Nat
  | 0, _, _, _, nums, ause => (ause, nums)
  | slices + 1, lg, ttlg, i, nums, ause =>
    let lim := min ttlg array.length
    if array.length < ttlg ∧ lim ≤ i then (ause, nums)
    else
      let lc := ((array.drop i).take (lim - i)).countP Option.isSome
      numusearrayLoop array slices (lg + 1) (2 * ttlg) (max i lim)
        (nums.modify lg (· + lc)) (ause + lc)

def numusearray (t : Table K V) (nums : List Nat) : Nat × List Nat :=
  numusearrayLoop t.array (maxbits + 1) 0 1 0 nums 0

/-- All elements, those with array indices, and the counts. -/
def numusehash (node : List (Node K V)) (nums : List Nat) : Nat × Nat × List Nat :=
  node.foldr (fun n (totaluse, ause, nums) =>
    match n.val, n.key with
    | some _, some k =>
      let (one, nums) := countint k nums
      (totaluse + 1, ause + one, nums)
    | some _, none => (totaluse + 1, ause, nums)
    | none, _ => (totaluse, ause, nums)) (0, 0, nums)

/-- The number of elements for the array part, and its size. -/
def computesizesLoop (narray : Nat) :
    List Nat → Nat → Nat → Nat → Nat → Except TableError (Nat × Nat)
  | [], twotoi, _, na, n => if twotoi / 2 < narray then .error .fault else .ok (na, n)
  | x :: nums, twotoi, a, na, n =>
    if twotoi / 2 < narray then
      let found := a + x
      let (na, n) := if 0 < x ∧ twotoi / 2 < found then (found, twotoi) else (na, n)
      if found = narray then .ok (na, n)
      else computesizesLoop narray nums (2 * twotoi) found na n
    else .ok (na, n)

def computesizes (nums : List Nat) (narray : Nat) : Except TableError (Nat × Nat) :=
  computesizesLoop narray nums 1 0 0 0

def setnodevector (size : Nat) : Except TableError (List (Node K V)) :=
  if size = 0 then .ok []
  else if maxbits < ceillog2 size then .error .overflow
  else .ok (List.replicate (2 ^ ceillog2 size) ⟨none, false, none, none⟩)

/-- The first loop of `resize`, over the vanishing slice. -/
def reinsertArray (setnum : Table K V → Int → Except TableError (Slot × Table K V)) :
    Nat → List (Option V) → Table K V → Except TableError (Table K V)
  | _, [], t => .ok t
  | i, none :: slice, t => reinsertArray setnum (i + 1) slice t
  | i, some v :: slice, t => do
    let (slot, t) ← setnum t (i + 1)
    reinsertArray setnum (i + 1) slice (t.store slot (some v))

/-- The last loop of `resize`, over the old hash part from its end. -/
def reinsertNodes (set : Table K V → K → Except TableError (Slot × Table K V)) :
    List (Node K V) → Table K V → Except TableError (Table K V)
  | [], t => .ok t
  | n :: nodes, t =>
    match n.val, n.key with
    | none, _ => reinsertNodes set nodes t
    | some _, none => .error .fault
    | some v, some k => do
      let (slot, t) ← set t k
      reinsertNodes set nodes (t.store slot (some v))

def resize (newkey : Table K V → K → Except TableError (Slot × Table K V)) (t : Table K V)
    (nasize nhsize : Nat) : Except TableError (Table K V) := do
  let array := t.array ++ List.replicate (nasize - t.array.length) none
  let node ← setnodevector nhsize
  let shrunk : Table K V := ⟨array.take nasize, node, node.length⟩
  let shrunk ← reinsertArray (luaHSetnumWith newkey) nasize (array.drop nasize) shrunk
  reinsertNodes (luaHSetWith newkey) t.node.reverse shrunk

def rehash (newkey : Table K V → K → Except TableError (Slot × Table K V)) (t : Table K V)
    (ek : K) : Except TableError (Table K V) := do
  let (nasize, nums) := numusearray t (List.replicate (maxbits + 1) 0)
  let (totaluse, ause, nums) := numusehash t.node nums
  -- count extra key
  let (one, nums) := countint ek nums
  let (na, size) ← computesizes nums (nasize + ause + one)
  resize newkey t size (nasize + totaluse + 1 - na)

/-- `newkey`, with as many rehashes inside each other as the fuel allows. -/
def newkey : Nat → Table K V → K → Except TableError (Slot × Table K V)
  | 0, _, _ => .error .fault
  | fuel + 1, t, k => do
    match ← placeKey t k with
    | (some i, t) => return (.node i, t)
    | (none, t) =>
      -- grow table, and re-insert key into grown table
      let t ← rehash (newkey fuel) t k
      luaHSetWith (newkey fuel) t k

def luaHSet (fuel : Nat) (t : Table K V) : TValue K → Except TableError (Slot × Table K V)
  | .nil => .error .nilIndex
  | .nan => .error .nanIndex
  | .key k => luaHSetWith (newkey fuel) t k

def luaHResizearray (fuel : Nat) (t : Table K V) (nasize : Nat) : Except TableError (Table K V) :=
  resize (newkey fuel) t nasize t.node.length

def luaHNew (narray nhash : Nat) : Except TableError (Table K V) := do
  let node ← setnodevector nhash
  return ⟨List.replicate narray none, node, node.length⟩

/-- What the collector does to the empty entries of a table that it traverses. -/
def removeEntries (t : Table K V) : Table K V :=
  { t with node := t.node.map fun n =>
      { n with dead := n.dead || (n.val.isNone && n.key.any iscollectable) } }

def luaRawget (t : Table K V) : TValue K → Except TableError (Option V)
  | .nil => .ok none
  | .nan => .ok none
  | .key k => do
    match ← luaHGet t k with
    | some slot => return t.value slot
    | none => return none

def luaRawset (fuel : Nat) (t : Table K V) (key : TValue K) (v : Option V) :
    Except TableError (Table K V) := do
  let (slot, t) ← luaHSet fuel t key
  return t.store slot v

/-- The number of a key in a traversal, where the nodes are numbered after the array part. -/
def findindex (t : Table K V) : TValue K → Except TableError Int
  | .nil => .ok (-1)
  | .nan => .error .invalidKey
  | .key k =>
    match (arrayindex k).filter fun i : Int => 0 < i ∧ i ≤ t.array.length with
    | some i => .ok (i - 1)
    | none =>
      if t.node.length = 0 then .error .invalidKey
      else do
        -- key may be dead already
        match ← findNode t.node (fun n => n.key == some k && (!n.dead || iscollectable k))
            t.node.length (mainposition t.node.length k) with
        | some i => return (i : Int) + t.array.length
        | none => .error .invalidKey

/-- The first value in at most so many places from `i` on. -/
def firstFrom (values : List (Option V)) : Nat → Nat → Option (Nat × V)
  | 0, _ => none
  | left + 1, i =>
    match values[i]?.join with
    | some v => some (i, v)
    | none => firstFrom values left (i + 1)

def luaHNext (t : Table K V) (key : TValue K) : Except TableError (Option (K × V)) := do
  let i := (← findindex t key) + 1
  match firstFrom t.array (t.array.length - i.toNat) i.toNat with
  | some (i, v) => return some (ofInt (i + 1), v)
  | none =>
    let i := i.toNat - t.array.length
    match firstFrom (t.node.map Node.val) (t.node.length - i) i with
    | some (i, v) =>
      match t.node[i]?.bind Node.key with
      | some k => return some (k, v)
      | none => .error .fault
    | none => return none

def present (t : Table K V) (key : Nat) : Except TableError Bool := do
  return (← luaHGetnum t key).any fun slot => (t.value slot).isSome

/-- The loops of `luaH_getn` and `unbound_search` that halve the distance from `i` to `j`. -/
def halve (present : Nat → Except TableError Bool) : Nat → Nat → Nat → Except TableError Nat
  | 0, _, _ => .error .fault
  | fuel + 1, i, j =>
    if 1 < j - i then do
      let m := (i + j) % 2 ^ 32 / 2
      if ← present m then halve present fuel m j else halve present fuel i m
    else .ok i

def linearSearch (t : Table K V) : Nat → Nat → Except TableError Nat
  | 0, _ => .error .fault
  | fuel + 1, i => do
    if ← present t i then linearSearch t fuel (i + 1) else return i - 1

def maxInt : Nat := 2147483647 - 2

/-- The loop that finds a `j` without a value, and what follows it. -/
def unboundLoop (t : Table K V) : Nat → Nat → Nat → Except TableError Nat
  | 0, _, _ => .error .fault
  | fuel + 1, i, j => do
    if ← present t j then
      let i := j
      let j := j * 2 % 2 ^ 32
      -- table was built with bad purposes
      if maxInt < j then linearSearch t (t.array.length + t.node.length + 1) 1
      else unboundLoop t fuel i j
    else halve (present t) 32 i j

def unboundSearch (t : Table K V) (j : Nat) : Except TableError Nat := unboundLoop t 32 j (j + 1)

def luaHGetn (t : Table K V) : Except TableError Nat :=
  let j := t.array.length
  if 0 < j ∧ t.array[j - 1]?.join.isNone then
    halve (fun m => .ok t.array[m - 1]?.join.isSome) 32 0 j
  else if t.node.length = 0 then .ok j
  else unboundSearch t j

/-- What `OP_SETLIST` does before it stores, up to its last index. -/
def preallocate (fuel : Nat) (t : Table K V) (last : Nat) : Except TableError (Table K V) :=
  if t.array.length < last then luaHResizearray fuel t last else .ok t

end Definitions

/-- The hash of `luaS_newlstr`. -/
def stringHashLoop (s : Bytes) (step : Nat) : Nat → Nat → UInt32 → UInt32
  | 0, _, h => h
  | fuel + 1, l1, h =>
    if step ≤ l1 then
      stringHashLoop s step fuel (l1 - step)
        (h ^^^ ((h <<< 5) + (h >>> 2) + (s.getD (l1 - 1) 0).toUInt32))
    else h

def stringHash (s : Bytes) : UInt32 :=
  stringHashLoop s (s.length / 32 + 1) s.length s.length (UInt32.ofNat s.length)

/-- The bits of an integer as a double. -/
def doubleBits (i : Int) : Nat :=
  if i = 0 then 0
  else
    let exponent := Nat.log2 i.natAbs
    (if i < 0 then 2 ^ 63 else 0) + (1023 + exponent) * 2 ^ 52 +
      (i.natAbs * 2 ^ (52 - exponent) - 2 ^ 52)

/-- The value that `hashnum` takes modulo the size. -/
def hashnum (i : Int) : Nat :=
  let bits := doubleBits (i + 1)
  (bits % 2 ^ 32 + bits / 2 ^ 32) % 2 ^ 32

/-- The keys that the scripts use. -/
inductive ScriptKey where
  | integer (i : Int)
  | string (s : Bytes)
  deriving DecidableEq

instance : TableKey ScriptKey where
  hashvalue
    | .integer i => hashnum i
    | .string s => (stringHash s).toNat
  hashpow2
    | .integer _ => false
    | .string _ => true
  iscollectable
    | .integer _ => false
    | .string _ => true
  arrayindex
    | .integer i => if -2147483648 ≤ i ∧ i < 2147483648 then some i else none
    | .string _ => none
  ofInt := .integer
  arrayindex_ofInt i low high := if_pos ⟨low, high⟩
  ofInt_arrayindex k i index := by
    cases k with
    | integer j =>
      dsimp only at index
      split at index
      · cases index
        rfl
      · cases index
    | string s => cases index

end DriverSF
