import Mathlib.Logic.Function.Basic
import Mathlib.Algebra.Group.Int.Defs
import Mathlib.Algebra.Group.Nat.Defs
import DriverSF.FloatText
import DriverSF.LuaStackFloor

namespace DriverSF

open Decimal FloatText

variable {F W : Type}

structure Vec2 (F : Type) where
  unknown : UInt64
  x : F
  y : F
  deriving Inhabited

structure Vec4 (F : Type) where
  unknown : UInt64
  x : F
  y : F
  z : F
  w : F
  deriving Inhabited

structure DevText (F : Type) where
  text : Bytes
  position : Vec2 F
  colour : Vec4 F
  scale : F
  deriving Inhabited

/-- The texts with the lock that guards them, and the console. -/
structure DevState (F : Type) where
  devTexts : Int → Option (DevText F)
  devTextMutex : Bool
  console : Console

/-- The blocks of the userdata, none of them at the null pointer, the number of bytes that the
object at a pointer has from there on, if there is one, and the vectors that they spell. -/
structure Memory (F : Type) where
  block : Nat → Nat
  extent : Nat → Nat
  vec2 : Nat → Vec2 F
  vec4 : Nat → Vec4 F
  block_ne_null : ∀ ref, block ref ≠ 0

/-- The sizes of a `vec2` and of a `vec4`. -/
def sizeofVec2 : Nat := 16
def sizeofVec4 : Nat := 24

inductive CxxException where
  | invalidArgument
  | outOfRange
  deriving DecidableEq, Repr

inductive DevFault where
  | exception (e : CxxException)
  | nullDereference
  | invalidRead
  deriving DecidableEq, Repr

inductive DevOutcome where
  | returned (results : Nat)
  | fault (f : DevFault)
  deriving DecidableEq, Repr

def thrown {α : Type} : Except CxxException α → Except DevFault α
  | .error e => .error (.exception e)
  | .ok a => .ok a

def InInt (n : Int) : Prop := -2 ^ 31 ≤ n ∧ n < 2 ^ 31

instance (n : Int) : Decidable (InInt n) := inferInstanceAs (Decidable (_ ∧ _))

/-- `std::stoi`. -/
def stoi (s : Bytes) : Except CxxException Int :=
  match readInt s with
  | none => .error .invalidArgument
  | some n => if InInt n then .ok n else .error .outOfRange

/-- `std::stof`. -/
def stof (lib : Library F) (s : Bytes) : Except CxxException F :=
  match readNumber s with
  | none => .error .invalidArgument
  | some n => if n.InRange lib then .ok (lib.value n) else .error .outOfRange

/-- `std::string` from a pointer to characters, which it reads up to the NUL. -/
def cxxString : Option Bytes → Except DevFault Bytes
  | none => .error .nullDereference
  | some s => .ok (cstr s)

/-- `lua_type` of an argument. -/
def argType (args : List Value) (idx : Nat) : LuaType :=
  (args[idx - 1]?.map Value.type).getD .none

/-- `lua_tolstring` of an argument. A number becomes a string in its slot, but no slot is read
a second time. -/
def argString (number2str : LuaNumber → Bytes) (args : List Value) (idx : Nat) : Option Bytes :=
  match args[idx - 1]? with
  | some (.string s) => some s
  | some (.number n) => some (number2str n)
  | _ => none

/-- `lua_touserdata` of an argument, where zero is the null pointer. -/
def argUserdata (m : Memory F) (args : List Value) (idx : Nat) : Nat :=
  match args[idx - 1]? with
  | some (.userdata ref) => m.block ref
  | some (.lightuserdata p) => p
  | _ => 0

/-- Reads a structure of the size through a pointer. -/
def Memory.deref {α : Type} (m : Memory F) (size : Nat) (pointee : Nat → α) (p : Nat) :
    Except DevFault α :=
  if p = 0 then .error .nullDereference
  else if m.extent p < size then .error .invalidRead
  else .ok (pointee p)

/-- Runs a body under `dev_text_mutex`, which is released at a return and when an exception
unwinds, but not after a crash; a read outside every object counts as one. -/
def withLock (body : DevState F → DevOutcome × DevState F) (st : DevState F) :
    DevOutcome × DevState F :=
  match body { st with devTextMutex := true } with
  | (.fault .nullDereference, st) => (.fault .nullDereference, st)
  | (.fault .invalidRead, st) => (.fault .invalidRead, st)
  | (outcome, st) => (outcome, { st with devTextMutex := false })

def clearTexts : DevState F → DevOutcome × DevState F :=
  withLock fun st => (.returned 0, { st with devTexts := fun _ => none })

def developmentStartBatch : DevState F → DevOutcome × DevState F := clearTexts

def developmentRemoveBatchOverride : DevState F → DevOutcome × DevState F := clearTexts

def developmentClearScreenOverride : DevState F → DevOutcome × DevState F := clearTexts

/-- `std::stoi` of the second argument. -/
def argIndex (number2str : LuaNumber → Bytes) (args : List Value) : Except DevFault Int := do
  let s ← cxxString (argString number2str args 2)
  thrown (stoi s)

def developmentEraseTextOverride (number2str : LuaNumber → Bytes) (args : List Value) :
    DevState F → DevOutcome × DevState F :=
  withLock fun st =>
    match argIndex number2str args with
    | .error f => (.fault f, st)
    | .ok index => (.returned 0, { st with devTexts := Function.update st.devTexts index none })

/-- The text that `add2DText` reads from its arguments behind the index. -/
def argText (number2str : LuaNumber → Bytes) (m : Memory F) (lib : Library F)
    (args : List Value) : Except DevFault (DevText F) := do
  let text ← cxxString (argString number2str args 3)
  let position ← m.deref sizeofVec2 m.vec2 (argUserdata m args 4)
  let colour ← m.deref sizeofVec4 m.vec4 (argUserdata m args 5)
  let s ← cxxString (argString number2str args 6)
  let scale ← thrown (stof lib s)
  return { text, position, colour, scale }

def developmentAdd2dTextOverride (number2str : LuaNumber → Bytes) (m : Memory F)
    (lib : Library F) (args : List Value) : DevState F → DevOutcome × DevState F :=
  withLock fun st =>
    -- Check if the number of arguments is correct
    if args.length ≠ 7 then
      let message := bytes "Invalid number of arguments for add2DText"
      (.returned 0, { st with console := st.console.dll (bytes "add2DText") message })
    -- Check if the first text to be printed is a number or string
    else if argType args 3 ≠ .number ∧ argType args 3 ≠ .string then
      let message := bytes "Invalid text"
      (.returned 0, { st with console := st.console.dll (bytes "add2DText") message })
    else
      match argIndex number2str args with
      | .error f => (.fault f, st)
      | .ok index =>
        match argText number2str m lib args with
        | .error f => (.fault f, st)
        | .ok text =>
          (.returned 0, { st with devTexts := Function.update st.devTexts index (some text) })

section Frame

variable {L : LuaState W} {args : List Value}

theorem luaType_arg (frame : CallFrame L args) {idx : Nat} (positive : 0 < idx) :
    luaType L idx = some (argType args idx) := by
  rw [luaType, index2adr_arg frame positive]
  rfl

theorem set_reverse_arg (args : List Value) (v : Value) {idx : Nat} (positive : 0 < idx)
    (present : idx - 1 < args.length) :
    args.reverse.set (args.length - idx) v = (args.set (idx - 1) v).reverse := by
  refine List.ext_getElem (by simp) fun k left right => ?_
  have inside : k < args.length := by simpa using right
  simp only [List.getElem_set, List.getElem_reverse, List.length_set]
  congr 1
  apply propext
  omega

/-- `lua_tolstring` reads `argString`, and leaves a frame whose other arguments are the same. -/
theorem luaTolstring_arg (g : Game W) (frame : CallFrame L args) {idx : Nat} (positive : 0 < idx) :
    ∃ L' args', luaTolstring g L idx = some (argString g.number2str args idx, L') ∧
      CallFrame L' args' ∧ ∀ k, k ≠ idx - 1 → args'[k]? = args[k]? := by
  have found := index2adr_arg frame positive
  unfold luaTolstring argString
  rw [found]
  rcases hv : args[idx - 1]? with _ | v
  · exact ⟨L, args, rfl, frame, fun _ _ => rfl⟩
  cases v with
  | number n =>
    obtain ⟨present, _⟩ := List.getElem?_eq_some_iff.mp hv
    have slot : stackPos L idx = some (args.length - idx) := by
      have length : L.stack.length = args.length := by rw [frame.stack, List.length_reverse]
      rw [stackPos, if_pos (by rw [frame.floor, length, Int.toNat_natCast]; omega), length,
        Int.toNat_natCast]
    refine ⟨{ L with stack := L.stack.set (args.length - idx) (.string (g.number2str n)) },
      args.set (idx - 1) (.string (g.number2str n)), by simp [slot], ⟨?_, frame.floor⟩,
      fun k other => List.getElem?_set_ne (Ne.symm other)⟩
    rw [frame.stack, set_reverse_arg args _ positive present]
  | _ => exact ⟨L, args, rfl, frame, fun _ _ => rfl⟩

end Frame

theorem stoi_eq_ok_iff {s : Bytes} {n : Int} : stoi s = .ok n ↔ IntText s n ∧ InInt n := by
  unfold stoi
  rw [← readInt_eq_some_iff]
  split
  next none => simp [none]
  next k some =>
    rw [some, Option.some.injEq]
    split
    next fits =>
      rw [Except.ok.injEq]
      exact ⟨fun h => ⟨h, h ▸ fits⟩, fun h => h.1⟩
    next fits =>
      constructor
      · rintro ⟨⟩
      · rintro ⟨rfl, inside⟩
        exact absurd inside fits

theorem thrown_eq_ok_iff {α : Type} {x : Except CxxException α} {a : α} :
    thrown x = .ok a ↔ x = .ok a := by
  cases x <;> simp [thrown]

theorem cxxString_eq_ok_iff {p : Option Bytes} {t : Bytes} :
    cxxString p = .ok t ↔ ∃ s, p = some s ∧ cstr s = t := by
  cases p <;> simp [cxxString]

theorem stof_eq_ok_iff {lib : Library F} {s : Bytes} {x : F} :
    stof lib s = .ok x ↔ ∃ n, readNumber s = some n ∧ n.InRange lib ∧ lib.value n = x := by
  unfold stof
  split
  next none => simp [none]
  next n some =>
    rw [some]
    split
    next fits => simp [fits]
    next fits => simp [fits]

theorem Memory.deref_eq_ok_iff {α : Type} {m : Memory F} {size : Nat} {pointee : Nat → α} {p : Nat}
    {a : α} : m.deref size pointee p = .ok a ↔ (p ≠ 0 ∧ size ≤ m.extent p) ∧ pointee p = a := by
  unfold Memory.deref
  split
  next null => simp [null]
  next present =>
    split
    next short => simp [Nat.not_le.mpr short]
    next whole => simp [present, Nat.not_lt.mp whole]

theorem argIndex_eq_ok_iff {number2str : LuaNumber → Bytes} {args : List Value} {index : Int} :
    argIndex number2str args = .ok index ↔
      ∃ s, argString number2str args 2 = some s ∧ IntText (cstr s) index ∧ InInt index := by
  simp only [argIndex, bind_eq_ok_iff, cxxString_eq_ok_iff, thrown_eq_ok_iff, stoi_eq_ok_iff]
  constructor
  · rintro ⟨_, ⟨s, found, rfl⟩, read⟩
    exact ⟨s, found, read⟩
  · rintro ⟨s, found, read⟩
    exact ⟨_, ⟨s, found, rfl⟩, read⟩

section Total

variable {number2str : LuaNumber → Bytes} {m : Memory F} {lib : Library F} {args : List Value}
  {st : DevState F}

theorem argString_isSome_iff {idx : Nat} :
    (∃ s, argString number2str args idx = some s) ↔
      argType args idx = .number ∨ argType args idx = .string := by
  unfold argString argType
  rcases args[idx - 1]? with _ | v
  · simp
  · cases v <;> simp [Value.type]

/-- The argument points to an object that is large enough for a structure of the size. -/
def PointsTo (m : Memory F) (args : List Value) (idx size : Nat) : Prop :=
  argUserdata m args idx ≠ 0 ∧ size ≤ m.extent (argUserdata m args idx)

/-- What `add2DText` needs of the arguments behind the text: a `vec2`, a `vec4`, and a number or
a string that starts with a number in the range of `float`. -/
structure TextArguments (number2str : LuaNumber → Bytes) (m : Memory F) (lib : Library F)
    (args : List Value) : Prop where
  position : PointsTo m args 4 sizeofVec2
  colour : PointsTo m args 5 sizeofVec4
  scale : ∃ s, argString number2str args 6 = some s ∧ NumberText (cstr s) ∧
    ∀ n, readNumber (cstr s) = some n → n.InRange lib

theorem argText_ok_iff (printable : argType args 3 = .number ∨ argType args 3 = .string) :
    (∃ text, argText number2str m lib args = .ok text) ↔
      TextArguments number2str m lib args := by
  obtain ⟨t, ht⟩ : ∃ t, argString number2str args 3 = some t :=
    argString_isSome_iff.mpr printable
  constructor
  · rintro ⟨text, read⟩
    unfold argText at read
    obtain ⟨_, _, read⟩ := bind_eq_ok_iff.mp read
    obtain ⟨_, position, read⟩ := bind_eq_ok_iff.mp read
    obtain ⟨_, colour, read⟩ := bind_eq_ok_iff.mp read
    obtain ⟨_, string, read⟩ := bind_eq_ok_iff.mp read
    obtain ⟨x, scale, _⟩ := bind_eq_ok_iff.mp read
    obtain ⟨s, found, rfl⟩ := cxxString_eq_ok_iff.mp string
    obtain ⟨n, number, fits, _⟩ := stof_eq_ok_iff.mp (thrown_eq_ok_iff.mp scale)
    refine ⟨(Memory.deref_eq_ok_iff.mp position).1, (Memory.deref_eq_ok_iff.mp colour).1,
      s, found, readNumber_isSome_iff.mp (by rw [number]; rfl), ?_⟩
    intro n' number'
    cases Option.some.inj (number.symm.trans number')
    exact fits
  · rintro ⟨position, colour, s, found, number, fits⟩
    obtain ⟨n, hn⟩ := Option.isSome_iff_exists.mp (readNumber_isSome_iff.mpr number)
    have scale : stof lib (cstr s) = .ok (lib.value n) :=
      stof_eq_ok_iff.mpr ⟨n, hn, fits n hn, rfl⟩
    refine ⟨⟨cstr t, m.vec2 (argUserdata m args 4), m.vec4 (argUserdata m args 5),
      lib.value n⟩, ?_⟩
    refine bind_eq_ok_iff.mpr ⟨_, cxxString_eq_ok_iff.mpr ⟨t, ht, rfl⟩, ?_⟩
    refine bind_eq_ok_iff.mpr ⟨_, Memory.deref_eq_ok_iff.mpr ⟨position, rfl⟩, ?_⟩
    refine bind_eq_ok_iff.mpr ⟨_, Memory.deref_eq_ok_iff.mpr ⟨colour, rfl⟩, ?_⟩
    refine bind_eq_ok_iff.mpr ⟨_, cxxString_eq_ok_iff.mpr ⟨s, found, rfl⟩, ?_⟩
    exact bind_eq_ok_iff.mpr ⟨_, thrown_eq_ok_iff.mpr scale, rfl⟩

/-- A call returns normally, releases the lock, and changes at most the requested text. -/
structure TotalAndAtomic (requested : Except DevFault Int)
    (call : DevState F → DevOutcome × DevState F) : Prop where
  returns : ∀ st, ∃ results, (call st).1 = .returned results
  released : ∀ st, (call st).2.devTextMutex = false
  atomic : ∀ st, (call st).2.devTexts = st.devTexts ∨
    ∃ index, requested = .ok index ∧ ∀ k, k ≠ index → (call st).2.devTexts k = st.devTexts k

/-- A fault under the lock leaves the texts as they were. -/
theorem withLock_fault (f : DevFault) (st : DevState F) :
    (withLock (fun st => (.fault f, st)) st).1 = .fault f ∧
      (withLock (fun st => (.fault f, st)) st).2.devTexts = st.devTexts := by
  cases f with
  | exception e => exact ⟨rfl, rfl⟩
  | nullDereference => exact ⟨rfl, rfl⟩
  | invalidRead => exact ⟨rfl, rfl⟩

theorem eraseText_error {f : DevFault} (h : argIndex number2str args = .error f) :
    (developmentEraseTextOverride number2str args st).1 = .fault f ∧
      (developmentEraseTextOverride number2str args st).2.devTexts = st.devTexts := by
  simp only [developmentEraseTextOverride, h]
  exact withLock_fault f st

theorem eraseText_ok {index : Int} (h : argIndex number2str args = .ok index) :
    developmentEraseTextOverride number2str args st =
      (.returned 0, { st with
        devTextMutex := false
        devTexts := Function.update st.devTexts index none }) := by
  unfold developmentEraseTextOverride withLock
  rw [h]

/-- A call that replaces one text is total and atomic. -/
theorem totalAndAtomic_update {requested : Except DevFault Int} {index : Int}
    {entry : Option (DevText F)} {call : DevState F → DevOutcome × DevState F}
    (asked : requested = .ok index)
    (h : ∀ st, call st = (.returned 0, { st with
      devTextMutex := false
      devTexts := Function.update st.devTexts index entry })) :
    TotalAndAtomic requested call where
  returns st := ⟨0, by rw [h st]⟩
  released st := by rw [h st]
  atomic st := by
    refine Or.inr ⟨index, asked, fun k other => ?_⟩
    rw [h st]
    exact Function.update_of_ne other _ _

theorem not_totalAndAtomic {requested : Except DevFault Int} {f : DevFault}
    {call : DevState F → DevOutcome × DevState F} (h : ∀ st, (call st).1 = .fault f) :
    ¬ TotalAndAtomic requested call := by
  intro total
  obtain ⟨results, returned⟩ := total.returns ⟨fun _ => none, false, ⟨false, []⟩⟩
  rw [h] at returned
  cases returned

theorem eraseText_total_iff :
    TotalAndAtomic (F := F) (argIndex number2str args)
      (developmentEraseTextOverride number2str args) ↔
      ∃ index, argIndex number2str args = .ok index := by
  constructor
  · intro total
    cases h : argIndex number2str args with
    | ok index => exact ⟨index, rfl⟩
    | error f => exact absurd total (not_totalAndAtomic fun st => (eraseText_error h).1)
  · rintro ⟨index, h⟩
    exact totalAndAtomic_update h fun st => eraseText_ok h

/-- The two checks that `add2DText` makes. -/
def Add2dChecked (args : List Value) : Prop :=
  args.length = 7 ∧ (argType args 3 = .number ∨ argType args 3 = .string)

theorem add2dText_unchecked (h : ¬ Add2dChecked args) :
    ∃ console, developmentAdd2dTextOverride number2str m lib args st =
      (.returned 0, { st with devTextMutex := false, console }) := by
  unfold developmentAdd2dTextOverride withLock
  by_cases count : args.length = 7
  · have text : argType args 3 ≠ .number ∧ argType args 3 ≠ .string :=
      not_or.mp fun printable => h ⟨count, printable⟩
    simp only [if_neg (not_not_intro count), if_pos text]
    exact ⟨_, rfl⟩
  · simp only [if_pos count]
    exact ⟨_, rfl⟩

theorem add2dText_checked (h : Add2dChecked args) :
    developmentAdd2dTextOverride number2str m lib args = withLock fun st =>
      match argIndex number2str args with
      | .error f => (.fault f, st)
      | .ok index =>
        match argText number2str m lib args with
        | .error f => (.fault f, st)
        | .ok text =>
          (.returned 0, { st with devTexts := Function.update st.devTexts index (some text) }) := by
  have text : ¬ (argType args 3 ≠ .number ∧ argType args 3 ≠ .string) := by
    rintro ⟨number, string⟩
    exact h.2.elim number string
  unfold developmentAdd2dTextOverride
  simp only [if_neg (not_not_intro h.1), if_neg text]

theorem add2dText_ok (h : Add2dChecked args) {index : Int} {text : DevText F}
    (hi : argIndex number2str args = .ok index) (ht : argText number2str m lib args = .ok text) :
    developmentAdd2dTextOverride number2str m lib args st =
      (.returned 0, { st with
        devTextMutex := false
        devTexts := Function.update st.devTexts index (some text) }) := by
  rw [add2dText_checked h, hi, ht]
  rfl

theorem add2dText_index_error (h : Add2dChecked args) {f : DevFault}
    (hi : argIndex number2str args = .error f) :
    (developmentAdd2dTextOverride number2str m lib args st).1 = .fault f ∧
      (developmentAdd2dTextOverride number2str m lib args st).2.devTexts = st.devTexts := by
  simp only [add2dText_checked h, hi]
  exact withLock_fault f st

theorem add2dText_text_error (h : Add2dChecked args) {index : Int} {f : DevFault}
    (hi : argIndex number2str args = .ok index)
    (ht : argText number2str m lib args = .error f) :
    (developmentAdd2dTextOverride number2str m lib args st).1 = .fault f ∧
      (developmentAdd2dTextOverride number2str m lib args st).2.devTexts = st.devTexts := by
  simp only [add2dText_checked h, hi, ht]
  exact withLock_fault f st

theorem add2dText_total_iff :
    TotalAndAtomic (argIndex number2str args)
      (developmentAdd2dTextOverride number2str m lib args) ↔
      (Add2dChecked args → (∃ index, argIndex number2str args = .ok index) ∧
        ∃ text, argText number2str m lib args = .ok text) := by
  by_cases checked : Add2dChecked args
  · rw [imp_iff_right checked]
    constructor
    · intro total
      cases hi : argIndex number2str args with
      | error f =>
        exact absurd total (not_totalAndAtomic fun st => (add2dText_index_error checked hi).1)
      | ok index =>
        cases ht : argText number2str m lib args with
        | error f =>
          exact absurd total (not_totalAndAtomic fun st => (add2dText_text_error checked hi ht).1)
        | ok text => exact ⟨⟨index, rfl⟩, text, rfl⟩
    · rintro ⟨⟨index, hi⟩, text, ht⟩
      exact totalAndAtomic_update hi fun st => add2dText_ok checked hi ht
  · have unchecked := fun st => @add2dText_unchecked F number2str m lib args st checked
    refine ⟨fun _ h => absurd h checked, fun _ => ⟨fun st => ?_, fun st => ?_, fun st => ?_⟩⟩
    · obtain ⟨console, h⟩ := unchecked st
      exact ⟨0, by rw [h]⟩
    · obtain ⟨console, h⟩ := unchecked st
      rw [h]
    · obtain ⟨console, h⟩ := unchecked st
      exact Or.inl (by rw [h])

/-- The second argument is a number or a string that starts with an `int`. -/
def IndexArgument (number2str : LuaNumber → Bytes) (args : List Value) : Prop :=
  ∃ s n, argString number2str args 2 = some s ∧ IntText (cstr s) n ∧ InInt n

theorem argIndex_ok_iff :
    (∃ index, argIndex number2str args = .ok index) ↔ IndexArgument number2str args := by
  simp only [argIndex_eq_ok_iff]
  exact exists_comm

theorem developmentTexts_total_iff (number2str : LuaNumber → Bytes) (m : Memory F)
    (lib : Library F) (args : List Value) :
    (TotalAndAtomic (F := F) (argIndex number2str args)
      (developmentEraseTextOverride number2str args) ↔ IndexArgument number2str args) ∧
    (TotalAndAtomic (argIndex number2str args)
      (developmentAdd2dTextOverride number2str m lib args) ↔
      (Add2dChecked args →
        IndexArgument number2str args ∧ TextArguments number2str m lib args)) := by
  refine ⟨eraseText_total_iff.trans argIndex_ok_iff, add2dText_total_iff.trans ?_⟩
  refine imp_congr_right fun checked => ?_
  rw [argIndex_ok_iff, argText_ok_iff checked.2]

end Total

def plainMemory : Memory Unit where
  block ref := ref + 1
  extent _ := sizeofVec4
  vec2 _ := ⟨0, (), ()⟩
  vec4 _ := ⟨0, (), (), (), ()⟩
  block_ne_null ref := ref.succ_ne_zero

/-- A library that reports no underflow. -/
def plainFloats : Library Unit where
  value _ := ()
  underflows _ := false
  tiny _ h := by cases h

/-- A call with the right count and a text, whose index is no number. -/
def namedText : List Value :=
  [.table 0, .string (bytes "menu"), .string (bytes "Hello"), .userdata 0, .userdata 1,
    .number (.int 1), .number (.int (-1))]

theorem namedText_not_total :
    ¬ TotalAndAtomic (argIndex (fun _ => bytes "1") namedText)
      (developmentAdd2dTextOverride (fun _ => bytes "1") plainMemory plainFloats namedText) ∧
    ¬ TotalAndAtomic (F := Unit) (argIndex (fun _ => bytes "1") [])
      (developmentEraseTextOverride (fun _ => bytes "1") []) := by
  have checked : Add2dChecked namedText := ⟨rfl, Or.inr rfl⟩
  have text : argIndex (fun _ => bytes "1") namedText = .error (.exception .invalidArgument) := by
    decide
  have absent : argIndex (fun _ => bytes "1") [] = .error .nullDereference := rfl
  exact ⟨not_totalAndAtomic fun st => (add2dText_index_error checked text).1,
    not_totalAndAtomic fun st => (eraseText_error absent).1⟩

end DriverSF
