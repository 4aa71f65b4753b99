import Mathlib.Data.List.Induction
import DriverSF.DevelopmentText

namespace DriverSF

open Decimal
open FloatText (Library)

variable {F : Type}

/-- A number of fifteen or more digits rounded to fourteen, halves to even, and the exponent of
its first digit. -/
def roundDigits (n : Nat) : Nat × Nat :=
  let exponent := (ofNat n).length - 1
  let unit := 10 ^ (exponent - 13)
  let down := n / unit
  let up := unit < 2 * (n % unit) ∨ (unit = 2 * (n % unit) ∧ down % 2 = 1)
  let mantissa := if up then down + 1 else down
  if mantissa = 10 ^ 14 then (10 ^ 13, exponent + 1) else (mantissa, exponent)

/-- What `%.14g` writes for a natural number: the number itself up to fourteen digits, and
otherwise the exponent form without trailing zeros. -/
def formatDigits (n : Nat) : Bytes :=
  if n < 10 ^ 14 then ofNat n
  else
    let (mantissa, exponent) := roundDigits n
    match ofNat mantissa with
    | [] => []
    | d :: ds =>
      let fraction := (ds.reverse.dropWhile (· = 48)).reverse
      d :: (if fraction = [] then [] else 46 :: fraction) ++ bytes "e+" ++ ofNat exponent

/-- `lua_number2str`, with `LUA_NUMBER_FMT`. -/
def luaNumber2str : LuaNumber → Bytes
  | .int i => (if i < 0 then [45] else []) ++ formatDigits i.natAbs
  | .other text => text

/-- The integer that a number is; the negative zero has a text of its own. -/
def LuaNumber.intValue : LuaNumber → Option Int
  | .int i => some i
  | .other text => if text = bytes "-0" then some 0 else none

/-- The key that an index gets. -/
def indexKey (number : LuaNumber) : Except CxxException Int := stoi (cstr (luaNumber2str number))

theorem argIndex_number (self : Value) (number : LuaNumber) (rest : List Value) :
    argIndex luaNumber2str (self :: .number number :: rest) = thrown (indexKey number) := rfl

theorem cstr_append_of_ne_nul {front rest : Bytes} (h : ∀ c ∈ front, c ≠ 0) :
    cstr (front ++ rest) = front ++ cstr rest :=
  List.takeWhile_append_of_pos fun c hc => decide_eq_true (h c hc)

/-- The NUL behind a number does not change it. -/
theorem intText_cstr {s : Bytes} {n : Int} (h : IntText s n) : IntText (cstr s) n := by
  cases h with
  | @intro blanks sign digits rest unit blank hs found digit stop =>
    have blank' : ∀ c ∈ blanks, c ≠ 0 := by
      rintro c hc rfl
      cases blank 0 hc
    have sign' : ∀ c ∈ sign, c ≠ 0 := by cases hs <;> simp
    have digit' : ∀ c ∈ digits, c ≠ 0 := by
      rintro c hc rfl
      cases digit 0 hc
    rw [cstr_append_of_ne_nul blank', cstr_append_of_ne_nul sign', cstr_append_of_ne_nul digit']
    refine .intro blank hs found digit fun c hc => ?_
    cases rest with
    | nil => cases hc
    | cons b rest =>
      by_cases nul : b = 0
      · simp [cstr, nul] at hc
      · simp [cstr, nul] at hc
        exact stop c (by simp [hc])

/-- A number without white space before it. -/
theorem intText_signed {sign digits rest : Bytes} {unit : Int} (hs : Sign sign unit)
    (found : digits ≠ []) (digit : ∀ c ∈ digits, isDigit c = true)
    (stop : ∀ c ∈ rest.head?, isDigit c = false) :
    IntText (sign ++ (digits ++ rest)) (unit * value digits) :=
  @IntText.intro [] sign digits rest unit (fun _ hc => by cases hc) hs found digit stop

/-- The sign that `%.14g` writes. -/
theorem exists_sign (i : Int) :
    ∃ unit, Sign (if i < 0 then [45] else []) unit ∧ unit * i.natAbs = i ∧
      (unit = 1 ∨ unit = -1) := by
  by_cases negative : i < 0
  · rw [if_pos negative]
    exact ⟨-1, .minus, by omega, Or.inr rfl⟩
  · rw [if_neg negative]
    exact ⟨1, .none, by omega, Or.inl rfl⟩

theorem intText_small {i : Int} (h : i.natAbs < 10 ^ 14) : IntText (luaNumber2str (.int i)) i := by
  obtain ⟨unit, hs, product, _⟩ := exists_sign i
  have text := @intText_signed _ _ [] unit hs (ofNat_ne_nil i.natAbs) (fun c => isDigit_of_mem)
    (fun _ hc => by cases hc)
  rw [value_ofNat, product, List.append_nil] at text
  rw [luaNumber2str, formatDigits, if_pos h]
  exact text

/-- The exponent form starts with a single digit. -/
theorem formatDigits_large {n : Nat} (h : 10 ^ 14 ≤ n) :
    ∃ d rest, formatDigits n = [d] ++ rest ∧ isDigit d = true ∧
      ∀ c ∈ rest.head?, isDigit c = false := by
  unfold formatDigits
  rw [if_neg (by omega)]
  rcases roundDigits n with ⟨mantissa, exponent⟩
  simp only
  split
  next none => exact absurd none (ofNat_ne_nil mantissa)
  next d ds digits =>
    have digit : isDigit d = true := isDigit_of_mem (n := mantissa) (by rw [digits]; exact .head ds)
    split
    next => exact ⟨d, bytes "e+" ++ ofNat exponent, rfl, digit, by rintro c ⟨⟩; rfl⟩
    next =>
      refine ⟨d, 46 :: (ds.reverse.dropWhile (· = 48)).reverse ++ bytes "e+" ++ ofNat exponent, ?_,
        digit, by rintro c ⟨⟩; rfl⟩
      simp only [List.cons_append, List.nil_append]

example : formatDigits 123456789012345678 = bytes "1.2345678901235e+17" := by decide

theorem intText_large {i : Int} (h : 10 ^ 14 ≤ i.natAbs) :
    ∃ k, IntText (luaNumber2str (.int i)) k ∧ -9 ≤ k ∧ k ≤ 9 := by
  obtain ⟨unit, hs, _, unsigned⟩ := exists_sign i
  obtain ⟨d, rest, format, digit, stop⟩ := formatDigits_large h
  have single : ∀ c ∈ [d], isDigit c = true := by
    intro c hc
    rwa [List.mem_singleton.mp hc]
  have bound := value_le_nine digit
  refine ⟨unit * value [d], ?_, by rcases unsigned with rfl | rfl <;> omega,
    by rcases unsigned with rfl | rfl <;> omega⟩
  rw [luaNumber2str, format]
  exact intText_signed hs (List.cons_ne_nil d []) single stop

theorem stoi_of_intText {s : Bytes} {n : Int} (h : IntText s n) :
    stoi s = if InInt n then .ok n else .error .outOfRange := by
  rw [stoi, readInt_of_intText h]

theorem intValue_cases {number : LuaNumber} {i : Int} (h : number.intValue = some i) :
    number = .int i ∨ number = .other (bytes "-0") ∧ i = 0 := by
  cases number with
  | int j => exact Or.inl (by rw [Option.some.inj h])
  | other text =>
    simp only [LuaNumber.intValue] at h
    split at h
    next zero => exact Or.inr ⟨by rw [zero], (Option.some.inj h).symm⟩
    next => cases h

/-- Up to fourteen digits the key is the index itself, or there is none. -/
theorem indexKey_small {number : LuaNumber} {i : Int} (integer : number.intValue = some i)
    (h : i.natAbs < 10 ^ 14) :
    indexKey number = if InInt i then .ok i else .error .outOfRange := by
  rcases intValue_cases integer with rfl | ⟨rfl, rfl⟩
  · exact stoi_of_intText (intText_cstr (intText_small h))
  · decide

/-- From fifteen digits on the key is the first digit. -/
theorem indexKey_large {number : LuaNumber} {i : Int} (integer : number.intValue = some i)
    (h : 10 ^ 14 ≤ i.natAbs) : ∃ k, indexKey number = .ok k ∧ InInt k ∧ k ≠ i := by
  rcases intValue_cases integer with rfl | ⟨rfl, rfl⟩
  · obtain ⟨k, text, low, high⟩ := intText_large h
    have inside : InInt k := by unfold InInt; omega
    refine ⟨k, ?_, inside, by omega⟩
    rw [indexKey, stoi_of_intText (intText_cstr text), if_pos inside]
  · simp at h

/-- Arguments of `add2DText` that are valid whatever the index is. -/
structure ValidAdd (m : Memory F) (lib : Library F) where
  self : Value
  text : Value
  position : Value
  colour : Value
  scale : Value
  unknown : Value
  devText : DevText F
  printable : text.type = .number ∨ text.type = .string
  reads : ∀ index, argText luaNumber2str m lib
    [self, index, text, position, colour, scale, unknown] = .ok devText

variable {m : Memory F} {lib : Library F}

def ValidAdd.args (a : ValidAdd m lib) (number : LuaNumber) : List Value :=
  [a.self, .number number, a.text, a.position, a.colour, a.scale, a.unknown]

theorem ValidAdd.checked (a : ValidAdd m lib) (number : LuaNumber) :
    Add2dChecked (a.args number) :=
  ⟨rfl, a.printable⟩

/-- The calls on the texts that the scripts make. -/
inductive DevCall (m : Memory F) (lib : Library F)
  | add2DText (number : LuaNumber) (a : ValidAdd m lib)
  | eraseText (self : Value) (number : LuaNumber) (rest : List Value)
  | removeBatch
  | startBatch
  | clearScreen

def DevCall.run : DevCall m lib → DevState F → DevState F
  | .add2DText number a, st =>
    (developmentAdd2dTextOverride luaNumber2str m lib (a.args number) st).2
  | .eraseText self number rest, st =>
    (developmentEraseTextOverride luaNumber2str (self :: .number number :: rest) st).2
  | .removeBatch, st => (developmentRemoveBatchOverride st).2
  | .startBatch, st => (developmentStartBatch st).2
  | .clearScreen, st => (developmentClearScreenOverride st).2

def runCalls (calls : List (DevCall m lib)) (st : DevState F) : DevState F :=
  calls.foldl (fun st call => call.run st) st

def DevCall.index : DevCall m lib → Option LuaNumber
  | .add2DText number _ => some number
  | .eraseText _ number _ => some number
  | _ => none

/-- The text that was last added under an index, if neither it nor everything was removed
since; the latest call comes first. -/
def lastText (k : Int) : List (DevCall m lib) → Option (DevText F)
  | [] => none
  | .add2DText number a :: earlier =>
    if number.intValue = some k then some a.devText else lastText k earlier
  | .eraseText _ number _ :: earlier =>
    if number.intValue = some k then none else lastText k earlier
  | _ :: _ => none

/-- A call under an index changes the text of just this index, if that is an `int`. -/
structure KeyExact (m : Memory F) (lib : Library F) (number : LuaNumber)
    (i : Int) : Prop where
  add : ∀ (a : ValidAdd m lib) (st : DevState F),
    (developmentAdd2dTextOverride luaNumber2str m lib (a.args number) st).2.devTexts =
      if InInt i then Function.update st.devTexts i (some a.devText) else st.devTexts
  erase : ∀ self rest (st : DevState F),
    (developmentEraseTextOverride luaNumber2str (self :: .number number :: rest) st).2.devTexts =
      if InInt i then Function.update st.devTexts i none else st.devTexts

/-- After the calls the texts are the ones last added under the indices that are an `int`. -/
def CallsExact (calls : List (DevCall m lib)) : Prop :=
  ∀ st : DevState F, (∀ k, st.devTexts k = none) →
    ∀ k, (runCalls calls st).devTexts k = if InInt k then lastText k calls.reverse else none

theorem keyExact_small {number : LuaNumber} {i : Int} (integer : number.intValue = some i)
    (h : i.natAbs < 10 ^ 14) : KeyExact m lib number i := by
  have key := indexKey_small integer h
  constructor
  · intro a st
    have index : argIndex luaNumber2str (a.args number) = thrown (indexKey number) :=
      argIndex_number a.self number _
    split at key
    next fits =>
      rw [key] at index
      rw [if_pos fits, add2dText_ok (a.checked number) index (a.reads (.number number))]
    next fits =>
      rw [key] at index
      rw [if_neg fits, (add2dText_index_error (a.checked number) index).2]
  · intro self rest st
    have index := argIndex_number self number rest
    split at key
    next fits =>
      rw [key] at index
      rw [if_pos fits, eraseText_ok index]
    next fits =>
      rw [key] at index
      rw [if_neg fits, (eraseText_error index).2]

theorem not_keyExact_large [Inhabited F] {number : LuaNumber} {i : Int}
    (integer : number.intValue = some i) (h : 10 ^ 14 ≤ i.natAbs) :
    ¬ KeyExact m lib number i := by
  intro key
  obtain ⟨k, read, _, _⟩ := indexKey_large integer h
  have index : argIndex luaNumber2str [.nil, .number number] = .ok k := by
    rw [argIndex_number, read]
    rfl
  have beyond : ¬ InInt i := by unfold InInt; omega
  -- a state that has a text under every key
  have same := key.erase .nil [] ⟨fun _ => some default, false, ⟨false, []⟩⟩
  rw [if_neg beyond, eraseText_ok index] at same
  have erased := congrFun same k
  simp at erased

theorem keyExact_iff [Inhabited F] {number : LuaNumber} {i : Int}
    (integer : number.intValue = some i) : KeyExact m lib number i ↔ i.natAbs < 10 ^ 14 := by
  refine ⟨fun key => ?_, keyExact_small integer⟩
  by_contra large
  exact not_keyExact_large integer (by omega) key

/-- All indices of the calls are integers of at most fourteen digits. -/
def SmallIndices (calls : List (DevCall m lib)) : Prop :=
  ∀ call ∈ calls, ∀ number ∈ call.index, ∃ i, number.intValue = some i ∧ i.natAbs < 10 ^ 14

/-- One entry of the texts is replaced if its key is an `int`. -/
theorem update_key {texts last : Int → Option (DevText F)}
    (h : ∀ k, texts k = if InInt k then last k else none) (i : Int) (entry : Option (DevText F))
    (k : Int) :
    (if InInt i then Function.update texts i entry else texts) k =
      if InInt k then if some i = some k then entry else last k else none := by
  by_cases same : i = k
  · subst same
    by_cases inside : InInt i
    · simp [inside]
    · simp [inside, h]
  · rw [if_neg fun he => same (Option.some.inj he), ← h k]
    split
    next => exact Function.update_of_ne (Ne.symm same) entry texts
    next => rfl

theorem run_lastText {call : DevCall m lib} {earlier : List (DevCall m lib)} {st : DevState F}
    (small : ∀ number ∈ call.index, ∃ i, number.intValue = some i ∧ i.natAbs < 10 ^ 14)
    (h : ∀ k, st.devTexts k = if InInt k then lastText k earlier else none) (k : Int) :
    (call.run st).devTexts k = if InInt k then lastText k (call :: earlier) else none := by
  cases call with
  | add2DText number a =>
    obtain ⟨i, integer, bound⟩ := small number rfl
    have key : KeyExact m lib number i := keyExact_small integer bound
    rw [DevCall.run, key.add a st, lastText, integer]
    exact update_key h i (some a.devText) k
  | eraseText self number rest =>
    obtain ⟨i, integer, bound⟩ := small number rfl
    have key : KeyExact m lib number i := keyExact_small integer bound
    rw [DevCall.run, key.erase self rest st, lastText, integer]
    exact update_key h i none k
  | removeBatch => exact (ite_self none).symm
  | startBatch => exact (ite_self none).symm
  | clearScreen => exact (ite_self none).symm

theorem runCalls_append (calls : List (DevCall m lib)) (call : DevCall m lib) (st : DevState F) :
    runCalls (calls ++ [call]) st = call.run (runCalls calls st) := by
  simp [runCalls]

theorem callsExact_of_small {calls : List (DevCall m lib)} (small : SmallIndices calls) :
    CallsExact calls := by
  intro st empty
  induction calls using List.reverseRecOn with
  | nil =>
    intro k
    rw [List.reverse_nil, lastText, ite_self]
    exact empty k
  | append_singleton calls call ih =>
    have before := ih fun c hc => small c (List.mem_append_left [call] hc)
    have latest := small call (List.mem_append_right calls (List.mem_singleton_self call))
    rw [runCalls_append, List.reverse_append, List.reverse_singleton]
    exact run_lastText latest before

theorem callsExact_add_iff {number : LuaNumber} {i : Int} (integer : number.intValue = some i)
    (a : ValidAdd m lib) : CallsExact [.add2DText number a] ↔ i.natAbs < 10 ^ 14 := by
  constructor
  · intro calls
    by_contra large
    obtain ⟨k, read, inside, other⟩ := indexKey_large integer (by omega)
    have index : argIndex luaNumber2str (a.args number) = .ok k := by
      rw [ValidAdd.args, argIndex_number, read]
      rfl
    have added := calls ⟨fun _ => none, false, ⟨false, []⟩⟩ (fun _ => rfl) k
    have unequal : ¬ (number.intValue = some k) := by
      rw [integer]
      exact fun he => other (Option.some.inj he).symm
    rw [runCalls, List.foldl_cons, List.foldl_nil, DevCall.run,
      add2dText_ok (a.checked number) index (a.reads (.number number)), if_pos inside,
      List.reverse_singleton, lastText, if_neg unequal, lastText] at added
    simp at added
  · intro bound
    refine callsExact_of_small fun call hc => ?_
    obtain rfl := List.mem_singleton.mp hc
    rintro _ ⟨⟩
    exact ⟨i, integer, bound⟩

theorem textIndex_exact_iff [Inhabited F] (m : Memory F) (lib : Library F) :
    (∀ number i, number.intValue = some i →
      (KeyExact m lib number i ↔ i.natAbs < 10 ^ 14) ∧
      ∀ a : ValidAdd m lib, CallsExact [.add2DText number a] ↔ i.natAbs < 10 ^ 14) ∧
    ∀ calls : List (DevCall m lib), SmallIndices calls → CallsExact calls := by
  refine ⟨fun number i integer => ⟨keyExact_iff integer, fun a => ?_⟩, fun calls small => ?_⟩
  · exact callsExact_add_iff integer a
  · exact callsExact_of_small small

/-- A call whose arguments are valid, in a memory without numbers in its vectors. -/
def helloText : ValidAdd plainMemory plainFloats where
  self := .table 0
  text := .string (bytes "Hello")
  position := .userdata 0
  colour := .userdata 1
  scale := .number (.int 1)
  unknown := .number (.int (-1))
  devText := ⟨bytes "Hello", ⟨0, (), ()⟩, ⟨0, (), (), (), ()⟩, ()⟩
  printable := Or.inr rfl
  reads _ := rfl

theorem indexKey_alias : indexKey (.int (10 ^ 15)) = .ok 1 := by decide

/-- Erasing the index 10 ^ 15 erases the text of the index 1. -/
theorem erase_alias :
    ¬ KeyExact plainMemory plainFloats (.int (10 ^ 15)) (10 ^ 15) ∧
    ¬ CallsExact [.add2DText (.int 1) helloText, .eraseText .nil (.int (10 ^ 15)) []] := by
  refine ⟨not_keyExact_large (i := 10 ^ 15) rfl (by decide), fun calls => ?_⟩
  have index : argIndex luaNumber2str [.nil, .number (.int (10 ^ 15))] = .ok 1 := by
    rw [argIndex_number, indexKey_alias]
    rfl
  have erased := calls ⟨fun _ => none, false, ⟨false, []⟩⟩ (fun _ => rfl) 1
  simp only [runCalls, List.foldl_cons, List.foldl_nil, DevCall.run, eraseText_ok index] at erased
  simp [lastText, LuaNumber.intValue, InInt] at erased

theorem textIndex_exact_iff_pair :
    KeyExact plainMemory plainFloats (.int 7) 7 ∧
    CallsExact [.add2DText (.int 7) helloText, .add2DText (.int (-3)) helloText,
      .eraseText .nil (.int 7) [], .startBatch] := by
  have exact_iff := textIndex_exact_iff plainMemory plainFloats
  refine ⟨(exact_iff.1 (.int 7) 7 rfl).1.mpr (by decide), exact_iff.2 _ fun call hc => ?_⟩
  simp only [List.mem_cons, List.not_mem_nil, or_false] at hc
  rcases hc with rfl | rfl | rfl | rfl
  · rintro _ ⟨⟩
    exact ⟨7, rfl, by decide⟩
  · rintro _ ⟨⟩
    exact ⟨-3, rfl, by decide⟩
  · rintro _ ⟨⟩
    exact ⟨7, rfl, by decide⟩
  · rintro _ ⟨⟩

end DriverSF
