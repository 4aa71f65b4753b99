import DriverSF.LuaStack

namespace DriverSF

variable {W : Type} {g : Game W} {L : LuaState W} {upper below : List Value} {v : Value}

/-- The stack is `upper` on top of `below`, and exactly `below` is off limits. -/
def LuaState.Above (L : LuaState W) (upper below : List Value) : Prop :=
  L.stack = upper ++ below ∧ L.floor = below.length

theorem LuaState.Above.push (h : L.Above upper below) (v : Value) :
    (L.push v).Above (v :: upper) below := by
  refine ⟨?_, h.2⟩
  simp [LuaState.push, h.1]

theorem luaGettop_above (h : L.Above upper below) :
    luaGettop L = upper.length + below.length := by
  simp [luaGettop, h.1]

theorem index2adr_globals : index2adr L luaGlobalsindex = some (some L.env.globals) := by
  simp [index2adr, luaGlobalsindex]

theorem stackPos_top (h : L.Above (v :: upper) below) : stackPos L (-1) = some 0 := by
  have room : 1 + below.length ≤ (v :: upper ++ below).length := by simp; omega
  simp only [stackPos, h.1, h.2, luaRegistryindex]
  rw [if_neg (by omega), if_pos (by refine ⟨by omega, by omega, by simpa using room⟩)]
  rfl

theorem index2adr_top (h : L.Above (v :: upper) below) :
    index2adr L (-1) = some (some v) := by
  simp [index2adr, luaGlobalsindex, stackPos_top h, h.1]

def slotIndex (upper below : List Value) : Int :=
  (upper.length + below.length + 1 : Nat)

/-- The absolute index of a slot keeps naming it while more values are pushed. -/
theorem index2adr_absolute (pushed : List Value) (h : L.Above (pushed ++ v :: upper) below) :
    index2adr L (slotIndex upper below) = some (some v) := by
  unfold slotIndex
  have len : L.stack.length = pushed.length + upper.length + below.length + 1 := by
    simp [h.1]; omega
  have pos : stackPos L ((upper.length + below.length + 1 : Nat) : Int) = some pushed.length := by
    simp only [stackPos, h.2, Int.toNat_natCast, len]
    rw [if_pos (by refine ⟨by omega, by omega, by omega⟩)]
    congr 1
    omega
  rw [index2adr, if_neg (by simp only [Int.toNat_natCast, len]; omega),
    if_neg (by simp only [luaGlobalsindex]; omega), pos]
  simp [h.1]

/-- The frame of a C function with its arguments. -/
structure CallFrame (L : LuaState W) (args : List Value) : Prop where
  stack : L.stack = args.reverse
  floor : L.floor = 0

/-- In a frame that starts at the bottom, an absolute index counts from there. -/
theorem index2adr_bottom {front : List Value} {a : Value} {under : List Value}
    (stack : L.stack = front ++ a :: under) (floor : L.floor = 0) :
    index2adr L ((under.length + 1 : Nat) : Int) = some (some a) := by
  have above : L.Above (front ++ a :: under) [] := ⟨by rw [stack, List.append_nil], floor⟩
  have index := index2adr_absolute front above
  exact index

theorem index2adr_first {a : Value} {below : List Value} (stack : L.stack = a :: below)
    (floor : L.floor = 0) : index2adr L (-1) = some (some a) := by
  have above : L.Above (a :: below) [] := ⟨by rw [stack, List.append_nil], floor⟩
  exact index2adr_top above

theorem luaGettop_frame {args : List Value} (frame : CallFrame L args) : luaGettop L = args.length := by
  rw [luaGettop, frame.stack, List.length_reverse]

/-- In the frame of a C function the indices from one on name its arguments. -/
theorem index2adr_arg {args : List Value} (frame : CallFrame L args) {idx : Nat} (positive : 0 < idx) :
    index2adr L idx = some args[idx - 1]? := by
  by_cases present : idx ≤ args.length
  · have split : args = args.take (idx - 1) ++ args[idx - 1] :: args.drop idx := by
      have cut := List.drop_eq_getElem_cons (l := args) (i := idx - 1) (by omega)
      rw [Nat.sub_add_cancel positive] at cut
      rw [← cut, List.take_append_drop]
    have stack : L.stack =
        (args.drop idx).reverse ++ args[idx - 1] :: (args.take (idx - 1)).reverse := by
      rw [frame.stack]
      conv_lhs => rw [split]
      simp
    have found := index2adr_bottom stack frame.floor
    rw [List.length_reverse, List.length_take, Nat.min_eq_left (by omega),
      Nat.sub_add_cancel positive] at found
    rw [found, List.getElem?_eq_getElem (by omega)]
  · have beyond : L.stack.length < idx := by rw [frame.stack, List.length_reverse]; omega
    rw [index2adr, if_pos (by rw [Int.toNat_natCast]; omega), List.getElem?_eq_none (by omega)]

theorem luaType_top (h : L.Above (v :: upper) below) : luaType L (-1) = some v.type := by
  simp [luaType, index2adr_top h]

theorem luaType_absolute (pushed : List Value) (h : L.Above (pushed ++ v :: upper) below) :
    luaType L (slotIndex upper below) = some v.type := by
  rw [luaType, index2adr_absolute pushed h]
  rfl

theorem setTop_append (upper below : List Value) :
    setTop below.length (upper ++ below) = below := by
  simp [setTop]

theorem luaSettop_above {pushed : List Value} (h : L.Above (pushed ++ upper) below) :
    ∃ L', luaSettop L ((upper.length + below.length : Nat) : Int) = some L' ∧ L'.Above upper below := by
  have fits : L.floor ≤ upper.length + below.length := by have := h.2; omega
  refine ⟨{ L with stack := setTop (upper.length + below.length) L.stack }, ?_, ?_, h.2⟩
  · rw [luaSettop, if_pos (by omega), Int.toNat_natCast, if_pos fits]
  · have top := setTop_append pushed (upper ++ below)
    simpa only [h.1, List.append_assoc, List.length_append] using top

theorem luaPop_above (h : L.Above (v :: upper) below) :
    ∃ L', luaPop L 1 = some L' ∧ L'.Above upper below ∧ L'.env = L.env := by
  have room : 1 + L.floor ≤ L.stack.length := by simp [h.1, h.2]; omega
  refine ⟨{ L with stack := L.stack.drop 1 }, ?_, ⟨by simp [h.1], h.2⟩, rfl⟩
  have one : (-((-(1 : Nat) - 1 : Int) + 1)).toNat = 1 := by simp
  rw [luaPop, luaSettop, if_neg (by omega), one, if_pos room]

theorem luaPushcclosure_above (g : Game W) (h : L.Above upper below) (fn : CFunction) :
    ∃ v, (luaPushcclosure g L fn).Above (v :: upper) below := by
  refine ⟨.function (g.newCclosure L.env fn).2, ?_, h.2⟩
  simp [luaPushcclosure, LuaState.push, h.1]

theorem luaGetfield_above (g : Game W) (h : L.Above upper below) {idx : Int} {t : Value}
    (ht : index2adr L idx = some (some t)) (k : Bytes) :
    ∃ v L', luaGetfield g L idx k = some L' ∧ L'.Above (v :: upper) below := by
  refine ⟨(g.gettable L.env t k).2,
    { L with env := (g.gettable L.env t k).1, stack := (g.gettable L.env t k).2 :: L.stack },
    ?_, ?_, h.2⟩
  · simp [luaGetfield, ht, LuaState.push]
  · simp [h.1]

theorem luaSetfield_above (g : Game W) (h : L.Above (v :: upper) below) {idx : Int} {t : Value}
    (ht : index2adr L idx = some (some t)) (k : Bytes) :
    ∃ L', luaSetfield g L idx k = some L' ∧ L'.Above upper below := by
  have stored : ({ L with env := g.settable L.env t k v } : LuaState W).Above (v :: upper) below := h
  obtain ⟨L', hp, ha, _⟩ := luaPop_above stored
  exact ⟨L', by simp [luaSetfield, ht, index2adr_top h, hp], ha⟩

theorem luaTolstring_above (g : Game W) (h : L.Above (v :: upper) below) :
    ∃ s v' L', luaTolstring g L (-1) = some (s, L') ∧ L'.Above (v' :: upper) below := by
  cases v with
  | string s => exact ⟨some s, .string s, L, by simp [luaTolstring, index2adr_top h], h⟩
  | number n =>
    refine ⟨some (g.number2str n), .string (g.number2str n),
      { L with stack := L.stack.set 0 (.string (g.number2str n)) }, ?_, ?_, h.2⟩
    · simp [luaTolstring, index2adr_top h, stackPos_top h]
    · simp [h.1]
  | nil => exact ⟨none, .nil, L, by simp [luaTolstring, index2adr_top h], h⟩
  | boolean b => exact ⟨none, .boolean b, L, by simp [luaTolstring, index2adr_top h], h⟩
  | lightuserdata p => exact ⟨none, .lightuserdata p, L, by simp [luaTolstring, index2adr_top h], h⟩
  | table ref => exact ⟨none, .table ref, L, by simp [luaTolstring, index2adr_top h], h⟩
  | function ref => exact ⟨none, .function ref, L, by simp [luaTolstring, index2adr_top h], h⟩
  | userdata ref => exact ⟨none, .userdata ref, L, by simp [luaTolstring, index2adr_top h], h⟩
  | thread ref => exact ⟨none, .thread ref, L, by simp [luaTolstring, index2adr_top h], h⟩

theorem ParserOutcome.apply_cases (o : ParserOutcome) (stack : List Value) :
    (∃ closure, o.apply stack = (0, .function closure :: stack)) ∨
      ∃ e message, o.apply stack = (LuaError.status e, message :: stack) := by
  cases o with
  | ok closure => exact Or.inl ⟨closure, rfl⟩
  | error e message => exact Or.inr ⟨e, message, rfl⟩

theorem luaPcall_chunk_above (g : Game W) (h : L.Above (v :: upper) below) :
    (∃ L', luaPcall g L 0 0 0 = some (0, L') ∧ L'.Above upper below) ∨
      ∃ e obj L', luaPcall g L 0 0 0 = some (LuaError.status e, L') ∧
        L'.Above (obj :: upper) below := by
  have room : L.floor ≤ upper.length + below.length := by have := h.2; omega
  rcases hc : g.call L.env none v [] with ⟨env, _ | _⟩
  next results =>
    refine Or.inl ⟨{ L with env := env, stack := upper ++ below }, ?_, rfl, h.2⟩
    simp [luaPcall, h.1, room, hc, CallOutcome.apply]
  next e obj =>
    refine Or.inr ⟨e, obj, { L with env := env, stack := obj :: upper ++ below }, ?_, rfl, h.2⟩
    simp [luaPcall, h.1, room, hc, CallOutcome.apply]

end DriverSF
