import DriverSF.UpvalueByName

namespace DriverSF

variable {W : Type} {g : Game W} {L : LuaState W} {upper below : List Value} {v : Value}

/-- A value at a relative or absolute index, seen from the bottom of the stack. -/
theorem above_of_stackPos {idx : Int} {p : Nat} (valid : stackPos L idx = some p)
    (slot : L.stack[p]? = some v) :
    ∃ front upper below, L.Above (front ++ v :: upper) below ∧
      absindex L idx = slotIndex upper below := by
  obtain ⟨inside, rfl⟩ := List.getElem?_eq_some_iff.mp slot
  have place : p + L.floor + 1 ≤ L.stack.length ∧ absindex L idx = (L.stack.length - p : Nat) := by
    unfold stackPos at valid
    rw [absindex, luaGettop]
    split at valid
    next absolute =>
      cases Option.some.inj valid
      rw [if_neg (by omega)]
      omega
    next =>
      split at valid
      next relative =>
        cases Option.some.inj valid
        rw [if_pos (by omega)]
        omega
      next => simp at valid
  obtain ⟨room, index⟩ := place
  refine ⟨L.stack.take p, (L.stack.drop (p + 1)).take (L.stack.length - (p + 1) - L.floor),
    (L.stack.drop (p + 1)).drop (L.stack.length - (p + 1) - L.floor), ⟨?_, ?_⟩, ?_⟩
  · rw [List.append_assoc, List.cons_append, List.take_append_drop, ← List.drop_eq_getElem_cons,
      List.take_append_drop]
  · simp only [List.length_drop]
    omega
  · rw [index, slotIndex]
    simp only [List.length_take, List.length_drop]
    omega

theorem luaPop_push (h : L.floor ≤ L.stack.length) (v : Value) : luaPop (L.push v) 1 = some L := by
  have room : (-((-1 : Int) - 1 + 1)).toNat + L.floor ≤ (v :: L.stack).length := by
    rw [List.length_cons]
    omega
  rw [luaPop, luaSettop, if_neg (by decide)]
  exact if_pos room

/-- The text of an upvalue that is a string. -/
def upvalueText : Value → Bytes
  | .string s => cstr s
  | _ => []

/-- The loop of the DLL sees the upvalues of the scripts, or nameless ones. -/
theorem auxUpvalue_entry {env : Env W} {ref k : Nat} {name : Bytes}
    (h : auxUpvalue env (some (.function ref)) (k + 1) = some (name, v)) :
    (∃ c, (env.closure ref).entries[k]? = some (name, c) ∧ v = env.cell c) ∨
      (name = [] ∧ (env.closure ref).entries = []) := by
  cases closure : env.closure ref with
  | c upvalue =>
    rw [auxUpvalue] at h
    simp only [closure] at h
    obtain ⟨_, _, same⟩ := Option.map_eq_some_iff.mp h
    exact .inr ⟨(Prod.mk.inj same).1.symm, rfl⟩
  | lua names upvals named =>
    rw [auxUpvalue_lua closure, closure] at h
    obtain ⟨⟨name', c⟩, entry, same⟩ := Option.map_eq_some_iff.mp h
    obtain ⟨rfl, rfl⟩ := Prod.mk.inj same
    exact .inl ⟨c, entry, rfl⟩

theorem entries_past {env : Env W} {ref k : Nat}
    (h : auxUpvalue env (some (.function ref)) (k + 1) = none) :
    (env.closure ref).entries.drop k = [] := by
  rw [List.drop_eq_nil_iff]
  cases closure : env.closure ref with
  | c upvalue => exact Nat.zero_le k
  | lua names upvals named =>
    rw [auxUpvalue_lua closure, Option.map_eq_none_iff, closure] at h
    exact List.getElem?_eq_none_iff.mp h

/-- What the DLL is to read: the text of the first upvalue with the name. -/
def foundText (env : Env W) (ref k : Nat) (n : Bytes) : Bytes :=
  match ((env.closure ref).entries.drop k).find? fun e => cstr e.1 = cstr n with
  | some e => upvalueText (env.cell e.2)
  | none => []

theorem foundText_hit {env : Env W} {ref k : Nat} {name n : Bytes} (named : cstr n ≠ [])
    (h : auxUpvalue env (some (.function ref)) (k + 1) = some (name, v))
    (same : cstr name = cstr n) : foundText env ref k n = upvalueText v := by
  rcases auxUpvalue_entry h with ⟨c, entry, rfl⟩ | ⟨rfl, _⟩
  · obtain ⟨inside, first⟩ := List.getElem?_eq_some_iff.mp entry
    rw [foundText, List.drop_eq_getElem_cons inside, first, List.find?_cons_of_pos (by simpa)]
  · exact absurd same.symm named

theorem foundText_skip {env : Env W} {ref k : Nat} {name n : Bytes}
    (h : auxUpvalue env (some (.function ref)) (k + 1) = some (name, v))
    (other : cstr name ≠ cstr n) : foundText env ref k n = foundText env ref (k + 1) n := by
  rcases auxUpvalue_entry h with ⟨c, entry, rfl⟩ | ⟨_, none⟩
  · obtain ⟨inside, first⟩ := List.getElem?_eq_some_iff.mp entry
    rw [foundText, List.drop_eq_getElem_cons inside, first, List.find?_cons_of_neg (by simpa)]
    rfl
  · simp [foundText, none]

/-- At its end the loop has at most the found value on the stack that it started from. -/
theorem findUpvalueString_eq (g : Game W) {n : Bytes} (named : cstr n ≠ []) {front : List Value}
    {ref rounds k : Nat} (h : L.Above (front ++ .function ref :: upper) below)
    (reached : k ≤ (L.env.closure ref).upvalueCount)
    (enough : (L.env.closure ref).upvalueCount < rounds + k) :
    ∃ pushed, findUpvalueString g (slotIndex upper below) n rounds L (k + 1) =
      some (foundText L.env ref k n, { L with stack := pushed ++ L.stack }) := by
  induction rounds generalizing k with
  | zero => omega
  | succ rounds ih =>
    rcases luaGetupvalue_above front h (k + 1) with ⟨past, got⟩ | ⟨name, val, entry, got⟩
    · refine ⟨[], ?_⟩
      simp [findUpvalueString, got, foundText, entries_past past]
    · have hv := h.push val
      by_cases same : cstr name = cstr n
      · refine ⟨[val], ?_⟩
        rw [foundText_hit named entry same]
        show _ = some (_, L.push val)
        cases val with
        | string s =>
          have read : luaTolstring g (L.push (.string s)) (-1) = some (some s, L.push (.string s)) := by
            simp [luaTolstring, index2adr_top hv]
          simp [findUpvalueString, got, same, luaType_top hv, Value.type, read, upvalueText]
        | _ => simp [findUpvalueString, got, same, luaType_top hv, Value.type, upvalueText]
      · have counted : k + 1 ≤ (L.env.closure ref).upvalueCount := by
          by_contra behind
          rw [auxUpvalue_past_count (by omega)] at entry
          simp at entry
        have room : L.floor ≤ L.stack.length := by
          rw [h.1, h.2, List.length_append]
          omega
        obtain ⟨pushed, rest⟩ := ih counted (by omega)
        refine ⟨pushed, ?_⟩
        rw [foundText_skip entry same, ← rest]
        simp [findUpvalueString, got, same, luaPop_push room]

theorem luaSettop_restore (room : L.floor ≤ L.stack.length) (pushed : List Value) :
    luaSettop { L with stack := pushed ++ L.stack } (luaGettop L) = some L := by
  rw [luaSettop, luaGettop, if_pos (by omega), Int.toNat_natCast]
  simp only [room, if_true, setTop_append]

theorem foundText_start (env : Env W) (ref : Nat) (n : Bytes) :
    foundText env ref 0 n =
      match Utils.getUpvalueByName env (.function ref) (cstr n) with
      | some (.returned (.string s, _)) => cstr s
      | _ => [] := by
  rw [Utils.getUpvalueByName_eq, resolve, foundText, List.drop_zero]
  cases (env.closure ref).entries.find? fun e => cstr e.1 = cstr n with
  | none => rfl
  | some e =>
    show upvalueText (env.cell e.2) = _
    cases value : env.cell e.2 <;> simp [upvalueText, value]

/-- Both readers find the same upvalue, and the one of the DLL returns its text up to the first
NUL if it is a string, with everything on the stack as it was. -/
theorem getUpvalueString_agrees (g : Game W) {idx : Int} {p : Nat}
    (valid : stackPos L idx = some p) (slot : L.stack[p]? = some v) {n : Bytes}
    (named : cstr n ≠ []) :
    getUpvalueString g L idx n =
      some (match Utils.getUpvalueByName L.env v (cstr n) with
        | some (.returned (.string s, _)) => cstr s
        | _ => [], L) := by
  obtain ⟨front, upper, below, h, index⟩ := above_of_stackPos valid slot
  have type := luaType_absolute front h
  rw [getUpvalueString, index]
  by_cases hv : v.type = .function
  · obtain ⟨ref, rfl⟩ : ∃ ref, v = .function ref := by cases v <;> simp_all [Value.type]
    have room : L.floor ≤ L.stack.length := by
      rw [h.1, h.2, List.length_append]
      omega
    have count : upvalueCount L (slotIndex upper below) = (L.env.closure ref).upvalueCount := by
      rw [upvalueCount, index2adr_absolute front h]
    obtain ⟨pushed, found⟩ := findUpvalueString_eq g named h (Nat.zero_le _)
      (Nat.lt_succ_self (L.env.closure ref).upvalueCount)
    simp only [type, Value.type, count, Option.bind_eq_bind, Option.bind_some, ne_eq,
      not_true_eq_false, if_false]
    rw [Nat.add_zero] at found
    rw [← foundText_start, found]
    simp [luaSettop_restore room]
  · have raised : Utils.getUpvalueByName L.env v (cstr n) = some .raised := by
      cases v <;> first | rfl | exact absurd rfl hv
    simp [type, hv, raised]

/-- `clearPauseMenu` on the stack, with the active menu as its second upvalue. -/
def menuState : LuaState Unit where
  addr := 1
  env :=
    { world := ()
      globals := .table 0
      closure := fun _ => .lua [bytes "menus", bytes "activeMenu"] [0, 1] (by decide)
      cell := fun c => if c = 1 then .string (bytes "Main") else .table 1
      vars := idleVars }
  stack := [.function 0]
  floor := 0

theorem getUpvalueString_agrees_activeMenu :
    getUpvalueString idleGame menuState (-1) (bytes "activeMenu") =
      some (bytes "Main", menuState) := by
  have agrees := getUpvalueString_agrees idleGame
    (show stackPos menuState (-1) = some 0 by decide) rfl
    (show cstr (bytes "activeMenu") ≠ [] by decide)
  have found : Utils.getUpvalueByName menuState.env (.function 0) (cstr (bytes "activeMenu")) =
      some (.returned (.string (bytes "Main"), true)) := by decide +kernel
  have text : cstr (bytes "Main") = bytes "Main" := by decide
  rw [agrees, found]
  exact congrArg (fun s => some (s, menuState)) text

end DriverSF
