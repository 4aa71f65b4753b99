import DriverSF.LuaStackFloor

namespace DriverSF

variable {W : Type} {g : Game W} {L : LuaState W} {upper below : List Value} {v : Value}

def LuaState.modifyVars (L : LuaState W) (f : Vars → Vars) : LuaState W :=
  { L with env := { L.env with vars := f L.env.vars } }

theorem LuaState.Above.modifyVars (h : L.Above upper below) (f : Vars → Vars) :
    (L.modifyVars f).Above upper below := h

def loggerDll (L : LuaState W) (context message : Bytes) : LuaState W :=
  L.modifyVars fun vars => { vars with console := vars.console.dll context message }

theorem LuaState.Above.loggerDll (h : L.Above upper below) (context message : Bytes) :
    (loggerDll L context message).Above upper below := h

def absindex (L : LuaState W) (index : Int) : Int :=
  if index < 0 ∧ index > luaRegistryindex then index + (luaGettop L + 1) else index

theorem absindex_top (h : L.Above (v :: upper) below) :
    absindex L (-1) = slotIndex upper below := by
  rw [absindex, if_pos (by simp [luaRegistryindex]), luaGettop_above h]
  simp only [slotIndex, List.length_cons]
  omega

theorem absindex_globals : absindex L luaGlobalsindex = luaGlobalsindex := by
  rw [absindex, if_neg (by simp [luaGlobalsindex, luaRegistryindex])]

def checkLuaStatus (g : Game W) (L : LuaState W) (status : Int) (contextInfo : Bytes) :
    Option (Bool × LuaState W) :=
  if status ≠ 0 then do
    let (errorMsg, L) ← luaTolstring g L (-1)
    let message := bytes "Lua Error [" ++ contextInfo ++ bytes "]: " ++
      (errorMsg.map cstr).getD (bytes "Unknown")
    let L ← luaPop (loggerDll L (bytes "LuaStatus") message) 1
    return (false, L)
  else
    return (true, L)

theorem checkLuaStatus_error_above (g : Game W) (h : L.Above (v :: upper) below) (e : LuaError)
    (contextInfo : Bytes) :
    ∃ L', checkLuaStatus g L e.status contextInfo = some (false, L') ∧ L'.Above upper below := by
  obtain ⟨s, v', L1, hs, h1⟩ := luaTolstring_above g h
  obtain ⟨L2, hp, h2, _⟩ := luaPop_above (h1.loggerDll (bytes "LuaStatus")
    (bytes "Lua Error [" ++ contextInfo ++ bytes "]: " ++ (s.map cstr).getD (bytes "Unknown")))
  refine ⟨L2, ?_, h2⟩
  rw [checkLuaStatus, if_pos e.status_ne_zero]
  simp only [hs, Option.bind_eq_bind, Option.bind_some, hp]
  rfl

theorem checkLuaStatus_ok (g : Game W) (L : LuaState W) (contextInfo : Bytes) :
    checkLuaStatus g L 0 contextInfo = some (true, L) := rfl

def setCfunctionInTable (g : Game W) (L : LuaState W) (tableIndex : Int) (fieldName : Bytes)
    (func : CFunction) : Option (LuaState W) :=
  let index := absindex L tableIndex
  luaSetfield g (luaPushcclosure g L func) index fieldName

theorem setCfunctionInTable_globals_above (g : Game W) (h : L.Above upper below)
    (fieldName : Bytes) (func : CFunction) :
    ∃ L', setCfunctionInTable g L luaGlobalsindex fieldName func = some L' ∧
      L'.Above upper below := by
  obtain ⟨f, hf⟩ := luaPushcclosure_above g h func
  obtain ⟨L', hs, ha⟩ := luaSetfield_above g hf index2adr_globals fieldName
  exact ⟨L', by simp [setCfunctionInTable, absindex_globals, hs], ha⟩

theorem setCfunctionInTable_top_above (g : Game W) (h : L.Above (v :: upper) below)
    (fieldName : Bytes) (func : CFunction) :
    ∃ L', setCfunctionInTable g L (-1) fieldName func = some L' ∧
      L'.Above (v :: upper) below := by
  obtain ⟨f, hf⟩ := luaPushcclosure_above g h func
  have ht := index2adr_absolute [f] hf
  obtain ⟨L', hs, ha⟩ := luaSetfield_above g hf ht fieldName
  refine ⟨L', ?_, ha⟩
  rw [setCfunctionInTable, absindex_top h]
  exact hs

def Closure.upvalueCount : Closure → Nat
  | .lua names _ _ => names.length
  | .c upvalue => upvalue.length

/-- No upvalue is numbered past the count, so a search by increasing number ends. -/
theorem auxUpvalue_past_count {env : Env W} {ref n : Nat}
    (h : (env.closure ref).upvalueCount < n) : auxUpvalue env (some (.function ref)) n = none := by
  obtain ⟨m, rfl⟩ := Nat.exists_eq_succ_of_ne_zero (show n ≠ 0 by omega)
  cases hc : env.closure ref with
  | lua names upvals named =>
    have out : names.length ≤ m := by simp only [hc, Closure.upvalueCount] at h; omega
    simp [auxUpvalue, hc, List.getElem?_eq_none out]
  | c upvalue =>
    have out : upvalue.length ≤ m := by simp only [hc, Closure.upvalueCount] at h; omega
    simp [auxUpvalue, hc, List.getElem?_eq_none out]

def upvalueCount (L : LuaState W) (index : Int) : Nat :=
  match index2adr L index with
  | some (some (.function ref)) => (L.env.closure ref).upvalueCount
  | _ => 0

/-- The search loop of `get_upvalue_string` from upvalue `i` on, with a bound on its rounds. -/
def findUpvalueString (g : Game W) (index : Int) (upvalueName : Bytes) :
    Nat → LuaState W → Nat → Option (Bytes × LuaState W)
  | 0, _, _ => none
  | rounds + 1, L, i => do
    match ← luaGetupvalue L index i with
    | (none, L) => return ([], L)
    | (some currentName, L) =>
      if cstr currentName = cstr upvalueName then
        if (← luaType L (-1)) = .string then
          let (str, L) ← luaTolstring g L (-1)
          return ((str.map cstr).getD [], L)
        else
          return ([], L)
      else
        let L ← luaPop L 1
        findUpvalueString g index upvalueName rounds L (i + 1)

def getUpvalueString (g : Game W) (L : LuaState W) (funcIndex : Int) (upvalueName : Bytes) :
    Option (Bytes × LuaState W) := do
  let index := absindex L funcIndex
  if (← luaType L index) ≠ .function then
    return ([], L)
  else
    let originalTop := luaGettop L
    let (result, L) ← findUpvalueString g index upvalueName (upvalueCount L index + 1) L 1
    let L ← luaSettop L originalTop
    return (result, L)

theorem luaGetupvalue_above (pushed : List Value) {ref : Nat}
    (h : L.Above (pushed ++ .function ref :: upper) below) (n : Nat) :
    (auxUpvalue L.env (some (.function ref)) n = none ∧
      luaGetupvalue L (slotIndex upper below) n = some (none, L)) ∨
    ∃ name val, auxUpvalue L.env (some (.function ref)) n = some (name, val) ∧
      luaGetupvalue L (slotIndex upper below) n =
        some (some name, L.push val) := by
  cases ha : auxUpvalue L.env (some (.function ref)) n with
  | none =>
    refine Or.inl ⟨rfl, ?_⟩
    rw [luaGetupvalue, index2adr_absolute pushed h]
    simp [ha]
  | some entry =>
    obtain ⟨name, val⟩ := entry
    refine Or.inr ⟨name, val, rfl, ?_⟩
    rw [luaGetupvalue, index2adr_absolute pushed h]
    simp [ha]

/-- Every exit of the search leaves the stack it started from, with at most the found
value on top. -/
theorem findUpvalueString_above (g : Game W) (upvalueName : Bytes) {ref : Nat} (rounds : Nat)
    {i : Nat} (h : L.Above (.function ref :: upper) below)
    (hi : i ≤ (L.env.closure ref).upvalueCount + 1)
    (hr : (L.env.closure ref).upvalueCount + 1 < rounds + i) :
    ∃ s pushed L', findUpvalueString g (slotIndex upper below) upvalueName
        rounds L i = some (s, L') ∧ L'.Above (pushed ++ .function ref :: upper) below := by
  induction rounds generalizing L i with
  | zero => omega
  | succ rounds ih =>
    rcases luaGetupvalue_above [] h i with ⟨_, hg⟩ | ⟨name, val, ha, hg⟩
    · exact ⟨[], [], L, by simp [findUpvalueString, hg], h⟩
    · have bound : i ≤ (L.env.closure ref).upvalueCount := by
        by_contra past
        rw [auxUpvalue_past_count (show (L.env.closure ref).upvalueCount < i by omega)] at ha
        simp at ha
      have hv := h.push val
      by_cases hn : cstr name = cstr upvalueName
      · by_cases ht : val.type = .string
        · obtain ⟨s, v', L', hs, ha'⟩ := luaTolstring_above g hv
          refine ⟨(s.map cstr).getD [], [v'], L', ?_, ha'⟩
          simp [findUpvalueString, hg, hn, luaType_top hv, ht, hs]
        · refine ⟨[], [val], L.push val, ?_, hv⟩
          simp [findUpvalueString, hg, hn, luaType_top hv, ht]
      · obtain ⟨L1, hp, h1, henv⟩ := luaPop_above hv
        have count : (L1.env.closure ref).upvalueCount = (L.env.closure ref).upvalueCount := by
          rw [henv]
          rfl
        obtain ⟨s, pushed, L', hf, ha'⟩ := ih h1 (i := i + 1) (by omega) (by omega)
        refine ⟨s, pushed, L', ?_, ha'⟩
        simp [findUpvalueString, hg, hn, hp, hf]

theorem getUpvalueString_top_above (g : Game W) (h : L.Above (v :: upper) below)
    (upvalueName : Bytes) :
    ∃ s L', getUpvalueString g L (-1) upvalueName = some (s, L') ∧ L'.Above (v :: upper) below := by
  have ht := luaType_absolute [] h
  by_cases hv : v.type = .function
  · obtain ⟨ref, rfl⟩ : ∃ ref, v = .function ref := by cases v <;> simp_all [Value.type]
    have hc : upvalueCount L (slotIndex upper below) =
        (L.env.closure ref).upvalueCount := by
      rw [upvalueCount, index2adr_absolute [] h]
    obtain ⟨s, pushed, L1, hf, h1⟩ := findUpvalueString_above g upvalueName
      ((L.env.closure ref).upvalueCount + 1) h (i := 1) (by omega) (by omega)
    obtain ⟨L2, hs, h2⟩ := luaSettop_above h1
    refine ⟨s, L2, ?_, h2⟩
    have top := luaGettop_above h
    rw [getUpvalueString, absindex_top h]
    simp only [ht, hv, hc, top, hf, hs, Option.bind_eq_bind, Option.bind_some, ne_eq,
      not_true_eq_false, if_false]
    rfl
  · refine ⟨[], L, ?_, h⟩
    rw [getUpvalueString, absindex_top h]
    simp [ht, hv]

end DriverSF
