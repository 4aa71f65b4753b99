import Mathlib.Algebra.Group.Int.Defs
import DriverSF.Prototype

namespace DriverSF

/-- Why the code checker stops: a check returns 0, or it would read outside an array. -/
inductive CheckStop where
  | rejected
  | outside
  deriving DecidableEq, Repr

abbrev Check := Except CheckStop

def check (c : Bool) : Check Unit := if c then .ok () else .error .rejected

def checkWhen (c : Prop) [Decidable c] (checks : Check Unit) : Check Unit :=
  if c then checks else .ok ()

def elementAt {α : Type} (array : List α) (i : Int) : Check α :=
  match array[i.toNat]? with
  | some a => if 0 ≤ i then .ok a else .error .outside
  | none => .error .outside

def maxstack : Nat := 250

def checkreg (pt : Proto) (reg : Int) : Check Unit := check (reg < pt.maxstacksize.toNat)

def precheck (pt : Proto) : Check Unit := do
  check (pt.maxstacksize.toNat ≤ maxstack)
  check (pt.upvalues.length ≤ pt.nups.toNat)
  check (pt.lineinfo.length = pt.code.length || pt.lineinfo.length = 0)
  let i ← elementAt pt.code (pt.code.length - 1)
  check (getOpcode i = some .opReturn)

def luaGCheckopenop (i : Instruction) : Bool :=
  match getOpcode i with
  | some .opCall | some .opTailcall | some .opReturn | some .opSetlist => getArgB i = 0
  | _ => false

def checkopenop (pt : Proto) (pc : Nat) : Check Unit := do
  let i ← elementAt pt.code (pc + 1)
  check (luaGCheckopenop i)

def checkArgMode (pt : Proto) (r : Nat) : OpArgMask → Check Unit
  | .opArgN => check (r = 0)
  | .opArgU => .ok ()
  | .opArgR => checkreg pt r
  | .opArgK =>
    check (if isk r then indexk r < pt.k.length else r < pt.maxstacksize.toNat)

/-- A `SETLIST` whose count is the next word of the code. -/
def isCountedSetlist (i : Instruction) : Bool :=
  getOpcode i = some .opSetlist && getArgC i = 0

/-- A jump must lead into the code, and not to a setlist count. -/
def checkDest (pt : Proto) (dest : Int) : Check Unit := do
  check (0 ≤ dest && dest < pt.code.length)
  checkWhen (0 < dest) do
    let d ← elementAt pt.code (dest - 1)
    check !(isCountedSetlist d)

/-- The operands `b` and `c` of the instruction, after the checks of its format. -/
def checkFormat (pt : Proto) (pc : Nat) (i : Instruction) (op : OpCode) : Check (Int × Int) :=
  match (luaPOpmodes op).mode with
  | .iABC => do
    checkArgMode pt (getArgB i) (luaPOpmodes op).b
    checkArgMode pt (getArgC i) (luaPOpmodes op).c
    return (getArgB i, getArgC i)
  | .iABx => do
    checkWhen ((luaPOpmodes op).b = .opArgK) (check (getArgBx i < pt.k.length))
    return (getArgBx i, 0)
  | .iAsBx => do
    checkWhen ((luaPOpmodes op).b = .opArgR) (checkDest pt (pc + 1 + getArgSBx i))
    return (getArgSBx i, 0)

/-- A test is followed by a jump. -/
def checkTest (pt : Proto) (pc : Nat) (op : OpCode) : Check Unit :=
  checkWhen ((luaPOpmodes op).testT = true) do
    check (pc + 2 < pt.code.length)
    let d ← elementAt pt.code (pc + 1)
    check (getOpcode d = some .opJmp)

/-- The loop of `OP_CLOSURE` over the pseudo-instructions behind it. -/
def checkPseudo (pt : Proto) (pc : Nat) : Nat → Check Unit
  | 0 => .ok ()
  | j + 1 => do
    checkPseudo pt pc j
    let i ← elementAt pt.code (pc + (j + 1))
    check (getOpcode i = some .opGetupval || getOpcode i = some .opMove)

/-- The number of results of a call, which may be open. -/
def checkResults (pt : Proto) (pc a : Nat) (c : Int) : Check Unit :=
  if c = luaMultret then checkopenop pt pc else checkWhen (c ≠ 0) (checkreg pt (a + c - 1))

/-- The switch of `symbexec`: the new `pc`, before it is incremented, and the new `last`. -/
def checkOperation (pt : Proto) (lastpc reg pc last : Nat) (op : OpCode) (a : Nat) (b c : Int) :
    Check (Nat × Nat) :=
  match op with
  | .opLoadbool => do
    check (c = 0 || pc + 2 < pt.code.length)
    return (pc, last)
  | .opLoadnil => .ok (pc, if a ≤ reg ∧ reg ≤ b then pc else last)
  | .opGetupval | .opSetupval => do
    check (b < pt.nups.toNat)
    return (pc, last)
  | .opGetglobal | .opSetglobal => do
    let k ← elementAt pt.k b
    check k.isString
    return (pc, last)
  | .opSelf => do
    checkreg pt (a + 1)
    return (pc, if reg = a + 1 then pc else last)
  | .opConcat => do
    check (b < c)
    return (pc, last)
  | .opTforloop => do
    check (1 ≤ c)
    checkreg pt (a + 2 + c)
    return (pc, if a + 2 ≤ reg then pc else last)
  | .opForloop | .opForprep => do
    checkreg pt (a + 3)
    let dest : Int := pc + 1 + b
    return (if reg ≠ noReg ∧ pc < dest ∧ dest ≤ lastpc then (pc + b).toNat else pc, last)
  | .opJmp =>
    let dest : Int := pc + 1 + b
    -- not full check and jump is forward and do not skip `lastpc'?
    .ok (if reg ≠ noReg ∧ pc < dest ∧ dest ≤ lastpc then (pc + b).toNat else pc, last)
  | .opCall | .opTailcall => do
    checkWhen (b ≠ 0) (checkreg pt (a + b - 1))
    checkResults pt pc a (c - 1)
    return (pc, if a ≤ reg then pc else last)
  | .opReturn => do
    let b := b - 1
    checkWhen (0 < b) (checkreg pt (a + b - 1))
    return (pc, last)
  | .opSetlist => do
    checkWhen (0 < b) (checkreg pt (a + b))
    return (if c = 0 then pc + 1 else pc, last)
  | .opClosure => do
    check (b < pt.p.length)
    let g ← elementAt pt.p b
    let nup := g.nups.toNat
    check (pc + nup < pt.code.length)
    checkPseudo pt pc nup
    return (if reg ≠ noReg then pc + nup else pc, last)
  | .opVararg => do
    check (pt.isVararg &&& varargIsvararg ≠ 0 && pt.isVararg &&& varargNeedsarg = 0)
    let b := b - 1
    checkWhen (b = luaMultret) (checkopenop pt pc)
    checkreg pt (a + b - 1)
    return (pc, last)
  | _ => .ok (pc, last)

/-- The body of the loop of `symbexec`. -/
def symbexecStep (pt : Proto) (lastpc reg pc last : Nat) : Check (Nat × Nat) := do
  let i ← elementAt pt.code pc
  match getOpcode i with
  | none => .error .rejected
  | some op =>
    let a := getArgA i
    checkreg pt a
    let (b, c) ← checkFormat pt pc i op
    let last := if (luaPOpmodes op).testA ∧ a = reg then pc else last
    checkTest pt pc op
    checkOperation pt lastpc reg pc last op a b c

/-- The loop of `symbexec`, with the position of the last instruction that changed `reg`. Since
`pc` grows in each round, as many rounds as instructions are enough. -/
def symbexecLoop (pt : Proto) (lastpc reg : Nat) : Nat → Nat → Nat → Check Nat
  | 0, _, last => .ok last
  | rounds + 1, pc, last =>
    if pc < lastpc then do
      let (pc, last) ← symbexecStep pt lastpc reg pc last
      symbexecLoop pt lastpc reg rounds (pc + 1) last
    else .ok last

/-- `symbexec`; the check that fails returns 0. -/
def symbexec (pt : Proto) (lastpc reg : Nat) : Check Instruction := do
  precheck pt
  let last ← symbexecLoop pt lastpc reg lastpc 0 (pt.code.length - 1)
  elementAt pt.code last

/-- `luaG_checkcode`; `none` where it reads outside an array. -/
def luaGCheckcode (pt : Proto) : Option Bool :=
  match symbexec pt pt.code.length noReg with
  | .ok i => some (i ≠ 0)
  | .error .rejected => some false
  | .error .outside => none

@[simp] theorem check_eq_ok {c : Bool} {u : Unit} : check c = .ok u ↔ c = true := by
  cases c <;> simp [check]

theorem checkWhen_eq_ok {c : Prop} [Decidable c] {checks : Check Unit} {u : Unit} :
    checkWhen c checks = .ok u ↔ (c → checks = .ok ()) := by
  by_cases h : c <;> simp [checkWhen, h]

@[simp] theorem elementAt_natCast {α : Type} {array : List α} {n : Nat} {a : α} :
    elementAt array n = .ok a ↔ array[n]? = some a := by
  cases found : array[n]? <;> simp [elementAt, found]

section Checks

variable {pt : Proto}

theorem checkreg_eq_ok {reg : Int} {u : Unit} :
    checkreg pt reg = .ok u ↔ reg < pt.maxstacksize.toNat := by
  simp [checkreg]

/-- The format checks cover the operands of the instruction. -/
theorem checkFormat_iABC {pc : Nat} {i : Instruction} {op : OpCode} {b c : Int}
    (mode : (luaPOpmodes op).mode = .iABC) (h : checkFormat pt pc i op = .ok (b, c)) :
    b = getArgB i ∧ c = getArgC i ∧ checkArgMode pt (getArgB i) (luaPOpmodes op).b = .ok () ∧
      checkArgMode pt (getArgC i) (luaPOpmodes op).c = .ok () := by
  simp only [checkFormat, mode] at h
  obtain ⟨_, first, h⟩ := bind_eq_ok_iff.mp h
  obtain ⟨_, second, h⟩ := bind_eq_ok_iff.mp h
  obtain ⟨rfl, rfl⟩ := Prod.mk.inj (Except.ok.inj h)
  exact ⟨rfl, rfl, first, second⟩

theorem checkFormat_iABx {pc : Nat} {i : Instruction} {op : OpCode} {b c : Int}
    (mode : (luaPOpmodes op).mode = .iABx) (h : checkFormat pt pc i op = .ok (b, c)) :
    b = getArgBx i ∧ ((luaPOpmodes op).b = .opArgK → getArgBx i < pt.k.length) := by
  simp only [checkFormat, mode] at h
  obtain ⟨_, inside, h⟩ := bind_eq_ok_iff.mp h
  obtain ⟨rfl, rfl⟩ := Prod.mk.inj (Except.ok.inj h)
  refine ⟨rfl, fun constant => ?_⟩
  simpa using checkWhen_eq_ok.mp inside constant

theorem getOpcode_last (h : precheck pt = .ok ()) :
    ∃ i, pt.code[pt.code.length - 1]? = some i ∧ getOpcode i = some .opReturn := by
  obtain ⟨_, _, h⟩ := bind_eq_ok_iff.mp h
  obtain ⟨_, _, h⟩ := bind_eq_ok_iff.mp h
  obtain ⟨_, _, h⟩ := bind_eq_ok_iff.mp h
  obtain ⟨i, found, h⟩ := bind_eq_ok_iff.mp h
  by_cases empty : pt.code.length = 0
  · simp [elementAt, List.length_eq_zero_iff.mp empty] at found
  · have place : ((pt.code.length : Int) - 1) = ((pt.code.length - 1 : Nat) : Int) := by omega
    rw [place, elementAt_natCast] at found
    exact ⟨i, found, by simpa using h⟩

theorem return_or_follows (h : precheck pt = .ok ()) {pc : Nat} {i : Instruction} {op : OpCode}
    (fetch : pt.code[pc]? = some i) (decode : getOpcode i = some op) :
    op = .opReturn ∨ pc + 1 < pt.code.length := by
  obtain ⟨d, last, isReturn⟩ := getOpcode_last h
  have inside := (List.getElem?_eq_some_iff.mp fetch).1
  by_cases final : pc + 1 < pt.code.length
  · exact Or.inr final
  · obtain rfl : pc = pt.code.length - 1 := by omega
    rw [last] at fetch
    obtain rfl := Option.some.inj fetch
    exact Or.inl (Option.some.inj (decode.symm.trans isReturn))

/-- A position is only moved forward, and in a full check only by `SETLIST`; the last change is
the one before or this one. -/
theorem checkOperation_moves {lastpc reg pc last a : Nat} {op : OpCode} {b c : Int} {x : Nat × Nat}
    (h : checkOperation pt lastpc reg pc last op a b c = .ok x) :
    pc ≤ x.1 ∧ (x.2 = last ∨ x.2 = pc) ∧ (reg = noReg → op ≠ .opSetlist → x.1 = pc) := by
  cases op with
  | opLoadbool | opGetupval | opSetupval | opConcat | opReturn =>
    obtain ⟨_, _, h⟩ := bind_eq_ok_iff.mp h
    obtain rfl := Except.ok.inj h
    exact ⟨Nat.le_refl pc, Or.inl rfl, fun _ _ => rfl⟩
  | opGetglobal | opSetglobal =>
    obtain ⟨_, _, h⟩ := bind_eq_ok_iff.mp h
    obtain ⟨_, _, h⟩ := bind_eq_ok_iff.mp h
    obtain rfl := Except.ok.inj h
    exact ⟨Nat.le_refl pc, Or.inl rfl, fun _ _ => rfl⟩
  | opVararg =>
    obtain ⟨_, _, h⟩ := bind_eq_ok_iff.mp h
    obtain ⟨_, _, h⟩ := bind_eq_ok_iff.mp h
    obtain ⟨_, _, h⟩ := bind_eq_ok_iff.mp h
    obtain rfl := Except.ok.inj h
    exact ⟨Nat.le_refl pc, Or.inl rfl, fun _ _ => rfl⟩
  | opLoadnil =>
    obtain rfl := Except.ok.inj h
    exact ⟨Nat.le_refl pc, (ite_eq_or_eq _ _ _).symm, fun _ _ => rfl⟩
  | opSelf =>
    obtain ⟨_, _, h⟩ := bind_eq_ok_iff.mp h
    obtain rfl := Except.ok.inj h
    exact ⟨Nat.le_refl pc, (ite_eq_or_eq _ _ _).symm, fun _ _ => rfl⟩
  | opTforloop | opCall | opTailcall =>
    obtain ⟨_, _, h⟩ := bind_eq_ok_iff.mp h
    obtain ⟨_, _, h⟩ := bind_eq_ok_iff.mp h
    obtain rfl := Except.ok.inj h
    exact ⟨Nat.le_refl pc, (ite_eq_or_eq _ _ _).symm, fun _ _ => rfl⟩
  | opForloop | opForprep =>
    obtain ⟨_, _, h⟩ := bind_eq_ok_iff.mp h
    obtain rfl := Except.ok.inj h
    refine ⟨?_, Or.inl rfl, fun full _ => by simp [full]⟩
    dsimp only
    split <;> omega
  | opJmp =>
    obtain rfl := Except.ok.inj h
    refine ⟨?_, Or.inl rfl, fun full _ => by simp [full]⟩
    dsimp only
    split <;> omega
  | opSetlist =>
    obtain ⟨_, _, h⟩ := bind_eq_ok_iff.mp h
    obtain rfl := Except.ok.inj h
    refine ⟨?_, Or.inl rfl, fun _ other => absurd rfl other⟩
    dsimp only
    split <;> omega
  | opClosure =>
    obtain ⟨_, _, h⟩ := bind_eq_ok_iff.mp h
    obtain ⟨_, _, h⟩ := bind_eq_ok_iff.mp h
    obtain ⟨_, _, h⟩ := bind_eq_ok_iff.mp h
    obtain ⟨_, _, h⟩ := bind_eq_ok_iff.mp h
    obtain rfl := Except.ok.inj h
    refine ⟨?_, Or.inl rfl, fun full _ => by simp [full]⟩
    dsimp only
    split <;> omega
  | _ =>
    obtain rfl := Except.ok.inj h
    exact ⟨Nat.le_refl pc, Or.inl rfl, fun _ _ => rfl⟩

end Checks

/-- What holds where the body of the loop does not stop. -/
theorem symbexecStep_ok {pt : Proto} {lastpc reg pc last : Nat} {x : Nat × Nat}
    (h : symbexecStep pt lastpc reg pc last = .ok x) :
    ∃ i op b c last', pt.code[pc]? = some i ∧ getOpcode i = some op ∧
      getArgA i < pt.maxstacksize.toNat ∧ checkFormat pt pc i op = .ok (b, c) ∧
      checkTest pt pc op = .ok () ∧
      checkOperation pt lastpc reg pc last' op (getArgA i) b c = .ok x ∧
      (last' = last ∨ last' = pc) := by
  obtain ⟨i, fetch, h⟩ := bind_eq_ok_iff.mp h
  cases decode : getOpcode i with
  | none => simp [decode] at h
  | some op =>
    rw [decode] at h
    obtain ⟨_, register, h⟩ := bind_eq_ok_iff.mp h
    obtain ⟨⟨b, c⟩, format, h⟩ := bind_eq_ok_iff.mp h
    obtain ⟨_, test, operation⟩ := bind_eq_ok_iff.mp h
    exact ⟨i, op, b, c, _, elementAt_natCast.mp fetch, decode, by simpa [checkreg] using register,
      format, test, operation, (ite_eq_or_eq _ _ _).symm⟩

section Inside

variable {α β : Type} {pt : Proto}

/-- The check may fail, but it reads inside the arrays. -/
def Inside (x : Check α) : Prop := x ≠ .error .outside

theorem inside_ok (a : α) : Inside (.ok a : Check α) := fun h => nomatch h

theorem inside_check (c : Bool) : Inside (check c) := by
  cases c <;> exact fun h => nomatch h

theorem Inside.bind {x : Check α} {f : α → Check β} (hx : Inside x)
    (hf : ∀ a, x = .ok a → Inside (f a)) : Inside (x >>= f) := by
  cases x with
  | ok a => exact hf a rfl
  | error e => exact fun h => hx (congrArg Except.error (Except.error.inj h))

theorem inside_checkWhen {c : Prop} [Decidable c] {checks : Check Unit}
    (h : c → Inside checks) : Inside (checkWhen c checks) := by
  unfold checkWhen
  split
  next hc => exact h hc
  next => exact inside_ok ()

theorem inside_elementAt {array : List α} {i : Int} (low : 0 ≤ i) (high : i < array.length) :
    Inside (elementAt array i) := by
  have found := List.getElem?_eq_getElem (l := array) (i := i.toNat) (by omega)
  rw [elementAt, found]
  simp [low, Inside]

theorem inside_checkArgMode (pt : Proto) (r : Nat) (mode : OpArgMask) :
    Inside (checkArgMode pt r mode) := by
  cases mode with
  | opArgU => exact inside_ok ()
  | _ => exact inside_check _

theorem inside_checkDest (pt : Proto) (dest : Int) : Inside (checkDest pt dest) := by
  refine (inside_check _).bind fun _ range => ?_
  simp only [check_eq_ok, Bool.and_eq_true, decide_eq_true_eq] at range
  refine inside_checkWhen fun positive => ?_
  exact (inside_elementAt (by omega) (by omega)).bind fun _ _ => inside_check _

theorem inside_checkFormat (pt : Proto) (pc : Nat) (i : Instruction) (op : OpCode) :
    Inside (checkFormat pt pc i op) := by
  unfold checkFormat
  split
  · exact (inside_checkArgMode _ _ _).bind fun _ _ =>
      (inside_checkArgMode _ _ _).bind fun _ _ => inside_ok _
  · exact (inside_checkWhen fun _ => inside_check _).bind fun _ _ => inside_ok _
  · exact (inside_checkWhen fun _ => inside_checkDest _ _).bind fun _ _ => inside_ok _

theorem inside_checkTest (pt : Proto) (pc : Nat) (op : OpCode) : Inside (checkTest pt pc op) := by
  refine inside_checkWhen fun _ => (inside_check _).bind fun _ room => ?_
  have room : pc + 2 < pt.code.length := by simpa using room
  exact (inside_elementAt (by omega) (by omega)).bind fun _ _ => inside_check _

theorem inside_checkPseudo {pc nup : Nat} (room : pc + nup < pt.code.length) :
    Inside (checkPseudo pt pc nup) := by
  induction nup with
  | zero => exact inside_ok ()
  | succ nup ih =>
    refine (ih (by omega)).bind fun _ _ => ?_
    exact (inside_elementAt (by omega) (by omega)).bind fun _ _ => inside_check _

theorem inside_checkopenop {pc : Nat} (room : pc + 1 < pt.code.length) :
    Inside (checkopenop pt pc) :=
  (inside_elementAt (by omega) (by omega)).bind fun _ _ => inside_check _

theorem inside_checkResults {pc : Nat} (room : pc + 1 < pt.code.length) (a : Nat) (c : Int) :
    Inside (checkResults pt pc a c) := by
  unfold checkResults
  split
  · exact inside_checkopenop room
  · exact inside_checkWhen fun _ => inside_check _

theorem inside_checkOperation {lastpc reg pc last a : Nat} {i : Instruction} {op : OpCode}
    {b c : Int} (follows : op = .opReturn ∨ pc + 1 < pt.code.length)
    (format : checkFormat pt pc i op = .ok (b, c)) :
    Inside (checkOperation pt lastpc reg pc last op a b c) := by
  cases op with
  | opLoadbool | opGetupval | opSetupval | opSelf | opConcat | opForloop | opForprep =>
    exact (inside_check _).bind fun _ _ => inside_ok _
  | opTforloop => exact (inside_check _).bind fun _ _ => (inside_check _).bind fun _ _ => inside_ok _
  | opReturn | opSetlist =>
    exact (inside_checkWhen fun _ => inside_check _).bind fun _ _ => inside_ok _
  | opGetglobal | opSetglobal =>
    obtain ⟨rfl, range⟩ := checkFormat_iABx rfl format
    have range := range rfl
    exact (inside_elementAt (by omega) (by omega)).bind fun _ _ =>
      (inside_check _).bind fun _ _ => inside_ok _
  | opCall | opTailcall =>
    have room := follows.resolve_left OpCode.noConfusion
    exact (inside_checkWhen fun _ => inside_check _).bind fun _ _ =>
      (inside_checkResults room _ _).bind fun _ _ => inside_ok _
  | opClosure =>
    obtain ⟨rfl, _⟩ := checkFormat_iABx rfl format
    refine (inside_check _).bind fun _ range => ?_
    have range : getArgBx i < pt.p.length := by simpa using range
    refine (inside_elementAt (by omega) (by omega)).bind fun _ _ => ?_
    refine (inside_check _).bind fun _ room => ?_
    exact (inside_checkPseudo (by simpa using room)).bind fun _ _ => inside_ok _
  | opVararg =>
    have room := follows.resolve_left OpCode.noConfusion
    exact (inside_check _).bind fun _ _ => (inside_checkWhen fun _ => inside_checkopenop room).bind
      fun _ _ => (inside_check _).bind fun _ _ => inside_ok _
  | _ => exact inside_ok _

theorem inside_symbexecStep {lastpc reg pc last : Nat} (pre : precheck pt = .ok ())
    (inside : pc < pt.code.length) : Inside (symbexecStep pt lastpc reg pc last) := by
  refine (inside_elementAt (by omega) (by omega)).bind fun i fetch => ?_
  rw [elementAt_natCast] at fetch
  cases decode : getOpcode i with
  | none => exact fun h => nomatch h
  | some op =>
    refine (inside_check _).bind fun _ _ => ?_
    refine (inside_checkFormat _ _ _ _).bind fun (b, c) format => ?_
    refine (inside_checkTest _ _ _).bind fun _ _ => ?_
    exact inside_checkOperation (return_or_follows pre fetch decode) format

theorem inside_symbexecLoop {lastpc reg rounds pc last : Nat} (pre : precheck pt = .ok ())
    (inside : lastpc ≤ pt.code.length) : Inside (symbexecLoop pt lastpc reg rounds pc last) := by
  induction rounds generalizing pc last with
  | zero => exact inside_ok _
  | succ rounds ih =>
    rw [symbexecLoop]
    split
    next more => exact (inside_symbexecStep pre (by omega)).bind fun _ _ => ih
    next => exact inside_ok _

end Inside

/-- The last change is at a position before `lastpc`, or the one that the loop began with. -/
theorem lt_of_symbexecLoop {pt : Proto} {lastpc reg rounds pc last r n : Nat}
    (h : symbexecLoop pt lastpc reg rounds pc last = .ok r) (before : last < n)
    (inside : lastpc ≤ n) : r < n := by
  induction rounds generalizing pc last with
  | zero =>
    obtain rfl := Except.ok.inj h
    exact before
  | succ rounds ih =>
    rw [symbexecLoop] at h
    split at h
    next more =>
      obtain ⟨x, step, h⟩ := bind_eq_ok_iff.mp h
      obtain ⟨i, op, b, c, last', _, _, _, _, _, operation, changed⟩ := symbexecStep_ok step
      obtain ⟨_, changed', _⟩ := checkOperation_moves operation
      refine ih h ?_
      rcases changed' with same | here
      · rcases changed with same' | here
        · omega
        · omega
      · omega
    next =>
      obtain rfl := Except.ok.inj h
      exact before

/-- A function without code is the only one for which the checker reads outside an array: if
nothing rejects it before, it reads the word before its code. -/
theorem checkcode_eq_none_iff {pt : Proto} : luaGCheckcode pt = none ↔
    pt.code = [] ∧ pt.maxstacksize.toNat ≤ maxstack ∧ pt.upvalues.length ≤ pt.nups.toNat ∧
      pt.lineinfo = [] := by
  have stops : luaGCheckcode pt = none ↔ ¬ Inside (symbexec pt pt.code.length noReg) := by
    unfold luaGCheckcode Inside
    split <;> simp_all
  rw [stops]
  by_cases empty : pt.code = []
  · have read : elementAt ([] : List Instruction) (-1) = .error .outside := rfl
    by_cases stack : pt.maxstacksize.toNat ≤ maxstack
    · by_cases upvalues : pt.upvalues.length ≤ pt.nups.toNat
      · by_cases lines : pt.lineinfo = []
        · simp [Inside, symbexec, precheck, check, read, stack, upvalues, lines, empty, bind,
            Except.bind]
        · simp [Inside, symbexec, precheck, check, stack, upvalues, lines, empty, bind, Except.bind]
      · simp [Inside, symbexec, precheck, check, stack, upvalues, bind, Except.bind]
    · simp [Inside, symbexec, precheck, check, stack, bind, Except.bind]
  · have inside : Inside (symbexec pt pt.code.length noReg) := by
      have some_code := List.length_pos_iff.mpr empty
      have pre : Inside (precheck pt) := by
        refine (inside_check _).bind fun _ _ => (inside_check _).bind fun _ _ => ?_
        refine (inside_check _).bind fun _ _ => ?_
        exact (inside_elementAt (by omega) (by omega)).bind fun _ _ => inside_check _
      refine pre.bind fun _ passed => ?_
      refine (inside_symbexecLoop passed (Nat.le_refl _)).bind fun last loop => ?_
      have range := lt_of_symbexecLoop loop (Nat.sub_lt some_code Nat.one_pos) (Nat.le_refl _)
      exact inside_elementAt (by omega) (by omega)
    simp [inside, empty]

end DriverSF
