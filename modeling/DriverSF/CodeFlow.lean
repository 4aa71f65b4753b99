import Mathlib.Logic.Relation
import DriverSF.CodeCheck

namespace DriverSF

/-- What `luaV_execute` touches for an instruction: a register of the frame, a slot above it that
the call of an iterator uses, a constant, a constant that has to be a string, an upvalue, a nested
function, or a further word of the code. -/
inductive Access where
  | register (r : Nat)
  | callSlot (r : Nat)
  | constant (k : Nat)
  | key (k : Nat)
  | upvalue (u : Nat)
  | nested (n : Nat)
  | word (n : Nat)
  deriving DecidableEq, Repr

/-- Slots that every stack has above its limit. -/
def extraStack : Nat := 5

def Access.InRange (pt : Proto) : Access → Prop
  | .register r => r < pt.maxstacksize.toNat
  | .callSlot r => r < pt.maxstacksize.toNat + extraStack
  | .constant k => k < pt.k.length
  | .key k => ∃ s, pt.k[k]? = some (.string s)
  | .upvalue u => u < pt.nups.toNat
  | .nested n => n < pt.p.length
  | .word n => n < pt.code.length

/-- `RKB` and `RKC`. -/
def rkAccess (x : Nat) : Access := if isk x then .constant (indexk x) else .register x

/-- The registers from `first` to before `past`. -/
def registers (first past : Nat) : List Access := (List.range' first (past - first)).map .register

/-- What `OP_CLOSURE` reads for the upvalue that is described by a word behind it. -/
def pseudoAccess (pt : Proto) (n : Nat) : List Access :=
  .word n :: match pt.code[n]? with
    | none => []
    | some i =>
      if getOpcode i = some .opGetupval then [.upvalue (getArgB i)] else [.register (getArgB i)]

/-- The accesses of an instruction; of an open one only those before the top of the stack. -/
def accesses (pt : Proto) (pc : Nat) (i : Instruction) (op : OpCode) : List Access :=
  let a := getArgA i
  let b := getArgB i
  let c := getArgC i
  match op with
  | .opMove | .opUnm | .opNot | .opLen | .opTestset => [.register a, .register b]
  | .opLoadk => [.register a, .constant (getArgBx i)]
  | .opLoadbool | .opNewtable | .opTest | .opClose => [.register a]
  | .opLoadnil => .register b :: registers a (b + 1)
  | .opGetupval | .opSetupval => [.register a, .upvalue b]
  | .opGetglobal | .opSetglobal => [.register a, .key (getArgBx i)]
  | .opGettable => [.register a, .register b, rkAccess c]
  | .opSettable => [.register a, rkAccess b, rkAccess c]
  | .opSelf => [.register a, .register (a + 1), .register b, rkAccess c]
  | .opAdd | .opSub | .opMul | .opDiv | .opMod | .opPow => [.register a, rkAccess b, rkAccess c]
  | .opConcat => .register a :: registers b (c + 1)
  | .opJmp => []
  | .opEq | .opLt | .opLe => [rkAccess b, rkAccess c, .word (pc + 1)]
  | .opCall => .register a :: (registers a (a + b) ++ registers a (a + (c - 1)))
  | .opTailcall => .register a :: registers a (a + b)
  | .opReturn => registers a (a + (b - 1))
  | .opForloop => registers a (a + 4)
  | .opForprep => registers a (a + 3)
  | .opTforloop =>
    registers a (a + 3) ++ registers (a + 3) (a + 3 + c) ++
      [.callSlot (a + 3), .callSlot (a + 4), .callSlot (a + 5), .word (pc + 1)]
  | .opSetlist => registers a (a + b + 1) ++ if c = 0 then [.word (pc + 1)] else []
  | .opClosure =>
    .register a :: .nested (getArgBx i) :: match pt.p[getArgBx i]? with
      | none => []
      | some g => (List.range' (pc + 1) g.nups.toNat).flatMap (pseudoAccess pt)
  | .opVararg => registers a (a + (b - 1))

/-- Where `luaV_execute` may go on in the same frame. -/
def nexts (pt : Proto) (pc : Nat) (i : Instruction) (op : OpCode) : List Int :=
  match op with
  | .opLoadbool => [if getArgC i ≠ 0 then pc + 2 else pc + 1]
  | .opJmp | .opForprep => [pc + 1 + getArgSBx i]
  | .opForloop => [pc + 1, pc + 1 + getArgSBx i]
  | .opEq | .opLt | .opLe | .opTest | .opTestset | .opTforloop =>
    match pt.code[pc + 1]? with
    | none => [pc + 2]
    | some d => [pc + 2, pc + 1 + getArgSBx d + 1]
  | .opReturn => []
  | .opSetlist => [if getArgC i = 0 then pc + 2 else pc + 1]
  | .opClosure =>
    match pt.p[getArgBx i]? with
    | none => [pc + 1]
    | some g => [pc + g.nups.toNat + 1]
  | _ => [pc + 1]

/-- The positions that any run of the function may reach in its frame. -/
inductive Reached (pt : Proto) : Int → Prop
  | entry : Reached pt 0
  | step {pc : Nat} {i : Instruction} {op : OpCode} {next : Int} (from_ : Reached pt pc)
    (fetch : pt.code[pc]? = some i) (decode : getOpcode i = some op)
    (goes : next ∈ nexts pt pc i op) : Reached pt next

/-- An instruction whose results end at the top of the stack. -/
def leavesOpen (i : Instruction) : OpCode → Bool
  | .opCall | .opTailcall => getArgC i = 0
  | .opVararg => getArgB i = 0
  | _ => false

/-- The position behind an instruction and its count. -/
def scanNext (pt : Proto) (pc : Nat) : Nat :=
  if pt.code[pc]?.any isCountedSetlist then pc + 2 else pc + 1

/-- The positions of the instructions, as the code is read from its start. The other words are the
counts of `SETLIST`. -/
def Scanned (pt : Proto) : Nat → Prop :=
  Relation.ReflTransGen (fun pc pc' => pc < pt.code.length ∧ pc' = scanNext pt pc) 0

/-- An instruction is at the position, whose operands are all in range, and if it leaves the top
of the stack open, then the next one uses that. -/
structure WellPlaced (pt : Proto) (pc : Int) (n : Nat) (i : Instruction) (op : OpCode) : Prop where
  position : pc = n
  fetch : pt.code[n]? = some i
  scanned : Scanned pt n
  decode : getOpcode i = some op
  inRange : ∀ x ∈ accesses pt n i op, x.InRange pt
  opened : leavesOpen i op = true → ∃ d, pt.code[n + 1]? = some d ∧ luaGCheckopenop d = true

/-- What the checker misses: a `LOADBOOL` that skips a `SETLIST` with a count, and such a `SETLIST`
whose count is the last word. -/
def Gap (pt : Proto) (pc : Nat) : Prop :=
  ∃ i, pt.code[pc]? = some i ∧
    ((getOpcode i = some .opLoadbool ∧ getArgC i ≠ 0 ∧
        pt.code[pc + 1]?.any isCountedSetlist = true) ∨
      (isCountedSetlist i = true ∧ pc + 2 = pt.code.length))

section Accesses

variable {pt : Proto} {r : Nat}

theorem register_of_opArgR (h : checkArgMode pt r .opArgR = .ok ()) :
    (Access.register r).InRange pt := by
  simpa [checkArgMode, checkreg, Access.InRange] using h

theorem rkAccess_of_opArgK (h : checkArgMode pt r .opArgK = .ok ()) :
    (rkAccess r).InRange pt := by
  simp only [checkArgMode, check_eq_ok] at h
  unfold rkAccess
  split
  next constant => simpa [constant, Access.InRange] using h
  next register => simpa [register, Access.InRange] using h

theorem registers_inRange {first past : Nat} (h : past ≤ pt.maxstacksize.toNat) :
    ∀ x ∈ registers first past, x.InRange pt := by
  intro x hx
  obtain ⟨r, inside, rfl⟩ := List.mem_map.mp hx
  obtain ⟨low, high⟩ := List.mem_range'_1.mp inside
  show r < pt.maxstacksize.toNat
  omega

/-- A jump leads into the code, and not behind a word that looks like a `SETLIST` with a count. -/
def JumpsTo (pt : Proto) (dest : Nat) : Prop :=
  dest < pt.code.length ∧ ∀ q, dest = q + 1 → pt.code[q]?.any isCountedSetlist = false

theorem jumpsTo_of_checkDest {dest : Int} (h : checkDest pt dest = .ok ()) :
    ∃ n : Nat, dest = n ∧ JumpsTo pt n := by
  obtain ⟨_, inside, h⟩ := bind_eq_ok_iff.mp h
  simp only [check_eq_ok, Bool.and_eq_true, decide_eq_true_eq] at inside
  obtain ⟨n, rfl⟩ := Int.eq_ofNat_of_zero_le inside.1
  refine ⟨n, rfl, by omega, ?_⟩
  rintro q rfl
  obtain ⟨d, found, plain⟩ := bind_eq_ok_iff.mp (checkWhen_eq_ok.mp h (by omega))
  have before : ((q + 1 : Nat) : Int) - 1 = (q : Nat) := by omega
  rw [before, elementAt_natCast] at found
  rw [found]
  simpa using plain

theorem checkFormat_iAsBx {pc : Nat} {i : Instruction} {op : OpCode} {b c : Int}
    (mode : (luaPOpmodes op).mode = .iAsBx) (jump : (luaPOpmodes op).b = .opArgR)
    (h : checkFormat pt pc i op = .ok (b, c)) :
    b = getArgSBx i ∧ ∃ n : Nat, (pc + 1 + getArgSBx i : Int) = n ∧ JumpsTo pt n := by
  simp only [checkFormat, mode] at h
  obtain ⟨_, dest, h⟩ := bind_eq_ok_iff.mp h
  obtain ⟨rfl, rfl⟩ := Prod.mk.inj (Except.ok.inj h)
  exact ⟨rfl, jumpsTo_of_checkDest (checkWhen_eq_ok.mp dest jump)⟩

theorem word_of_checkTest {pc : Nat} {op : OpCode} (test : (luaPOpmodes op).testT = true)
    (h : checkTest pt pc op = .ok ()) :
    pc + 2 < pt.code.length ∧ ∃ d, pt.code[pc + 1]? = some d ∧ getOpcode d = some .opJmp := by
  obtain ⟨_, room, h⟩ := bind_eq_ok_iff.mp (checkWhen_eq_ok.mp h test)
  obtain ⟨d, found, h⟩ := bind_eq_ok_iff.mp h
  have next : ((pc : Int) + 1) = ((pc + 1 : Nat) : Int) := by omega
  rw [next, elementAt_natCast] at found
  exact ⟨by simpa using room, d, found, by simpa using h⟩

/-- The registers of the function, its arguments and its results. -/
theorem call_registers {lastpc reg pc last a b c : Nat} {op : OpCode} {x : Nat × Nat}
    (call : op = .opCall ∨ op = .opTailcall) (register : a < pt.maxstacksize.toNat)
    (h : checkOperation pt lastpc reg pc last op a b c = .ok x) :
    a + b ≤ pt.maxstacksize.toNat ∧ a + (c - 1) ≤ pt.maxstacksize.toNat := by
  have checks : checkWhen ((b : Int) ≠ 0) (checkreg pt (a + b - 1)) = .ok () ∧
      checkResults pt pc a (c - 1) = .ok () := by
    rcases call with rfl | rfl
    all_goals
      obtain ⟨_, args, h⟩ := bind_eq_ok_iff.mp h
      obtain ⟨_, results, _⟩ := bind_eq_ok_iff.mp h
      exact ⟨args, results⟩
  obtain ⟨args, results⟩ := checks
  rw [checkWhen_eq_ok, checkreg_eq_ok] at args
  unfold checkResults luaMultret at results
  split at results
  next open_ => omega
  next =>
    rw [checkWhen_eq_ok, checkreg_eq_ok] at results
    omega

/-- The checks of an instruction cover what it touches, except for the words that follow a
`CLOSURE`. -/
theorem accesses_inRange {lastpc reg pc last : Nat} {i : Instruction} {op : OpCode} {b c : Int}
    {x : Nat × Nat} (follows : op = .opReturn ∨ pc + 1 < pt.code.length) (other : op ≠ .opClosure)
    (register : getArgA i < pt.maxstacksize.toNat) (format : checkFormat pt pc i op = .ok (b, c))
    (test : checkTest pt pc op = .ok ())
    (operation : checkOperation pt lastpc reg pc last op (getArgA i) b c = .ok x) :
    ∀ access ∈ accesses pt pc i op, access.InRange pt := by
  have ra : (Access.register (getArgA i)).InRange pt := register
  cases op with
  | opMove | opUnm | opNot | opLen | opTestset =>
    obtain ⟨rfl, rfl, hb, hc⟩ := checkFormat_iABC rfl format
    exact List.forall_mem_cons.mpr ⟨ra, List.forall_mem_singleton.mpr (register_of_opArgR hb)⟩
  | opLoadk =>
    obtain ⟨rfl, inside⟩ := checkFormat_iABx rfl format
    exact List.forall_mem_cons.mpr ⟨ra, List.forall_mem_singleton.mpr (inside rfl)⟩
  | opLoadbool | opNewtable | opTest | opClose => exact List.forall_mem_singleton.mpr ra
  | opLoadnil =>
    obtain ⟨rfl, rfl, hb, hc⟩ := checkFormat_iABC rfl format
    have rb := register_of_opArgR hb
    exact List.forall_mem_cons.mpr ⟨rb, registers_inRange rb⟩
  | opGetupval | opSetupval =>
    obtain ⟨rfl, rfl, hb, hc⟩ := checkFormat_iABC rfl format
    obtain ⟨_, upvalue, _⟩ := bind_eq_ok_iff.mp operation
    have inside : getArgB i < pt.nups.toNat := by simpa using upvalue
    exact List.forall_mem_cons.mpr ⟨ra, List.forall_mem_singleton.mpr inside⟩
  | opGetglobal | opSetglobal =>
    obtain ⟨rfl, _⟩ := checkFormat_iABx rfl format
    obtain ⟨k, found, operation⟩ := bind_eq_ok_iff.mp operation
    obtain ⟨_, string, _⟩ := bind_eq_ok_iff.mp operation
    have key : (Access.key (getArgBx i)).InRange pt := by
      rw [check_eq_ok] at string
      cases k with
      | string s => exact ⟨s, elementAt_natCast.mp found⟩
      | _ => cases string
    exact List.forall_mem_cons.mpr ⟨ra, List.forall_mem_singleton.mpr key⟩
  | opGettable =>
    obtain ⟨rfl, rfl, hb, hc⟩ := checkFormat_iABC rfl format
    exact List.forall_mem_cons.mpr ⟨ra, List.forall_mem_cons.mpr
      ⟨register_of_opArgR hb, List.forall_mem_singleton.mpr (rkAccess_of_opArgK hc)⟩⟩
  | opSettable | opAdd | opSub | opMul | opDiv | opMod | opPow =>
    obtain ⟨rfl, rfl, hb, hc⟩ := checkFormat_iABC rfl format
    exact List.forall_mem_cons.mpr ⟨ra, List.forall_mem_cons.mpr
      ⟨rkAccess_of_opArgK hb, List.forall_mem_singleton.mpr (rkAccess_of_opArgK hc)⟩⟩
  | opSelf =>
    obtain ⟨rfl, rfl, hb, hc⟩ := checkFormat_iABC rfl format
    obtain ⟨_, second, _⟩ := bind_eq_ok_iff.mp operation
    rw [checkreg_eq_ok] at second
    have ra' : (Access.register (getArgA i + 1)).InRange pt := by
      show getArgA i + 1 < _
      omega
    exact List.forall_mem_cons.mpr ⟨ra, List.forall_mem_cons.mpr ⟨ra', List.forall_mem_cons.mpr
      ⟨register_of_opArgR hb, List.forall_mem_singleton.mpr (rkAccess_of_opArgK hc)⟩⟩⟩
  | opConcat =>
    obtain ⟨rfl, rfl, hb, hc⟩ := checkFormat_iABC rfl format
    exact List.forall_mem_cons.mpr ⟨ra, registers_inRange (register_of_opArgR hc)⟩
  | opJmp => exact List.forall_mem_nil _
  | opEq | opLt | opLe =>
    obtain ⟨rfl, rfl, hb, hc⟩ := checkFormat_iABC rfl format
    obtain ⟨room, _⟩ := word_of_checkTest rfl test
    have word : (Access.word (pc + 1)).InRange pt := by
      show pc + 1 < _
      omega
    exact List.forall_mem_cons.mpr ⟨rkAccess_of_opArgK hb, List.forall_mem_cons.mpr
      ⟨rkAccess_of_opArgK hc, List.forall_mem_singleton.mpr word⟩⟩
  | opCall =>
    obtain ⟨rfl, rfl, _⟩ := checkFormat_iABC rfl format
    obtain ⟨args, results⟩ := call_registers (by simp) register operation
    exact List.forall_mem_cons.mpr ⟨ra, List.forall_mem_append.mpr
      ⟨registers_inRange args, registers_inRange results⟩⟩
  | opTailcall =>
    obtain ⟨rfl, rfl, _⟩ := checkFormat_iABC rfl format
    exact List.forall_mem_cons.mpr ⟨ra, registers_inRange (call_registers (by simp) register operation).1⟩
  | opReturn =>
    obtain ⟨rfl, rfl, _⟩ := checkFormat_iABC rfl format
    refine registers_inRange ?_
    obtain ⟨_, results, _⟩ := bind_eq_ok_iff.mp operation
    rw [checkWhen_eq_ok, checkreg_eq_ok] at results
    omega
  | opForloop | opForprep =>
    obtain ⟨_, last, _⟩ := bind_eq_ok_iff.mp operation
    rw [checkreg_eq_ok] at last
    exact registers_inRange (by omega)
  | opTforloop =>
    obtain ⟨rfl, rfl, _⟩ := checkFormat_iABC rfl format
    obtain ⟨room, _⟩ := word_of_checkTest rfl test
    obtain ⟨_, some_result, operation⟩ := bind_eq_ok_iff.mp operation
    obtain ⟨_, last, _⟩ := bind_eq_ok_iff.mp operation
    simp only [check_eq_ok, decide_eq_true_eq] at some_result
    rw [checkreg_eq_ok] at last
    refine List.forall_mem_append.mpr ⟨List.forall_mem_append.mpr
      ⟨registers_inRange (by omega), registers_inRange (by omega)⟩, ?_⟩
    have slots : ∀ n ≤ 5, (Access.callSlot (getArgA i + n)).InRange pt := by
      intro n hn
      show getArgA i + n < pt.maxstacksize.toNat + 5
      omega
    have word : (Access.word (pc + 1)).InRange pt := by
      show pc + 1 < _
      omega
    exact List.forall_mem_cons.mpr ⟨slots 3 (by decide), List.forall_mem_cons.mpr
      ⟨slots 4 (by decide), List.forall_mem_cons.mpr
        ⟨slots 5 (by decide), List.forall_mem_singleton.mpr word⟩⟩⟩
  | opSetlist =>
    obtain ⟨rfl, rfl, _⟩ := checkFormat_iABC rfl format
    refine List.forall_mem_append.mpr ⟨registers_inRange ?_, ?_⟩
    · obtain ⟨_, items, _⟩ := bind_eq_ok_iff.mp operation
      rw [checkWhen_eq_ok, checkreg_eq_ok] at items
      omega
    · split
      · exact List.forall_mem_singleton.mpr (follows.resolve_left OpCode.noConfusion)
      · exact List.forall_mem_nil _
  | opClosure => exact absurd rfl other
  | opVararg =>
    obtain ⟨rfl, rfl, _⟩ := checkFormat_iABC rfl format
    refine registers_inRange ?_
    obtain ⟨_, _, operation⟩ := bind_eq_ok_iff.mp operation
    obtain ⟨_, _, operation⟩ := bind_eq_ok_iff.mp operation
    obtain ⟨_, values, _⟩ := bind_eq_ok_iff.mp operation
    rw [checkreg_eq_ok] at values
    omega

theorem checkopenop_eq_ok {pc : Nat} {u : Unit} :
    checkopenop pt pc = .ok u ↔ ∃ d, pt.code[pc + 1]? = some d ∧ luaGCheckopenop d = true := by
  have next : ((pc : Int) + 1) = ((pc + 1 : Nat) : Int) := by omega
  constructor
  · intro h
    obtain ⟨d, found, consumer⟩ := bind_eq_ok_iff.mp h
    rw [next, elementAt_natCast] at found
    exact ⟨d, found, by simpa using consumer⟩
  · rintro ⟨d, found, consumer⟩
    refine bind_eq_ok_iff.mpr ⟨d, ?_, by simpa using consumer⟩
    rw [next, elementAt_natCast]
    exact found

theorem consumer_follows {lastpc reg pc last : Nat} {i : Instruction} {op : OpCode} {b c : Int}
    {x : Nat × Nat} (format : checkFormat pt pc i op = .ok (b, c))
    (operation : checkOperation pt lastpc reg pc last op (getArgA i) b c = .ok x)
    (opened : leavesOpen i op = true) :
    ∃ d, pt.code[pc + 1]? = some d ∧ luaGCheckopenop d = true := by
  cases op with
  | opCall | opTailcall =>
    obtain ⟨rfl, rfl, _⟩ := checkFormat_iABC rfl format
    obtain ⟨_, _, operation⟩ := bind_eq_ok_iff.mp operation
    obtain ⟨_, results, _⟩ := bind_eq_ok_iff.mp operation
    have multiple : getArgC i = 0 := by simpa [leavesOpen] using opened
    rw [multiple, checkResults, if_pos (by decide)] at results
    exact checkopenop_eq_ok.mp results
  | opVararg =>
    obtain ⟨rfl, rfl, _⟩ := checkFormat_iABC rfl format
    obtain ⟨_, _, operation⟩ := bind_eq_ok_iff.mp operation
    obtain ⟨_, values, _⟩ := bind_eq_ok_iff.mp operation
    have multiple : getArgB i = 0 := by simpa [leavesOpen] using opened
    exact checkopenop_eq_ok.mp (checkWhen_eq_ok.mp values (by rw [multiple]; decide))
  | _ => cases opened

/-- The words behind a `CLOSURE` describe upvalues. -/
theorem pseudo_of_checkPseudo {pc nup : Nat} (h : checkPseudo pt pc nup = .ok ()) {n : Nat}
    (low : pc < n) (high : n ≤ pc + nup) :
    ∃ d, pt.code[n]? = some d ∧
      (getOpcode d = some .opGetupval ∨ getOpcode d = some .opMove) := by
  induction nup with
  | zero => omega
  | succ nup ih =>
    obtain ⟨_, before, h⟩ := bind_eq_ok_iff.mp h
    by_cases earlier : n ≤ pc + nup
    · exact ih before earlier
    · obtain ⟨d, found, h⟩ := bind_eq_ok_iff.mp h
      have place : ((pc : Int) + ((nup : Int) + 1)) = ((n : Nat) : Int) := by omega
      rw [place, elementAt_natCast] at found
      exact ⟨d, found, by simpa using h⟩

theorem closure_checks {lastpc reg pc last a b : Nat} {c : Int} {x : Nat × Nat}
    (h : checkOperation pt lastpc reg pc last .opClosure a b c = .ok x) :
    ∃ g, pt.p[b]? = some g ∧ pc + g.nups.toNat < pt.code.length ∧
      checkPseudo pt pc g.nups.toNat = .ok () := by
  obtain ⟨_, _, h⟩ := bind_eq_ok_iff.mp h
  obtain ⟨g, found, h⟩ := bind_eq_ok_iff.mp h
  obtain ⟨_, room, h⟩ := bind_eq_ok_iff.mp h
  obtain ⟨_, pseudo, _⟩ := bind_eq_ok_iff.mp h
  exact ⟨g, elementAt_natCast.mp found, by simpa using room, pseudo⟩

end Accesses

section Scan

variable {pt : Proto}

theorem Scanned.next {pc : Nat} (h : Scanned pt pc) (inside : pc < pt.code.length) :
    Scanned pt (scanNext pt pc) := h.tail ⟨inside, rfl⟩

/-- The scan passes over nothing but the counts of `SETLIST`. -/
theorem scanned_or_count (n : Nat) (inside : n ≤ pt.code.length) :
    Scanned pt n ∨ ∃ q, n = q + 1 ∧ q < pt.code.length ∧ Scanned pt q ∧
      pt.code[q]?.any isCountedSetlist = true := by
  induction n with
  | zero => exact Or.inl .refl
  | succ n ih =>
    rcases ih (by omega) with scanned | ⟨q, rfl, room, scanned, counted⟩
    · by_cases counted : pt.code[n]?.any isCountedSetlist = true
      · exact Or.inr ⟨n, rfl, by omega, scanned, counted⟩
      · have next := scanned.next (by omega)
        rw [scanNext, if_neg counted] at next
        exact Or.inl next
    · have next := scanned.next room
      rw [scanNext, if_pos counted] at next
      exact Or.inl next

theorem lt_scanNext (pt : Proto) (pc : Nat) : pc < scanNext pt pc := by
  unfold scanNext
  split <;> omega

theorem le_of_scan {m n : Nat}
    (h : Relation.ReflTransGen (fun pc pc' => pc < pt.code.length ∧ pc' = scanNext pt pc) m n) :
    m ≤ n := by
  induction h with
  | refl => exact Nat.le_refl m
  | tail _ step ih =>
    have further := lt_scanNext pt
    rw [step.2]
    exact Nat.le_trans ih (Nat.le_of_lt (further _))

/-- A count is not scanned, since the scan is the only one and goes only forward. -/
theorem not_scanned_count {q : Nat} (scanned : Scanned pt q)
    (counted : pt.code[q]?.any isCountedSetlist = true) : ¬ Scanned pt (q + 1) := by
  intro other
  have unique : Relator.RightUnique
      fun pc pc' : Nat => pc < pt.code.length ∧ pc' = scanNext pt pc := by
    intro a b c hb hc
    rw [hb.2, hc.2]
  rcases Relation.ReflTransGen.total_of_right_unique unique scanned other with forth | back
  · rcases Relation.ReflTransGen.cases_head_iff.mp forth with same | ⟨_, ⟨_, rfl⟩, later⟩
    · omega
    · have past := le_of_scan later
      rw [scanNext, if_pos counted] at past
      omega
  · have past := le_of_scan back
    omega

theorem JumpsTo.scanned {n : Nat} (h : JumpsTo pt n) : Scanned pt n := by
  rcases scanned_or_count n (Nat.le_of_lt h.1) with scanned | ⟨q, rfl, _, _, counted⟩
  · exact scanned
  · rw [h.2 q rfl] at counted
    cases counted

/-- An instruction other than `SETLIST` is followed by another one. -/
theorem jumpsTo_next {pc : Nat} {i : Instruction} {op : OpCode} (fetch : pt.code[pc]? = some i)
    (decode : getOpcode i = some op) (other : op ≠ .opSetlist) (room : pc + 1 < pt.code.length) :
    JumpsTo pt (pc + 1) := by
  refine ⟨room, ?_⟩
  intro q hq
  obtain rfl := Nat.succ.inj hq
  rw [fetch]
  simp [isCountedSetlist, decode, other]

/-- The checks of the words that the scan looks at have not stopped it. -/
def Passed (pt : Proto) (pc : Nat) : Prop :=
  ∃ last x, symbexecStep pt pt.code.length noReg pc last = .ok x

/-- In a full check only a `SETLIST` with a count moves `pc`. -/
theorem fst_of_step {pc last : Nat} {x : Nat × Nat}
    (h : symbexecStep pt pt.code.length noReg pc last = .ok x) : x.1 + 1 = scanNext pt pc := by
  obtain ⟨i, op, b, c, last', fetch, decode, _, format, _, operation, _⟩ := symbexecStep_ok h
  rw [scanNext, fetch, Option.any_some, isCountedSetlist, decode]
  by_cases setlist : op = .opSetlist
  · subst setlist
    obtain ⟨rfl, rfl, _⟩ := checkFormat_iABC rfl format
    obtain ⟨_, _, operation⟩ := bind_eq_ok_iff.mp operation
    obtain rfl := Except.ok.inj operation
    by_cases count : getArgC i = 0 <;> simp [count]
  · rw [(checkOperation_moves operation).2.2 rfl setlist]
    simp [setlist]

/-- If the loop comes to its end, then all words that it looks at have passed. -/
theorem passed_of_loop {rounds pc last r : Nat}
    (h : symbexecLoop pt pt.code.length noReg rounds pc last = .ok r)
    (enough : pt.code.length ≤ rounds + pc) {n : Nat}
    (scan : Relation.ReflTransGen (fun pc pc' => pc < pt.code.length ∧ pc' = scanNext pt pc) pc n)
    (inside : n < pt.code.length) : Passed pt n := by
  induction rounds generalizing pc last with
  | zero =>
    rcases Relation.ReflTransGen.cases_head_iff.mp scan with rfl | ⟨_, ⟨room, _⟩, _⟩
    · omega
    · omega
  | succ rounds ih =>
    have room : pc < pt.code.length := by
      rcases Relation.ReflTransGen.cases_head_iff.mp scan with rfl | ⟨_, ⟨room, _⟩, _⟩
      · exact inside
      · exact room
    rw [symbexecLoop, if_pos room] at h
    obtain ⟨x, step, h⟩ := bind_eq_ok_iff.mp h
    have moved := fst_of_step step
    rcases Relation.ReflTransGen.cases_head_iff.mp scan with rfl | ⟨_, ⟨_, rfl⟩, later⟩
    · exact ⟨last, x, step⟩
    · rw [← moved] at later
      refine ih h ?_ later
      have further := lt_scanNext pt pc
      omega

theorem passed_of_checkcode (h : luaGCheckcode pt = some true) :
    precheck pt = .ok () ∧ ∀ n, Scanned pt n → n < pt.code.length → Passed pt n := by
  unfold luaGCheckcode at h
  split at h
  next i run =>
    obtain ⟨_, pre, run⟩ := bind_eq_ok_iff.mp run
    obtain ⟨last, loop, _⟩ := bind_eq_ok_iff.mp run
    exact ⟨pre, fun n scan inside => passed_of_loop loop (by omega) scan inside⟩
  next => cases h
  next => cases h

end Scan

section Sound

variable {pt : Proto}

/-- Where an instruction of checked code may go on, if it is not one of the gaps. -/
theorem next_scanned (pre : precheck pt = .ok ())
    (passed : ∀ n, Scanned pt n → n < pt.code.length → Passed pt n) {pc : Nat} {i : Instruction}
    {op : OpCode} (scanned : Scanned pt pc) (fetch : pt.code[pc]? = some i)
    (decode : getOpcode i = some op) (gap : ¬ Gap pt pc) {next : Int}
    (goes : next ∈ nexts pt pc i op) : ∃ n : Nat, next = n ∧ n < pt.code.length ∧ Scanned pt n := by
  have inside := (List.getElem?_eq_some_iff.mp fetch).1
  have lands : ∀ n, JumpsTo pt n → ∃ m : Nat, (n : Int) = m ∧ m < pt.code.length ∧ Scanned pt m :=
    fun n jump => ⟨n, rfl, jump.1, jump.scanned⟩
  have follows := return_or_follows pre fetch decode
  obtain ⟨last, x, step⟩ := passed pc scanned inside
  obtain ⟨i', op', b, c, last', fetch', decode', register, format, test, operation, _⟩ :=
    symbexecStep_ok step
  obtain rfl := Option.some.inj (fetch.symm.trans fetch')
  obtain rfl := Option.some.inj (decode.symm.trans decode')
  cases op with
  | opReturn => cases goes
  | opLoadbool =>
    obtain ⟨rfl, rfl, _⟩ := checkFormat_iABC rfl format
    obtain rfl := List.mem_singleton.mp goes
    by_cases skip : getArgC i = 0
    · rw [if_neg (by simp [skip])]
      exact lands _ (jumpsTo_next fetch decode OpCode.noConfusion
        (follows.resolve_left OpCode.noConfusion))
    · rw [if_pos skip]
      obtain ⟨_, room, _⟩ := bind_eq_ok_iff.mp operation
      have room : pc + 2 < pt.code.length := by simpa [skip] using room
      refine lands (pc + 2) ⟨room, ?_⟩
      intro q hq
      obtain rfl : q = pc + 1 := by omega
      by_contra counted
      exact gap ⟨i, fetch, Or.inl ⟨decode, skip, by simpa using counted⟩⟩
  | opJmp | opForprep =>
    obtain ⟨_, n, place, jump⟩ := checkFormat_iAsBx rfl rfl format
    obtain rfl := List.mem_singleton.mp goes
    rw [place]
    exact lands n jump
  | opForloop =>
    obtain ⟨_, n, place, jump⟩ := checkFormat_iAsBx rfl rfl format
    rcases List.mem_cons.mp goes with rfl | taken
    · exact lands _ (jumpsTo_next fetch decode OpCode.noConfusion
        (follows.resolve_left OpCode.noConfusion))
    · obtain rfl := List.mem_singleton.mp taken
      rw [place]
      exact lands n jump
  | opEq | opLt | opLe | opTest | opTestset | opTforloop =>
    obtain ⟨room, d, found, jmp⟩ := word_of_checkTest rfl test
    have after := jumpsTo_next found jmp OpCode.noConfusion room
    simp only [nexts, found] at goes
    rcases List.mem_cons.mp goes with rfl | taken
    · exact lands (pc + 2) after
    · -- the jump behind the test has been checked on its own
      obtain rfl := List.mem_singleton.mp taken
      have second := (jumpsTo_next fetch decode OpCode.noConfusion (by omega)).scanned
      obtain ⟨_, _, step'⟩ := passed (pc + 1) second (by omega)
      obtain ⟨_, _, _, _, _, found', jmp', _, format', _⟩ := symbexecStep_ok step'
      obtain rfl := Option.some.inj (found.symm.trans found')
      obtain rfl := Option.some.inj (jmp.symm.trans jmp')
      obtain ⟨_, n, place, jump⟩ := checkFormat_iAsBx rfl rfl format'
      have same : (pc + 1 + getArgSBx d + 1 : Int) = n := by
        rw [← place]
        omega
      rw [same]
      exact lands n jump
  | opSetlist =>
    obtain rfl := List.mem_singleton.mp goes
    have room := follows.resolve_left OpCode.noConfusion
    have further := scanned.next inside
    rw [scanNext, fetch, Option.any_some, isCountedSetlist, decode] at further
    by_cases count : getArgC i = 0
    · rw [if_pos count]
      have final : pc + 2 ≠ pt.code.length := fun last =>
        gap ⟨i, fetch, Or.inr ⟨by simp [isCountedSetlist, decode, count], last⟩⟩
      exact ⟨pc + 2, rfl, by omega, by simpa [count] using further⟩
    · rw [if_neg count]
      exact ⟨pc + 1, rfl, room, by simpa [count] using further⟩
  | opClosure =>
    obtain ⟨rfl, _⟩ := checkFormat_iABx rfl format
    obtain ⟨g, nested, room, pseudo⟩ := closure_checks operation
    simp only [nexts, nested] at goes
    obtain rfl := List.mem_singleton.mp goes
    rcases Nat.eq_zero_or_pos g.nups.toNat with none | some_ups
    · rw [none]
      exact lands (pc + 1) (jumpsTo_next fetch decode OpCode.noConfusion
        (follows.resolve_left OpCode.noConfusion))
    · obtain ⟨d, found, kind⟩ := pseudo_of_checkPseudo pseudo (n := pc + g.nups.toNat)
        (by omega) (Nat.le_refl _)
      obtain ⟨op, decoded, notReturn, notSetlist⟩ : ∃ op, getOpcode d = some op ∧
          op ≠ .opReturn ∧ op ≠ .opSetlist := by
        rcases kind with h | h
        · exact ⟨_, h, OpCode.noConfusion, OpCode.noConfusion⟩
        · exact ⟨_, h, OpCode.noConfusion, OpCode.noConfusion⟩
      have more := (return_or_follows pre found decoded).resolve_left notReturn
      exact lands (pc + g.nups.toNat + 1) (jumpsTo_next found decoded notSetlist more)
  | _ =>
    obtain rfl := List.mem_singleton.mp goes
    exact lands _ (jumpsTo_next fetch decode OpCode.noConfusion
      (follows.resolve_left OpCode.noConfusion))

/-- A word that describes an upvalue has been checked as an instruction. -/
theorem pseudoAccess_inRange (pre : precheck pt = .ok ())
    (passed : ∀ n, Scanned pt n → n < pt.code.length → Passed pt n)
    {n : Nat} {d : Instruction} (found : pt.code[n]? = some d)
    (kind : getOpcode d = some .opGetupval ∨ getOpcode d = some .opMove) (scanned : Scanned pt n) :
    ∀ access ∈ pseudoAccess pt n, access.InRange pt := by
  have inside := (List.getElem?_eq_some_iff.mp found).1
  obtain ⟨_, _, step⟩ := passed n scanned inside
  obtain ⟨_, op, b, c, _, found', decode, register, format, test, operation, _⟩ :=
    symbexecStep_ok step
  obtain rfl := Option.some.inj (found.symm.trans found')
  have word : (Access.word n).InRange pt := inside
  have follows := return_or_follows pre found decode
  unfold pseudoAccess
  rw [found]
  rcases kind with getupval | move
  · obtain rfl := Option.some.inj (getupval.symm.trans decode)
    have both := accesses_inRange follows OpCode.noConfusion register format test operation
    simp only [getupval, if_true]
    exact List.forall_mem_cons.mpr ⟨word, (List.forall_mem_cons.mp both).2⟩
  · obtain rfl := Option.some.inj (move.symm.trans decode)
    have both := accesses_inRange follows OpCode.noConfusion register format test operation
    simp only [move]
    exact List.forall_mem_cons.mpr ⟨word, (List.forall_mem_cons.mp both).2⟩

theorem wellPlaced_of_scanned (pre : precheck pt = .ok ())
    (passed : ∀ n, Scanned pt n → n < pt.code.length → Passed pt n) {pc : Nat}
    (scanned : Scanned pt pc) (inside : pc < pt.code.length) :
    ∃ i op, WellPlaced pt pc pc i op := by
  obtain ⟨last, x, step⟩ := passed pc scanned inside
  obtain ⟨i, op, b, c, last', fetch, decode, register, format, test, operation, _⟩ :=
    symbexecStep_ok step
  refine ⟨i, op, rfl, fetch, scanned, decode, ?_, consumer_follows format operation⟩
  by_cases closure : op = .opClosure
  · subst closure
    obtain ⟨rfl, _⟩ := checkFormat_iABx rfl format
    obtain ⟨g, nested, room, pseudo⟩ := closure_checks operation
    have described : ∀ access ∈ (List.range' (pc + 1) g.nups.toNat).flatMap (pseudoAccess pt),
        access.InRange pt := by
      intro access h
      obtain ⟨n, place, h⟩ := List.mem_flatMap.mp h
      obtain ⟨low, high⟩ := List.mem_range'_1.mp place
      obtain ⟨d, found, kind⟩ := pseudo_of_checkPseudo pseudo (n := n) (by omega) (by omega)
      refine pseudoAccess_inRange pre passed found kind ?_ access h
      -- the word before is a `CLOSURE` or describes an upvalue itself
      obtain ⟨q, rfl⟩ : ∃ q, n = q + 1 := ⟨n - 1, by omega⟩
      rcases Nat.lt_or_ge pc q with later | first
      · obtain ⟨d', found', kind'⟩ := pseudo_of_checkPseudo pseudo (n := q) later (by omega)
        rcases kind' with h' | h'
        · exact (jumpsTo_next found' h' OpCode.noConfusion (by omega)).scanned
        · exact (jumpsTo_next found' h' OpCode.noConfusion (by omega)).scanned
      · obtain rfl : q = pc := by omega
        exact (jumpsTo_next fetch decode OpCode.noConfusion (by omega)).scanned
    simp only [accesses, nested]
    exact List.forall_mem_cons.mpr ⟨register, List.forall_mem_cons.mpr
      ⟨(List.getElem?_eq_some_iff.mp nested).1, described⟩⟩
  · exact accesses_inRange (return_or_follows pre fetch decode) closure register format test
      operation

theorem reached_scanned (pre : precheck pt = .ok ())
    (passed : ∀ n, Scanned pt n → n < pt.code.length → Passed pt n)
    (noGap : ∀ pc : Nat, Reached pt pc → ¬ Gap pt pc) {pc : Int} (reached : Reached pt pc) :
    ∃ n : Nat, pc = n ∧ n < pt.code.length ∧ Scanned pt n := by
  induction reached with
  | entry =>
    obtain ⟨_, last, _⟩ := getOpcode_last pre
    have inside := (List.getElem?_eq_some_iff.mp last).1
    exact ⟨0, rfl, by omega, .refl⟩
  | step from_ fetch decode goes ih =>
    obtain ⟨n, place, _, scanned⟩ := ih
    obtain rfl := Int.ofNat.inj place
    exact next_scanned pre passed scanned fetch decode (noGap _ from_) goes

/-- Code that the checker accepts runs inside its arrays and executes no count of a `SETLIST`
exactly if it reaches none of the gaps: every position reached is that of an instruction as the
checker reads the code, the operands of the instruction are in range, and an open one is followed
by one that uses the top of the stack. -/
theorem checkcode_safe_iff (h : luaGCheckcode pt = some true) :
    (∀ pc, Reached pt pc → ∃ n i op, WellPlaced pt pc n i op) ↔
      ∀ pc : Nat, Reached pt pc → ¬ Gap pt pc := by
  obtain ⟨pre, passed⟩ := passed_of_checkcode h
  constructor
  · rintro safe pc reached ⟨i, fetch, gap⟩
    obtain ⟨n, _, _, place⟩ := safe pc reached
    obtain rfl := Int.ofNat.inj place.position
    rcases gap with ⟨decode, skip, counted⟩ | ⟨counted, final⟩
    · have behind : Reached pt ((pc + 2 : Nat) : Int) :=
        reached.step fetch decode (by simp [nexts, skip])
      obtain ⟨m, _, _, place'⟩ := safe _ behind
      obtain rfl := Int.ofNat.inj place'.position
      have inside := (List.getElem?_eq_some_iff.mp place'.fetch).1
      have second := jumpsTo_next fetch decode OpCode.noConfusion (by omega)
      exact not_scanned_count second.scanned counted place'.scanned
    · have decode : getOpcode i = some .opSetlist ∧ getArgC i = 0 := by
        simpa [isCountedSetlist] using counted
      have behind : Reached pt ((pc + 2 : Nat) : Int) :=
        reached.step fetch decode.1 (by simp [nexts, decode.2])
      obtain ⟨m, _, _, place'⟩ := safe _ behind
      obtain rfl := Int.ofNat.inj place'.position
      have inside := (List.getElem?_eq_some_iff.mp place'.fetch).1
      omega
  · intro noGap pc reached
    obtain ⟨n, rfl, inside, scanned⟩ := reached_scanned pre passed noGap reached
    exact ⟨n, wellPlaced_of_scanned pre passed scanned inside⟩

end Sound

/-- A function that returns a constant. -/
def constantFunction : Proto where
  source := some (bytes "=?")
  linedefined := 0
  lastlinedefined := 0
  nups := 0
  numparams := 0
  isVararg := varargIsvararg
  maxstacksize := 2
  code := [createABx .opLoadk 0 0, createABC .opReturn 0 2 0]
  k := [.string (some (bytes "GameState"))]
  lineinfo := []
  locvars := []
  upvalues := []
  p := []

theorem checkcode_safe_iff_constant : luaGCheckcode constantFunction = some true ∧
    ((∀ pc, Reached constantFunction pc → ∃ n i op, WellPlaced constantFunction pc n i op) ↔
      ∀ pc : Nat, Reached constantFunction pc → ¬ Gap constantFunction pc) :=
  ⟨by decide, checkcode_safe_iff (by decide)⟩

/-- Its `RETURN` is taken for the count of the `SETLIST` before it. -/
def countedReturn : Proto :=
  { constantFunction with code := [createABC .opSetlist 0 1 0, createABC .opReturn 0 2 0] }

example : luaGCheckcode countedReturn = some true ∧ Reached countedReturn 2 ∧
    countedReturn.code.length = 2 :=
  ⟨by decide, .step .entry rfl (show _ = some OpCode.opSetlist by decide) (by decide), rfl⟩

end DriverSF
