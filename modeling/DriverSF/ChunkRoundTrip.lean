import DriverSF.ChunkLoad

namespace DriverSF

open ByteCodec

/-- The loader takes the code, and fails with `unexpected end` if the stream ends within it. -/
abbrev Loads (name : Bytes) {α : Type} (p : Load α) (code : Bytes) (a : α) : Prop :=
  Reads Zio.Represents (loadError name (bytes "unexpected end")) p code a

section Loaders

variable (name : Bytes)

theorem loads_block (block : Bytes) : Loads name (loadBlock name block.length) block block := by
  constructor
  · intro z rest h
    obtain ⟨z', read, further⟩ := luaZRead_spec h block.length
    have room : block.length ≤ (block ++ rest).length := by
      rw [List.length_append]
      omega
    rw [Nat.sub_eq_zero_of_le room, List.take_left] at read
    refine ⟨z', by simp [loadBlock, read], ?_⟩
    have held := further room
    rwa [List.drop_left] at held
  · intro z front tail h split some_tail
    obtain ⟨z', read, _⟩ := luaZRead_spec h block.length
    have missing : block.length - front.length ≠ 0 := by
      have some_length := List.length_pos_iff.mpr some_tail
      rw [split, List.length_append]
      omega
    simp [loadBlock, read, missing]

theorem loads_number {w n : Nat} (small : n < 256 ^ w) :
    ∃ b, Loads name (loadBlock name w) (encode w n) b ∧ decode b = n := by
  have block := loads_block name (encode w n)
  rw [length_encode] at block
  exact ⟨_, block, decode_encode small⟩

theorem loads_byte (b : UInt8) : Loads name (loadByte name) [b] b := by
  obtain ⟨c, block, value⟩ := loads_number name (w := 1) b.toNat_lt
  have code : encode 1 b.toNat = [b] := by simp [encode]
  have byte := block.last (f := fun c => UInt8.ofNat (decode c))
  rw [value, UInt8.ofNat_toNat, code] at byte
  exact byte

theorem loads_byteOf (b : UInt8) : Loads name (loadByte name) (dumpChar b.toNat).flatten b := by
  have same : UInt8.ofNat (((b.toNat : Int) % 256).toNat) = b := by
    have small := b.toNat_lt
    have value : ((b.toNat : Int) % 256).toNat = b.toNat := by omega
    rw [value, UInt8.ofNat_toNat]
  rw [dumpChar, List.flatten_singleton, same]
  exact loads_byte name b

theorem charOf_dumpChar {y : Int} (low : -128 ≤ y) (high : y < 128) :
    charOf (UInt8.ofNat (y % 256).toNat) = y := by
  have byte : (UInt8.ofNat (y % 256).toNat).toNat = (y % 256).toNat := by
    rw [UInt8.toNat_ofNat', Nat.mod_eq_of_lt (by omega)]
  unfold charOf
  rw [byte]
  split <;> omega

theorem loads_char {y : Int} (low : -128 ≤ y) (high : y < 128) :
    Loads name (loadChar name) (dumpChar y).flatten y := by
  have byte := (loads_byte name (UInt8.ofNat (y % 256).toNat)).last (f := charOf)
  rw [charOf_dumpChar low high] at byte
  exact byte

theorem loads_int {n : Nat} (small : n < 2 ^ 31) :
    Loads name (loadInt name) (dumpInt n).flatten n := by
  obtain ⟨b, block, value⟩ := loads_number name (w := sizeofInt) (n := n)
    (by unfold sizeofInt; omega)
  have code : (dumpInt n).flatten = encode sizeofInt n := by
    have word : ((n : Int) % 2 ^ 32).toNat = n := by omega
    rw [dumpInt, word, List.flatten_singleton]
  have rest : Loads name (if decode b < 2 ^ 31 then return decode b
      else throw (loadError name (bytes "bad integer"))) [] n := by
    rw [value, if_pos small]
    exact Reads.pure n
  rw [code, ← List.append_nil (encode sizeofInt n)]
  exact block.bind rest

theorem loads_luaNumber (x : UInt64) : Loads name (loadNumber name) (dumpNumber x).flatten x := by
  obtain ⟨b, block, value⟩ := loads_number name (w := sizeofNumber) x.toNat_lt
  have number := block.last (f := fun b => UInt64.ofNat (decode b))
  rw [value, UInt64.ofNat_toNat] at number
  rw [dumpNumber, List.flatten_singleton]
  exact number

/-- The size of the string, with its final NUL, is a `size_t`. -/
def FitsString (s : Option Bytes) : Prop := ∀ t ∈ s, t.length + 1 < 2 ^ 32

theorem fits_some {t : Bytes} (size : t.length + 1 < 2 ^ 32) : FitsString (some t) := by
  intro t' same
  obtain rfl := Option.some.inj same
  exact size

theorem loads_string {s : Option Bytes} (fits : FitsString s) :
    Loads name (loadString name) (dumpString s).flatten s := by
  cases s with
  | none =>
    obtain ⟨b, block, value⟩ := loads_number name (w := sizeofSizeT) (n := 0)
      (by decide)
    have rest : Loads name (if decode b = 0 then return none
        else do
          let s ← loadBlock name (decode b)
          return some (s.take (decode b - 1))) [] none := by
      rw [if_pos value]
      exact Reads.pure none
    rw [dumpString, List.flatten_singleton, ← List.append_nil (encode sizeofSizeT 0)]
    exact block.bind rest
  | some t =>
    obtain ⟨b, block, value⟩ := loads_number name (w := sizeofSizeT)
      (n := t.length + 1) (fits t rfl)
    have body := (loads_block name (t ++ [0])).last
      (f := fun s => some (s.take (t.length + 1 - 1)))
    have text : (t ++ [0]).take (t.length + 1 - 1) = t := by
      rw [Nat.add_sub_cancel, List.take_left]
    have rest : Loads name (if decode b = 0 then return none
        else do
          let s ← loadBlock name (decode b)
          return some (s.take (decode b - 1))) (t ++ [0]) (some t) := by
      rw [value, if_neg (Nat.succ_ne_zero _)]
      rw [text, List.length_append] at body
      exact body
    rw [dumpString, List.flatten_cons, List.flatten_singleton]
    exact block.bind rest

theorem loads_newVector {n size : Nat} (room : n + 1 ≤ maxSizet / size) :
    Loads name (newVector n size) [] () := by
  rw [newVector, if_pos room]
  exact Reads.pure ()

theorem wordsOf_dumpWords (words : List UInt32) :
    wordsOf words.length (dumpWords words) = words := by
  induction words with
  | nil => rfl
  | cons w words ih =>
    have len : (encode 4 w.toNat).length = 4 := length_encode 4 w.toNat
    have split : dumpWords (w :: words) = encode 4 w.toNat ++ dumpWords words := rfl
    rw [split, List.length_cons, wordsOf, List.take_append_of_le_length (by omega),
      List.take_of_length_le (by omega), decode_encode w.toNat_lt, UInt32.ofNat_toNat,
      List.drop_append_of_le_length (by omega), List.drop_eq_nil_of_le (by omega), List.nil_append,
      ih]

theorem length_dumpWords (words : List UInt32) : (dumpWords words).length = words.length * 4 := by
  induction words with
  | nil => rfl
  | cons w words ih =>
    have split : dumpWords (w :: words) = encode 4 w.toNat ++ dumpWords words := rfl
    rw [split, List.length_append, length_encode, ih, List.length_cons]
    omega

theorem small_of_room {n size : Nat} (some_size : 4 ≤ size) (room : n + 1 ≤ maxSizet / size) :
    n < 2 ^ 31 := by
  have bound := Nat.div_le_div_left some_size (by decide : 0 < 4) (a := maxSizet)
  have quarter : maxSizet / 4 < 2 ^ 31 := by decide
  omega

theorem loads_words {words : List UInt32} (room : words.length + 1 ≤ maxSizet / 4) :
    Loads name (loadWords name) (dumpVector words).flatten words := by
  have block := (loads_block name (dumpWords words)).last (f := wordsOf words.length)
  rw [length_dumpWords, wordsOf_dumpWords] at block
  rw [dumpVector, List.flatten_append, List.flatten_singleton]
  have count := loads_int name (small_of_room (Nat.le_refl 4) room)
  exact count.bind ((loads_newVector name room).bind block)

theorem loads_vector {α ι : Type} {size : Nat} {entry : Load α} {code : ι → Blocks} {out : ι → α}
    {entries : List ι} (some_size : 4 ≤ size) (room : entries.length + 1 ≤ maxSizet / size)
    (each : ∀ x ∈ entries, Loads name entry (code x).flatten (out x)) :
    Loads name (loadVector name size entry) (dumpEach code entries).flatten (entries.map out) := by
  have many := Reads.many each
  have blocks : (entries.flatMap code).flatten = entries.flatMap fun x => (code x).flatten := by
    rw [← List.flatMap_id, List.flatMap_assoc]
    simp only [List.flatMap_id]
  rw [dumpEach, List.flatten_append, blocks]
  have count := loads_int name (small_of_room some_size room)
  exact count.bind ((loads_newVector name room).bind many)

theorem loads_entries {α : Type} {size : Nat} {entry : Load α} {code : α → Blocks}
    {entries : List α} (some_size : 4 ≤ size) (room : entries.length + 1 ≤ maxSizet / size)
    (each : ∀ a ∈ entries, Loads name entry (code a).flatten a) :
    Loads name (loadVector name size entry) (dumpEach code entries).flatten entries := by
  have all := loads_vector name some_size room each
  rwa [List.map_id'] at all

def Constant.Fits : Constant → Prop
  | .boolean b => -128 ≤ b ∧ b < 128
  | .string s => FitsString s
  | _ => True

theorem loads_constant {o : Constant} (fits : o.Fits) :
    Loads name (loadConstant name) (dumpConstant o).flatten o := by
  cases o with
  | nil =>
    have tag := loads_char name (y := 0) (by decide) (by decide)
    rw [dumpConstant, ← List.append_nil (dumpChar 0).flatten]
    exact tag.bind (Reads.pure Constant.nil)
  | boolean b =>
    have tag := loads_char name (y := 1) (by decide) (by decide)
    rw [dumpConstant, List.flatten_append]
    exact tag.bind ((loads_char name fits.1 fits.2).last)
  | number x =>
    have tag := loads_char name (y := 3) (by decide) (by decide)
    rw [dumpConstant, List.flatten_append]
    exact tag.bind ((loads_luaNumber name x).last)
  | string s =>
    have tag := loads_char name (y := 4) (by decide) (by decide)
    rw [dumpConstant, List.flatten_append]
    exact tag.bind ((loads_string name fits).last)

structure LocVar.Fits (v : LocVar) : Prop where
  varname : FitsString v.varname
  startpc : 0 ≤ v.startpc ∧ v.startpc < 2 ^ 31
  endpc : 0 ≤ v.endpc ∧ v.endpc < 2 ^ 31

theorem loads_intOf {x : Int} (fits : 0 ≤ x ∧ x < 2 ^ 31) :
    ∃ n : Nat, x = n ∧ Loads name (loadInt name) (dumpInt x).flatten n := by
  obtain ⟨n, rfl⟩ := Int.eq_ofNat_of_zero_le fits.1
  exact ⟨n, rfl, loads_int name (by omega)⟩

theorem loads_locVar {v : LocVar} (fits : v.Fits) :
    Loads name (loadLocVar name) (dumpLocVar v).flatten v := by
  obtain ⟨varname, startpc, endpc⟩ := v
  obtain ⟨m, rfl, first⟩ := loads_intOf name fits.startpc
  obtain ⟨n, rfl, second⟩ := loads_intOf name fits.endpc
  simp only [dumpLocVar, List.flatten_append, List.append_assoc]
  exact (loads_string name fits.varname).bind (first.bind second.last)

end Loaders

mutual

/-- What a stripped dump keeps of a function, loaded where the function around it has the source
`q`. -/
def Proto.stripped (q : Option Bytes) : Proto → Proto
  | ⟨f, fs⟩ =>
    ⟨{ f with source := q, lineinfo := [], locvars := [], upvalues := [] }, strippedAll q fs⟩

def Proto.strippedAll (q : Option Bytes) : List Proto → List Proto
  | [] => []
  | g :: gs => Proto.stripped q g :: Proto.strippedAll q gs

end

theorem strippedAll_eq_map (q : Option Bytes) (fs : List Proto) :
    Proto.strippedAll q fs = fs.map (Proto.stripped q) := by
  induction fs with
  | nil => rfl
  | cons g gs ih => rw [Proto.strippedAll, ih, List.map_cons]

theorem dumpFunctions_eq_flatMap (strip : Bool) (p : Option Bytes) (fs : List Proto) :
    dumpFunctions strip p fs = fs.flatMap (dumpFunction strip p) := by
  induction fs with
  | nil => rfl
  | cons g gs ih => rw [dumpFunctions, ih, List.flatMap_cons]

/-- What a dump of a function is loaded as. -/
def Proto.kept (strip : Bool) (q : Option Bytes) (f : Proto) : Proto :=
  if strip then f.stripped q else f

/-- The numbers, sizes and strings of a function fit what the format has for them, and its code
passes the checker. -/
structure Proto.FitsFormat (f : Proto) : Prop where
  source : f.source ≠ none ∧ FitsString f.source
  linedefined : 0 ≤ f.linedefined ∧ f.linedefined < 2 ^ 31
  lastlinedefined : 0 ≤ f.lastlinedefined ∧ f.lastlinedefined < 2 ^ 31
  code : f.code.length + 1 ≤ maxSizet / sizeofInstruction
  k : f.k.length + 1 ≤ maxSizet / sizeofTValue ∧ ∀ o ∈ f.k, o.Fits
  p : f.p.length + 1 ≤ maxSizet / sizeofPointer
  lineinfo : f.lineinfo.length + 1 ≤ maxSizet / sizeofInt
  locvars : f.locvars.length + 1 ≤ maxSizet / sizeofLocVar ∧ ∀ v ∈ f.locvars, v.Fits
  upvalues : f.upvalues.length + 1 ≤ maxSizet / sizeofPointer ∧ ∀ s ∈ f.upvalues, FitsString s
  checked : luaGCheckcode f = some true

theorem kept_eq (strip : Bool) (q : Option Bytes) (f : ProtoFields) (fs : List Proto) :
    Proto.kept strip q ⟨f, fs⟩ =
      ⟨{ f with
          source := if strip then q else f.source
          lineinfo := unstripped strip f.lineinfo
          locvars := unstripped strip f.locvars
          upvalues := unstripped strip f.upvalues },
        fs.map (Proto.kept strip (if strip then q else f.source))⟩ := by
  cases strip with
  | true =>
    show Proto.stripped q ⟨f, fs⟩ = ⟨_, fs.map (Proto.stripped q)⟩
    rw [Proto.stripped, strippedAll_eq_map]
    rfl
  | false =>
    show (⟨f, fs⟩ : Proto) = ⟨f, fs.map id⟩
    rw [List.map_id]

section Stripped

variable (q : Option Bytes)

theorem nups_stripped (f : Proto) : (f.stripped q).nups = f.nups := by
  cases f
  rfl

theorem elementAt_map {α β : Type} (h : α → β) (array : List α) (i : Int) :
    elementAt (array.map h) i = (elementAt array i).map h := by
  unfold elementAt
  rw [List.getElem?_map]
  cases array[i.toNat]? with
  | none => rfl
  | some a =>
    by_cases low : 0 ≤ i
    · simp [low, Except.map]
    · simp [low, Except.map]

theorem checkPseudo_stripped (f : ProtoFields) (fs : List Proto) (pc nup : Nat) :
    checkPseudo (Proto.stripped q ⟨f, fs⟩) pc nup = checkPseudo ⟨f, fs⟩ pc nup := by
  induction nup with
  | zero => rfl
  | succ nup ih =>
    rw [checkPseudo, ih]
    rfl

/-- The checks of the instructions read nothing that is stripped. -/
theorem checkOperation_stripped (f : ProtoFields) (fs : List Proto) (lastpc reg pc last : Nat)
    (op : OpCode) (a : Nat) (b c : Int) :
    checkOperation (Proto.stripped q ⟨f, fs⟩) lastpc reg pc last op a b c =
      checkOperation ⟨f, fs⟩ lastpc reg pc last op a b c := by
  cases op with
  | opClosure =>
    have nested : (Proto.stripped q ⟨f, fs⟩).p = fs.map (Proto.stripped q) :=
      strippedAll_eq_map q fs
    simp only [checkOperation, nested, elementAt_map, checkPseudo_stripped, List.length_map]
    cases elementAt fs b with
    | error e => rfl
    | ok g => simp only [Except.map, bind, Except.bind, nups_stripped]; rfl
  | _ => rfl

theorem symbexecStep_stripped (f : ProtoFields) (fs : List Proto) (lastpc reg pc last : Nat) :
    symbexecStep (Proto.stripped q ⟨f, fs⟩) lastpc reg pc last =
      symbexecStep ⟨f, fs⟩ lastpc reg pc last := by
  simp only [symbexecStep, checkOperation_stripped]
  rfl

theorem symbexecLoop_stripped (f : ProtoFields) (fs : List Proto)
    (lastpc reg rounds pc last : Nat) :
    symbexecLoop (Proto.stripped q ⟨f, fs⟩) lastpc reg rounds pc last =
      symbexecLoop ⟨f, fs⟩ lastpc reg rounds pc last := by
  induction rounds generalizing pc last with
  | zero => rfl
  | succ rounds ih => simp only [symbexecLoop, symbexecStep_stripped, ih]

theorem checkcode_stripped {f : Proto} (h : luaGCheckcode f = some true) :
    luaGCheckcode (f.stripped q) = some true := by
  obtain ⟨f, fs⟩ := f
  unfold luaGCheckcode at h
  split at h
  next i run =>
    obtain ⟨_, pre, run⟩ := bind_eq_ok_iff.mp run
    obtain ⟨last, loop, final⟩ := bind_eq_ok_iff.mp run
    obtain ⟨_, stack, pre⟩ := bind_eq_ok_iff.mp pre
    obtain ⟨_, _, pre⟩ := bind_eq_ok_iff.mp pre
    obtain ⟨_, _, pre⟩ := bind_eq_ok_iff.mp pre
    have pre' : precheck (Proto.stripped q ⟨f, fs⟩) = .ok () :=
      bind_eq_ok_iff.mpr ⟨(), stack, bind_eq_ok_iff.mpr ⟨(), by simp [Proto.stripped],
        bind_eq_ok_iff.mpr ⟨(), by simp [Proto.stripped], pre⟩⟩⟩
    have run' : symbexec (Proto.stripped q ⟨f, fs⟩) (Proto.stripped q ⟨f, fs⟩).code.length
        noReg = .ok i := by
      refine bind_eq_ok_iff.mpr ⟨(), pre', bind_eq_ok_iff.mpr ⟨last, ?_, final⟩⟩
      rw [symbexecLoop_stripped]
      exact loop
    rw [luaGCheckcode, run']
    exact h
  next => cases h
  next => cases h

theorem checkcode_kept {strip : Bool} {f : Proto} (h : luaGCheckcode f = some true) :
    luaGCheckcode (f.kept strip q) = some true := by
  cases strip with
  | true => exact checkcode_stripped q h
  | false => exact h

end Stripped

/-- Functions are nested so deep at most. -/
def Proto.NestedWithin : Nat → Proto → Prop
  | 0, _ => False
  | depth + 1, f => ∀ g ∈ f.p, Proto.NestedWithin depth g

section Functions

variable (name : Bytes)

theorem loads_checked {f : Proto} (h : luaGCheckcode f = some true) :
    Loads name (loadChecked name f) [] f := by
  rw [loadChecked, h]
  exact Reads.pure f

theorem loads_source {strip : Bool} {p q source : Option Bytes} (fits : FitsString source)
    (known : strip = false → source ≠ none ∧ (source = p → source = q)) :
    ∃ read, Loads name (loadString name)
        (dumpString (if source = p ∨ strip then none else source)).flatten read ∧
      read.or q = if strip then q else source := by
  by_cases left_out : source = p ∨ strip = true
  · refine ⟨none, ?_, ?_⟩
    · rw [if_pos left_out]
      exact loads_string name fun t h => nomatch h
    · cases strip with
      | true => rfl
      | false => simpa using ((known rfl).2 (by simpa using left_out)).symm
  · obtain ⟨_, kept⟩ := not_or.mp left_out
    obtain rfl : strip = false := by simpa using kept
    obtain ⟨s, rfl⟩ := Option.ne_none_iff_exists'.mp (known rfl).1
    refine ⟨some s, ?_, rfl⟩
    rw [if_neg left_out]
    exact loads_string name fits

theorem unstripped_room {α : Type} {strip : Bool} {entries : List α} {n : Nat}
    (room : entries.length + 1 ≤ n) : (unstripped strip entries).length + 1 ≤ n := by
  cases strip with
  | true =>
    show 0 + 1 ≤ n
    omega
  | false => exact room

theorem mem_of_unstripped {α : Type} {strip : Bool} {entries : List α} {a : α}
    (h : a ∈ unstripped strip entries) : a ∈ entries := by
  cases strip with
  | true => cases h
  | false => exact h

/-- A function is loaded from its dump, if the function around it is loaded with the source that it
may leave out. -/
theorem loads_function {strip : Bool} {frames : Nat} {p q : Option Bytes} {f : Proto}
    (fits : f.All Proto.FitsFormat) (room : f.NestedWithin frames)
    (known : strip = false → f.source = p → f.source = q) :
    Loads name (loadFunction name frames q) (dumpFunction strip p f).flatten (f.kept strip q) := by
  induction f using Proto.induction generalizing frames p q with
  | step f fs ih =>
    obtain ⟨here, inside⟩ := fits
    cases frames with
    | zero => exact absurd room id
    | succ frames =>
      obtain ⟨read, source, chosen⟩ := loads_source name here.source.2
        fun kept => ⟨here.source.1, known kept⟩
      obtain ⟨m, first, linedefined⟩ := loads_intOf name here.linedefined
      obtain ⟨n, last, lastlinedefined⟩ := loads_intOf name here.lastlinedefined
      obtain ⟨loaded, hloaded⟩ : ∃ loaded, loaded = if strip then q else f.source := ⟨_, rfl⟩
      rw [← hloaded] at chosen
      have nested : ∀ g ∈ fs, Loads name (loadFunction name frames loaded)
          (dumpFunction strip f.source g).flatten (g.kept strip loaded) := by
        intro g hg
        refine ih g hg (inside g hg) (room g hg) ?_
        intro kept same
        rw [hloaded, kept]
        exact same
      have code : (dumpFunction strip p ⟨f, fs⟩).flatten =
          (dumpString (if f.source = p ∨ strip then none else f.source)).flatten ++
            ((dumpInt f.linedefined).flatten ++ ((dumpInt f.lastlinedefined).flatten ++
              ((dumpChar f.nups.toNat).flatten ++ ((dumpChar f.numparams.toNat).flatten ++
                ((dumpChar f.isVararg.toNat).flatten ++ ((dumpChar f.maxstacksize.toNat).flatten ++
                  ((dumpVector f.code).flatten ++ ((dumpEach dumpConstant f.k).flatten ++
                    ((dumpEach (dumpFunction strip f.source) fs).flatten ++
                      ((dumpVector (unstripped strip f.lineinfo)).flatten ++
                        ((dumpEach dumpLocVar (unstripped strip f.locvars)).flatten ++
                          (dumpEach dumpString (unstripped strip f.upvalues)).flatten))))))))))) := by
        rw [dumpFunction, dumpFunctions_eq_flatMap]
        simp only [dumpDebug, List.flatten_append, List.append_assoc, dumpEach]
      rw [code, kept_eq, ← hloaded]
      refine source.bind ?_
      dsimp only
      rw [chosen]
      refine linedefined.bind (lastlinedefined.bind ?_)
      refine (loads_byteOf name f.nups).bind ((loads_byteOf name f.numparams).bind ?_)
      refine (loads_byteOf name f.isVararg).bind ((loads_byteOf name f.maxstacksize).bind ?_)
      refine (loads_words name here.code).bind ?_
      refine (loads_entries name (by decide) here.k.1
        fun o ho => loads_constant name (here.k.2 o ho)).bind ?_
      refine (loads_vector name (by decide) here.p nested).bind ?_
      refine (loads_words name (unstripped_room here.lineinfo)).bind ?_
      refine (loads_entries name (by decide) (unstripped_room here.locvars.1)
        fun v hv => loads_locVar name (here.locvars.2 v (mem_of_unstripped hv))).bind ?_
      rw [← List.append_nil (dumpEach dumpString (unstripped strip f.upvalues)).flatten]
      refine (loads_entries name (by decide) (unstripped_room here.upvalues.1)
        fun s hs => loads_string name (here.upvalues.2 s (mem_of_unstripped hs))).bind ?_
      rw [← first, ← last]
      refine loads_checked name ?_
      have same := kept_eq strip q f fs
      rw [← hloaded] at same
      exact (congrArg luaGCheckcode same).symm.trans (checkcode_kept q here.checked)

end Functions

end DriverSF
