import DriverSF.ChunkRoundTrip

namespace DriverSF

open ByteCodec

/-- What the loader returns is good, and it leaves an end of the stream. -/
abbrev Accepts {α : Type} (p : Load α) (good : α → Prop) : Prop := Yields Zio.Represents p good

section Loaders

variable (name : Bytes)

theorem accepts_block (size : Nat) : Accepts (loadBlock name size) fun b => b.length = size := by
  intro z unread b z' h read
  obtain ⟨z'', found, further⟩ := luaZRead_spec h size
  rw [loadBlock, found] at read
  dsimp only at read
  split at read
  next => cases read
  next none_missing =>
    have enough : size ≤ unread.length := by omega
    obtain ⟨rfl, rfl⟩ := Prod.mk.inj (Except.ok.inj read)
    refine ⟨?_, _, List.drop_suffix size unread, further enough⟩
    exact List.length_take.trans (Nat.min_eq_left enough)

theorem accepts_byte : Accepts (loadByte name) fun _ => True :=
  (accepts_block name 1).bind fun _ _ => Yields.pure trivial

theorem charOf_bounds (b : UInt8) : -128 ≤ charOf b ∧ charOf b < 128 := by
  have small := b.toNat_lt
  unfold charOf
  split <;> omega

theorem accepts_char : Accepts (loadChar name) fun y => -128 ≤ y ∧ y < 128 :=
  (accepts_byte name).bind fun b _ => Yields.pure (charOf_bounds b)

theorem accepts_int : Accepts (loadInt name) fun n => n < 2 ^ 31 :=
  (accepts_block name sizeofInt).bind fun _ _ =>
    Yields.ite (fun small => Yields.pure small) fun _ => Yields.throw _

theorem accepts_luaNumber : Accepts (loadNumber name) fun _ => True :=
  (accepts_block name sizeofNumber).bind fun _ _ => Yields.pure trivial

theorem accepts_string : Accepts (loadString name) FitsString := by
  refine (accepts_block name sizeofSizeT).bind fun b length => ?_
  have small : decode b < 2 ^ 32 := by
    have bound := decode_lt b
    rw [length] at bound
    exact bound
  refine Yields.ite (fun _ => Yields.pure fun t h => nomatch h) fun some_size => ?_
  refine (accepts_block name (decode b)).bind fun s size => Yields.pure (fits_some ?_)
  rw [List.length_take]
  omega

theorem accepts_newVector (n size : Nat) :
    Accepts (newVector n size) fun _ => n + 1 ≤ maxSizet / size :=
  Yields.ite (fun room => Yields.pure room) fun _ => Yields.throw _

theorem length_wordsOf (n : Nat) (b : Bytes) : (wordsOf n b).length = n := by
  induction n generalizing b with
  | zero => rfl
  | succ n ih => rw [wordsOf, List.length_cons, ih]

theorem accepts_words :
    Accepts (loadWords name) fun words => words.length + 1 ≤ maxSizet / 4 := by
  refine (accepts_int name).bind fun n _ => (accepts_newVector n 4).bind fun _ room => ?_
  refine (accepts_block name (n * 4)).bind fun b _ => Yields.pure ?_
  rw [length_wordsOf]
  exact room

theorem accepts_vector {α : Type} (size : Nat) {entry : Load α} {good : α → Prop}
    (each : Accepts entry good) :
    Accepts (loadVector name size entry) fun entries =>
      entries.length + 1 ≤ maxSizet / size ∧ ∀ a ∈ entries, good a := by
  refine (accepts_int name).bind fun n _ => (accepts_newVector n size).bind fun _ room => ?_
  refine (each.many n).mono fun entries found => ⟨?_, found.2⟩
  rw [found.1]
  exact room

theorem accepts_constant : Accepts (loadConstant name) Constant.Fits := by
  refine (accepts_char name).bind fun t _ => ?_
  refine Yields.ite (fun _ => Yields.pure trivial) fun _ => ?_
  refine Yields.ite (fun _ => (accepts_char name).bind fun b bounds => Yields.pure bounds)
    fun _ => ?_
  refine Yields.ite (fun _ => (accepts_luaNumber name).bind fun _ _ => Yields.pure trivial)
    fun _ => ?_
  exact Yields.ite (fun _ => (accepts_string name).bind fun s fits => Yields.pure fits)
    fun _ => Yields.throw _

theorem natCast_fits {n : Nat} (small : n < 2 ^ 31) : 0 ≤ (n : Int) ∧ (n : Int) < 2 ^ 31 := by
  omega

theorem accepts_locVar : Accepts (loadLocVar name) LocVar.Fits := by
  refine (accepts_string name).bind fun varname fits => ?_
  refine (accepts_int name).bind fun startpc first => (accepts_int name).bind fun endpc last => ?_
  exact Yields.pure ⟨fits, natCast_fits first, natCast_fits last⟩

theorem accepts_checked (f : Proto) :
    Accepts (loadChecked name f) fun g => g = f ∧ luaGCheckcode f = some true := by
  unfold loadChecked
  split
  next ok => exact Yields.pure ⟨rfl, ok⟩
  next => exact Yields.throw _
  next => exact Yields.throw _

theorem or_fits {source p : Option Bytes} (fits : FitsString source) (fits' : FitsString p) :
    FitsString (source.or p) := by
  cases source with
  | none => exact fits'
  | some s => exact fits

/-- A loaded function fits the format, and so does every function inside it. -/
theorem accepts_function (frames : Nat) {p : Option Bytes} (some_source : p ≠ none)
    (fits : FitsString p) :
    Accepts (loadFunction name frames p) fun f =>
      f.All Proto.FitsFormat ∧ f.NestedWithin frames := by
  induction frames generalizing p with
  | zero => exact Yields.throw _
  | succ frames ih =>
    refine (accepts_string name).bind fun source source_fits => ?_
    have source_some : source.or p ≠ none := by
      cases source with
      | none => exact some_source
      | some s => exact Option.some_ne_none s
    have chosen_fits := or_fits source_fits fits
    refine (accepts_int name).bind fun linedefined first => ?_
    refine (accepts_int name).bind fun lastlinedefined last => ?_
    refine (accepts_byte name).bind fun nups _ => (accepts_byte name).bind fun numparams _ => ?_
    refine (accepts_byte name).bind fun isVararg _ => (accepts_byte name).bind fun maxstack _ => ?_
    refine (accepts_words name).bind fun code code_room => ?_
    refine (accepts_vector name sizeofTValue (accepts_constant name)).bind fun k constants => ?_
    refine (accepts_vector name sizeofPointer (ih source_some chosen_fits)).bind
      fun fs inside => ?_
    refine (accepts_words name).bind fun lineinfo lines => ?_
    refine (accepts_vector name sizeofLocVar (accepts_locVar name)).bind fun locvars locals => ?_
    refine (accepts_vector name sizeofPointer (accepts_string name)).bind fun upvalues names => ?_
    refine (accepts_checked name _).mono ?_
    rintro _ ⟨rfl, checked⟩
    exact ⟨⟨⟨⟨source_some, chosen_fits⟩, natCast_fits first, natCast_fits last, code_room,
      constants, inside.1, lines, locals, names, checked⟩, fun g hg => (inside.2 g hg).1⟩,
      fun g hg => (inside.2 g hg).2⟩

theorem accepts_undump (frames : Nat) :
    Accepts (luaUUndump frames name) fun f => f.All Proto.FitsFormat ∧ f.NestedWithin frames := by
  have header : Accepts (loadHeader (loadName name)) fun _ => True :=
    (accepts_block (loadName name) luaUHeader.length).bind fun _ _ =>
      Yields.ite (fun _ => Yields.pure trivial) fun _ => Yields.throw _
  exact header.bind fun _ _ =>
    accepts_function (loadName name) frames (Option.some_ne_none _) (fits_some (by decide))

end Loaders

end DriverSF
