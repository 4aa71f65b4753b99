import DriverSF.ChunkAccept
import DriverSF.ChunkSource
import DriverSF.CodeFlow

namespace DriverSF

open ByteCodec ByteSearch

/-- The closure that `f_parser` leaves on the stack, with its upvalues closed. -/
structure LClosure where
  p : Proto
  upvals : List Value

def lookahead : Load Int := fun z =>
  match luaZLookahead z with
  | none => .error .undefined
  | some (c, z) => .ok (c, z)

/-- `luaF_newLclosure`, with a `luaF_newupval` for each upvalue. -/
def newLclosure (tf : Proto) : LClosure := ⟨tf, List.replicate tf.nups.toNat .nil⟩

def fParser (luaYParser : Bytes → Load Proto) (frames : Nat) (name : Bytes) : Load LClosure := do
  let c ← lookahead
  let tf ← if c = char2int 0x1b then luaUUndump frames name else luaYParser name
  return newLclosure tf

section Header

variable (name : Bytes) {strip : Bool} {frames : Nat} {f : Proto}

theorem chunkOf_eq (strip : Bool) (f : Proto) :
    chunkOf strip f = luaUHeader ++ (dumpFunction strip none f).flatten := rfl

theorem loads_undump (fits : f.All Proto.FitsFormat) (room : f.NestedWithin frames) :
    Loads (loadName name) (luaUUndump frames name) (chunkOf strip f)
      (f.kept strip (some (bytes "=?"))) := by
  have block := loads_block (loadName name) luaUHeader
  have header : Loads (loadName name) (loadHeader (loadName name)) luaUHeader () := by
    have compared : Loads (loadName name) (if luaUHeader = luaUHeader then return ()
        else throw (loadError (loadName name) (bytes "bad header"))) [] () := by
      rw [if_pos rfl]
      exact Reads.pure ()
    rw [← List.append_nil luaUHeader]
    exact block.bind compared
  rw [chunkOf_eq]
  refine header.bind (loads_function (loadName name) fits room ?_)
  intro _ none
  cases fits with
  | mk here _ => exact absurd none here.source.1

end Header

section Parser

variable (luaYParser : Bytes → Load Proto) {frames : Nat} (name : Bytes)

/-- A stream that begins with the signature's first byte goes to `luaU_undump`. -/
theorem fParser_undump {z : Zio} {rest : Bytes} (h : z.Represents (0x1b :: rest)) :
    ∃ z', z'.Represents (0x1b :: rest) ∧ fParser luaYParser frames name z =
      (luaUUndump frames name >>= fun tf => pure (newLclosure tf)) z' := by
  obtain ⟨z', i, looked, reader, n, size, p, _, s⟩ := luaZLookahead_cons h
  refine ⟨_, .window reader n size i p s h.bound, ?_⟩
  have first := bind_ok (p := lookahead) (s := z) (by rw [lookahead, looked])
    fun c => do
      let tf ← if c = char2int 0x1b then luaUUndump frames name else luaYParser name
      return newLclosure tf
  exact first.trans (by rw [if_pos rfl])

theorem exists_front {front tail : Bytes} {f : Proto} {strip : Bool}
    (split : chunkOf strip f = front ++ tail) (some_front : front ≠ []) :
    ∃ rest, front = 0x1b :: rest := by
  cases front with
  | nil => exact absurd rfl some_front
  | cons c rest =>
    have header : luaUHeader = 0x1b :: luaUHeader.tail := by decide
    rw [chunkOf_eq, header] at split
    exact ⟨rest, by rw [(List.cons.inj split).1]⟩

theorem parsed_undump (frames : Nat) {buff rest : Bytes} (first : buff = 0x1b :: rest)
    (size : buff.length < 2 ^ 32) :
    ∃ z, z.Represents buff ∧ fParser luaYParser frames name (lualLoadbufferOverrideZio buff) =
      (luaUUndump frames name >>= fun tf => pure (newLclosure tf)) z := by
  subst first
  exact fParser_undump luaYParser name (lualLoadbufferZio_represents size)

variable {strip : Bool} {f : Proto}

/-- Through the loader of the hooks, the parser makes of a dumped function a closure of it, with
what the dump has kept, and consumes all of the chunk. -/
theorem fParser_chunkOf (fits : f.All Proto.FitsFormat) (room : f.NestedWithin frames)
    (size : (chunkOf strip f).length < 2 ^ 32) :
    ∃ z, fParser luaYParser frames name (lualLoadbufferOverrideZio (chunkOf strip f)) =
        .ok (newLclosure (f.kept strip (some (bytes "=?"))), z) ∧ z.Represents [] := by
  obtain ⟨rest, first⟩ := exists_front (List.append_nil (chunkOf strip f)).symm (List.cons_ne_nil _ _)
  obtain ⟨z, held, parsed⟩ := parsed_undump luaYParser name frames first size
  rw [← List.append_nil (chunkOf strip f)] at held
  obtain ⟨z', loaded, done⟩ := ((loads_undump name fits room).last).whole z [] held
  exact ⟨z', parsed.trans loaded, done⟩

end Parser

section Writer

variable {δ : Type}

/-- A writer to a file appends the block, and if it fails only a beginning of it. -/
structure WritesTo (writer : LuaWriter δ) (file : δ → Bytes) : Prop where
  whole : ∀ data b data', writer data b = (0, data') → file data' = file data ++ b
  cut : ∀ data b status data', writer data b = (status, data') → status ≠ 0 →
    ∃ front tail, b = front ++ tail ∧ tail ≠ [] ∧ file data' = file data ++ front

theorem Writes.file {writer : LuaWriter δ} {file : δ → Bytes} (writes : WritesTo writer file)
    {bs : Blocks} {data data' : δ} (h : Writes writer data bs data') :
    file data' = file data ++ bs.flatten := by
  induction bs generalizing data with
  | nil =>
    obtain rfl : data = data' := h
    rw [List.flatten_nil, List.append_nil]
  | cons b bs ih =>
    obtain ⟨next, written, later⟩ := h
    rw [ih later, writes.whole data b next written, List.flatten_cons, List.append_assoc]

variable {writer : LuaWriter δ} {file : δ → Bytes} {strip : Bool} {frames : Nat} {f : Proto}

theorem constantFunction_fits : constantFunction.All Proto.FitsFormat :=
  .mk ⟨⟨by decide, fits_some (by decide)⟩, by decide, by decide, by decide,
    ⟨by decide, List.forall_mem_singleton.mpr (fits_some (by decide))⟩, by decide, by decide,
    ⟨by decide, fun _ h => nomatch h⟩, ⟨by decide, fun _ h => nomatch h⟩, by decide⟩
    fun _ h => nomatch h

theorem constantFunction_nested : constantFunction.NestedWithin 1 := fun _ h => nomatch h

end Writer

section Reload

variable {luaYParser : Bytes → Load Proto} {frames : Nat} {name : Bytes} {f : Proto}

/-- A precompiled chunk that is parsed, from whatever source, gives a function that fits the
format, with checked code throughout, so that its dump is parsed to it again. -/
theorem fParser_reload {buff rest : Bytes} (first : buff = 0x1b :: rest)
    (size : buff.length < 2 ^ 32) {c : LClosure} {z : Zio}
    (h : fParser luaYParser frames name (lualLoadbufferOverrideZio buff) = .ok (c, z)) :
    c = newLclosure c.p ∧ c.p.All Proto.FitsFormat ∧ (∃ read, read <:+ buff ∧ z.Represents read) ∧
      ∀ name' strip, (chunkOf strip c.p).length < 2 ^ 32 →
        ∃ z', fParser luaYParser frames name' (lualLoadbufferOverrideZio (chunkOf strip c.p)) =
          .ok (newLclosure (c.p.kept strip (some (bytes "=?"))), z') ∧ z'.Represents [] := by
  obtain ⟨z', held, parsed⟩ := parsed_undump luaYParser name frames first size
  obtain ⟨tf, t, undumped, closed⟩ := bind_eq_ok.mp (parsed.symm.trans h)
  obtain ⟨rfl, rfl⟩ := Prod.mk.inj (Except.ok.inj closed)
  obtain ⟨⟨fits, room⟩, read, suffix, left⟩ := accepts_undump name frames z' buff tf t held undumped
  exact ⟨rfl, fits, ⟨read, suffix, left⟩, fun name' strip size' =>
    fParser_chunkOf luaYParser name' fits room size'⟩

theorem fParser_reload_constant : ∃ c z,
    fParser (fun _ => throw .undefined) 1 [] (lualLoadbufferOverrideZio
      (chunkOf true constantFunction)) = .ok (c, z) ∧
    c = newLclosure c.p ∧ c.p.All Proto.FitsFormat ∧
      (∃ read, read <:+ chunkOf true constantFunction ∧ z.Represents read) ∧
      ∀ name' strip, (chunkOf strip c.p).length < 2 ^ 32 →
        ∃ z', fParser (fun _ => throw .undefined) 1 name'
            (lualLoadbufferOverrideZio (chunkOf strip c.p)) =
          .ok (newLclosure (c.p.kept strip (some (bytes "=?"))), z') ∧ z'.Represents [] := by
  have small : (chunkOf true constantFunction).length < 2 ^ 32 := by decide
  obtain ⟨z, parsed, _⟩ := fParser_chunkOf (fun _ => throw .undefined) [] constantFunction_fits
    constantFunction_nested small
  have first : chunkOf true constantFunction = 0x1b :: (chunkOf true constantFunction).tail := by
    decide
  exact ⟨_, z, parsed, fParser_reload first small parsed⟩

end Reload

section HookName

theorem backslashes_of_pair {content : Bytes} {j : Nat} (h : pair <+: content.drop j) :
    content[j]? = some 92 ∧ content[j + 1]? = some 92 := by
  obtain ⟨rest, found⟩ := h
  have first : (content.drop j)[0]? = some 92 := by
    rw [← found]
    rfl
  have second : (content.drop j)[1]? = some 92 := by
    rw [← found]
    rfl
  rw [List.getElem?_drop] at first second
  exact ⟨first, second⟩

theorem backslash_of_shown {c : UInt8} (h : (if c = 0 then 32 else c) = 92) : c = 92 := by
  split at h
  next => exact absurd h (by decide)
  next => exact h

/-- No pair of backslashes begins in the header or in the size of a short source name. -/
theorem header_absent {n : Nat} (short : n < 0x5c5c) (rest : Bytes) {j : Nat} (hj : j < 16) :
    ¬ pair <+: (shown (luaUHeader ++ (encode 4 n ++ rest))).drop j := by
  intro h
  obtain ⟨here, next⟩ := backslashes_of_pair h
  have twelve : luaUHeader.length = 12 := by decide
  by_cases inside : j < 12
  · have plain : ∀ i < 12, (shown luaUHeader)[i]? ≠ some 92 := by decide
    rw [shown_append, List.getElem?_append_left (by rw [shown_length, twelve]; exact inside)]
      at here
    exact plain j inside here
  · obtain ⟨i, rfl⟩ := Nat.exists_eq_add_of_le (Nat.le_of_not_lt inside)
    have high : n / 256 / 256 = 0 := by omega
    have sizes : encode 4 n = [UInt8.ofNat n, UInt8.ofNat (n / 256), 0, 0] := by
      simp only [encode, high]
      rfl
    rw [shown_append, ← twelve, ← shown_length luaUHeader, Nat.add_assoc] at next
    rw [shown_append, ← twelve, ← shown_length luaUHeader] at here
    rw [List.getElem?_append_right (Nat.le_add_right _ _), Nat.add_sub_cancel_left, sizes]
      at here next
    have nul : (32 : UInt8) ≠ 92 := by decide
    rcases (by omega : i = 0 ∨ i = 1 ∨ i = 2 ∨ i = 3) with rfl | rfl | rfl | rfl
    · have low := backslash_of_shown (Option.some.inj here)
      have high := backslash_of_shown (Option.some.inj next)
      have low' := congrArg UInt8.toNat low
      have high' := congrArg UInt8.toNat high
      rw [UInt8.toNat_ofNat'] at low' high'
      have value : (92 : UInt8).toNat = 92 := rfl
      omega
    · exact nul (Option.some.inj next)
    · exact nul (Option.some.inj here)
    · exact nul (Option.some.inj here)

/-- A chunk with the cut of a script's path in its source name gets its hook name from there,
whatever else is in it. -/
theorem derivedName_chunkOf {f : Proto} {s cut : Bytes} (source : f.source = some s)
    (short : s.length + 1 < 0x5c5c) (size : (chunkOf false f).length < 2 ^ 32)
    (named : ChunkCut (shown s) cut) : derivedName (chunkOf false f) = some (cut ++ bytes ".luac") := by
  obtain ⟨f, fs⟩ := f
  obtain ⟨front, behind, back, split, lua⟩ := named
  obtain ⟨rest, chunk⟩ : ∃ rest, chunkOf false ⟨f, fs⟩ =
      (luaUHeader ++ encode 4 (s.length + 1)) ++ (s ++ rest) := by
    have written : (if f.source = none ∨ false = true then none else f.source) = some s := by
      rw [show f.source = some s from source, if_neg (by simp)]
    rw [chunkOf_eq, dumpFunction, written, dumpString]
    simp only [List.flatten_append, List.flatten_cons, List.append_assoc]
    exact ⟨_, rfl⟩
  have absent : ∀ j < (luaUHeader ++ encode 4 (s.length + 1)).length,
      ¬ pair <+: (shown ((luaUHeader ++ encode 4 (s.length + 1)) ++ (s ++ rest))).drop j := by
    intro j hj
    have sixteen : (luaUHeader ++ encode 4 (s.length + 1)).length = 16 := by
      rw [List.length_append, length_encode]
      rfl
    rw [sixteen] at hj
    rw [List.append_assoc]
    exact header_absent short _ hj
  obtain ⟨split', lua'⟩ := chunkCut_of_field absent split lua
  rw [← chunk] at split'
  exact (derivedName_eq_some size).mpr ⟨cut, ⟨_, _, _, split', lua'⟩, rfl⟩

/-- A script that returns a constant, compiled from a file. -/
def hudScript : Proto :=
  { constantFunction with source := some (bytes "@scripts\\\\visuals\\hud.lua") }

theorem derivedName_chunkOf_hud :
    derivedName (chunkOf false hudScript) = some (bytes "visuals\\hud" ++ bytes ".luac") :=
  derivedName_chunkOf rfl (by decide) (by decide)
    ⟨bytes "@scripts", bytes "visuals\\hud.lua", [], ⟨by decide, by decide⟩,
      ⟨by decide, by decide⟩⟩

end HookName

end DriverSF
