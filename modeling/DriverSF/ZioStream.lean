import Mathlib.Algebra.Group.Nat.Defs
import DriverSF.LuaValue
import DriverSF.StreamRun

namespace DriverSF

open StreamRun

/-- `LoadS`: a buffer and the size that its reader has still to hand out. -/
structure LoadS where
  s : Bytes
  size : Nat
  deriving DecidableEq, Repr

/-- What a pointer into the buffer points to. -/
def LoadS.at (ls : LoadS) (p : Option Nat) : Option UInt8 := p.bind fun i => ls.s[i]?

def LoadS.memcpy (ls : LoadS) (p : Option Nat) (m : Nat) : Option Bytes :=
  p.bind fun i => if i + m ≤ ls.s.length then some ((ls.s.drop i).take m) else none

/-- A reader returns the position of a block in the buffer and its size, or NULL. -/
abbrev LuaReader := LoadS → Option (Nat × Nat) × LoadS

/-- A null pointer is `none`, and a pointer into the buffer is its offset. -/
structure Zio where
  n : Nat
  p : Option Nat
  reader : LuaReader
  data : LoadS

def eoz : Int := -1

def char2int (c : UInt8) : Int := c.toNat

/-- `luaZ_fill`; `none` where the C code reads outside the buffer. -/
def luaZFill (z : Zio) : Option (Int × Zio) :=
  match z.reader z.data with
  | (none, data) => some (eoz, { z with data })
  | (some (buff, size), data) =>
    if size = 0 then some (eoz, { z with data })
    else do
      let c ← data.at (some buff)
      return (char2int c, { z with n := size - 1, p := some (buff + 1), data })

def luaZLookahead (z : Zio) : Option (Int × Zio) :=
  if z.n = 0 then do
    let (c, z) ← luaZFill z
    if c = eoz then return (eoz, z)
    -- luaZ_fill removed first byte; put back it
    let z := { z with n := (z.n + 1) % 2 ^ 32, p := z.p.map (· - 1) }
    let c ← z.data.at z.p
    return (char2int c, z)
  else do
    let c ← z.data.at z.p
    return (char2int c, z)

/-- `zgetc`: the 32-bit counter is decremented before it is known to be positive. -/
def zgetc (z : Zio) : Option (Int × Zio) :=
  let n := (z.n + 2 ^ 32 - 1) % 2 ^ 32
  if 0 < z.n then do
    let c ← z.data.at z.p
    return (char2int c, { z with n, p := z.p.map (· + 1) })
  else luaZFill { z with n }

/-- The loop of `luaZ_read`: the bytes missing in the end, and the bytes copied to `b`. -/
def luaZReadLoop : Nat → Zio → Bytes → Nat → Option (Nat × Bytes × Zio)
  | _, z, b, 0 => some (0, b, z)
  | 0, _, _, _ + 1 => none
  | rounds + 1, z, b, n + 1 => do
    let (c, z) ← luaZLookahead z
    if c = eoz then return (n + 1, b, z)
    let m := if n + 1 ≤ z.n then n + 1 else z.n
    let block ← z.data.memcpy z.p m
    luaZReadLoop rounds { z with n := z.n - m, p := z.p.map (· + m) } (b ++ block) (n + 1 - m)

/-- As many rounds as bytes are enough, since each round copies one at least. -/
def luaZRead (z : Zio) (n : Nat) : Option (Nat × Bytes × Zio) := luaZReadLoop n z [] n

def luaZInit (reader : LuaReader) (data : LoadS) : Zio := ⟨0, none, reader, data⟩

def getS (ls : LoadS) : Option (Nat × Nat) × LoadS :=
  if ls.size = 0 then (none, ls) else (some (0, ls.size), { ls with size := 0 })

/-- The stream that `luaL_loadbuffer` prepares for the parser. -/
def lualLoadbufferZio (buff : Bytes) : Zio := luaZInit getS ⟨buff, buff.length⟩

def luazInitOverride (reader : LuaReader) (data : LoadS) : Zio :=
  { n := 0, p := none, reader, data }

def getSOverride (ls : LoadS) : Option (Nat × Nat) × LoadS :=
  if ls.size = 0 then (none, ls)
  else
    let size := ls.size
    let ls := { ls with size := 0 }
    (some (0, size), ls)

/-- The stream that `lual_loadbuffer_override` prepares for the parser. -/
def lualLoadbufferOverrideZio (buff : Bytes) : Zio :=
  luazInitOverride getSOverride ⟨buff, buff.length⟩

inductive ZioOp where
  | zgetc
  | lookahead
  | read (n : Nat)
  deriving DecidableEq, Repr

inductive ZioReply where
  | char (c : Int)
  | block (b : Bytes) (missing : Nat)
  deriving DecidableEq, Repr

def ZioReply.Ends : ZioReply → Prop
  | char c => c = eoz
  | block _ missing => missing ≠ 0

instance : DecidablePred ZioReply.Ends
  | .char c => inferInstanceAs (Decidable (c = eoz))
  | .block _ missing => inferInstanceAs (Decidable (missing ≠ 0))

def zioStep (z : Zio) : ZioOp → Option (ZioReply × Zio)
  | .zgetc => (zgetc z).map fun (c, z) => (.char c, z)
  | .lookahead => (luaZLookahead z).map fun (c, z) => (.char c, z)
  | .read n => (luaZRead z n).map fun (missing, b, z) => (.block b missing, z)

/-- What an operation has to reply when some bytes are unread, and what is unread then. -/
inductive Delivers : Bytes → ZioOp → ZioReply → Bytes → Prop
  | zgetc (c : UInt8) (rest : Bytes) : Delivers (c :: rest) .zgetc (.char (char2int c)) rest
  | zgetcEnd : Delivers [] .zgetc (.char eoz) []
  | lookahead (c : UInt8) (rest : Bytes) :
    Delivers (c :: rest) .lookahead (.char (char2int c)) (c :: rest)
  | lookaheadEnd : Delivers [] .lookahead (.char eoz) []
  | read {unread : Bytes} {n : Nat} (enough : n ≤ unread.length) :
    Delivers unread (.read n) (.block (unread.take n) 0) (unread.drop n)
  | readEnd {unread : Bytes} {n : Nat} (short : unread.length < n) :
    Delivers unread (.read n) (.block unread (n - unread.length)) []

/-- The bytes that a reply takes out of the stream. -/
def consumed : ZioOp → ZioReply → Bytes
  | .zgetc, .char c => if c = eoz then [] else [UInt8.ofNat c.toNat]
  | .read _, .block b _ => b
  | _, _ => []

theorem char2int_ne_eoz (c : UInt8) : char2int c ≠ eoz := by
  unfold char2int eoz
  omega

theorem Delivers.consumed_append {unread rest : Bytes} {op : ZioOp} {reply : ZioReply}
    (h : Delivers unread op reply rest) : unread = consumed op reply ++ rest := by
  cases h with
  | zgetc c =>
    have byte : UInt8.ofNat (char2int c).toNat = c := by simp [char2int]
    rw [consumed, if_neg (char2int_ne_eoz c), byte]
    rfl
  | zgetcEnd => rfl
  | lookahead c rest => rfl
  | lookaheadEnd => rfl
  | read enough => exact (List.take_append_drop _ _).symm
  | readEnd short => exact (List.append_nil _).symm

theorem Delivers.ended {unread rest : Bytes} {op : ZioOp} {reply : ZioReply}
    (h : Delivers unread op reply rest) (he : reply.Ends) : rest = [] := by
  cases h with
  | zgetc c => exact absurd he (char2int_ne_eoz c)
  | zgetcEnd => rfl
  | lookahead c rest => exact absurd he (char2int_ne_eoz c)
  | lookaheadEnd => rfl
  | read enough => exact absurd rfl he
  | readEnd short => rfl

/-- Before the first block the reader has the whole buffer still to hand out, and then the
window is what is unread of it. -/
inductive Zio.Represents (z : Zio) (unread : Bytes) : Prop
  | waiting (reader : z.reader = getS) (n : z.n = 0) (size : z.data.size = unread.length)
    (s : z.data.s = unread) (bound : unread.length < 2 ^ 32)
  | window (reader : z.reader = getS) (n : z.n = unread.length) (size : z.data.size = 0)
    (i : Nat) (p : z.p = some i) (s : z.data.s.drop i = unread) (bound : unread.length < 2 ^ 32)

theorem Zio.Represents.bound {z : Zio} {unread : Bytes} (h : z.Represents unread) :
    unread.length < 2 ^ 32 := by
  cases h with
  | waiting _ _ _ _ bound => exact bound
  | window _ _ _ _ _ _ bound => exact bound

/-- At the end the window is empty and the reader has nothing more to hand out. -/
theorem Zio.Represents.at_end {z : Zio} (h : z.Represents []) :
    z.reader = getS ∧ z.n = 0 ∧ z.data.size = 0 := by
  cases h with
  | waiting reader n size => exact ⟨reader, n, size⟩
  | window reader n size => exact ⟨reader, n, size⟩

theorem LoadS.at_drop {ls : LoadS} {i : Nat} {c : UInt8} {rest : Bytes}
    (h : ls.s.drop i = c :: rest) : ls.at (some i) = some c := by
  have first : (ls.s.drop i)[0]? = some c := by rw [h]; rfl
  rw [List.getElem?_drop] at first
  exact first

theorem LoadS.memcpy_drop {ls : LoadS} {i m : Nat} {unread : Bytes}
    (h : ls.s.drop i = unread) (room : m ≤ unread.length) (start : i ≤ ls.s.length) :
    ls.memcpy (some i) m = some (unread.take m) := by
  have len := congrArg List.length h
  rw [List.length_drop] at len
  show (if i + m ≤ ls.s.length then some ((ls.s.drop i).take m) else none) = _
  rw [if_pos (by omega), h]

theorem luaZFill_end {z : Zio} (reader : z.reader = getS) (size : z.data.size = 0) :
    luaZFill z = some (eoz, z) := by
  simp only [luaZFill, reader, getS, size, if_true]
  rw [← reader]

theorem luaZFill_waiting {z : Zio} {c : UInt8} {rest : Bytes} (reader : z.reader = getS)
    (size : z.data.size = rest.length + 1) (s : z.data.s = c :: rest) :
    luaZFill z =
      some (char2int c, { z with n := rest.length, p := some 1, data := ⟨z.data.s, 0⟩ }) := by
  have first : ({ z.data with size := 0 } : LoadS).at (some 0) = some c := LoadS.at_drop s
  simp [luaZFill, reader, getS, size, first]

theorem zgetc_nil {z : Zio} (h : z.Represents []) :
    ∃ z', zgetc z = some (eoz, z') := by
  obtain ⟨reader, n, size⟩ := h.at_end
  rw [zgetc, if_neg (by omega)]
  exact ⟨_, luaZFill_end reader size⟩

theorem zgetc_cons {z : Zio} {c : UInt8} {rest : Bytes} (h : z.Represents (c :: rest)) :
    ∃ z', zgetc z = some (char2int c, z') ∧ z'.Represents rest := by
  cases h with
  | waiting reader n size s bound =>
    have filled := luaZFill_waiting (z := { z with n := (z.n + 2 ^ 32 - 1) % 2 ^ 32 })
      reader size s
    rw [zgetc, if_neg (by omega)]
    exact ⟨_, filled, .window reader rfl rfl 1 rfl (by simp [s]) (by simp at bound; omega)⟩
  | window reader n size i p s bound =>
    rw [List.length_cons] at n bound
    have byte := LoadS.at_drop s
    have less : (z.n + 2 ^ 32 - 1) % 2 ^ 32 = rest.length := by omega
    rw [zgetc, if_pos (by omega), p, byte, less]
    refine ⟨_, rfl, .window reader rfl size (i + 1) rfl ?_ (by omega)⟩
    show z.data.s.drop (i + 1) = rest
    rw [← List.drop_drop, s]
    rfl

theorem luaZLookahead_nil {z : Zio} (h : z.Represents []) :
    luaZLookahead z = some (eoz, z) := by
  obtain ⟨reader, n, size⟩ := h.at_end
  rw [luaZLookahead, if_pos n, luaZFill_end reader size]
  rfl

/-- The byte that the refill consumed is put back. -/
theorem luaZLookahead_cons {z : Zio} {c : UInt8} {rest : Bytes} (h : z.Represents (c :: rest)) :
    ∃ z' i, luaZLookahead z = some (char2int c, z') ∧ z'.reader = getS ∧
      z'.n = rest.length + 1 ∧ z'.data.size = 0 ∧ z'.p = some i ∧ i ≤ z'.data.s.length ∧
      z'.data.s.drop i = c :: rest := by
  cases h with
  | waiting reader n size s bound =>
    have filled := luaZFill_waiting reader size s
    have first : ({ z.data with size := 0 } : LoadS).at (some 0) = some c := LoadS.at_drop s
    have back : (rest.length + 1) % 2 ^ 32 = rest.length + 1 := Nat.mod_eq_of_lt bound
    rw [luaZLookahead, if_pos n, filled]
    refine ⟨{ z with n := rest.length + 1, p := some 0, data := ⟨z.data.s, 0⟩ }, 0, ?_, reader,
      rfl, rfl, rfl, Nat.zero_le _, s⟩
    simp only [Option.pure_def, Option.bind_eq_bind, Option.bind_some, char2int_ne_eoz, if_false,
      Option.map_some, Nat.sub_self, first, back]
  | window reader n size i p s bound =>
    have byte := LoadS.at_drop s
    have len := congrArg List.length s
    rw [List.length_drop, List.length_cons] at len
    rw [luaZLookahead, if_neg (by rw [n]; simp), p, byte]
    exact ⟨z, i, rfl, reader, n, size, p, by omega, s⟩

theorem take_of_take_drop {α : Type*} {m n : Nat} (h : m ≤ n) (s : List α) :
    s.take m ++ (s.drop m).take (n - m) = s.take n := by
  obtain ⟨k, rfl⟩ := Nat.le.dest h
  rw [Nat.add_sub_cancel_left, List.take_add]

/-- Each round copies what is asked for or all that is left in the window. -/
theorem luaZReadLoop_spec {z : Zio} {unread b : Bytes} {n rounds : Nat}
    (h : z.Represents unread) (enough : n ≤ rounds) :
    ∃ z', luaZReadLoop rounds z b n =
        some (n - unread.length, b ++ unread.take n, z') ∧
      (n ≤ unread.length → z'.Represents (unread.drop n)) := by
  induction rounds generalizing z unread b n with
  | zero =>
    obtain rfl : n = 0 := Nat.le_zero.mp enough
    exact ⟨z, by simp [luaZReadLoop], fun _ => h⟩
  | succ rounds ih =>
    cases n with
    | zero => exact ⟨z, by simp [luaZReadLoop], fun _ => h⟩
    | succ n =>
      cases unread with
      | nil =>
        rw [luaZReadLoop, luaZLookahead_nil h]
        exact ⟨z, by simp, by simp⟩
      | cons c rest =>
        obtain ⟨z', i, looked, reader, left, size, p, start, s⟩ := luaZLookahead_cons h
        have len : (c :: rest).length = rest.length + 1 := rfl
        obtain ⟨m, hm⟩ : ∃ m, m = if n + 1 ≤ z'.n then n + 1 else z'.n := ⟨_, rfl⟩
        have pos : 1 ≤ m := by rw [hm]; split <;> omega
        have asked : m ≤ n + 1 := by rw [hm]; split <;> omega
        have inside : m ≤ (c :: rest).length := by rw [hm]; split <;> omega
        have block := LoadS.memcpy_drop s inside start
        have window : ({ z' with n := z'.n - m, p := some (i + m) } : Zio).Represents
            ((c :: rest).drop m) := by
          have bound := h.bound
          refine .window reader ?_ size (i + m) rfl ?_ ?_
          · show z'.n - m = _
            rw [left, List.length_drop, len]
          · rw [← List.drop_drop, s]
          · rw [List.length_drop]
            omega
        obtain ⟨z'', ran, further⟩ := ih (b := b ++ (c :: rest).take m) (n := n + 1 - m) window
          (by omega)
        refine ⟨z'', ?_, ?_⟩
        · have missing : n + 1 - m - ((c :: rest).drop m).length = n + 1 - (c :: rest).length := by
            rw [List.length_drop]
            omega
          rw [missing, List.append_assoc, take_of_take_drop asked] at ran
          rw [luaZReadLoop, looked]
          simp only [Option.pure_def, Option.bind_eq_bind, Option.bind_some, char2int_ne_eoz,
            if_false, p, Option.map_some, ← hm, block, ran]
        · intro all
          have rounds_left := further (by rw [List.length_drop]; omega)
          rwa [List.drop_drop, Nat.add_sub_cancel' asked] at rounds_left

theorem luaZRead_spec {z : Zio} {unread : Bytes} (h : z.Represents unread) (n : Nat) :
    ∃ z', luaZRead z n = some (n - unread.length, unread.take n, z') ∧
      (n ≤ unread.length → z'.Represents (unread.drop n)) :=
  luaZReadLoop_spec h (Nat.le_refl n)

theorem zioStep_delivers {z : Zio} {unread : Bytes} (op : ZioOp) (h : z.Represents unread) :
    ∃ reply z' rest, zioStep z op = some (reply, z') ∧ Delivers unread op reply rest ∧
      (¬ reply.Ends → z'.Represents rest) := by
  cases op with
  | zgetc =>
    cases unread with
    | nil =>
      obtain ⟨z', got⟩ := zgetc_nil h
      exact ⟨.char eoz, z', [], by rw [zioStep, got]; rfl, .zgetcEnd, fun he => absurd rfl he⟩
    | cons c rest =>
      obtain ⟨z', got, further⟩ := zgetc_cons h
      exact ⟨_, z', rest, by rw [zioStep, got]; rfl, .zgetc c rest, fun _ => further⟩
  | lookahead =>
    cases unread with
    | nil =>
      exact ⟨.char eoz, z, [], by rw [zioStep, luaZLookahead_nil h]; rfl, .lookaheadEnd, fun _ => h⟩
    | cons c rest =>
      obtain ⟨z', i, looked, reader, n, size, p, _, s⟩ := luaZLookahead_cons h
      exact ⟨_, z', c :: rest, by rw [zioStep, looked]; rfl, .lookahead c rest,
        fun _ => .window reader n size i p s h.bound⟩
  | read n =>
    obtain ⟨z', got, further⟩ := luaZRead_spec h n
    have stepped : zioStep z (.read n) = some (.block (unread.take n) (n - unread.length), z') := by
      rw [zioStep, got]
      rfl
    by_cases enough : n ≤ unread.length
    · rw [Nat.sub_eq_zero_of_le enough] at stepped
      exact ⟨_, z', _, stepped, .read enough, fun _ => further enough⟩
    · rw [List.take_of_length_le (by omega)] at stepped
      refine ⟨_, z', [], stepped, .readEnd (by omega), fun he => absurd ?_ he⟩
      show n - unread.length ≠ 0
      omega

theorem getSOverride_eq : getSOverride = getS := rfl

theorem lualLoadbufferZio_represents {buff : Bytes} (size : buff.length < 2 ^ 32) :
    (lualLoadbufferZio buff).Represents buff := .waiting rfl rfl rfl rfl size

/-- Through both loaders the parser gets exactly the buffer, from its first byte on and up to the
end of the stream, which is reported when all of it has been consumed. -/
theorem loadbufferOverride_delivers {buff : Bytes} (size : buff.length < 2 ^ 32)
    (ops : List ZioOp) :
    ∃ replies rest,
      run zioStep ZioReply.Ends (lualLoadbufferOverrideZio buff) ops = some replies ∧
      run zioStep ZioReply.Ends (lualLoadbufferZio buff) ops = some replies ∧
      Allows Delivers ZioReply.Ends buff ops replies rest ∧
      buff = (List.zipWith consumed ops replies).flatten ++ rest ∧
      ∀ reply ∈ replies, reply.Ends → rest = [] := by
  obtain ⟨replies, rest, ran, allowed⟩ := run_allows zioStep_delivers
    (lualLoadbufferZio_represents size) ops
  have same : lualLoadbufferOverrideZio buff = lualLoadbufferZio buff := by
    rw [lualLoadbufferOverrideZio, getSOverride_eq]
    rfl
  exact ⟨replies, rest, same ▸ ran, ran, allowed,
    allowed.taken fun _ _ _ _ h => h.consumed_append,
    fun _ => allowed.ended fun _ _ _ _ h => h.ended⟩

theorem loadbufferOverride_delivers_nul :
    ∃ replies rest,
      run zioStep ZioReply.Ends (lualLoadbufferOverrideZio [0, 255])
        [.lookahead, .zgetc, .read 2] = some replies ∧
      run zioStep ZioReply.Ends (lualLoadbufferZio [0, 255]) [.lookahead, .zgetc, .read 2] =
        some replies ∧
      Allows Delivers ZioReply.Ends [0, 255] [.lookahead, .zgetc, .read 2] replies rest ∧
      [0, 255] = (List.zipWith consumed [.lookahead, .zgetc, .read 2] replies).flatten ++ rest ∧
      ∀ reply ∈ replies, reply.Ends → rest = [] :=
  loadbufferOverride_delivers (by decide) [.lookahead, .zgetc, .read 2]

example : run zioStep ZioReply.Ends (lualLoadbufferOverrideZio [0, 255])
    [.lookahead, .zgetc, .read 2] = some [.char 0, .char 0, .block [255] 1] := by decide

end DriverSF
