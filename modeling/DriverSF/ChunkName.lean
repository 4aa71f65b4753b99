import DriverSF.ParserHook

namespace DriverSF

open ByteSearch

/-- The bytes of a chunk as the hook searches them, its NULs shown as spaces. -/
def shown (source : Bytes) : Bytes := source.map fun c => if c = 0 then 32 else c

def pair : Bytes := bytes "\\\\"

/-- `cut` is what lies between the first two consecutive backslashes of a chunk and the first
`.lua` behind them. -/
def ChunkCut (content cut : Bytes) : Prop :=
  ∃ front rest back, Splits pair content front rest ∧ Splits (bytes ".lua") rest cut back

theorem ChunkCut.unique {content cut cut' : Bytes} (h : ChunkCut content cut)
    (h' : ChunkCut content cut') : cut = cut' := by
  obtain ⟨_, rest, _, split, lua⟩ := h
  obtain ⟨_, _, _, split', lua'⟩ := h'
  obtain ⟨_, rfl⟩ := split.unique split'
  exact (lua.unique lua').1

theorem occurs_of_occurs_concat {α : Type*} {p s : List α} {a : α} (h : p ++ [a] <:+: s ++ [a]) :
    p <:+: s := by
  obtain ⟨front, back, eq⟩ := h
  rcases List.eq_nil_or_concat back with rfl | ⟨back, b, rfl⟩
  · have last : (front ++ p) ++ [a] = s ++ [a] := by simpa using eq
    exact ⟨front, [], by simpa using (List.append_inj' last rfl).1⟩
  · have last : (front ++ p ++ a :: back) ++ [b] = s ++ [a] := by simpa using eq
    exact ⟨front, a :: back, (List.append_inj' last rfl).1⟩

theorem lua_not_prefix_slash (s : Bytes) : ¬ bytes ".lua" <+: 92 :: s := by
  intro found
  have first := (List.cons_prefix_cons.mp found).1
  revert first
  decide

theorem splits_pair_append {rest cut back : Bytes} (h : Splits (bytes ".lua") rest cut back) :
    Splits (bytes ".lua") (pair ++ rest) (pair ++ cut) back :=
  (h.cons (lua_not_prefix_slash rest)).cons (lua_not_prefix_slash _)

theorem lua_inside_pair_append {rest : Bytes} (h : bytes ".lua" <:+: pair ++ rest) :
    bytes ".lua" <:+: rest := by
  have later := (List.infix_cons_iff.mp h).resolve_left (lua_not_prefix_slash _)
  exact (List.infix_cons_iff.mp later).resolve_left (lua_not_prefix_slash _)

/-- The search for `.lua` starts at the pair itself. -/
theorem drop_pair {content front rest : Bytes} (h : Splits pair content front rest) :
    content.drop front.length = pair ++ rest := by
  rw [h.eq, List.append_assoc, List.drop_left]

theorem drop_behind_pair {content front rest : Bytes} (h : Splits pair content front rest) :
    content.drop (front.length + 2) = rest := by
  have two : pair.length = 2 := by decide
  rw [h.eq, ← two, ← List.length_append, List.drop_left]

theorem length_of_pair {content front rest : Bytes} (h : Splits pair content front rest) :
    content.length = front.length + 2 + rest.length := by
  have two : pair.length = 2 := by decide
  rw [h.eq, List.length_append, List.length_append, two]

@[simp] theorem shown_length (source : Bytes) : (shown source).length = source.length := by
  simp [shown]

theorem bufferName_eq (source : Bytes) : bufferName source =
    (substr (shown source) ((find (shown source) pair 0 + 2) % 2 ^ 32)
      ((find (shown source) (bytes ".lua") (find (shown source) pair 0) + 2 ^ 32 -
        find (shown source) pair 0 + 2) % 2 ^ 32)).map (· ++ bytes "c") := rfl

/-- Without a pair both searches return `npos`, and the name is cut from the second byte. -/
theorem bufferName_of_no_pair {source : Bytes} (nonempty : source ≠ [])
    (size : source.length < 2 ^ 32) (absent : ¬ pair <:+: shown source) :
    bufferName source = some (((shown source).drop 1).take 2 ++ bytes "c") := by
  have start : find (shown source) pair 0 = npos := find_of_absent absent (by decide)
  have beyond : (shown source).drop npos = [] :=
    List.drop_eq_nil_of_le (by simp only [shown_length, npos]; omega)
  have last : find (shown source) (bytes ".lua") npos = npos :=
    find_of_absent (by rw [beyond]; decide) (by decide)
  have position : 1 ≤ (shown source).length := by
    rw [shown_length]
    exact List.length_pos_iff.mpr nonempty
  have wrapped : (npos + 2) % 2 ^ 32 = 1 := by decide
  have count : (npos + 2 ^ 32 - npos + 2) % 2 ^ 32 = 2 := by decide
  rw [bufferName_eq, start, last, wrapped, count, substr, if_pos position]
  rfl

/-- Without `.lua` the count wraps, and some of the rest of the chunk is the name. -/
theorem bufferName_of_no_lua {source front rest : Bytes} (size : source.length < 2 ^ 32)
    (split : Splits pair (shown source) front rest) (absent : ¬ bytes ".lua" <:+: rest) :
    ∃ n, bufferName source = some (rest.take n ++ bytes "c") := by
  have last : find (shown source) (bytes ".lua") front.length = npos := by
    refine find_of_absent ?_ (by decide)
    rw [drop_pair split]
    exact mt lua_inside_pair_append absent
  have len := length_of_pair split
  have inside : front.length + 2 ≤ (shown source).length := by omega
  rw [shown_length] at len
  have position : (front.length + 2) % 2 ^ 32 = front.length + 2 := Nat.mod_eq_of_lt (by omega)
  refine ⟨(npos + 2 ^ 32 - front.length + 2) % 2 ^ 32, ?_⟩
  rw [bufferName_eq, find_zero_of_splits split, last, position, substr, if_pos inside, drop_behind_pair split]
  rfl

theorem bufferName_of_cut {source front rest cut back : Bytes} (size : source.length < 2 ^ 32)
    (split : Splits pair (shown source) front rest) (split' : Splits (bytes ".lua") rest cut back) :
    bufferName source = some (cut ++ bytes ".luac") := by
  have len := length_of_pair split
  have inside : front.length + 2 ≤ (shown source).length := by omega
  rw [shown_length] at len
  have four : (bytes ".lua").length = 4 := by decide
  have len' : rest.length = cut.length + 4 + back.length := by
    rw [split'.eq, List.length_append, List.length_append, four]
  have last : find (shown source) (bytes ".lua") front.length =
      front.length + (cut.length + 2) := by
    have found := splits_pair_append split'
    rw [← drop_pair split] at found
    rw [find_of_splits found (by omega), List.length_append, Nat.add_comm cut.length]
    rfl
  have position : (front.length + 2) % 2 ^ 32 = front.length + 2 := Nat.mod_eq_of_lt (by omega)
  have count : (front.length + (cut.length + 2) + 2 ^ 32 - front.length + 2) % 2 ^ 32 =
      cut.length + 4 := by omega
  have taken : rest.take (cut.length + 4) = cut ++ bytes ".lua" := by
    rw [split'.eq, ← four, ← List.length_append, List.take_left]
  rw [bufferName_eq, find_zero_of_splits split, last, position, count, substr, if_pos inside,
    drop_behind_pair split, taken, Option.map_some, List.append_assoc]
  rfl

theorem isCompiledScript_iff {name : Bytes} (short : name.length ≤ npos) :
    isCompiledScript name = true ↔ bytes ".luac" <:+: name := by
  rw [isCompiledScript, decide_eq_true_iff]
  exact find_ne_npos (by decide) short

/-- The name of a chunk with a cut contains `.luac` at its end only. -/
theorem splits_luac {rest cut back : Bytes} (h : Splits (bytes ".lua") rest cut back) :
    Splits (bytes ".luac") (cut ++ bytes ".luac") cut [] := by
  have split : Splits (bytes ".lua") (cut ++ bytes ".lua" ++ back) cut back := h.eq ▸ h
  exact split.extend (bytes "c")

theorem luac_prefix_drop {rest cut back : Bytes} (h : Splits (bytes ".lua") rest cut back) {j : Nat}
    (found : bytes ".luac" <+: (cut ++ bytes ".luac").drop j) : j = cut.length := by
  have five : (bytes ".luac").length = 5 := by decide
  have room := found.length_le
  rw [List.length_drop, List.length_append, five] at room
  have early : ¬ j < cut.length := fun hj => (splits_luac h).first j hj found
  omega

theorem decompiled_of_cut {rest cut back : Bytes} (h : Splits (bytes ".lua") rest cut back) :
    decompiled (cut ++ bytes ".luac") = cut ++ bytes ".lua" := by
  rw [decompiled, find_zero_of_splits (splits_luac h), List.take_left]

/-- What the extraction of a name from a chunk is meant to yield. -/
structure ExactName (source name : Bytes) : Prop where
  tested : isCompiledScript name = true ↔ bytes ".luac" <:+: name
  compiled : bytes ".luac" <:+: name ↔ ∃ cut, ChunkCut (shown source) cut
  exact : ∀ cut, ChunkCut (shown source) cut →
    name = cut ++ bytes ".lua" ++ bytes "c" ∧ decompiled name = name.dropLast
  ends : ∀ j, bytes ".luac" <+: name.drop j → j + 5 = name.length

theorem exactName_of_cut {source front rest cut back : Bytes} (size : source.length < 2 ^ 32)
    (split : Splits pair (shown source) front rest) (split' : Splits (bytes ".lua") rest cut back) :
    ExactName source (cut ++ bytes ".luac") := by
  have five : (bytes ".luac").length = 5 := by decide
  refine ⟨isCompiledScript_iff ?_, ?_, ?_, ?_⟩
  · have len := length_of_pair split
    have len' := congrArg List.length split'.eq
    have four : (bytes ".lua").length = 4 := by decide
    rw [shown_length] at len
    rw [List.length_append, List.length_append, four] at len'
    rw [List.length_append, five, npos]
    omega
  · have inside : bytes ".luac" <:+: cut ++ bytes ".luac" := (splits_luac split').inside
    exact iff_of_true inside ⟨cut, front, rest, back, split, split'⟩
  · intro cut' split''
    obtain rfl := ChunkCut.unique ⟨front, rest, back, split, split'⟩ split''
    refine ⟨by rw [List.append_assoc]; rfl, ?_⟩
    rw [decompiled_of_cut split']
    have last : bytes ".luac" = bytes ".lua" ++ bytes "c" := rfl
    rw [last, ← List.append_assoc]
    exact List.dropLast_concat.symm
  · intro j luac
    rw [luac_prefix_drop split' luac, List.length_append, five]

theorem exactName_of_no_cut {source name : Bytes} (absent : ¬ ∃ cut, ChunkCut (shown source) cut)
    (short : name.length ≤ npos) (plain : ¬ bytes ".luac" <:+: name) : ExactName source name := by
  refine ⟨isCompiledScript_iff short, iff_of_false plain absent, ?_, ?_⟩
  · intro cut split
    exact absurd ⟨cut, split⟩ absent
  · intro j luac
    exact absurd (luac.isInfix.trans (List.drop_suffix j name).isInfix) plain

/-- The position of the cut lies in the chunk, also where it wraps around. -/
theorem start_inside {source : Bytes} (nonempty : source ≠ []) :
    (find (shown source) pair 0 + 2) % 2 ^ 32 ≤ (shown source).length := by
  by_cases slashes : pair <:+: shown source
  · obtain ⟨front, rest, split⟩ := exists_splits (by decide) slashes
    have len := length_of_pair split
    have wrapped := Nat.mod_le (front.length + 2) (2 ^ 32)
    rw [find_zero_of_splits split]
    omega
  · have start : find (shown source) pair 0 = npos := find_of_absent slashes (by decide)
    have wrapped : (npos + 2) % 2 ^ 32 = 1 := by decide
    rw [start, wrapped, shown_length]
    exact List.length_pos_iff.mpr nonempty

theorem exists_exactName {source : Bytes} (nonempty : source ≠ [])
    (size : source.length < 2 ^ 32) :
    ∃ name, bufferName source = some name ∧ ExactName source name := by
  have one : (bytes "c").length = 1 := by decide
  by_cases slashes : pair <:+: shown source
  · obtain ⟨front, rest, split⟩ := exists_splits (by decide) slashes
    by_cases lua : bytes ".lua" <:+: rest
    · obtain ⟨cut, back, split'⟩ := exists_splits (by decide) lua
      exact ⟨_, bufferName_of_cut size split split', exactName_of_cut size split split'⟩
    · obtain ⟨n, found⟩ := bufferName_of_no_lua size split lua
      refine ⟨_, found, exactName_of_no_cut ?_ ?_ ?_⟩
      · rintro ⟨cut, front', rest', back, again, split'⟩
        exact lua ((split.unique again).2 ▸ split'.inside)
      · have len := length_of_pair split
        have taken := (List.take_sublist n rest).length_le
        rw [shown_length] at len
        rw [List.length_append, one, npos]
        omega
      · intro luac
        exact lua ((occurs_of_occurs_concat luac).trans (List.take_prefix n rest).isInfix)
  · have found := bufferName_of_no_pair nonempty size slashes
    have short : (((shown source).drop 1).take 2).length ≤ 2 := List.length_take_le 2 _
    refine ⟨_, found, exactName_of_no_cut ?_ ?_ ?_⟩
    · rintro ⟨cut, front, rest, back, split, _⟩
      exact slashes split.inside
    · rw [List.length_append, one, npos]
      omega
    · intro luac
      have five : (bytes ".luac").length = 5 := by decide
      have room := luac.length_le
      rw [List.length_append, one, five] at room
      omega

/-- For every chunk that is not empty the position of the cut lies in the chunk, and the name is
exact in spite of the arithmetic modulo `2 ^ 32`. -/
theorem bufferName_exact {source : Bytes} (nonempty : source ≠ [])
    (size : source.length < 2 ^ 32) :
    (find (shown source) pair 0 + 2) % 2 ^ 32 ≤ (shown source).length ∧
      ∃ name, bufferName source = some name ∧ ExactName source name :=
  ⟨start_inside nonempty, exists_exactName nonempty size⟩

theorem bufferName_exact_camera :
    (find (shown (bytes "\x1bLua..\\\\camera.lua")) pair 0 + 2) % 2 ^ 32 ≤
        (shown (bytes "\x1bLua..\\\\camera.lua")).length ∧
      ∃ name, bufferName (bytes "\x1bLua..\\\\camera.lua") = some name ∧
        ExactName (bytes "\x1bLua..\\\\camera.lua") name :=
  bufferName_exact (by decide) (by decide)

/-- The name under which the hook dumps a chunk and looks for its replacement. -/
def derivedName (source : Bytes) : Option Bytes := (bufferName source).filter isCompiledScript

theorem derivedName_eq_some {source name : Bytes} (size : source.length < 2 ^ 32) :
    derivedName source = some name ↔
      ∃ cut, ChunkCut (shown source) cut ∧ name = cut ++ bytes ".luac" := by
  rw [derivedName, Option.filter_eq_some_iff]
  constructor
  · rintro ⟨named, compiled⟩
    have nonempty : source ≠ [] := fun empty => by simp [bufferName_eq_none.mpr empty] at named
    obtain ⟨name', named', exact⟩ := exists_exactName nonempty size
    obtain rfl := Option.some.inj (named.symm.trans named')
    obtain ⟨cut, split⟩ := exact.compiled.mp (exact.tested.mp compiled)
    refine ⟨cut, split, ?_⟩
    rw [(exact.exact cut split).1, List.append_assoc]
    rfl
  · rintro ⟨cut, ⟨front, rest, back, split, split'⟩, rfl⟩
    have exact := exactName_of_cut size split split'
    exact ⟨bufferName_of_cut size split split',
      exact.tested.mpr (exact.compiled.mpr ⟨cut, front, rest, back, split, split'⟩)⟩

end DriverSF
