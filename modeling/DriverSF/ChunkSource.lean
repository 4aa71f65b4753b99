import DriverSF.ChunkName

namespace DriverSF

open ByteSearch

def luaSignature : Bytes := bytes "\x1bLua"

def luacHeadersize : Nat := 12

/-- An unsigned number in the byte order of a chunk. -/
def numberOf (littleEndian : Bool) (digits : Bytes) : Nat :=
  (if littleEndian then digits.reverse else digits).foldl (fun n b => 256 * n + b.toNat) 0

/-- A precompiled chunk up to its source name, and that name without its final NUL. The seventh
byte of the header tells the byte order and the ninth the size of a `size_t`. A stripped chunk
has no source name. -/
def sourceField (chunk : Bytes) : Option (Bytes × Bytes) :=
  let sizeofSizeT := (chunk[8]?.map UInt8.toNat).getD 0
  let offset := luacHeadersize + sizeofSizeT
  let size := numberOf (chunk[6]? = some 1) ((chunk.take offset).drop luacHeadersize)
  if luaSignature <+: chunk ∧ 0 < size ∧ offset + size ≤ chunk.length then
    some (chunk.take offset, (chunk.drop offset).take (size - 1))
  else none

theorem sourceField_eq_some {chunk head field : Bytes}
    (h : sourceField chunk = some (head, field)) :
    luaSignature <+: chunk ∧ ∃ rest, chunk = head ++ (field ++ rest) := by
  simp only [sourceField] at h
  split at h
  next valid =>
    obtain ⟨rfl, rfl⟩ := Prod.mk.inj (Option.some.inj h)
    exact ⟨valid.1, _, by rw [List.take_append_drop, List.take_append_drop]⟩
  next => simp at h

/-- The name is cut from the bytes of the chunk that hold its source name. -/
def TakenFromSource (chunk name : Bytes) : Prop :=
  ∃ head field front cut tail, sourceField chunk = some (head, field) ∧
    shown field = front ++ pair ++ cut ++ bytes ".lua" ++ tail ∧
    find (shown chunk) pair 0 = head.length + front.length ∧ name = cut ++ bytes ".luac"

/-- Only precompiled chunks are dumped or replaced, each under a name from its source name, and
chunks with the same header and the same source name under the same name. -/
structure RightChunks (chunks : Set Bytes) : Prop where
  taken : ∀ chunk ∈ chunks, ∀ name, derivedName chunk = some name →
    luaSignature <+: chunk ∧ TakenFromSource chunk name
  same : ∀ chunk ∈ chunks, ∀ chunk' ∈ chunks, ∀ head head' field,
    chunk.take luacHeadersize = chunk'.take luacHeadersize →
    sourceField chunk = some (head, field) → sourceField chunk' = some (head', field) →
    derivedName chunk = derivedName chunk'

/-- If two consecutive backslashes and a later `.lua` occur in the bytes of the chunk, then they
do so in its source name, and no two consecutive backslashes begin before it. -/
def NamedBySource (chunk : Bytes) : Prop :=
  (∃ cut, ChunkCut (shown chunk) cut) →
    ∃ head field, sourceField chunk = some (head, field) ∧
      (∀ j < head.length, ¬ pair <+: (shown chunk).drop j) ∧ ∃ cut, ChunkCut (shown field) cut

theorem shown_append (s t : Bytes) : shown (s ++ t) = shown s ++ shown t := List.map_append

/-- A cut in the source name is the cut of the chunk if no pair begins before it. -/
theorem chunkCut_of_field {head field rest front behind cut back : Bytes}
    (absent : ∀ j < head.length, ¬ pair <+: (shown (head ++ (field ++ rest))).drop j)
    (split : Splits pair (shown field) front behind) (lua : Splits (bytes ".lua") behind cut back) :
    Splits pair (shown (head ++ (field ++ rest))) (shown head ++ front) (behind ++ shown rest) ∧
      Splits (bytes ".lua") (behind ++ shown rest) cut (back ++ shown rest) := by
  refine ⟨?_, lua.append _⟩
  rw [shown_append, shown_append] at absent ⊢
  exact (split.append _).prepend (by simpa using absent)

theorem NamedBySource.taken {chunk name : Bytes} (size : chunk.length < 2 ^ 32)
    (named : NamedBySource chunk) (h : derivedName chunk = some name) :
    luaSignature <+: chunk ∧ TakenFromSource chunk name := by
  obtain ⟨cut, whole, rfl⟩ := (derivedName_eq_some size).mp h
  obtain ⟨head, field, read, absent, cut', front, behind, back, split, lua⟩ := named ⟨cut, whole⟩
  obtain ⟨signature, rest, rfl⟩ := sourceField_eq_some read
  obtain ⟨split', lua'⟩ := chunkCut_of_field absent split lua
  obtain rfl := whole.unique ⟨_, _, _, split', lua'⟩
  refine ⟨signature, head, field, front, cut, back, read, ?_, ?_, rfl⟩
  · rw [split.eq, lua.eq]
    simp only [List.append_assoc]
  · rw [find_zero_of_splits split', List.length_append, shown_length]

theorem TakenFromSource.named {chunk name : Bytes} (size : chunk.length < 2 ^ 32)
    (h : derivedName chunk = some name) (taken : TakenFromSource chunk name) :
    NamedBySource chunk := by
  intro _
  obtain ⟨cut, ⟨front, behind, back, split, lua⟩, rfl⟩ := (derivedName_eq_some size).mp h
  obtain ⟨head, field, front', cut', tail, read, inside, start, same⟩ := taken
  obtain rfl : cut = cut' := List.append_cancel_right same
  obtain ⟨_, rest, rfl⟩ := sourceField_eq_some read
  rw [find_zero_of_splits split] at start
  refine ⟨head, field, read, fun j hj => split.first j (by omega), cut, ?_⟩
  have len := congrArg List.length inside
  have two : pair.length = 2 := by decide
  have four : (bytes ".lua").length = 4 := by decide
  simp only [List.length_append, two, four] at len
  have whole : Splits pair (shown head ++ (shown field ++ shown rest)) front behind := by
    rwa [shown_append, shown_append] at split
  obtain ⟨front, rfl, inner⟩ := whole.of_prepend (by rw [shown_length]; omega)
  rw [List.length_append, shown_length] at start
  have start : front.length = front'.length := by omega
  obtain ⟨behind', split'⟩ := inner.of_append (s := shown field) (by rw [two]; omega)
  obtain ⟨_, rfl⟩ := inner.unique (split'.append (shown rest))
  have room := length_of_pair split'
  obtain ⟨back', lua'⟩ := lua.of_append (s := behind') (by rw [four]; omega)
  exact ⟨front, behind', back', split', lua'⟩

/-- A string around one that has a cut has a cut itself, perhaps another one. -/
theorem ChunkCut.exists_around {content part cut : Bytes} (h : ChunkCut part cut)
    (inside : part <:+: content) : ∃ cut', ChunkCut content cut' := by
  obtain ⟨front, rest, back, split, lua⟩ := h
  obtain ⟨front', rest', split'⟩ := exists_splits (by decide) (split.inside.trans inside)
  obtain ⟨before, behind, eq⟩ := inside
  have early : front'.length ≤ before.length + front.length := by
    by_contra late
    refine split'.first (before.length + front.length) (by omega) ?_
    rw [← eq, List.append_assoc, List.drop_length_add_append, split.eq, List.append_assoc front,
      List.append_assoc front, List.drop_left, List.append_assoc]
    exact List.prefix_append _ _
  have len := length_of_pair split
  have len' := length_of_pair split'
  have whole := congrArg List.length eq
  simp only [List.length_append] at whole
  have rest_suffix : rest ++ behind <:+ rest' := by
    have suffix : rest ++ behind <:+ content :=
      ⟨before ++ front ++ pair, by rw [← eq, split.eq]; simp only [List.append_assoc]⟩
    refine List.suffix_of_suffix_length_le suffix ⟨front' ++ pair, split'.eq.symm⟩ ?_
    rw [List.length_append]
    omega
  have found : bytes ".lua" <:+: rest' :=
    (lua.inside.trans (List.prefix_append rest behind).isInfix).trans rest_suffix.isInfix
  obtain ⟨cut', back', lua'⟩ := exists_splits (by decide) found
  exact ⟨cut', front', rest', back', split', lua'⟩

theorem NamedBySource.derived {chunk head field name : Bytes} (size : chunk.length < 2 ^ 32)
    (named : NamedBySource chunk) (read : sourceField chunk = some (head, field)) :
    derivedName chunk = some name ↔
      ∃ cut, ChunkCut (shown field) cut ∧ name = cut ++ bytes ".luac" := by
  obtain ⟨_, rest, rfl⟩ := sourceField_eq_some read
  have cuts : ∀ cut, ChunkCut (shown (head ++ (field ++ rest))) cut →
      ChunkCut (shown field) cut := by
    intro cut whole
    obtain ⟨_, _, again, absent, cut', front, behind, back, split, lua⟩ := named ⟨cut, whole⟩
    obtain ⟨rfl, rfl⟩ := Prod.mk.inj (Option.some.inj (read.symm.trans again))
    obtain ⟨split', lua'⟩ := chunkCut_of_field absent split lua
    obtain rfl := whole.unique ⟨_, _, _, split', lua'⟩
    exact ⟨front, behind, back, split, lua⟩
  rw [derivedName_eq_some size]
  constructor
  · rintro ⟨cut, whole, rfl⟩
    exact ⟨cut, cuts cut whole, rfl⟩
  · rintro ⟨cut, inner, rfl⟩
    have inside : shown field <:+: shown (head ++ (field ++ rest)) :=
      ⟨shown head, shown rest, by rw [shown_append, shown_append, List.append_assoc]⟩
    obtain ⟨cut', whole⟩ := inner.exists_around inside
    obtain rfl := inner.unique (cuts cut' whole)
    exact ⟨cut, whole, rfl⟩

/-- Only precompiled chunks are handled, each under a name from its source name, exactly if none
of the chunks has the bytes of a name elsewhere. -/
theorem rightChunks_iff {chunks : Set Bytes} (sizes : ∀ chunk ∈ chunks, chunk.length < 2 ^ 32) :
    RightChunks chunks ↔ ∀ chunk ∈ chunks, NamedBySource chunk := by
  constructor
  · intro right chunk member named
    obtain ⟨cut, whole⟩ := named
    have derived : derivedName chunk = some (cut ++ bytes ".luac") :=
      (derivedName_eq_some (sizes chunk member)).mpr ⟨cut, whole, rfl⟩
    have taken := (right.taken chunk member _ derived).2
    exact taken.named (sizes chunk member) derived ⟨cut, whole⟩
  · intro named
    refine ⟨?_, ?_⟩
    · intro chunk member name derived
      exact (named chunk member).taken (sizes chunk member) derived
    · intro chunk member chunk' member' head head' field _ read read'
      apply Option.ext
      intro name
      exact ((named chunk member).derived (sizes chunk member) read).trans
        ((named chunk' member').derived (sizes chunk' member') read').symm

/-- The beginning of a compiled script: its header, its source name and the first bytes of code. -/
def cameraChunk : Bytes :=
  luaSignature ++ [81, 0, 1, 4, 4, 4, 8, 0] ++ [26, 0, 0, 0] ++
    bytes "@scripts\\\\visuals\\hud.lua" ++ [0] ++ [0, 0, 0, 0, 7, 0, 0, 0]

theorem cameraChunk_cut : ChunkCut (shown cameraChunk) (bytes "visuals\\hud") :=
  ⟨shown (cameraChunk.take 16) ++ bytes "@scripts", _, _, ⟨rfl, by decide⟩, ⟨rfl, by decide⟩⟩

theorem rightChunks_camera : RightChunks {cameraChunk} := by
  have small : ∀ chunk ∈ ({cameraChunk} : Set Bytes), chunk.length < 2 ^ 32 := by
    rintro _ rfl
    decide
  refine (rightChunks_iff small).mpr ?_
  rintro _ rfl _
  refine ⟨cameraChunk.take 16, bytes "@scripts\\\\visuals\\hud.lua", by decide, by decide,
    bytes "visuals\\hud", bytes "@scripts", bytes "visuals\\hud.lua", [], ?_, ?_⟩
  · exact ⟨by decide, by decide⟩
  · exact ⟨by decide, by decide⟩

/-- The first lines of the script that loads the others. -/
def loadScript : Bytes :=
  bytes "enableCustomMenus = true\n\ncustomPath = \"..\\\\..\\\\scripts\\\\\"\n" ++
    bytes "debugOpen(customPath .. \"utils.lua\")\n"

theorem loadScript_cut : ChunkCut (shown loadScript)
    (bytes "..\\\\scripts\\\\\"\ndebugOpen(customPath .. \"utils") :=
  ⟨bytes "enableCustomMenus = true\n\ncustomPath = \"..",
    bytes "..\\\\scripts\\\\\"\ndebugOpen(customPath .. \"utils.lua\")\n",
    bytes "\")\n", ⟨by decide, by decide⟩, ⟨by decide, by decide⟩⟩

theorem loadScript_breaks_rightChunks : ¬ RightChunks {loadScript} := by
  intro right
  have derived := (derivedName_eq_some (by decide)).mpr ⟨_, loadScript_cut, rfl⟩
  have precompiled := (right.taken loadScript rfl _ derived).1
  revert precompiled
  decide

end DriverSF
