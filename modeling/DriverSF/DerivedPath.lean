import DriverSF.ChunkSource

namespace DriverSF

open PathResolve ByteSearch

def dumpsDir (cwd : List Bytes) (kind : Bytes) : List Bytes := cwd ++ [bytes "dumps"] ++ [kind]

/-- A file in the directory or below it. -/
def Under (dir file : List Bytes) : Prop := ∃ names, names ≠ [] ∧ file = dir ++ names

/-- The files that the hook derives from a chunk stay in their directories, and so do the
directories that it creates. -/
structure PathsStay (cwd : List Bytes) (source : Bytes) : Prop where
  dump : ∀ name, derivedName source = some name →
    Under (dumpsDir cwd (bytes "luac")) (dumpPath cwd name)
  created : ∀ name, derivedName source = some name → ∀ dir ∈ dumpDirectories cwd name,
    dir <+: dumpsDir cwd (bytes "luac") ∨ dumpsDir cwd (bytes "luac") <+: dir
  lua : ∀ name, derivedName source = some name →
    Under (dumpsDir cwd (bytes "lua")) (luaPath cwd name)

theorem components_luac (name : Bytes) :
    components windows (bytes ".\\dumps\\luac\\" ++ name) =
      [bytes ".", bytes "dumps", bytes "luac"] ++ components windows name := by
  have written : bytes ".\\dumps\\luac\\" ++ name = bytes ".\\dumps\\luac" ++ 92 :: name := rfl
  rw [components, written, List.splitOnP_append_cons _ _ (by decide)]
  rfl

theorem components_lua (name : Bytes) :
    components windows (bytes ".\\dumps\\lua\\" ++ name) =
      [bytes ".", bytes "dumps", bytes "lua"] ++ components windows name := by
  have written : bytes ".\\dumps\\lua\\" ++ name = bytes ".\\dumps\\lua" ++ 92 :: name := rfl
  rw [components, written, List.splitOnP_append_cons _ _ (by decide)]
  rfl

theorem dumpPath_eq (cwd : List Bytes) (name : Bytes) :
    dumpPath cwd name =
      (components windows name).foldl (enter windows) (dumpsDir cwd (bytes "luac")) := by
  rw [dumpPath, resolve, components_luac, List.foldl_append]
  rfl

theorem luaPath_eq (cwd : List Bytes) (name : Bytes) :
    luaPath cwd name =
      (components windows (decompiled name)).foldl (enter windows)
        (dumpsDir cwd (bytes "lua")) := by
  rw [luaPath, resolve, components_lua, List.foldl_append]
  rfl

/-- The last byte of a name is no dot, so that its component enters a file. -/
theorem lua_concat (last : Bytes) :
    last ++ bytes ".lua" = (last ++ bytes ".lu") ++ [97] ∧ (97 : UInt8) ≠ windows.dot := by
  refine ⟨?_, by decide⟩
  rw [List.append_assoc]
  rfl

theorem luac_concat (last : Bytes) :
    last ++ bytes ".luac" = (last ++ bytes ".lua") ++ [99] ∧ (99 : UInt8) ≠ windows.dot := by
  refine ⟨?_, by decide⟩
  rw [List.append_assoc]
  rfl

/-- Both paths follow the directories of the cut from their own directory. -/
theorem paths_of_cut {rest cut back : Bytes} (h : Splits (bytes ".lua") rest cut back)
    (cwd : List Bytes) :
    ∃ dirs last, components windows (cut ++ bytes ".lua") = dirs ++ [last ++ bytes ".lua"] ∧
      components windows (cut ++ bytes ".luac") = dirs ++ [last ++ bytes ".luac"] ∧
      dumpPath cwd (cut ++ bytes ".luac") =
        (offset windows dirs).applyTo (dumpsDir cwd (bytes "luac")) ++ [last ++ bytes ".luac"] ∧
      luaPath cwd (cut ++ bytes ".luac") =
        (offset windows dirs).applyTo (dumpsDir cwd (bytes "lua")) ++ [last ++ bytes ".lua"] := by
  have lua_plain : ∀ b ∈ bytes ".lua", windows.separator b = false := by simp [bytes, windows]
  have luac_plain : ∀ b ∈ bytes ".luac", windows.separator b = false := by simp [bytes, windows]
  obtain ⟨dirs, last, split, lua⟩ := components_append lua_plain cut
  obtain ⟨dirs', last', split', luac⟩ := components_append luac_plain cut
  obtain ⟨rfl, same⟩ := List.append_inj' (split.symm.trans split') rfl
  obtain rfl := List.singleton_inj.mp same
  refine ⟨dirs, last, lua, luac, ?_, ?_⟩
  · obtain ⟨named, letter⟩ := luac_concat last
    rw [dumpPath_eq, luac, List.foldl_append, ← foldl_enter_eq, named]
    exact enter_concat letter _ _
  · obtain ⟨named, letter⟩ := lua_concat last
    rw [luaPath_eq, decompiled_of_cut h, lua, List.foldl_append, ← foldl_enter_eq, named]
    exact enter_concat letter _ _

/-- The directories on the way to a dump are above `dumps\luac` or in it. -/
theorem created_of_staysInside {cwd dir dirs : List Bytes} {name last : Bytes}
    (split : components windows name = dirs ++ [last])
    (inside : staysInside windows 0 dirs = true) (h : dir ∈ dumpDirectories cwd name) :
    dir <+: dumpsDir cwd (bytes "luac") ∨ dumpsDir cwd (bytes "luac") <+: dir := by
  rw [dumpDirectories, components_luac, split, ← List.append_assoc, List.dropLast_concat] at h
  have walk : visited windows cwd ([bytes ".", bytes "dumps", bytes "luac"] ++ dirs) =
      cwd :: cwd :: (cwd ++ [bytes "dumps"]) ::
        visited windows (dumpsDir cwd (bytes "luac")) dirs := rfl
  rw [walk] at h
  rcases List.mem_cons.mp h with rfl | h
  · exact .inl (by simp [dumpsDir])
  rcases List.mem_cons.mp h with rfl | h
  · exact .inl (by simp [dumpsDir])
  rcases List.mem_cons.mp h with rfl | h
  · exact .inl (List.prefix_append _ _)
  · exact .inr (prefix_of_mem_visited inside h)

theorem staysInside_cut {cut last : Bytes} {dirs : List Bytes}
    (split : components windows (cut ++ bytes ".lua") = dirs ++ [last ++ bytes ".lua"]) :
    staysInside windows 0 (components windows (cut ++ bytes ".lua")) = true ↔
      staysInside windows 0 dirs = true := by
  obtain ⟨named, letter⟩ := lua_concat last
  rw [split, named]
  exact staysInside_concat letter dirs _

/-- The derived paths stay in their directories exactly if the directories in the name never
climb above the start of the name. -/
theorem pathsStay_iff {source : Bytes} (size : source.length < 2 ^ 32) (cwd : List Bytes) :
    PathsStay cwd source ↔ ∀ cut, ChunkCut (shown source) cut →
      staysInside windows 0 (components windows (cut ++ bytes ".lua")) = true := by
  constructor
  · intro stay cut whole
    have derived := (derivedName_eq_some size).mpr ⟨cut, whole, rfl⟩
    obtain ⟨_, rest, back, _, lua⟩ := whole
    obtain ⟨dirs, last, split, _, dump, load⟩ := paths_of_cut lua cwd
    obtain ⟨names, _, inside⟩ := stay.dump _ derived
    obtain ⟨names', _, inside'⟩ := stay.lua _ derived
    rw [dump] at inside
    rw [load] at inside'
    have other : last ++ bytes ".luac" ≠ bytes "luac" := by
      intro same
      have len := congrArg List.length same
      have four : (bytes "luac").length = 4 := by decide
      have five : (bytes ".luac").length = 5 := by decide
      rw [List.length_append, four, five] at len
      omega
    have level := up_eq_zero_of_both (by decide) other inside inside'
    exact (staysInside_cut split).mpr ((staysInside_iff windows dirs).mpr level)
  · intro inside
    have stays : ∀ name, derivedName source = some name →
        Under (dumpsDir cwd (bytes "luac")) (dumpPath cwd name) ∧
        (∀ dir ∈ dumpDirectories cwd name, dir <+: dumpsDir cwd (bytes "luac") ∨
          dumpsDir cwd (bytes "luac") <+: dir) ∧
        Under (dumpsDir cwd (bytes "lua")) (luaPath cwd name) := by
      intro name derived
      obtain ⟨cut, whole, rfl⟩ := (derivedName_eq_some size).mp derived
      obtain ⟨_, rest, back, _, lua⟩ := id whole
      obtain ⟨dirs, last, split, split', dump, load⟩ := paths_of_cut lua cwd
      have level := (staysInside_cut split).mp (inside cut whole)
      rw [dump, load, applyTo_of_staysInside level, applyTo_of_staysInside level]
      refine ⟨⟨_, ?_, List.append_assoc _ _ _⟩, ?_, ⟨_, ?_, List.append_assoc _ _ _⟩⟩
      · simp
      · exact fun dir => created_of_staysInside split' level
      · simp
    exact ⟨fun name h => (stays name h).1, fun name h => (stays name h).2.1,
      fun name h => (stays name h).2.2⟩

theorem pathsStay_camera : PathsStay [bytes "game"] cameraChunk := by
  refine (pathsStay_iff (by decide) _).mpr ?_
  intro cut whole
  obtain rfl := cameraChunk_cut.unique whole
  decide

/-- The text of the script that loads the others would be dumped beside the directory. -/
theorem loadScript_leaves_dumps : ¬ PathsStay [bytes "game"] loadScript := by
  intro stay
  obtain ⟨names, _, inside⟩ := stay.dump _
    ((derivedName_eq_some (by decide)).mpr ⟨_, loadScript_cut, rfl⟩)
  have below : dumpsDir [bytes "game"] (bytes "luac") <+: _ := ⟨names, inside.symm⟩
  revert below
  decide

end DriverSF
