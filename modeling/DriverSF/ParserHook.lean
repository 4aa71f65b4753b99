import DriverSF.DumpLuac
import DriverSF.ByteSearch

namespace DriverSF

open PathResolve FileStreams ByteSearch

/-- The reader argument `z->data`: a null pointer for the builtin `load`, a `LoadF` for
`luaL_loadfile`, or a `LoadS`, which is an address and the bytes it points to. -/
inductive ReaderData where
  | null
  | loadF (extraline : Bool)
  | loadS (s : Nat) (source : Bytes)
  deriving DecidableEq, Repr

structure ParserCall where
  L : Nat
  z : Nat
  name : Bytes
  data : ReaderData
  deriving DecidableEq, Repr

/-- What the hook relies on: the status of each call of the original parser after the calls
before it, and the address of the characters of a string. -/
structure Process where
  parser : List ParserCall → ParserCall → Int
  cStr : Bytes → Nat

structure HookState where
  safe : Bool
  host : Host
  calls : List ParserCall

/-- How the hook's own code ends. -/
inductive HookOutcome where
  | nullDereference
  | outOfRange
  | returned (status : Int)
  deriving DecidableEq, Repr

def callParser (p : Process) (st : HookState) (call : ParserCall) : HookOutcome × HookState :=
  (.returned (p.parser st.calls call), { st with calls := call :: st.calls })

/-- The name cut out of a chunk, in 32-bit arithmetic; `substr` may throw. -/
def bufferName (source : Bytes) : Option Bytes :=
  let content := source.map fun c => if c = 0 then 32 else c
  let start := find content (bytes "\\\\") 0
  let endPos := find content (bytes ".lua") start
  (substr content ((start + 2) % 2 ^ 32) ((endPos + 2 ^ 32 - start + 2) % 2 ^ 32)).map
    (· ++ bytes "c")

def isCompiledScript (bufferName : Bytes) : Bool :=
  find bufferName (bytes ".luac") 0 ≠ npos

/-- `substr` from the start of a string does not throw. -/
def decompiled (bufferName : Bytes) : Bytes :=
  bufferName.take (find bufferName (bytes ".luac") 0) ++ bytes ".lua"

def luaPath (cwd : List Bytes) (bufferName : Bytes) : List Bytes :=
  resolve windows cwd (bytes ".\\dumps\\lua\\" ++ decompiled bufferName)

/-- A read in text mode: a line ends in one character, and Ctrl-Z ends the file. -/
def textRead : Bytes → Bytes
  | [] => []
  | 26 :: _ => []
  | 13 :: 10 :: rest => 10 :: textRead rest
  | c :: rest => c :: textRead rest

/-- If a decompiled version exists, its text is loaded instead of the chunk. -/
def parseOverride (p : Process) (st : HookState) (call : ParserCall) (path : List Bytes) :
    HookOutcome × HookState :=
  match st.host.disk.openRead path with
  | some (_, disk) =>
    -- the stream of `fopen` stays open, and the one that reads the text is closed again
    let lua := ((disk.openRead path).map fun r => textRead r.1).getD []
    callParser p { st with host := { st.host with disk } }
      { call with data := .loadS (p.cStr lua) lua }
  | none => callParser p st call

def parseLoadS (p : Process) (st : HookState) (call : ParserCall) (source : Bytes) :
    HookOutcome × HookState :=
  match bufferName source with
  | none => (.outOfRange, st)
  | some bufferName =>
    let safe := st.safe &&
      bufferName ≠ bytes "visuals\\camera\\cameras\\camera_functions.luac"
    if isCompiledScript bufferName then
      parseOverride p { st with safe, host := dumpLuac st.host source bufferName } call
        (luaPath st.host.cwd bufferName)
    else
      callParser p { st with safe } call

def luadProtectedparserHook (p : Process) (st : HookState) (L z : Nat) (name : Bytes)
    (data : ReaderData) : HookOutcome × HookState :=
  let call : ParserCall := ⟨L, z, name, data⟩
  match data with
  -- both tests of the first four bytes read them, also after `safe` has become false
  | .null => (.nullDereference, st)
  | .loadF _ => callParser p st call
  | .loadS s source =>
    if !st.safe || s = 0 || s = 1 then callParser p st call else parseLoadS p st call source

/-- The chunk has a decompiled file under its derived name. -/
def Replaceable (host : Host) (source : Bytes) : Prop :=
  ∃ name, bufferName source = some name ∧ isCompiledScript name = true ∧
    (host.disk.file (luaPath host.cwd name)).isSome

/-- The hook ends normally, having called the original parser exactly once with the same
`L`, `z` and name; it returns the status of that call; and without a decompiled file the
call got the reader data unchanged. -/
def Transparent (p : Process) (st : HookState) (L z : Nat) (name : Bytes) (data : ReaderData)
    (r : HookOutcome × HookState) : Prop :=
  ∃ data', r.1 = .returned (p.parser st.calls ⟨L, z, name, data'⟩) ∧
    r.2.calls = ⟨L, z, name, data'⟩ :: st.calls ∧
    ((∀ s source, data = .loadS s source → ¬ Replaceable st.host source) → data' = data)

theorem bufferName_eq_none {source : Bytes} : bufferName source = none ↔ source = [] := by
  simp only [bufferName, Option.map_eq_none_iff, substr_eq_none, List.length_map]
  constructor
  · intro behind
    by_contra nonempty
    have pos := List.length_pos_iff.mpr nonempty
    rcases find_cases (source.map fun c => if c = 0 then 32 else c)
      (show bytes "\\\\" ≠ [] by decide) 0 with missing | ⟨_, inside⟩
    · rw [missing] at behind
      simp only [npos] at behind
      omega
    · have two : (bytes "\\\\").length = 2 := by decide
      rw [two, List.length_map] at inside
      have wrapped := Nat.mod_le (find (source.map fun c => if c = 0 then 32 else c)
        (bytes "\\\\") 0 + 2) (2 ^ 32)
      omega
  · rintro rfl
    decide

theorem bufferName_endsInName {source name : Bytes} (h : bufferName source = some name) :
    EndsInName windows name ∧ 99 ∈ name.getLast? := by
  obtain ⟨cut, _, rfl⟩ := Option.map_eq_some_iff.mp h
  have last : 99 ∈ (cut ++ bytes "c").getLast? := by simp [show bytes "c" = [99] by decide]
  exact ⟨⟨99, last, by decide, by decide⟩, last⟩

theorem luaPath_endsInName (name : Bytes) :
    EndsInName windows (bytes ".\\dumps\\lua\\" ++ decompiled name) ∧
      97 ∈ (bytes ".\\dumps\\lua\\" ++ decompiled name).getLast? := by
  have last : 97 ∈ (bytes ".\\dumps\\lua\\" ++ decompiled name).getLast? := by
    simp [decompiled, List.getLast?_append, show (bytes ".lua").getLast? = some 97 by decide]
  exact ⟨⟨97, last, by decide, by decide⟩, last⟩

/-- Dumps and decompiled files are different files, whatever the names are. -/
theorem luaPath_ne_dumpPath {cwd : List Bytes} {source name other : Bytes}
    (h : bufferName source = some name) : luaPath cwd other ≠ dumpPath cwd name := by
  obtain ⟨named, ends⟩ := bufferName_endsInName h
  obtain ⟨luaNamed, luaEnds⟩ := luaPath_endsInName other
  obtain ⟨file, b, hb, resolved⟩ := resolve_of_endsInName cwd luaNamed
  obtain ⟨dump, c, hc, dumped⟩ := resolve_of_endsInName cwd (named.append (bytes ".\\dumps\\luac\\"))
  intro same
  rw [luaPath, dumpPath, resolved, dumped] at same
  have last := (List.append_inj' same rfl).2
  have letter : b = c := (List.append_inj' (List.singleton_inj.mp last) rfl).2 |> List.singleton_inj.mp
  obtain rfl : 97 = b := Option.some.inj (luaEnds.symm.trans hb)
  rw [List.getLast?_append] at hc
  obtain rfl : 99 = c := Option.some.inj (by simpa [Option.mem_def.mp ends] using hc)
  simp at letter

theorem parseOverride_calls (p : Process) (st : HookState) (call : ParserCall)
    (path : List Bytes) :
    ∃ data', (parseOverride p st call path).1 =
        .returned (p.parser st.calls { call with data := data' }) ∧
      (parseOverride p st call path).2.calls = { call with data := data' } :: st.calls ∧
      (st.host.disk.file path = none → data' = call.data) := by
  unfold parseOverride
  split
  next content disk opened =>
    refine ⟨_, rfl, rfl, ?_⟩
    intro absent
    have present := Disk.openRead_isSome.mp (Option.isSome_of_mem opened)
    simp [absent] at present
  next => exact ⟨call.data, rfl, rfl, fun _ => rfl⟩

theorem parseOverride_of_file {p : Process} {st : HookState} {call : ParserCall}
    {path : List Bytes} {content : Bytes} (room : st.host.disk.opened + 2 ≤ st.host.disk.limit)
    (file : st.host.disk.file path = some content) :
    parseOverride p st call path =
      callParser p
        { st with host := { st.host with disk :=
          { st.host.disk with opened := st.host.disk.opened + 1 } } }
        { call with data := .loadS (p.cStr (textRead content)) (textRead content) } := by
  have first := Disk.openRead_of_file (show st.host.disk.opened < st.host.disk.limit by omega) file
  have second : ({ st.host.disk with opened := st.host.disk.opened + 1 } : HostDisk).CanOpen := by
    show st.host.disk.opened + 1 < st.host.disk.limit
    omega
  rw [parseOverride, first]
  simp only [Disk.openRead_of_file second file, Option.map_some, Option.getD_some]

theorem parseLoadS_transparent (p : Process) (st : HookState) (L z : Nat) (name : Bytes)
    (s : Nat) {source cut : Bytes} (h : bufferName source = some cut) :
    Transparent p st L z name (.loadS s source)
      (parseLoadS p st ⟨L, z, name, .loadS s source⟩ source) := by
  simp only [parseLoadS, h]
  split
  next compiled =>
    obtain ⟨data', returned, calls, unchanged⟩ := parseOverride_calls p
      { st with
        safe := st.safe && cut ≠ bytes "visuals\\camera\\cameras\\camera_functions.luac"
        host := dumpLuac st.host source cut }
      ⟨L, z, name, .loadS s source⟩ (luaPath st.host.cwd cut)
    refine ⟨data', returned, calls, ?_⟩
    intro missing
    refine unchanged ?_
    have other : luaPath st.host.cwd cut ≠ dumpPath st.host.cwd cut := luaPath_ne_dumpPath h
    rw [(dumpLuac_frame source (bufferName_endsInName h).1).2.2 _ other]
    by_contra present
    exact missing s source rfl ⟨cut, h, compiled, Option.isSome_iff_ne_none.mpr present⟩
  next => exact ⟨_, rfl, rfl, fun _ => rfl⟩

/-- The hook is transparent exactly for the loads with a reader argument, except for the
empty chunk of a `LoadS` that it takes for a named one. -/
theorem hook_transparent_iff (p : Process) (st : HookState) (L z : Nat) (name : Bytes)
    (data : ReaderData) :
    Transparent p st L z name data (luadProtectedparserHook p st L z name data) ↔
      data ≠ .null ∧ ∀ s source, data = .loadS s source → st.safe = true → s ≠ 0 → s ≠ 1 →
        source ≠ [] := by
  cases data with
  | null =>
    refine ⟨?_, fun h => absurd rfl h.1⟩
    rintro ⟨_, returned, _⟩
    simp [luadProtectedparserHook] at returned
  | loadF extraline =>
    exact ⟨fun _ => ⟨by simp, by simp⟩, fun _ => ⟨_, rfl, rfl, fun _ => rfl⟩⟩
  | loadS s source =>
    by_cases passed : (!st.safe || s = 0 || s = 1) = true
    · refine ⟨fun _ => ⟨by simp, ?_⟩, fun _ => ?_⟩
      · rintro _ _ ⟨⟩ safe ne_zero ne_one
        simp [safe, ne_zero, ne_one] at passed
      · rw [luadProtectedparserHook]
        exact if_pos passed ▸ ⟨_, rfl, rfl, fun _ => rfl⟩
    · have taken : luadProtectedparserHook p st L z name (.loadS s source) =
          parseLoadS p st ⟨L, z, name, .loadS s source⟩ source := by
        simp only [luadProtectedparserHook, if_neg passed]
      obtain ⟨safe, ne_zero, ne_one⟩ : st.safe = true ∧ s ≠ 0 ∧ s ≠ 1 := by
        simpa [and_assoc] using passed
      rw [taken]
      cases cut : bufferName source with
      | none =>
        have empty := bufferName_eq_none.mp cut
        refine ⟨?_, fun h => absurd empty (h.2 s source rfl safe ne_zero ne_one)⟩
        rintro ⟨_, returned, _⟩
        simp [parseLoadS, cut] at returned
      | some cutName =>
        refine ⟨fun _ => ⟨by simp, ?_⟩, fun _ => parseLoadS_transparent p st L z name s cut⟩
        rintro _ _ ⟨⟩ _ _ _ rfl
        simp [bufferName_eq_none.mpr rfl] at cut

/-- The builtin `load` and the empty buffer of `luaL_loadbuffer`, right after the start. -/
theorem builtin_load_breaks_transparent :
    (¬ Transparent ⟨fun _ _ => 0, fun _ => 4096⟩ ⟨true, emptyHost, []⟩ 1 2 (bytes "=(load)") .null
      (luadProtectedparserHook ⟨fun _ _ => 0, fun _ => 4096⟩ ⟨true, emptyHost, []⟩ 1 2
        (bytes "=(load)") .null)) ∧
    ¬ Transparent ⟨fun _ _ => 0, fun _ => 4096⟩ ⟨true, emptyHost, []⟩ 1 2 [] (.loadS 4096 [])
      (luadProtectedparserHook ⟨fun _ _ => 0, fun _ => 4096⟩ ⟨true, emptyHost, []⟩ 1 2 []
        (.loadS 4096 [])) := by
  constructor
  · rintro ⟨_, returned, _⟩
    simp [luadProtectedparserHook] at returned
  · rintro ⟨_, returned, _⟩
    have thrown : (luadProtectedparserHook ⟨fun _ _ => 0, fun _ => 4096⟩ ⟨true, emptyHost, []⟩ 1 2 []
        (.loadS 4096 [])).1 = .outOfRange := by decide
    simp [thrown] at returned

end DriverSF
