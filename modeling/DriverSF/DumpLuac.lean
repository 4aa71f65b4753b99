import DriverSF.LuaValue
import DriverSF.PathResolve
import DriverSF.FileStreams

namespace DriverSF

open PathResolve FileStreams

abbrev HostDisk := Disk Bytes UInt8

/-- Paths on Windows: both slashes separate, `.` and `..` are resolved in the path itself. -/
def windows : Style UInt8 := ⟨fun b => b == 92 || b == 47, 46⟩

/-- What the game process has besides its Lua state. -/
structure Host where
  cwd : List Bytes
  disk : HostDisk
  console : Console
  dumpLua : Bool

def dumpPath (cwd : List Bytes) (bufferName : Bytes) : List Bytes :=
  resolve windows cwd (bytes ".\\dumps\\luac\\" ++ bufferName)

/-- The directories that `create_directories` makes on its way to the file's own. -/
def dumpDirectories (cwd : List Bytes) (bufferName : Bytes) : List (List Bytes) :=
  visited windows cwd (components windows (bytes ".\\dumps\\luac\\" ++ bufferName)).dropLast

/-- The second opening of `dump_file` and the write. A stream that is open already fails
to open, and a stream that has failed writes nothing. -/
def reopenDump (disk : HostDisk) (dumpFile : Option HostDisk) (path : List Bytes)
    (source : Bytes) : HostDisk :=
  if dumpFile.isSome then disk.close
  else match disk.openWrite path with
    | some disk => (disk.write path source).close
    | none => disk

/-- The disk after `dump_luac`, and whether the file was taken for a new one. -/
def dumpToDisk (disk : HostDisk) (path : List Bytes) (dirs : List (List Bytes))
    (source : Bytes) : Bool × HostDisk :=
  let dumpFile := disk.openNew path
  let disk := dumpFile.getD disk
  if (disk.openRead path).isSome then
    -- File already exists, don't overwrite
    (false, if dumpFile.isSome then disk.close else disk)
  else
    (true, reopenDump (disk.makeDirs dirs) dumpFile path source)

def dumpLuac (h : Host) (source bufferName : Bytes) : Host :=
  if h.dumpLua then
    let (dumped, disk) := dumpToDisk h.disk (dumpPath h.cwd bufferName)
      (dumpDirectories h.cwd bufferName) source
    { h with
      disk
      console := if dumped then
          h.console.dll (bytes "luad_protectedparser_hook")
            (bytes "Dumped: " ++ bytes ".\\dumps\\luac\\" ++ bufferName)
        else h.console }
  else h

/-- What one dump does to the disk. -/
inductive Dumped (disk : HostDisk) (path : List Bytes) (dirs : List (List Bytes))
    (source : Bytes) : HostDisk → Prop
  | nothing (present : (disk.file path).isSome) : Dumped disk path dirs source disk
  | directories (full : ¬ disk.CanOpen) : Dumped disk path dirs source (disk.makeDirs dirs)
  | empty (absent : disk.file path = none) (dir : disk.isDir path.dropLast = true) :
    Dumped disk path dirs source (disk.write path [])
  | emptyDirectories (absent : disk.file path = none) (last : disk.limit ≤ disk.opened + 1) :
    Dumped disk path dirs source ((disk.write path []).makeDirs dirs)
  | complete (absent : disk.file path = none) (dir : disk.isDir path.dropLast = false) :
    Dumped disk path dirs source ((disk.makeDirs dirs).write path source)

theorem dumpToDisk_dumped {disk : HostDisk} {path : List Bytes} {dirs : List (List Bytes)}
    {source : Bytes} (parent : path.dropLast ∈ dirs) :
    Dumped disk path dirs source (dumpToDisk disk path dirs source).2 := by
  by_cases opens : disk.CanOpen ∧ disk.file path = none ∧ disk.isDir path.dropLast = true
  · obtain ⟨room, absent, dir⟩ := opens
    have opened : disk.openNew path = some { disk.write path [] with opened := disk.opened + 1 } := by
      rw [Disk.openNew, if_pos absent, Disk.openWrite_of_canOpen room dir]
    simp only [dumpToDisk, opened, Option.getD_some, Option.isSome_some, if_true, reopenDump]
    split
    next => exact .empty absent dir
    next unread =>
      refine .emptyDirectories absent ?_
      have full := mt (fun room => Disk.openRead_isSome.mpr ⟨room, by simp⟩) unread
      exact Nat.le_of_not_lt full
  · have closed : disk.openNew path = none := by
      by_cases absent : disk.file path = none
      · rw [Disk.openNew, if_pos absent]
        exact if_neg fun ready => opens ⟨ready.1, absent, ready.2⟩
      · rw [Disk.openNew, if_neg absent]
    simp only [dumpToDisk, closed, Option.getD_none, Option.isSome_none, Bool.false_eq_true,
      if_false, reopenDump]
    split
    next read => exact .nothing (Disk.openRead_isSome.mp read).2
    next unread =>
      by_cases room : disk.CanOpen
      · have absent : disk.file path = none := by
          simpa [Disk.openRead_isSome, room] using unread
        have missing : disk.isDir path.dropLast = false := by
          simpa [room, absent] using opens
        have made : (disk.makeDirs dirs).isDir path.dropLast = true := by
          simp [Disk.makeDirs, parent]
        have reopened := Disk.openWrite_of_canOpen (d := disk.makeDirs dirs) room made
        simp only [reopened, Disk.close_write_opened]
        exact .complete absent missing
      · have full := Disk.openWrite_of_full (d := disk.makeDirs dirs) path room
        simp only [full]
        exact .directories room

theorem Dumped.opened {disk disk' : HostDisk} {path : List Bytes} {dirs : List (List Bytes)}
    {source : Bytes} (h : Dumped disk path dirs source disk') :
    disk'.opened = disk.opened ∧ disk'.limit = disk.limit := by
  cases h <;> exact ⟨rfl, rfl⟩

theorem Dumped.file_ne {disk disk' : HostDisk} {path other : List Bytes}
    {dirs : List (List Bytes)} {source : Bytes} (h : Dumped disk path dirs source disk')
    (ne : other ≠ path) : disk'.file other = disk.file other := by
  cases h with
  | nothing present => rfl
  | directories full => rfl
  | empty absent dir => exact Disk.write_file_ne ne
  | emptyDirectories absent last => exact Disk.write_file_ne ne
  | complete absent dir => exact Disk.write_file_ne ne

theorem Dumped.extends {disk disk' : HostDisk} {path : List Bytes} {dirs : List (List Bytes)}
    {source : Bytes} (h : Dumped disk path dirs source disk') : disk'.Extends disk := by
  cases h with
  | nothing present => exact .refl disk
  | directories full => exact .refl disk
  | empty absent dir => exact Disk.write_extends absent []
  | emptyDirectories absent last => exact Disk.write_extends absent []
  | complete absent dir => exact Disk.write_extends (d := disk.makeDirs dirs) absent source

/-- With streams to spare, a new file is complete only if its directory is missing. -/
theorem Dumped.new_file {disk disk' : HostDisk} {path : List Bytes} {dirs : List (List Bytes)}
    {source : Bytes} (h : Dumped disk path dirs source disk') (room : disk.opened + 2 ≤ disk.limit)
    (absent : disk.file path = none) :
    disk'.file path = some (if disk.isDir path.dropLast then [] else source) := by
  cases h with
  | nothing present => simp [absent] at present
  | directories full => exact absurd (show disk.opened < disk.limit by omega) full
  | empty _ dir => rw [if_pos dir, Disk.write_file_self]
  | emptyDirectories _ last => omega
  | complete _ dir => simp [dir]

/-- A call of `dump_luac` with a name that can be the name of a file. -/
structure DumpCall where
  source : Bytes
  name : Bytes
  named : EndsInName windows name

def dumpAll (h : Host) (calls : List DumpCall) : Host :=
  calls.foldl (fun h c => dumpLuac h c.source c.name) h

/-- Every file that existed has its bytes, and every other dumped path holds the bytes of
the first call with its name. -/
structure CompleteDumps (cwd : List Bytes) (disk disk' : HostDisk) (calls : List DumpCall) : Prop where
  kept : disk'.Extends disk
  complete : ∀ before c after, calls = before ++ c :: after → (∀ e ∈ before, e.name ≠ c.name) →
    disk.file (dumpPath cwd c.name) = none → disk'.file (dumpPath cwd c.name) = some c.source

theorem dumpPath_parent {cwd : List Bytes} {name : Bytes} (named : EndsInName windows name) :
    (dumpPath cwd name).dropLast ∈ dumpDirectories cwd name :=
  dropLast_resolve_mem_visited cwd (named.append _)

theorem dumpLuac_dumped {h : Host} {name : Bytes} (source : Bytes) (on : h.dumpLua = true)
    (named : EndsInName windows name) :
    Dumped h.disk (dumpPath h.cwd name) (dumpDirectories h.cwd name) source
      (dumpLuac h source name).disk := by
  rw [dumpLuac, if_pos on]
  exact dumpToDisk_dumped (dumpPath_parent named)

theorem dumpLuac_frame {h : Host} {name : Bytes} (source : Bytes)
    (named : EndsInName windows name) :
    (dumpLuac h source name).disk.opened = h.disk.opened ∧
      (dumpLuac h source name).disk.limit = h.disk.limit ∧
      ∀ path, path ≠ dumpPath h.cwd name →
        (dumpLuac h source name).disk.file path = h.disk.file path := by
  by_cases on : h.dumpLua = true
  · have dumped := dumpLuac_dumped source on named
    exact ⟨dumped.opened.1, dumped.opened.2, fun path ne => dumped.file_ne ne⟩
  · rw [dumpLuac, if_neg on]
    exact ⟨rfl, rfl, fun _ _ => rfl⟩

@[simp] theorem dumpLuac_cwd (h : Host) (source name : Bytes) :
    (dumpLuac h source name).cwd = h.cwd := by
  unfold dumpLuac
  split <;> rfl

@[simp] theorem dumpLuac_dumpLua (h : Host) (source name : Bytes) :
    (dumpLuac h source name).dumpLua = h.dumpLua := by
  unfold dumpLuac
  split <;> rfl

structure DumpsKept (h h' : Host) : Prop where
  cwd : h'.cwd = h.cwd
  dumpLua : h'.dumpLua = true
  opened : h'.disk.opened = h.disk.opened
  limit : h'.disk.limit = h.disk.limit
  files : h'.disk.Extends h.disk

theorem dumpAll_kept {h : Host} (on : h.dumpLua = true) (calls : List DumpCall) :
    DumpsKept h (dumpAll h calls) := by
  refine List.foldlRecOn calls _ ⟨rfl, on, rfl, rfl, .refl _⟩ ?_
  intro h' kept c _
  have dumped := dumpLuac_dumped c.source kept.dumpLua c.named
  refine ⟨?_, ?_, ?_, ?_, dumped.extends.trans kept.files⟩
  · rw [dumpLuac_cwd, kept.cwd]
  · rw [dumpLuac_dumpLua, kept.dumpLua]
  · rw [dumped.opened.1, kept.opened]
  · rw [dumped.opened.2, kept.limit]

theorem dumpAll_file_ne {h : Host} (on : h.dumpLua = true) {calls : List DumpCall}
    {path : List Bytes} (other : ∀ c ∈ calls, path ≠ dumpPath h.cwd c.name) :
    (dumpAll h calls).disk.file path = h.disk.file path := by
  induction calls generalizing h with
  | nil => rfl
  | cons c calls ih =>
    have rest := ih (h := dumpLuac h c.source c.name) (by rw [dumpLuac_dumpLua, on])
      (by simpa using fun e he => other e (List.mem_cons_of_mem c he))
    exact rest.trans ((dumpLuac_dumped c.source on c.named).file_ne (other c List.mem_cons_self))

theorem dumpAll_first {h : Host} (on : h.dumpLua = true) (room : h.disk.opened + 2 ≤ h.disk.limit)
    {before after : List DumpCall} {c : DumpCall}
    (first : ∀ e ∈ before, dumpPath h.cwd c.name ≠ dumpPath h.cwd e.name)
    (absent : h.disk.file (dumpPath h.cwd c.name) = none) :
    (dumpAll h (before ++ c :: after)).disk.file (dumpPath h.cwd c.name) =
      some (if (dumpAll h before).disk.isDir (dumpPath h.cwd c.name).dropLast then []
        else c.source) := by
  have kept := dumpAll_kept on before
  have still : (dumpAll h before).disk.file (dumpPath h.cwd c.name) = none := by
    rw [dumpAll_file_ne on first, absent]
  have dumped := dumpLuac_dumped c.source kept.dumpLua c.named
  rw [kept.cwd] at dumped
  have new := dumped.new_file (by rw [kept.opened, kept.limit]; exact room) still
  have still_on : (dumpLuac (dumpAll h before) c.source c.name).dumpLua = true := by
    rw [dumpLuac_dumpLua, kept.dumpLua]
  have later := dumpAll_kept still_on after
  have split : dumpAll h (before ++ c :: after) =
      dumpAll (dumpLuac (dumpAll h before) c.source c.name) after := by
    simp [dumpAll, List.foldl_append]
  rw [split]
  exact later.files _ _ new

/-- With streams to spare, and with different names for different paths, a sequence of dump
calls keeps every file and completes every new one if and only if the directory of each new
file that is not empty is still missing when the first call with its name is made. -/
theorem completeDumps_iff {h : Host} {calls : List DumpCall} (on : h.dumpLua = true)
    (room : h.disk.opened + 2 ≤ h.disk.limit)
    (distinct : ∀ a ∈ calls, ∀ b ∈ calls, dumpPath h.cwd a.name = dumpPath h.cwd b.name →
      a.name = b.name) :
    CompleteDumps h.cwd h.disk (dumpAll h calls).disk calls ↔
      ∀ before c after, calls = before ++ c :: after → (∀ e ∈ before, e.name ≠ c.name) →
        h.disk.file (dumpPath h.cwd c.name) = none → c.source = [] ∨
          (dumpAll h before).disk.isDir (dumpPath h.cwd c.name).dropLast = false := by
  have result : ∀ before c after, calls = before ++ c :: after →
      (∀ e ∈ before, e.name ≠ c.name) → h.disk.file (dumpPath h.cwd c.name) = none →
      (dumpAll h calls).disk.file (dumpPath h.cwd c.name) =
        some (if (dumpAll h before).disk.isDir (dumpPath h.cwd c.name).dropLast then []
          else c.source) := by
    rintro before c after rfl first absent
    refine dumpAll_first on room ?_ absent
    intro e he same
    exact first e he (distinct c (by simp) e (by simp [he]) same).symm
  constructor
  · intro dumps before c after split first absent
    have complete := dumps.complete before c after split first absent
    rw [result before c after split first absent] at complete
    cases dir : (dumpAll h before).disk.isDir (dumpPath h.cwd c.name).dropLast with
    | false => exact Or.inr rfl
    | true => exact Or.inl (by simpa [dir] using complete.symm)
  · intro fresh
    refine ⟨(dumpAll_kept on calls).files, ?_⟩
    intro before c after split first absent
    rw [result before c after split first absent]
    rcases fresh before c after split first absent with empty | missing
    · simp [empty]
    · simp [missing]

def emptyHost : Host :=
  ⟨[bytes "Driver"], ⟨fun path => path == [bytes "Driver"], fun _ => none, 512, 3⟩, ⟨true, []⟩, true⟩

/-- A compiled script of two bytes in the directory `visuals`. -/
def visualsScript (name : Bytes) (named : EndsInName windows name) : DumpCall :=
  ⟨[27, 76], bytes "visuals\\" ++ name, named.append _⟩

def firstScript : DumpCall := visualsScript (bytes "camera.luac") ⟨99, by decide, by decide, by decide⟩

def secondScript : DumpCall := visualsScript (bytes "lights.luac") ⟨99, by decide, by decide, by decide⟩

def mapScript : DumpCall :=
  ⟨[27], bytes "hud\\" ++ bytes "map.luac",
    EndsInName.append ⟨99, by decide, by decide, by decide⟩ _⟩

/-- One script in each of two directories, and the first one again with other bytes. -/
def separateScripts : List DumpCall := [firstScript, mapScript, { firstScript with source := [76] }]

theorem completeDumps_iff_separate :
    CompleteDumps emptyHost.cwd emptyHost.disk (dumpAll emptyHost separateScripts).disk
      separateScripts := by
  refine (completeDumps_iff rfl (by decide) (by decide)).mpr ?_
  intro before c after split first _
  rcases before with _ | ⟨d, _ | ⟨e, _ | ⟨f, before⟩⟩⟩
  · obtain ⟨rfl, _⟩ := List.cons.inj split
    exact Or.inr (by decide)
  · obtain ⟨same, split⟩ := List.cons.inj split
    obtain ⟨rfl, _⟩ := List.cons.inj split
    rw [← same]
    exact Or.inr (by decide)
  · obtain ⟨same, split⟩ := List.cons.inj split
    obtain ⟨_, split⟩ := List.cons.inj split
    obtain ⟨rfl, _⟩ := List.cons.inj split
    have again := first d List.mem_cons_self
    rw [← same] at again
    exact absurd rfl again
  · simp [separateScripts] at split

/-- The second script dumped into one directory is left as an empty file. -/
theorem second_dump_breaks_completeDumps :
    (∀ a ∈ [firstScript, secondScript], ∀ b ∈ [firstScript, secondScript],
      dumpPath emptyHost.cwd a.name = dumpPath emptyHost.cwd b.name → a.name = b.name) ∧
    (dumpAll emptyHost [firstScript, secondScript]).disk.file
      (dumpPath emptyHost.cwd secondScript.name) = some [] ∧
    ¬ CompleteDumps emptyHost.cwd emptyHost.disk
      (dumpAll emptyHost [firstScript, secondScript]).disk [firstScript, secondScript] := by
  have empty : (dumpAll emptyHost [firstScript, secondScript]).disk.file
      (dumpPath emptyHost.cwd secondScript.name) = some [] := by decide
  refine ⟨by decide, empty, ?_⟩
  intro dumps
  have complete := dumps.complete [firstScript] secondScript [] rfl (by decide) rfl
  rw [empty] at complete
  simp [secondScript, visualsScript] at complete

end DriverSF
