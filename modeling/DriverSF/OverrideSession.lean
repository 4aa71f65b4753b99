import DriverSF.ParserHook
import DriverSF.TraceRules

namespace DriverSF

open PathResolve FileStreams ByteSearch

structure LoadCall where
  L : Nat
  z : Nat
  name : Bytes
  s : Nat
  source : Bytes

def LoadCall.hook (p : Process) (st : HookState) (l : LoadCall) : HookOutcome × HookState :=
  luadProtectedparserHook p st l.L l.z l.name (.loadS l.s l.source)

/-- A load after which the game still runs. -/
def loadStep (p : Process) (st : HookState) (l : LoadCall) : Option HookState :=
  match l.hook p st with
  | (.returned _, st') => some st'
  | _ => none

/-- The hook takes the load for one of a named buffer. -/
def Handled (st : HookState) (l : LoadCall) : Prop :=
  st.safe = true ∧ l.s ≠ 0 ∧ l.s ≠ 1

/-- A load with a readable file under its derived name is parsed from the text of that
file, and the hook leaves as many streams open as it found. -/
structure OverrideWorks (p : Process) (st : HookState) (l : LoadCall) : Prop where
  parsed : Handled st l → ∀ cut content, bufferName l.source = some cut →
    isCompiledScript cut = true → st.host.disk.file (luaPath st.host.cwd cut) = some content →
    (l.hook p st).2.calls =
      ⟨l.L, l.z, l.name, .loadS (p.cStr (textRead content)) (textRead content)⟩ :: st.calls
  streams : (l.hook p st).2.host.disk.opened = st.host.disk.opened

def HasReplacement (st : HookState) (l : LoadCall) : Prop :=
  Handled st l ∧ Replaceable st.host l.source

instance (host : Host) (source : Bytes) : Decidable (Replaceable host source) :=
  decidable_of_iff (∃ name ∈ bufferName source, isCompiledScript name = true ∧
    (host.disk.file (luaPath host.cwd name)).isSome) Iff.rfl

instance (st : HookState) (l : LoadCall) : Decidable (HasReplacement st l) :=
  inferInstanceAs (Decidable ((_ ∧ _ ∧ _) ∧ Replaceable st.host l.source))

/-- There are streams to spare for one more load. -/
def HookState.Room (st : HookState) : Prop :=
  st.host.disk.opened + 2 ≤ st.host.disk.limit

section Loads

variable {p : Process} {st : HookState} {l : LoadCall}

theorem hook_handled (handled : Handled st l) :
    l.hook p st = parseLoadS p st ⟨l.L, l.z, l.name, .loadS l.s l.source⟩ l.source := by
  obtain ⟨safe, ne_zero, ne_one⟩ := handled
  simp [LoadCall.hook, luadProtectedparserHook, safe, ne_zero, ne_one]

theorem hook_passed (passed : ¬ Handled st l) :
    l.hook p st = callParser p st ⟨l.L, l.z, l.name, .loadS l.s l.source⟩ := by
  have pass : (!st.safe || l.s = 0 || l.s = 1) = true := by
    by_contra taken
    exact passed (by simpa [Handled, and_assoc] using taken)
  simp only [LoadCall.hook, luadProtectedparserHook, if_pos pass]

/-- While streams are to spare, an override parses the text of the file and leaks a stream. -/
theorem hook_replaced (room : st.Room) (handled : Handled st l) {cut content : Bytes}
    (named : bufferName l.source = some cut) (compiled : isCompiledScript cut = true)
    (file : st.host.disk.file (luaPath st.host.cwd cut) = some content) :
    (l.hook p st).2.calls =
        ⟨l.L, l.z, l.name, .loadS (p.cStr (textRead content)) (textRead content)⟩ :: st.calls ∧
      (l.hook p st).2.host.disk.opened = st.host.disk.opened + 1 := by
  obtain ⟨opened, limit, files⟩ := dumpLuac_frame (h := st.host) l.source (bufferName_endsInName named).1
  have still := (files _ (luaPath_ne_dumpPath named)).trans file
  have still_room : (dumpLuac st.host l.source cut).disk.opened + 2 ≤
      (dumpLuac st.host l.source cut).disk.limit := by
    rw [opened, limit]
    exact room
  rw [hook_handled handled]
  simp only [parseLoadS, named, compiled, if_true]
  rw [parseOverride_of_file still_room still]
  exact ⟨rfl, congrArg (· + 1) opened⟩

theorem callParser_host (call : ParserCall) : (callParser p st call).2.host = st.host := rfl

theorem hook_streams (plain : ¬ HasReplacement st l) :
    (l.hook p st).2.host.disk.opened = st.host.disk.opened ∧
      (l.hook p st).2.host.disk.limit = st.host.disk.limit := by
  by_cases handled : Handled st l
  · rw [hook_handled handled, parseLoadS]
    split
    next => exact ⟨rfl, rfl⟩
    next cut named =>
      obtain ⟨opened, limit, files⟩ := dumpLuac_frame (h := st.host) l.source
        (bufferName_endsInName named).1
      split
      next compiled =>
        have missing : st.host.disk.file (luaPath st.host.cwd cut) = none := by
          by_contra present
          exact plain ⟨handled, cut, named, compiled, Option.isSome_iff_ne_none.mpr present⟩
        have unread := Disk.openRead_of_missing ((files _ (luaPath_ne_dumpPath named)).trans missing)
        simp only [parseOverride, unread, callParser_host]
        exact ⟨opened, limit⟩
      next => exact ⟨rfl, rfl⟩
  · rw [hook_passed handled]
    exact ⟨rfl, rfl⟩

theorem overrideWorks_iff (room : st.Room) : OverrideWorks p st l ↔ ¬ HasReplacement st l := by
  constructor
  · rintro works ⟨handled, cut, named, compiled, present⟩
    obtain ⟨content, file⟩ := Option.isSome_iff_exists.mp present
    have leaked := (hook_replaced (p := p) room handled named compiled file).2
    have streams := works.streams
    omega
  · intro plain
    refine ⟨?_, (hook_streams plain).1⟩
    intro handled cut content named compiled file
    exact absurd ⟨handled, cut, named, compiled, by simp [file]⟩ plain

theorem room_step {st' : HookState} (room : st.Room) (plain : ¬ HasReplacement st l)
    (h : loadStep p st l = some st') : st'.Room := by
  obtain ⟨opened, limit⟩ := hook_streams (p := p) plain
  unfold loadStep at h
  split at h
  next status st'' result =>
    cases Option.some.inj h
    rw [result] at opened limit
    unfold HookState.Room at room ⊢
    rw [opened, limit]
    exact room
  next => simp at h

end Loads

/-- From any state with two streams to spare, overriding works for every load of a session
if and only if no load of the session has a replacement. -/
theorem session_overrideWorks_iff (p : Process) (st : HookState) (loads : List LoadCall)
    (room : st.host.disk.opened + 2 ≤ st.host.disk.limit) :
    Trace.Obeys (loadStep p) (OverrideWorks p) st loads ↔
      Trace.Obeys (loadStep p) (fun st l => ¬ HasReplacement st l) st loads :=
  have agree : ∀ st l, HookState.Room st → (OverrideWorks p st l ↔ ¬ HasReplacement st l) :=
    fun _ _ room => overrideWorks_iff room
  Trace.obeys_iff agree (fun _ _ _ room plain h => room_step room plain h) room

/-- A compiled chunk of the script `x.lua`. -/
def scriptLoad : LoadCall := ⟨1, 2, bytes "@x", 8192, 27 :: bytes "LuaQ@d:\\\\x.lua"⟩

/-- A host that may have two streams and has a decompiled `x.lua`. -/
def overrideHost : Host :=
  { emptyHost with disk :=
    { isDir := fun path => path ≠ []
      file := fun path =>
        if path = [bytes "Driver", bytes "dumps", bytes "lua", bytes "x.lua"] then
          some (bytes "return 1")
        else none
      limit := 2
      opened := 0 } }

/-- A script without a file, the script that has one over a stream of its own, and a chunk
without a name. -/
def plainLoads : List LoadCall :=
  [{ scriptLoad with source := 27 :: bytes "LuaQ@d:\\\\y.lua" }, { scriptLoad with s := 1 },
    { scriptLoad with source := bytes "return 1" }]

theorem session_overrideWorks_iff_plain :
    Trace.Obeys (loadStep ⟨fun _ _ => 0, fun _ => 4096⟩)
      (OverrideWorks ⟨fun _ _ => 0, fun _ => 4096⟩) ⟨true, overrideHost, []⟩ plainLoads :=
  (session_overrideWorks_iff _ ⟨true, overrideHost, []⟩ plainLoads (by decide)).mpr
    (by decide +kernel)

/-- Of three loads of one script, the first is parsed from its file, the second from
nothing and the third from the chunk. -/
theorem leaked_streams_break_overrides :
    (Trace.exec (loadStep ⟨fun _ _ => 0, fun _ => 4096⟩) ⟨true, overrideHost, []⟩
        [scriptLoad, scriptLoad, scriptLoad]).map HookState.calls =
      some [⟨1, 2, bytes "@x", .loadS 8192 scriptLoad.source⟩,
        ⟨1, 2, bytes "@x", .loadS 4096 []⟩, ⟨1, 2, bytes "@x", .loadS 4096 (bytes "return 1")⟩] ∧
    ¬ Trace.Obeys (loadStep ⟨fun _ _ => 0, fun _ => 4096⟩)
      (OverrideWorks ⟨fun _ _ => 0, fun _ => 4096⟩) ⟨true, overrideHost, []⟩
      [scriptLoad, scriptLoad, scriptLoad] := by
  refine ⟨by decide +kernel, ?_⟩
  intro works
  have streams := works.1.streams
  revert streams
  decide

end DriverSF
