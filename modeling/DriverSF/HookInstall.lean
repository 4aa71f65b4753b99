import DriverSF.SessionSteps

namespace DriverSF

/-- The parser is reached only through a hook that holds its trampoline. -/
def ParserLive (s : Session) : Action → Prop
  | .load _ => s.hooks.oLuadProtectedparser = true
  | _ => True

instance (s : Session) (a : Action) : Decidable (ParserLive s a) := by
  unfold ParserLive
  split <;> infer_instance

/-- A hook call that has read status 0 from its load has exactly one new function on the
stack, on top of the slots that its original call left. -/
def ChunkOnTop (s : Session) : Prop :=
  ∀ f ∈ s.frames, ∀ stage text, f.pc = .call stage text →
    ∃ closure, f.slots = .function closure :: f.caller

/-- The stack is as the original call left it. -/
def Pc.balanced : Pc → Bool
  | .original => false
  | .call _ _ => false
  | _ => true

/-- The saved top is still to be restored. -/
def Pc.saved : Pc → Bool
  | .load _ => true
  | .call _ _ => true
  | .running _ _ => true
  | _ => false

structure Frame.Tidy (f : Frame) : Prop where
  slots : f.pc.balanced = true → f.slots = f.caller
  call : ∀ stage text, f.pc = .call stage text → ∃ closure, f.slots = .function closure :: f.caller
  top : f.pc.saved = true → f.top = f.caller.length

def Session.Tidy (s : Session) : Prop := ∀ f ∈ s.frames, f.Tidy

theorem Frame.tidy_of_balanced {f : Frame} (slots : f.slots = f.caller)
    (saved : f.pc.saved = false) : f.Tidy := by
  refine ⟨fun _ => slots, ?_, ?_⟩
  · intro stage text pc
    simp [pc, Pc.saved] at saved
  · intro h
    simp [saved] at h

@[simp] theorem setTop_length (slots : List Value) : setTop slots.length slots = slots := by
  simp [setTop]

theorem Frame.tidy_next {f : Frame} {stage : Stage} (slots : f.slots = f.caller) :
    ∀ f' ∈ f.next stage, f'.Tidy := by
  intro f' hf
  obtain ⟨pc, hs, hc⟩ := Frame.mem_next hf
  refine Frame.tidy_of_balanced (by rw [hs, hc, slots]) ?_
  rcases pc with pc | pc <;> rw [pc] <;> rfl

theorem hookCall_load {live : Bool} {o : ParserOutcome} {status : Int} {slots after : List Value}
    (h : hookCall live (o.apply slots) slots = (status, after)) :
    (live = false ∧ status = 0 ∧ after = slots) ∨
      (live = true ∧ status = 0 ∧ ∃ closure, after = .function closure :: slots) ∨
      (live = true ∧ status ≠ 0 ∧ ∃ message, after = message :: slots) := by
  cases live with
  | false =>
    obtain ⟨rfl, rfl⟩ := Prod.mk.inj h
    exact Or.inl ⟨rfl, rfl, rfl⟩
  | true =>
    cases o with
    | ok closure =>
      obtain ⟨rfl, rfl⟩ := Prod.mk.inj h
      exact Or.inr (Or.inl ⟨rfl, rfl, closure, rfl⟩)
    | error e message =>
      obtain ⟨rfl, rfl⟩ := Prod.mk.inj h
      exact Or.inr (Or.inr ⟨rfl, e.status_ne_zero, message, rfl⟩)

theorem tidy_hookStep {s s' : Session} {f : Frame} {rest : List Frame} {a : Action}
    (tidy : s.Tidy) (frames : s.frames = f :: rest) (live : ParserLive s a)
    (h : HookStep s f rest a s') : s'.Tidy := by
  have top : f.Tidy := tidy f (by simp [frames])
  have below : ∀ front : List Frame, (∀ f' ∈ front, f'.Tidy) → ∀ f' ∈ front ++ rest, f'.Tidy := by
    intro front new f' hf
    rcases List.mem_append.mp hf with hf | hf
    · exact new f' hf
    · exact tidy f' (by simp [frames, hf])
  have belowTop : ∀ f' : Frame, f'.Tidy → ∀ g ∈ f' :: rest, g.Tidy := by
    intro f' new
    exact below [f'] (by simpa using new)
  cases h with
  | original slots pc => exact belowTop _ (Frame.tidy_of_balanced rfl rfl)
  | enter pc wants =>
    exact belowTop _ (Frame.tidy_of_balanced (top.slots (by rw [pc]; rfl)) rfl)
  | skip pc wants => exact below _ (Frame.tidy_next (top.slots (by rw [pc]; rfl)))
  | storeBuffer pc =>
    exact belowTop _ (Frame.tidy_of_balanced (top.slots (by rw [pc]; rfl)) rfl)
  | storeExecute pc =>
    exact belowTop _ (Frame.tidy_of_balanced (top.slots (by rw [pc]; rfl)) rfl)
  | testTrue pc execute =>
    exact belowTop _ (Frame.tidy_of_balanced (top.slots (by rw [pc]; rfl)) rfl)
  | testFalse pc execute => exact below _ (Frame.tidy_next (top.slots (by rw [pc]; rfl)))
  | clearExecute pc =>
    have slots := top.slots (by rw [pc]; rfl)
    exact belowTop _ ⟨fun _ => slots, by simp, fun _ => congrArg List.length slots⟩
  | loadOk pc status =>
    have slots := top.slots (by rw [pc]; rfl)
    have saved := top.top (by rw [pc]; rfl)
    rcases hookCall_load status with ⟨dead, _⟩ | ⟨_, _, closure, new⟩ | ⟨_, error, _⟩
    · exact absurd live (by simp [ParserLive, dead])
    · refine belowTop _ ⟨by simp [Pc.balanced], ?_, fun _ => saved⟩
      intro _ _ _
      exact ⟨closure, by rw [new, slots]⟩
    · exact absurd rfl error
  | loadError pc error result =>
    have slots := top.slots (by rw [pc]; rfl)
    have saved := top.top (by rw [pc]; rfl)
    rcases hookCall_load result with ⟨_, ok, _⟩ | ⟨_, ok, _⟩ | ⟨_, _, message, new⟩
    · exact absurd ok error
    · exact absurd ok error
    · exact belowTop _ (Frame.tidy_of_balanced (by simp [new, saved, slots]) rfl)
  | call pc chunk =>
    obtain ⟨closure, slots⟩ := top.call _ _ pc
    have saved := top.top (by rw [pc]; rfl)
    obtain ⟨_, rfl⟩ := List.cons.inj (chunk.symm.trans slots)
    exact belowTop _ ⟨fun _ => rfl, by simp, fun _ => saved⟩
  | finishOk results pc =>
    have slots := top.slots (by rw [pc]; rfl)
    have saved := top.top (by rw [pc]; rfl)
    exact belowTop _ (Frame.tidy_of_balanced (by simp [saved, slots]) rfl)
  | finishError e obj pc =>
    have slots := top.slots (by rw [pc]; rfl)
    have saved := top.top (by rw [pc]; rfl)
    exact belowTop _ (Frame.tidy_of_balanced (by simp [saved, slots]) rfl)
  | clearRan pc => exact belowTop _ (Frame.tidy_of_balanced (top.slots (by rw [pc]; rfl)) rfl)
  | clearDone pc plain => exact below _ (Frame.tidy_next (top.slots (by rw [pc]; rfl)))
  | setFlag pc => exact below _ (Frame.tidy_next (top.slots (by rw [pc]; rfl)))

theorem tidy_step {s s' : Session} {a : Action} (tidy : s.Tidy) (live : ParserLive s a)
    (h : step s a = some s') : s'.Tidy := by
  cases step_sound h with
  | intercepted game live =>
    intro f hf
    rcases List.mem_cons.mp hf with rfl | hf
    · exact Frame.tidy_of_balanced rfl rfl
    · exact tidy f hf
  | bypassed => exact tidy
  | hook frames inner => exact tidy_hookStep tidy frames live inner
  | submit inner => cases inner <;> exact tidy
  | installPcall => exact tidy
  | installParser => exact tidy

/-- A load through the empty hook reads status 0 and has nothing to call. -/
theorem parserLive_of_chunkOnTop {s s' : Session} {a : Action} (tidy : s.Tidy)
    (h : step s a = some s') (chunk : ChunkOnTop s') : ParserLive s a := by
  cases a with
  | load o =>
    cases step_sound h with
    | @hook f rest _ _ frames inner =>
      have top : f.Tidy := tidy f (by simp [frames])
      cases inner with
      | @loadOk stage _ slots pc status =>
        rcases hookCall_load status with ⟨_, _, same⟩ | ⟨live, _⟩ | ⟨live, _⟩
        · obtain ⟨closure, new⟩ := chunk _ List.mem_cons_self stage s.buffer rfl
          have empty : slots = f.caller := same.trans (top.slots (by rw [pc]; rfl))
          simp [empty] at new
        · exact live
        · exact live
      | loadError pc error result =>
        rcases hookCall_load result with ⟨_, ok, _⟩ | ⟨live, _⟩ | ⟨live, _⟩
        · exact absurd ok error
        · exact live
        · exact live
    | submit inner => cases inner
  | _ => trivial

/-- While the hooks are being installed under a running game, every load that reports
success leaves exactly one new function to call if and only if no hook call reaches its
load before the second hook is live. -/
theorem chunkOnTop_iff_parserLive {hooks : Hooks} {configMenuEnable gameRunningHookComplete : Bool}
    {submitters : Nat} {acts : List Action} {s : Session}
    (run : Trace.exec step
      (Session.start hooks configMenuEnable gameRunningHookComplete submitters) acts = some s) :
    Trace.Always step ChunkOnTop
        (Session.start hooks configMenuEnable gameRunningHookComplete submitters) acts ↔
      Trace.Obeys step ParserLive
        (Session.start hooks configMenuEnable gameRunningHookComplete submitters) acts := by
  have first : (Session.start hooks configMenuEnable gameRunningHookComplete submitters).Tidy := by
    intro f hf
    simp [Session.start] at hf
  exact Trace.always_iff_obeys (fun _ tidy f hf => (tidy f hf).call)
    (fun _ _ _ tidy live h => tidy_step tidy live h)
    (fun _ _ _ tidy h chunk => parserLive_of_chunkOnTop tidy h chunk) first run

theorem chunkOnTop_iff_parserLive_startup :
    ∃ s, Trace.exec step (Session.start ⟨false, false⟩ true false 0)
        ([.installPcall, .installParser] ++ enterHook ++ stageUntilRun []) = some s ∧
      Trace.Always step ChunkOnTop (Session.start ⟨false, false⟩ true false 0)
        ([.installPcall, .installParser] ++ enterHook ++ stageUntilRun []) :=
  ⟨_, rfl, (chunkOnTop_iff_parserLive rfl).mpr (by decide)⟩

/-- A `lua_pcall` of the game between the two steps of `install_hooks`: its one result is
what the hook calls instead of a chunk. -/
def callBetweenInstalls : List Action :=
  [.installPcall, .pcall, .original [.string (bytes "result")], .guard false, .storeBuffer,
    .storeExecute, .testExecute, .clearExecute, .load (.ok 1)]

theorem call_between_installs_breaks_chunkOnTop :
    ∃ s, Trace.exec step (Session.start ⟨false, false⟩ true false 0) callBetweenInstalls = some s ∧
      (∃ s', step s .call = some s' ∧ ∃ f ∈ s'.frames, f.slots = [] ∧
        f.caller = [.string (bytes "result")]) ∧
      ¬ ChunkOnTop s := by
  refine ⟨_, rfl, ⟨_, rfl, _, List.mem_cons_self, rfl, rfl⟩, ?_⟩
  intro chunk
  obtain ⟨closure, top⟩ := chunk _ List.mem_cons_self (.startup .configMenu) flagGameDevMenuChunk rfl
  have height : 1 = 2 := congrArg List.length top
  omega

end DriverSF
