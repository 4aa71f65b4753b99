import DriverSF.SessionSteps

namespace DriverSF

/-- The startup stage whose text has been stored and not yet been loaded. -/
def Pc.window : Pc → Option Startup
  | .storeExecute stage _ => some stage
  | .testExecute (.startup stage) => some stage
  | .clearExecute (.startup stage) => some stage
  | .load (.startup stage) => some stage
  | _ => none

/-- The text that a startup stage has loaded. -/
def Pc.startupText : Pc → Option (Startup × Bytes)
  | .call (.startup stage) text => some (stage, text)
  | .running (.startup stage) text => some (stage, text)
  | .clearBuffer (.startup stage) text _ => some (stage, text)
  | .setFlag stage text => some (stage, text)
  | _ => none

/-- The text that a startup stage has run to its end without error. -/
def Pc.ranText : Pc → Option (Startup × Bytes)
  | .clearBuffer (.startup stage) text true => some (stage, text)
  | .setFlag stage text => some (stage, text)
  | _ => none

/-- No other thread stores a different text between the store of a startup stage and the
load that follows it. -/
def Undisturbed (s : Session) : Action → Prop
  | .submitBuffer thread => ∀ f ∈ s.frames.head?, ∀ stage ∈ f.pc.window,
      s.submitters[thread]? = some (.ready stage.chunk)
  | _ => True

instance (s : Session) (a : Action) : Decidable (Undisturbed s a) := by
  unfold Undisturbed
  split <;> infer_instance

/-- Every assignment of a completion flag is made by a hook call that has loaded the chunk
of that stage itself and run it without error, and no flag is set without such an
assignment. The arguments are the flags before and after the run, the assignments to them
and the chunks that ended without error, both with the number of their hook call. -/
structure TruthfulFlags (before after : Startup → Bool) (flagged : List (Nat × Startup × Bytes))
    (finished : List (Nat × Stage × Bytes)) : Prop where
  own : ∀ call stage text, (call, stage, text) ∈ flagged →
    text = stage.chunk ∧ (call, .startup stage, text) ∈ finished
  recorded : ∀ stage, after stage = true →
    before stage = true ∨ ∃ call, (call, stage, stage.chunk) ∈ flagged

/-- What holds of the hook call with number `call` at its next step. -/
structure Pc.Consistent (pc : Pc) (call : Nat) (buffer : Bytes)
    (finished : List (Nat × Stage × Bytes)) : Prop where
  window : ∀ stage, pc.window = some stage → buffer = stage.chunk
  text : ∀ e, pc.startupText = some e → e.2 = e.1.chunk
  ran : ∀ e, pc.ranText = some e → (call, .startup e.1, e.2) ∈ finished

structure FlagInv (before : Startup → Bool) (s : Session) : Prop where
  frame : ∀ f ∈ s.frames, f.pc.Consistent f.number s.buffer s.ledger.finished
  truthful : TruthfulFlags before s.done s.ledger.flagged s.ledger.finished

theorem Pc.ranText_startupText {pc : Pc} {e : Startup × Bytes} (h : pc.ranText = some e) :
    pc.startupText = some e := by
  cases pc with
  | clearBuffer stage text ok =>
    cases stage <;> cases ok <;> simp_all [Pc.ranText, Pc.startupText]
  | setFlag stage text => exact h
  | _ => simp [Pc.ranText] at h

theorem Pc.consistent_free {pc : Pc} {call : Nat} {buffer : Bytes}
    {finished : List (Nat × Stage × Bytes)} (window : pc.window = none)
    (text : pc.startupText = none) : pc.Consistent call buffer finished := by
  refine ⟨?_, ?_, ?_⟩
  · intro stage hw
    simp [window] at hw
  · intro e he
    simp [text] at he
  · intro e he
    simp [Pc.ranText_startupText he] at text

theorem Pc.Consistent.move {pc pc' : Pc} {call : Nat} {buffer buffer' : Bytes}
    {finished finished' : List (Nat × Stage × Bytes)} (h : pc.Consistent call buffer finished)
    (window : pc'.window = none) (text : pc'.startupText = pc.startupText)
    (ran : ∀ e, pc'.ranText = some e → (call, .startup e.1, e.2) ∈ finished') :
    pc'.Consistent call buffer' finished' := by
  refine ⟨?_, ?_, ran⟩
  · intro stage hw
    simp [window] at hw
  · intro e he
    exact h.text e (text ▸ he)

theorem Pc.Consistent.waiting {pc : Pc} {call : Nat} {buffer buffer' : Bytes}
    {finished finished' : List (Nat × Stage × Bytes)} (h : pc.Consistent call buffer finished)
    (game : pc.inGameCode = true) : pc.Consistent call buffer' finished' := by
  refine h.move ?_ rfl ?_
  · cases pc <;> simp_all [Pc.inGameCode, Pc.window]
  · intro e he
    cases pc <;> simp_all [Pc.inGameCode, Pc.ranText]

theorem next_consistent {f : Frame} {stage : Stage} {buffer : Bytes}
    {finished : List (Nat × Stage × Bytes)} :
    ∀ f' ∈ f.next stage, f'.pc.Consistent f'.number buffer finished := by
  intro f' hf
  rcases (Frame.mem_next hf).1 with pc | pc <;> rw [pc] <;> exact Pc.consistent_free rfl rfl

theorem TruthfulFlags.finish {before after : Startup → Bool}
    {flagged : List (Nat × Startup × Bytes)} {finished : List (Nat × Stage × Bytes)}
    (h : TruthfulFlags before after flagged finished) (run : Nat × Stage × Bytes) :
    TruthfulFlags before after flagged (run :: finished) := by
  refine ⟨?_, h.recorded⟩
  intro call stage text he
  obtain ⟨chunk, ran⟩ := h.own call stage text he
  exact ⟨chunk, List.mem_cons_of_mem _ ran⟩

theorem TruthfulFlags.set {before : Startup → Bool} {s : Session}
    {flagged : List (Nat × Startup × Bytes)} {finished : List (Nat × Stage × Bytes)}
    {call : Nat} {stage : Startup} {text : Bytes}
    (h : TruthfulFlags before s.done flagged finished) (chunk : text = stage.chunk)
    (ran : (call, .startup stage, text) ∈ finished) :
    TruthfulFlags before (s.setDone stage).done ((call, stage, text) :: flagged) finished := by
  refine ⟨?_, ?_⟩
  · intro call' stage' text' he
    rcases List.mem_cons.mp he with new | old
    · cases new
      exact ⟨chunk, ran⟩
    · exact h.own call' stage' text' old
  · intro stage' done
    by_cases same : stage' = stage
    · subst same
      exact Or.inr ⟨call, by simp [chunk]⟩
    · have old : s.done stage' = true := by
        cases stage <;> cases stage' <;> simp_all [Session.done, Session.setDone]
      refine (h.recorded stage' old).imp_right ?_
      rintro ⟨call', assigned⟩
      exact ⟨call', List.mem_cons_of_mem _ assigned⟩

theorem FlagInv.hookStep {before : Startup → Bool} {s s' : Session} {f : Frame}
    {rest : List Frame} {a : Action} (inv : FlagInv before s) (nested : s.WellNested)
    (frames : s.frames = f :: rest) (h : HookStep s f rest a s') : FlagInv before s' := by
  have top : f.pc.Consistent f.number s.buffer s.ledger.finished := inv.frame f (by simp [frames])
  have below : ∀ (front : List Frame) (buffer : Bytes) (finished : List (Nat × Stage × Bytes)),
      (∀ f' ∈ front, f'.pc.Consistent f'.number buffer finished) →
      ∀ f' ∈ front ++ rest, f'.pc.Consistent f'.number buffer finished := by
    intro front buffer finished new f' hf
    rcases List.mem_append.mp hf with hf | hf
    · exact new f' hf
    · exact (inv.frame f' (by simp [frames, hf])).waiting (nested f' (by simpa [frames] using hf))
  have belowTop : ∀ (f' : Frame) (buffer : Bytes) (finished : List (Nat × Stage × Bytes)),
      f'.pc.Consistent f'.number buffer finished →
      ∀ g ∈ f' :: rest, g.pc.Consistent g.number buffer finished := by
    intro f' buffer finished new
    exact below [f'] buffer finished (by simpa using new)
  cases h with
  | original slots pc =>
    exact ⟨belowTop _ _ _ (Pc.consistent_free rfl rfl), inv.truthful⟩
  | enter pc wants =>
    exact ⟨belowTop _ _ _ (Pc.consistent_free rfl rfl), inv.truthful⟩
  | skip pc wants => exact ⟨below _ _ _ next_consistent, inv.truthful⟩
  | storeBuffer pc =>
    refine ⟨belowTop _ _ _ ⟨?_, by simp [Pc.startupText], by simp [Pc.ranText]⟩, inv.truthful⟩
    intro stage' same
    cases Option.some.inj same
    rfl
  | storeExecute pc =>
    rw [pc] at top
    exact ⟨belowTop _ _ _ ⟨top.window, top.text, top.ran⟩, inv.truthful⟩
  | @testTrue stage pc execute =>
    rw [pc] at top
    refine ⟨belowTop _ _ _ ?_, inv.truthful⟩
    cases stage <;> exact ⟨top.window, top.text, top.ran⟩
  | testFalse pc execute => exact ⟨below _ _ _ next_consistent, inv.truthful⟩
  | @clearExecute stage pc =>
    rw [pc] at top
    refine ⟨belowTop _ _ _ ?_, inv.truthful⟩
    cases stage <;> exact ⟨top.window, top.text, top.ran⟩
  | @loadOk stage o slots pc status =>
    rw [pc] at top
    refine ⟨belowTop _ _ _ ⟨by simp [Pc.window], ?_, by simp [Pc.ranText]⟩, inv.truthful⟩
    intro e he
    cases stage with
    | dllExecute => simp [Pc.startupText] at he
    | startup startup =>
      cases Option.some.inj he
      exact top.window startup rfl
  | @loadError stage o status slots pc error result =>
    rw [pc] at top
    refine ⟨belowTop _ _ _ ⟨by simp [Pc.window], ?_, ?_⟩, inv.truthful⟩
    · intro e he
      cases stage with
      | dllExecute => simp [Pc.startupText] at he
      | startup startup =>
        cases Option.some.inj he
        exact top.window startup rfl
    · intro e he
      cases stage <;> simp [Pc.ranText] at he
  | @call stage text func slots pc htop =>
    rw [pc] at top
    refine ⟨belowTop _ _ _ (top.move rfl ?_ (by simp [Pc.ranText])), inv.truthful⟩
    cases stage <;> rfl
  | @finishOk stage text results pc =>
    rw [pc] at top
    refine ⟨belowTop _ _ _ (top.move rfl ?_ ?_), inv.truthful.finish _⟩
    · cases stage <;> rfl
    · intro e he
      cases stage with
      | dllExecute => simp [Pc.ranText] at he
      | startup startup =>
        cases Option.some.inj he
        exact List.mem_cons_self
  | @finishError stage text e obj pc =>
    rw [pc] at top
    refine ⟨belowTop _ _ _ (top.move rfl ?_ ?_), inv.truthful⟩
    · cases stage <;> rfl
    · intro e he
      cases stage <;> simp [Pc.ranText] at he
  | clearRan pc =>
    rw [pc] at top
    exact ⟨belowTop _ _ _ (top.move rfl rfl top.ran), inv.truthful⟩
  | clearDone pc plain => exact ⟨below _ _ _ next_consistent, inv.truthful⟩
  | @setFlag stage text pc =>
    rw [pc] at top
    have set := inv.truthful.set (top.text _ rfl) (top.ran _ rfl)
    cases stage <;> exact ⟨below _ _ _ next_consistent, set⟩

theorem FlagInv.submitStep {before : Startup → Bool} {s s' : Session} {thread : Nat} {a : Action}
    (inv : FlagInv before s) (nested : s.WellNested) (undisturbed : Undisturbed s a)
    (h : SubmitStep s thread a s') : FlagInv before s' := by
  cases h with
  | readLine text idle => exact ⟨inv.frame, inv.truthful⟩
  | ignored idle execute => exact inv
  | pressed idle execute => exact ⟨inv.frame, inv.truthful⟩
  | @storeBuffer text ready =>
    refine ⟨?_, inv.truthful⟩
    intro f hf
    cases frames : s.frames with
    | nil => simp [frames] at hf
    | cons top rest =>
      rcases List.mem_cons.mp (frames ▸ hf) with rfl | below
      · refine ⟨?_, (inv.frame f hf).text, (inv.frame f hf).ran⟩
        intro stage window
        have own := undisturbed f (by simp [frames]) stage window
        cases Option.some.inj (ready.symm.trans own)
        rfl
      · exact (inv.frame f hf).waiting (nested f (by simpa [frames] using below))
  | storeExecute stored => exact ⟨inv.frame, inv.truthful⟩

theorem flagInv_step {before : Startup → Bool} {s s' : Session} {a : Action}
    (inv : s.WellNested ∧ FlagInv before s) (undisturbed : Undisturbed s a)
    (h : step s a = some s') : s'.WellNested ∧ FlagInv before s' := by
  refine ⟨step_wellNested inv.1 h, ?_⟩
  cases step_sound h with
  | intercepted game live =>
    refine ⟨?_, inv.2.truthful⟩
    intro f hf
    rcases List.mem_cons.mp hf with rfl | hf
    · exact Pc.consistent_free rfl rfl
    · exact inv.2.frame f hf
  | bypassed => exact inv.2
  | hook frames inner => exact inv.2.hookStep inv.1 frames inner
  | submit inner => exact inv.2.submitStep inv.1 undisturbed inner
  | installPcall => exact ⟨inv.2.frame, inv.2.truthful⟩
  | installParser => exact ⟨inv.2.frame, inv.2.truthful⟩

/-- In every run in which no other text is stored while a startup stage waits to load its
own, the completion flags are truthful. -/
theorem undisturbed_run_truthfulFlags {configMenuEnable gameRunningHookComplete : Bool}
    {submitters : Nat} {acts : List Action} {s : Session}
    (undisturbed : Trace.Obeys step Undisturbed
      (Session.start ⟨true, true⟩ configMenuEnable gameRunningHookComplete submitters) acts)
    (run : Trace.exec step
      (Session.start ⟨true, true⟩ configMenuEnable gameRunningHookComplete submitters) acts = some s) :
    TruthfulFlags
      (Session.start ⟨true, true⟩ configMenuEnable gameRunningHookComplete submitters).done
      s.done s.ledger.flagged s.ledger.finished := by
  have first : FlagInv
      (Session.start ⟨true, true⟩ configMenuEnable gameRunningHookComplete submitters).done
      (Session.start ⟨true, true⟩ configMenuEnable gameRunningHookComplete submitters) :=
    ⟨by simp [Session.start], by simp [Session.start, Ledger.empty], fun _ => Or.inl⟩
  exact (Trace.exec_preserves (fun _ _ _ inv undisturbed h => flagInv_step inv undisturbed h)
    ⟨start_wellNested _ _ _ _, first⟩ undisturbed run).2.truthful

/-- A console line is stored while the chunk of the configuration menu runs. -/
def lineDuringRun : List Action :=
  enterHook ++ stageUntilRun [] ++ submitLine (bytes "print(1)") ++ stageAfterRun ++
    stageUntilRun [] ++ stageAfterRun

theorem undisturbed_run_truthfulFlags_startup :
    ∃ s, Trace.exec step (Session.start ⟨true, true⟩ true false 1) lineDuringRun = some s ∧
      s.done = (fun _ => true) ∧
      TruthfulFlags (Session.start ⟨true, true⟩ true false 1).done
        s.done s.ledger.flagged s.ledger.finished :=
  ⟨_, rfl, funext fun stage => by cases stage <;> rfl,
    @undisturbed_run_truthfulFlags true false 1 lineDuringRun _ (by decide) rfl⟩

/-- A console line is stored between the store of the bootstrap stage and its load. -/
def substitutedLoad : List Action :=
  enterHook ++ stageUntilRun [] ++ stageAfterRun ++
    stageUntilRun [.readLine 0 (bytes "print(1)"), .submitBuffer 0] ++ stageAfterRun

theorem substituted_load_breaks_truthfulFlags :
    ∃ s, Trace.exec step (Session.start ⟨true, true⟩ true false 1) substitutedLoad = some s ∧
      s.gameRunningHookComplete = true ∧
      ¬ TruthfulFlags (Session.start ⟨true, true⟩ true false 1).done
        s.done s.ledger.flagged s.ledger.finished := by
  refine ⟨_, rfl, rfl, ?_⟩
  intro truthful
  have own := (truthful.own 0 .bootstrap (bytes "print(1)") (by decide)).1
  revert own
  decide

end DriverSF
