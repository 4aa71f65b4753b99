import DriverSF.Session
import DriverSF.TraceRules

namespace DriverSF

/-- What one step of the game thread does inside the innermost hook call. -/
inductive HookStep (s : Session) (f : Frame) (rest : List Frame) : Action → Session → Prop
  | original (slots : List Value) (pc : f.pc = .original) :
    HookStep s f rest (.original slots)
      { s with frames := { f with pc := .guard .configMenu, slots, caller := slots } :: rest }
  | enter {stage : Startup} {running : Bool} (pc : f.pc = .guard stage)
      (wants : s.wants stage running = true) :
    HookStep s f rest (.guard running)
      { s with frames := { f with pc := .storeBuffer stage } :: rest }
  | skip {stage : Startup} {running : Bool} (pc : f.pc = .guard stage)
      (wants : s.wants stage running = false) :
    HookStep s f rest (.guard running) { s with frames := f.next (.startup stage) ++ rest }
  | storeBuffer {stage : Startup} (pc : f.pc = .storeBuffer stage) :
    HookStep s f rest .storeBuffer
      { s with
        buffer := stage.chunk
        ledger := s.ledger.store stage.chunk
        frames := { f with pc := .storeExecute stage s.ledger.texts.length } :: rest }
  | storeExecute {stage : Startup} {id : Nat} (pc : f.pc = .storeExecute stage id) :
    HookStep s f rest .storeExecute
      { s with
        execute := true
        ledger := s.ledger.complete id
        frames := { f with pc := .testExecute (.startup stage) } :: rest }
  | testTrue {stage : Stage} (pc : f.pc = .testExecute stage) (execute : s.execute = true) :
    HookStep s f rest .testExecute
      { s with frames := { f with pc := .clearExecute stage } :: rest }
  | testFalse {stage : Stage} (pc : f.pc = .testExecute stage) (execute : s.execute = false) :
    HookStep s f rest .testExecute { s with frames := f.next stage ++ rest }
  | clearExecute {stage : Stage} (pc : f.pc = .clearExecute stage) :
    HookStep s f rest .clearExecute
      { s with
        execute := false
        frames := { f with pc := .load stage, top := f.slots.length } :: rest }
  | loadOk {stage : Stage} {o : ParserOutcome} {slots : List Value} (pc : f.pc = .load stage)
      (status : hookCall s.hooks.oLuadProtectedparser (o.apply f.slots) f.slots = (0, slots)) :
    HookStep s f rest (.load o)
      { s with
        ledger := s.ledger.load s.buffer
        frames := { f with pc := .call stage s.buffer, slots } :: rest }
  | loadError {stage : Stage} {o : ParserOutcome} {status : Int} {slots : List Value}
      (pc : f.pc = .load stage) (error : status ≠ 0)
      (result : hookCall s.hooks.oLuadProtectedparser (o.apply f.slots) f.slots = (status, slots)) :
    HookStep s f rest (.load o)
      { s with
        ledger := s.ledger.load s.buffer
        frames := { f with
          pc := .clearBuffer stage s.buffer false
          slots := setTop f.top (slots.drop 1) } :: rest }
  | call {stage : Stage} {text : Bytes} {func : Value} {slots : List Value}
      (pc : f.pc = .call stage text) (top : f.slots = func :: slots) :
    HookStep s f rest .call
      { s with frames := { f with pc := .running stage text, slots } :: rest }
  | finishOk {stage : Stage} {text : Bytes} (results : List Value)
      (pc : f.pc = .running stage text) :
    HookStep s f rest (.finish (.ok results))
      { s with
        ledger := { s.ledger with finished := (f.number, stage, text) :: s.ledger.finished }
        frames := { f with
          pc := .clearBuffer stage text true
          slots := setTop f.top f.slots } :: rest }
  | finishError {stage : Stage} {text : Bytes} (e : LuaError) (obj : Value)
      (pc : f.pc = .running stage text) :
    HookStep s f rest (.finish (.error e obj))
      { s with frames := { f with
          pc := .clearBuffer stage text false
          slots := setTop f.top f.slots } :: rest }
  | clearRan {startup : Startup} {text : Bytes}
      (pc : f.pc = .clearBuffer (.startup startup) text true) :
    HookStep s f rest .clearBuffer
      { s with
        buffer := []
        ledger := s.ledger.clear
        frames := { f with pc := .setFlag startup text } :: rest }
  | clearDone {stage : Stage} {text : Bytes} {ok : Bool} (pc : f.pc = .clearBuffer stage text ok)
      (plain : ok = false ∨ stage = .dllExecute) :
    HookStep s f rest .clearBuffer
      { s with
        buffer := []
        ledger := s.ledger.clear
        frames := f.next stage ++ rest }
  | setFlag {stage : Startup} {text : Bytes} (pc : f.pc = .setFlag stage text) :
    HookStep s f rest .setFlag
      { s.setDone stage with
        ledger := { s.ledger with flagged := (f.number, stage, text) :: s.ledger.flagged }
        frames := f.next (.startup stage) ++ rest }

inductive SubmitStep (s : Session) (thread : Nat) : Action → Session → Prop
  | readLine (text : Bytes) (idle : s.submitters[thread]? = some .idle) :
    SubmitStep s thread (.readLine thread text)
      { s with submitters := s.submitters.set thread (.ready text) }
  | ignored (idle : s.submitters[thread]? = some .idle) (execute : s.execute = true) :
    SubmitStep s thread (.pressRightAlt thread) s
  | pressed (idle : s.submitters[thread]? = some .idle) (execute : s.execute = false) :
    SubmitStep s thread (.pressRightAlt thread)
      { s with submitters := s.submitters.set thread (.ready toggleMenuChunk) }
  | storeBuffer {text : Bytes} (ready : s.submitters[thread]? = some (.ready text)) :
    SubmitStep s thread (.submitBuffer thread)
      { s with
        buffer := text
        ledger := s.ledger.store text
        submitters := s.submitters.set thread (.stored s.ledger.texts.length) }
  | storeExecute {id : Nat} (stored : s.submitters[thread]? = some (.stored id)) :
    SubmitStep s thread (.submitExecute thread)
      { s with
        execute := true
        ledger := s.ledger.complete id
        submitters := s.submitters.set thread .idle }

inductive Step (s : Session) : Action → Session → Prop
  | intercepted (game : s.inGameCode = true) (live : s.hooks.oLuaPcall = true) :
    Step s .pcall { s with
      ledger := { s.ledger with calls := s.ledger.calls + 1 }
      frames := ⟨.original, [], 0, [], s.ledger.calls⟩ :: s.frames }
  | bypassed (game : s.inGameCode = true) (dead : s.hooks.oLuaPcall = false) : Step s .pcall s
  | hook {f : Frame} {rest : List Frame} {a : Action} {s' : Session}
      (frames : s.frames = f :: rest) (inner : HookStep s f rest a s') : Step s a s'
  | submit {thread : Nat} {a : Action} {s' : Session} (inner : SubmitStep s thread a s') :
    Step s a s'
  | installPcall (dead : s.hooks.oLuaPcall = false) :
    Step s .installPcall { s with hooks := { s.hooks with oLuaPcall := true } }
  | installParser (live : s.hooks.oLuaPcall = true) (dead : s.hooks.oLuadProtectedparser = false) :
    Step s .installParser { s with hooks := { s.hooks with oLuadProtectedparser := true } }

theorem hookStep_sound {s s' : Session} {f : Frame} {rest : List Frame} {a : Action}
    (h : hookStep s f rest f.pc a = some s') : HookStep s f rest a s' := by
  unfold hookStep at h
  split at h
  next pc => cases Option.some.inj h; exact .original _ pc
  next pc =>
    split at h
    next wants => cases Option.some.inj h; exact .enter pc wants
    next wants => cases Option.some.inj h; exact .skip pc (by simpa using wants)
  next pc => cases Option.some.inj h; exact .storeBuffer pc
  next pc => cases Option.some.inj h; exact .storeExecute pc
  next pc =>
    split at h
    next execute => cases Option.some.inj h; exact .testTrue pc execute
    next execute => cases Option.some.inj h; exact .testFalse pc (by simpa using execute)
  next pc => cases Option.some.inj h; exact .clearExecute pc
  next stage o pc =>
    rcases result : hookCall s.hooks.oLuadProtectedparser (o.apply f.slots) f.slots with
      ⟨status, slots⟩
    rw [result] at h
    by_cases error : status = 0
    · subst error
      cases Option.some.inj h
      exact .loadOk pc result
    · simp only [error, if_false] at h
      cases Option.some.inj h
      exact .loadError pc error result
  next pc =>
    split at h
    next => simp at h
    next top => cases Option.some.inj h; exact .call pc top
  next stage text o pc =>
    cases o with
    | ok results =>
      simp only [CallOutcome.apply, adjustResults_zero, List.reverse_nil, List.nil_append,
        decide_true, if_true] at h
      cases Option.some.inj h
      exact .finishOk results pc
    | error e obj =>
      simp only [CallOutcome.apply, e.status_ne_zero, decide_false, Bool.false_eq_true, if_false,
        List.drop_succ_cons, List.drop_zero] at h
      cases Option.some.inj h
      exact .finishError e obj pc
  next stage text ok pc =>
    cases stage with
    | dllExecute => cases ok <;> cases Option.some.inj h <;> exact .clearDone pc (Or.inr rfl)
    | startup startup =>
      cases ok with
      | true => cases Option.some.inj h; exact .clearRan pc
      | false => cases Option.some.inj h; exact .clearDone pc (Or.inl rfl)
  next pc => cases Option.some.inj h; exact .setFlag pc
  next => simp at h

theorem submitStep_sound {s s' : Session} {thread : Nat} {sub : Submitter} {a : Action}
    (hs : s.submitters[thread]? = some sub)
    (own : a = .pressRightAlt thread ∨ a = .submitBuffer thread ∨ a = .submitExecute thread ∨
      ∃ text, a = .readLine thread text)
    (h : submitStep s thread sub a = some s') : SubmitStep s thread a s' := by
  unfold submitStep at h
  split at h
  next t text =>
    obtain rfl : t = thread := by simpa using own
    cases Option.some.inj h
    exact .readLine text hs
  next t =>
    obtain rfl : t = thread := by simpa using own
    split at h
    next execute => cases Option.some.inj h; exact .ignored hs execute
    next execute => cases Option.some.inj h; exact .pressed hs (by simpa using execute)
  next text t =>
    obtain rfl : t = thread := by simpa using own
    cases Option.some.inj h
    exact .storeBuffer hs
  next id t =>
    obtain rfl : t = thread := by simpa using own
    cases Option.some.inj h
    exact .storeExecute hs
  next => simp at h

theorem step_sound {s s' : Session} {a : Action} (h : step s a = some s') : Step s a s' := by
  unfold step at h
  split at h
  next =>
    split at h
    next game =>
      split at h
      next live => cases Option.some.inj h; exact .intercepted game live
      next dead => cases Option.some.inj h; exact .bypassed game (by simpa using dead)
    next => simp at h
  next thread text =>
    obtain ⟨sub, hs, h⟩ := Option.bind_eq_some_iff.mp h
    exact .submit (submitStep_sound hs (by simp) h)
  next thread =>
    obtain ⟨sub, hs, h⟩ := Option.bind_eq_some_iff.mp h
    exact .submit (submitStep_sound hs (by simp) h)
  next thread =>
    obtain ⟨sub, hs, h⟩ := Option.bind_eq_some_iff.mp h
    exact .submit (submitStep_sound hs (by simp) h)
  next thread =>
    obtain ⟨sub, hs, h⟩ := Option.bind_eq_some_iff.mp h
    exact .submit (submitStep_sound hs (by simp) h)
  next =>
    split at h
    next => simp at h
    next dead => cases Option.some.inj h; exact .installPcall (by simpa using dead)
  next =>
    split at h
    next hooks =>
      simp only [Bool.and_eq_true, Bool.not_eq_true'] at hooks
      cases Option.some.inj h
      exact .installParser hooks.1 hooks.2
    next => simp at h
  next =>
    split at h
    next => simp at h
    next f rest frames => exact .hook frames (hookStep_sound h)

theorem Session.head_inGameCode {s : Session} (game : s.inGameCode = true) :
    ∀ f ∈ s.frames.head?, f.pc.inGameCode = true := by
  intro f hf
  cases hs : s.frames with
  | nil => simp [hs] at hf
  | cons top rest =>
    obtain rfl : top = f := by simpa [hs] using hf
    simpa [Session.inGameCode, hs] using game

/-- Only the innermost hook call can be between two steps of the hook's own code. -/
def Session.WellNested (s : Session) : Prop :=
  ∀ f ∈ s.frames.tail, f.pc.inGameCode = true

theorem Frame.mem_next {f f' : Frame} {stage : Stage} (h : f' ∈ f.next stage) :
    (f'.pc = .guard .bootstrap ∨ f'.pc = .testExecute .dllExecute) ∧
      f'.slots = f.slots ∧ f'.caller = f.caller := by
  cases stage with
  | startup startup => cases startup <;> cases List.mem_singleton.mp h <;> simp
  | dllExecute => simp [Frame.next] at h

theorem Frame.mem_tail_next {f f' : Frame} {rest : List Frame} {stage : Stage}
    (h : f' ∈ (f.next stage ++ rest).tail) : f' ∈ rest := by
  cases stage with
  | startup startup => cases startup <;> exact h
  | dllExecute => exact List.mem_of_mem_tail h

theorem step_wellNested {s s' : Session} {a : Action} (nested : s.WellNested)
    (h : step s a = some s') : s'.WellNested := by
  cases step_sound h with
  | intercepted game live =>
    intro f hf
    cases hs : s.frames with
    | nil => simp [hs] at hf
    | cons top rest =>
      rcases List.mem_cons.mp (hs ▸ hf) with rfl | hf
      · simpa [Session.inGameCode, hs] using game
      · exact nested f (by simpa [hs] using hf)
  | bypassed => exact nested
  | @hook f rest _ _ frames inner =>
    have waiting : ∀ f' ∈ rest, f'.pc.inGameCode = true := by
      intro f' hf
      exact nested f' (by simpa [frames] using hf)
    cases inner with
    | skip => exact fun f' hf => waiting f' (Frame.mem_tail_next hf)
    | testFalse => exact fun f' hf => waiting f' (Frame.mem_tail_next hf)
    | clearDone => exact fun f' hf => waiting f' (Frame.mem_tail_next hf)
    | setFlag => exact fun f' hf => waiting f' (Frame.mem_tail_next hf)
    | _ => exact waiting
  | submit inner => cases inner <;> exact nested
  | installPcall => exact nested
  | installParser => exact nested

theorem start_wellNested (hooks : Hooks) (configMenuEnable gameRunningHookComplete : Bool)
    (submitters : Nat) :
    (Session.start hooks configMenuEnable gameRunningHookComplete submitters).WellNested := by
  intro f hf
  simp [Session.start] at hf

end DriverSF
