import DriverSF.SessionSteps

namespace DriverSF

/-- The startup stage that a hook call is working for, once it has passed its guard. -/
def Pc.owner : Pc → Option Startup
  | .storeBuffer stage => some stage
  | .storeExecute stage _ => some stage
  | .testExecute (.startup stage) => some stage
  | .clearExecute (.startup stage) => some stage
  | .load (.startup stage) => some stage
  | .call (.startup stage) _ => some stage
  | .running (.startup stage) _ => some stage
  | .clearBuffer (.startup stage) _ _ => some stage
  | .setFlag stage _ => some stage
  | _ => none

/-- The stage for which a hook call is going to load the buffer. -/
def Pc.source : Pc → Option Stage
  | .storeExecute stage _ => some (.startup stage)
  | .testExecute (.startup stage) => some (.startup stage)
  | .clearExecute stage => some stage
  | .load stage => some stage
  | _ => none

/-- The text that a hook call has loaded, with the stage that it was loaded for. -/
def Pc.loadedText : Pc → Option (Stage × Bytes)
  | .call stage text => some (stage, text)
  | .running stage text => some (stage, text)
  | .clearBuffer stage text _ => some (stage, text)
  | .setFlag stage text => some (.startup stage, text)
  | _ => none

/-- The text that a hook call is about to run, runs or has run. -/
def Pc.works : Pc → Option Bytes
  | .storeBuffer stage => some stage.chunk
  | .storeExecute stage _ => some stage.chunk
  | .testExecute (.startup stage) => some stage.chunk
  | .clearExecute (.startup stage) => some stage.chunk
  | .load (.startup stage) => some stage.chunk
  | .call _ text => some text
  | .running _ text => some text
  | .clearBuffer _ text _ => some text
  | .setFlag _ text => some text
  | _ => none

/-- The text that has ended without error in a hook call. -/
def Pc.ended : Pc → Option Bytes
  | .clearBuffer _ text true => some text
  | .setFlag _ text => some text
  | _ => none

/-- The text that is running in a hook call. -/
def Pc.inProgress : Pc → Option Bytes
  | .running _ text => some text
  | _ => none

/-- A startup stage has stored its text and not yet cleared `execute`. -/
def Pc.armed : Pc → Bool
  | .storeExecute _ _ => true
  | .testExecute (.startup _) => true
  | .clearExecute (.startup _) => true
  | _ => false

/-- The number of hook calls of which a property of their next step names the text. -/
def callsOf (property : Pc → Option Bytes) (frames : List Frame) (text : Bytes) : Nat :=
  frames.countP fun f => property f.pc = some text

def finishedRuns (l : Ledger) (text : Bytes) : Nat :=
  l.finished.countP fun e => e.2.2 = text

def IsStartupText (text : Bytes) : Prop := ∃ stage : Startup, text = stage.chunk

instance (text : Bytes) : Decidable (IsStartupText text) :=
  decidable_of_iff (text = Startup.configMenu.chunk ∨ text = Startup.bootstrap.chunk) <| by
    constructor
    · rintro (same | same)
      · exact ⟨_, same⟩
      · exact ⟨_, same⟩
    · rintro ⟨stage, same⟩
      cases stage
      · exact Or.inl same
      · exact Or.inr same

def Submitter.line : Submitter → Option Bytes
  | .ready text => some text
  | _ => none

/-- The chunk of the configuration menu reaches no `lua_pcall`, no hook call below the custom
scripts sees the game running, and the other threads neither store the text of a startup
chunk nor set `execute` over one. -/
def Unrepeated (s : Session) : Action → Prop
  | .pcall => callsOf Pc.inProgress s.frames Startup.configMenu.chunk = 0
  | .guard running => (∃ f ∈ s.frames.head?, f.pc = .guard .bootstrap) → running = true →
      callsOf Pc.inProgress s.frames Startup.bootstrap.chunk = 0
  | .submitBuffer thread => ∀ sub ∈ s.submitters[thread]?, ∀ text ∈ sub.line,
      ¬ IsStartupText text
  | .submitExecute _ => ¬ IsStartupText s.buffer
  | _ => True

instance (s : Session) (a : Action) : Decidable (Unrepeated s a) := by
  induction a using Action.casesOn <;> dsimp only [Unrepeated] <;> infer_instance

/-- Each startup chunk, whoever has it loaded, is in progress at most once and has ended
without error at most once. -/
structure SingleStartup (s : Session) : Prop where
  inProgress : ∀ stage : Startup, callsOf Pc.inProgress s.frames stage.chunk ≤ 1
  finished : ∀ stage : Startup, finishedRuns s.ledger stage.chunk ≤ 1

/-- If the text is that of a startup chunk, then the stage is its own. -/
def Stage.Owns (stage : Stage) (text : Bytes) : Prop :=
  ∀ startup : Startup, text = startup.chunk → stage = .startup startup

/-- No hook call works for a startup stage above one that works with its chunk. -/
def Apart (upper lower : Frame) : Prop :=
  ∀ stage, upper.pc.owner = some stage → lower.pc.works ≠ some stage.chunk

structure ReentryInv (s : Session) : Prop where
  source : ∀ f ∈ s.frames, ∀ stage, f.pc.source = some stage → stage.Owns s.buffer
  text : ∀ f ∈ s.frames, ∀ e, f.pc.loadedText = some e → e.1.Owns e.2
  idle : s.execute = true → (∀ f ∈ s.frames.head?, f.pc.armed = false) → ¬ IsStartupText s.buffer
  alone : ∀ f ∈ s.frames.tail, f.pc.inProgress ≠ some Startup.configMenu.chunk
  apart : s.frames.Pairwise Apart
  undone : ∀ f ∈ s.frames, ∀ stage : Startup, f.pc.works = some stage.chunk → s.done stage = false
  runs : ∀ stage : Startup, finishedRuns s.ledger stage.chunk ≤
    callsOf Pc.ended s.frames stage.chunk + if s.done stage then 1 else 0

theorem Startup.chunk_inj {a b : Startup} (h : a.chunk = b.chunk) : a = b := by
  revert h
  cases a <;> cases b <;> decide

theorem not_isStartupText_nil : ¬ IsStartupText [] := by decide

theorem Stage.owns_chunk (stage : Startup) : (Stage.startup stage).Owns stage.chunk :=
  fun _ same => congrArg Stage.startup (Startup.chunk_inj same)

theorem Stage.owns_other {text : Bytes} (stage : Stage) (h : ¬ IsStartupText text) :
    stage.Owns text :=
  fun startup same => absurd ⟨startup, same⟩ h

theorem callsOf_cons (property : Pc → Option Bytes) (f : Frame) (rest : List Frame) (text : Bytes) :
    callsOf property (f :: rest) text =
      callsOf property rest text + if property f.pc = some text then 1 else 0 := by
  simp [callsOf, List.countP_cons]

theorem callsOf_eq_zero {property : Pc → Option Bytes} {frames : List Frame} {text : Bytes} :
    callsOf property frames text = 0 ↔ ∀ f ∈ frames, property f.pc ≠ some text := by
  simp [callsOf, List.countP_eq_zero]

theorem callsOf_mono {property wider : Pc → Option Bytes} {frames : List Frame} {text : Bytes}
    (h : ∀ {pc}, property pc = some text → wider pc = some text) :
    callsOf property frames text ≤ callsOf wider frames text := by
  refine List.countP_mono_left ?_
  intro f _ hf
  simpa using h (by simpa using hf)

theorem callsOf_le_one {property : Pc → Option Bytes} {frames : List Frame} {text : Bytes}
    (h : frames.Pairwise fun f g => property f.pc = some text → property g.pc ≠ some text) :
    callsOf property frames text ≤ 1 := by
  induction frames with
  | nil => exact Nat.zero_le 1
  | cons f rest ih =>
    obtain ⟨first, later⟩ := List.pairwise_cons.mp h
    rw [callsOf_cons]
    by_cases hf : property f.pc = some text
    · have none := callsOf_eq_zero.mpr fun g hg => first g hg hf
      simp [none, hf]
    · simpa [hf] using ih later

theorem Pc.works_of_ended {pc : Pc} {text : Bytes} (h : pc.ended = some text) :
    pc.works = some text := by
  cases pc with
  | clearBuffer stage loaded ok => cases ok <;> simp_all [Pc.ended, Pc.works]
  | setFlag stage loaded => exact h
  | _ => simp [Pc.ended] at h

theorem Pc.works_of_inProgress {pc : Pc} {text : Bytes} (h : pc.inProgress = some text) :
    pc.works = some text := by
  cases pc with
  | running stage loaded => exact h
  | _ => simp [Pc.inProgress] at h

/-- A hook call that waits below another one and works with a text is running it. -/
theorem Pc.inProgress_of_works {pc : Pc} {text : Bytes} (game : pc.inGameCode = true)
    (h : pc.works = some text) : pc.inProgress = some text := by
  cases pc with
  | running stage loaded => exact h
  | original => simp [Pc.works] at h
  | _ => simp [Pc.inGameCode] at game

theorem Pc.owner_of_works {pc : Pc} {stage : Startup}
    (own : ∀ e, pc.loadedText = some e → e.1.Owns e.2) (h : pc.works = some stage.chunk) :
    pc.owner = some stage := by
  cases pc with
  | storeBuffer st => exact congrArg some (Startup.chunk_inj (Option.some.inj h))
  | storeExecute st id => exact congrArg some (Startup.chunk_inj (Option.some.inj h))
  | testExecute st | clearExecute st | load st =>
    cases st with
    | startup st => exact congrArg some (Startup.chunk_inj (Option.some.inj h))
    | dllExecute => simp [Pc.works] at h
  | call st text | running st text | clearBuffer st text ok =>
    obtain rfl := own _ rfl stage (Option.some.inj h)
    rfl
  | setFlag st text =>
    obtain rfl := Stage.startup.inj (own _ rfl stage (Option.some.inj h))
    rfl
  | _ => simp [Pc.works] at h

theorem ReentryInv.single {s : Session} (inv : ReentryInv s) (stage : Startup) :
    callsOf Pc.works s.frames stage.chunk ≤ 1 := by
  refine callsOf_le_one (inv.apart.imp_of_mem ?_)
  intro f g hf _ apart works
  exact apart stage (Pc.owner_of_works (inv.text f hf) works)

theorem ReentryInv.singleStartup {s : Session} (inv : ReentryInv s) : SingleStartup s := by
  refine ⟨?_, ?_⟩
  · intro stage
    exact Nat.le_trans (callsOf_mono Pc.works_of_inProgress) (inv.single stage)
  · intro stage
    have runs := inv.runs stage
    have single := inv.single stage
    have ended : callsOf Pc.ended s.frames stage.chunk ≤ callsOf Pc.works s.frames stage.chunk :=
      callsOf_mono Pc.works_of_ended
    by_cases working : callsOf Pc.works s.frames stage.chunk = 0
    · split at runs <;> omega
    · have undone : s.done stage = false := by
        by_contra done
        refine working (callsOf_eq_zero.mpr ?_)
        intro f hf works
        exact done (inv.undone f hf stage works)
      simp only [undone, Bool.false_eq_true, if_false] at runs
      omega

theorem ReentryInv.hook {s s' : Session} {f : Frame} {front rest : List Frame}
    (inv : ReentryInv s) (frames : s.frames = f :: rest) (frames' : s'.frames = front ++ rest)
    (waiting : ∀ g ∈ rest, g.pc.inGameCode = true) (short : front.tail = [])
    (source : ∀ g ∈ front, ∀ stage, g.pc.source = some stage → stage.Owns s'.buffer)
    (text : ∀ g ∈ front, ∀ e, g.pc.loadedText = some e → e.1.Owns e.2)
    (idle : s'.execute = true → (∀ g ∈ s'.frames.head?, g.pc.armed = false) →
      ¬ IsStartupText s'.buffer)
    (apart : ∀ g ∈ front, ∀ w ∈ rest, Apart g w)
    (undone : ∀ g ∈ front ++ rest, ∀ stage : Startup, g.pc.works = some stage.chunk →
      s'.done stage = false)
    (runs : ∀ stage : Startup, finishedRuns s'.ledger stage.chunk ≤
      callsOf Pc.ended s'.frames stage.chunk + if s'.done stage then 1 else 0) :
    ReentryInv s' := by
  refine ⟨?_, ?_, idle, ?_, ?_, ?_, runs⟩
  · intro g hg stage loads
    rcases List.mem_append.mp (frames' ▸ hg) with new | old
    · exact source g new stage loads
    · have game := waiting g old
      cases pc : g.pc <;> simp_all [Pc.inGameCode, Pc.source]
  · intro g hg
    rcases List.mem_append.mp (frames' ▸ hg) with new | old
    · exact text g new
    · exact inv.text g (by simp [frames, old])
  · intro g hg
    have old : g ∈ rest := by
      cases front with
      | nil => exact List.mem_of_mem_tail (by simpa [frames'] using hg)
      | cons top more =>
        obtain rfl : more = [] := short
        simpa [frames'] using hg
    exact inv.alone g (by simpa [frames] using old)
  · rw [frames', List.pairwise_append]
    have below := inv.apart
    rw [frames] at below
    refine ⟨?_, below.of_cons, apart⟩
    cases front with
    | nil => exact List.Pairwise.nil
    | cons top more =>
      obtain rfl : more = [] := short
      exact List.pairwise_singleton _ _
  · rw [frames']
    exact undone

theorem callsOf_next {property : Pc → Option Bytes} (f : Frame) (rest : List Frame)
    (stage : Stage) (text : Bytes) (guard : property (.guard .bootstrap) = none)
    (test : property (.testExecute .dllExecute) = none) :
    callsOf property (f.next stage ++ rest) text = callsOf property rest text := by
  cases stage with
  | startup startup => cases startup <;> simp [Frame.next, callsOf, guard, test]
  | dllExecute => rfl

theorem ReentryInv.advance {s s' : Session} {f f' : Frame} {rest : List Frame}
    (inv : ReentryInv s) (frames : s.frames = f :: rest) (frames' : s'.frames = f' :: rest)
    (waiting : ∀ g ∈ rest, g.pc.inGameCode = true)
    (source : ∀ stage, f'.pc.source = some stage → stage.Owns s'.buffer)
    (text : ∀ e, f'.pc.loadedText = some e → e.1.Owns e.2)
    (idle : s'.execute = true → f'.pc.armed = false → ¬ IsStartupText s'.buffer)
    (owner : ∀ stage, f'.pc.owner = some stage → f.pc.owner = some stage)
    (works : ∀ stage : Startup, f'.pc.works = some stage.chunk → f.pc.works = some stage.chunk)
    (done : s'.done = s.done)
    (runs : ∀ stage : Startup, finishedRuns s'.ledger stage.chunk +
        (if f.pc.ended = some stage.chunk then 1 else 0) ≤
      finishedRuns s.ledger stage.chunk + if f'.pc.ended = some stage.chunk then 1 else 0) :
    ReentryInv s' := by
  have front : s'.frames = [f'] ++ rest := frames'
  refine ReentryInv.hook inv frames front waiting rfl ?_ ?_ ?_ ?_ ?_ ?_
  · simpa using source
  · simpa using text
  · simpa [frames'] using idle
  · intro g hg w hw stage own
    obtain rfl := List.mem_singleton.mp hg
    have below := inv.apart
    rw [frames] at below
    exact List.rel_of_pairwise_cons below hw stage (owner stage own)
  · intro g hg stage working
    rw [done]
    rcases List.mem_append.mp hg with new | old
    · obtain rfl := List.mem_singleton.mp new
      exact inv.undone f (by simp [frames]) stage (works stage working)
    · exact inv.undone g (by simp [frames, old]) stage working
  · intro stage
    have before := inv.runs stage
    have change := runs stage
    rw [frames, callsOf_cons] at before
    rw [frames', callsOf_cons, done]
    omega

/-- A step in which no text ends. -/
theorem ReentryInv.move {s s' : Session} {f f' : Frame} {rest : List Frame}
    (inv : ReentryInv s) (frames : s.frames = f :: rest) (frames' : s'.frames = f' :: rest)
    (waiting : ∀ g ∈ rest, g.pc.inGameCode = true)
    (source : ∀ stage, f'.pc.source = some stage → stage.Owns s'.buffer)
    (text : ∀ e, f'.pc.loadedText = some e → e.1.Owns e.2)
    (idle : s'.execute = true → f'.pc.armed = false → ¬ IsStartupText s'.buffer)
    (owner : ∀ stage, f'.pc.owner = some stage → f.pc.owner = some stage)
    (works : ∀ stage : Startup, f'.pc.works = some stage.chunk → f.pc.works = some stage.chunk)
    (done : s'.done = s.done) (ended : f'.pc.ended = f.pc.ended)
    (finished : s'.ledger.finished = s.ledger.finished) : ReentryInv s' := by
  refine inv.advance frames frames' waiting source text idle owner works done ?_
  intro stage
  have same : finishedRuns s'.ledger stage.chunk = finishedRuns s.ledger stage.chunk := by
    rw [finishedRuns, finished]
    rfl
  simp only [same, ended, Nat.le_refl]

theorem ReentryInv.load {s s' : Session} {f f' : Frame} {rest : List Frame} {stage : Stage}
    (inv : ReentryInv s) (frames : s.frames = f :: rest) (frames' : s'.frames = f' :: rest)
    (waiting : ∀ g ∈ rest, g.pc.inGameCode = true) (pc : f.pc = .load stage)
    (buffer : s'.buffer = s.buffer) (execute : s'.execute = s.execute)
    (source : f'.pc.source = none) (text : f'.pc.loadedText = some (stage, s.buffer))
    (works : f'.pc.works = some s.buffer) (owner : f'.pc.owner = f.pc.owner)
    (ended : f'.pc.ended = none) (done : s'.done = s.done)
    (finished : s'.ledger.finished = s.ledger.finished) : ReentryInv s' := by
  have owns : stage.Owns s.buffer := inv.source f (by simp [frames]) stage (by rw [pc]; rfl)
  refine inv.move frames frames' waiting (by simp [source]) ?_ ?_ (by simp [owner]) ?_ done
    (by rw [ended, pc]; rfl) finished
  · intro e loaded
    cases Option.some.inj (text.symm.trans loaded)
    exact owns
  · intro set _
    rw [buffer]
    exact inv.idle (execute ▸ set) (by simp [frames, pc, Pc.armed])
  · intro startup working
    obtain rfl := owns startup (Option.some.inj (works.symm.trans working))
    rw [pc]
    rfl

theorem next_idle {f : Frame} {stage : Stage} : ∀ g ∈ f.next stage,
    g.pc.owner = none ∧ g.pc.works = none ∧ g.pc.source = none ∧ g.pc.loadedText = none := by
  intro g hg
  rcases (Frame.mem_next hg).1 with pc | pc <;> rw [pc] <;> exact ⟨rfl, rfl, rfl, rfl⟩

theorem next_tail {f : Frame} {stage : Stage} : (f.next stage).tail = [] := by
  cases stage with
  | startup startup => cases startup <;> rfl
  | dllExecute => rfl

theorem ReentryInv.leave {s s' : Session} {f : Frame} {rest : List Frame} {stage : Stage}
    (inv : ReentryInv s) (frames : s.frames = f :: rest)
    (frames' : s'.frames = f.next stage ++ rest) (waiting : ∀ g ∈ rest, g.pc.inGameCode = true)
    (idle : s'.execute = true → ¬ IsStartupText s'.buffer)
    (undone : ∀ g ∈ rest, ∀ stage : Startup, g.pc.works = some stage.chunk → s'.done stage = false)
    (runs : ∀ stage : Startup, finishedRuns s'.ledger stage.chunk ≤
      callsOf Pc.ended rest stage.chunk + if s'.done stage then 1 else 0) : ReentryInv s' := by
  refine inv.hook frames frames' waiting next_tail ?_ ?_ (fun execute _ => idle execute) ?_ ?_ ?_
  · intro g hg st loads
    simp [(next_idle g hg).2.2.1] at loads
  · intro g hg e loaded
    simp [(next_idle g hg).2.2.2] at loaded
  · intro g hg w _ st own
    simp [(next_idle g hg).1] at own
  · intro g hg st working
    rcases List.mem_append.mp hg with new | old
    · simp [(next_idle g new).2.1] at working
    · exact undone g old st working
  · intro st
    rw [frames', callsOf_next f rest stage _ rfl rfl]
    exact runs st

/-- A hook call leaves a stage that has run no startup chunk to its end. -/
theorem ReentryInv.leaveUnset {s s' : Session} {f : Frame} {rest : List Frame} {stage : Stage}
    (inv : ReentryInv s) (frames : s.frames = f :: rest)
    (frames' : s'.frames = f.next stage ++ rest) (waiting : ∀ g ∈ rest, g.pc.inGameCode = true)
    (idle : s'.execute = true → ¬ IsStartupText s'.buffer)
    (ended : ∀ startup : Startup, f.pc.ended ≠ some startup.chunk) (done : s'.done = s.done)
    (finished : s'.ledger.finished = s.ledger.finished) : ReentryInv s' := by
  refine inv.leave frames frames' waiting idle ?_ ?_
  · intro g hg st working
    rw [done]
    exact inv.undone g (by simp [frames, hg]) st working
  · intro st
    have runs := inv.runs st
    rw [frames, callsOf_cons, if_neg (ended st)] at runs
    rw [done, finishedRuns, finished]
    exact runs

theorem ReentryInv.enter {s s' : Session} {f f' : Frame} {rest : List Frame} {stage : Startup}
    {running : Bool} (inv : ReentryInv s) (frames : s.frames = f :: rest)
    (frames' : s'.frames = f' :: rest) (waiting : ∀ g ∈ rest, g.pc.inGameCode = true)
    (pc : f.pc = .guard stage) (pc' : f'.pc = .storeBuffer stage)
    (wants : s.wants stage running = true) (fresh : Unrepeated s (.guard running))
    (idle : s'.execute = true → ¬ IsStartupText s'.buffer) (done : s'.done = s.done)
    (finished : s'.ledger.finished = s.ledger.finished) : ReentryInv s' := by
  simp only [Session.wants, Bool.and_eq_true, Bool.not_eq_true', Bool.or_eq_true,
    decide_eq_true_eq] at wants
  -- the configuration menu calls no hook, and below the custom scripts the game is not running
  have free : ∀ w ∈ rest, w.pc.works ≠ some stage.chunk := by
    intro w hw working
    have inProgress := Pc.inProgress_of_works (waiting w hw) working
    cases stage with
    | configMenu => exact inv.alone w (by simpa [frames] using hw) inProgress
    | bootstrap =>
      have none := fresh ⟨f, by simp [frames], pc⟩ (by simpa using wants.2)
      exact callsOf_eq_zero.mp none w (by simp [frames, hw]) inProgress
  have front : s'.frames = [f'] ++ rest := frames'
  refine ReentryInv.hook inv frames front waiting rfl ?_ ?_
    (fun execute _ => idle execute) ?_ ?_ ?_
  · simp [pc', Pc.source]
  · simp [pc', Pc.loadedText]
  · intro g hg w hw st own
    obtain rfl := List.mem_singleton.mp hg
    rw [pc'] at own
    cases Option.some.inj own
    exact free w hw
  · intro g hg st working
    rw [done]
    rcases List.mem_append.mp hg with new | old
    · obtain rfl := List.mem_singleton.mp new
      rw [pc'] at working
      cases Startup.chunk_inj (Option.some.inj working)
      exact wants.1
    · exact inv.undone g (by simp [frames, old]) st working
  · intro st
    have runs := inv.runs st
    rw [frames, callsOf_cons, pc] at runs
    rw [frames', callsOf_cons, pc', done, finishedRuns, finished]
    exact runs

theorem setDone_done (s : Session) (stage st : Startup) :
    (s.setDone stage).done st = if stage = st then true else s.done st := by
  cases stage <;> cases st <;> simp [Session.setDone, Session.done]

theorem ReentryInv.setFlag {s s' : Session} {f : Frame} {rest : List Frame} {stage : Startup}
    {text : Bytes} (inv : ReentryInv s) (frames : s.frames = f :: rest)
    (frames' : s'.frames = f.next (.startup stage) ++ rest)
    (waiting : ∀ g ∈ rest, g.pc.inGameCode = true) (pc : f.pc = .setFlag stage text)
    (idle : s'.execute = true → ¬ IsStartupText s'.buffer)
    (done : s'.done = (s.setDone stage).done)
    (finished : s'.ledger.finished = s.ledger.finished) : ReentryInv s' := by
  refine inv.leave frames frames' waiting idle ?_ ?_
  · intro g hg st working
    have below := inv.apart
    rw [frames] at below
    have other : stage ≠ st := by
      rintro rfl
      exact List.rel_of_pairwise_cons below hg stage (by rw [pc]; rfl) working
    rw [done, setDone_done, if_neg other]
    exact inv.undone g (by simp [frames, hg]) st working
  · intro st
    have runs := inv.runs st
    have same : finishedRuns s'.ledger st.chunk = finishedRuns s.ledger st.chunk := by
      rw [finishedRuns, finished]
      rfl
    rw [frames, callsOf_cons] at runs
    rw [same, done, setDone_done]
    by_cases ran : f.pc.ended = some st.chunk
    · -- the chunk that has ended is counted by the flag that is now set
      have working := Pc.works_of_ended ran
      have undone := inv.undone f (by simp [frames]) st working
      have own := Pc.owner_of_works (inv.text f (by simp [frames])) working
      obtain rfl : stage = st := by simpa [pc, Pc.owner] using own
      simpa [ran, undone] using runs
    · simp only [ran, if_false, Nat.add_zero] at runs
      refine Nat.le_trans runs (Nat.add_le_add_left ?_ _)
      by_cases set : stage = st
      · simp only [set, if_true]
        split <;> omega
      · simp only [set, if_false, Nat.le_refl]

theorem ReentryInv.hookStep {s s' : Session} {f : Frame} {rest : List Frame} {a : Action}
    (inv : ReentryInv s) (nested : s.WellNested) (frames : s.frames = f :: rest)
    (fresh : Unrepeated s a) (h : HookStep s f rest a s') : ReentryInv s' := by
  have waiting : ∀ g ∈ rest, g.pc.inGameCode = true := by
    intro g hg
    exact nested g (by simpa [frames] using hg)
  have top : f ∈ s.frames := by simp [frames]
  have idle : f.pc.armed = false → s.execute = true → ¬ IsStartupText s.buffer := by
    intro unarmed execute
    exact inv.idle execute (by simp [frames, unarmed])
  have source := inv.source f top
  have text := inv.text f top
  cases h with
  | original slots pc =>
    exact inv.move frames rfl waiting (by simp [Pc.source]) (by simp [Pc.loadedText])
      (fun execute _ => idle (by rw [pc]; rfl) execute) (by simp [Pc.owner]) (by simp [Pc.works])
      rfl (by rw [pc]; rfl) rfl
  | enter pc wants =>
    exact inv.enter frames rfl waiting pc rfl wants fresh (idle (by rw [pc]; rfl)) rfl rfl
  | skip pc wants =>
    exact inv.leaveUnset frames rfl waiting (idle (by rw [pc]; rfl)) (by simp [pc, Pc.ended])
      rfl rfl
  | @storeBuffer stage pc =>
    refine inv.move frames rfl waiting ?_ (by simp [Pc.loadedText]) (by simp [Pc.armed])
      (by simp [pc, Pc.owner]) (by simp [pc, Pc.works]) rfl (by rw [pc]; rfl) rfl
    intro stage' loads
    cases Option.some.inj loads
    exact Stage.owns_chunk stage
  | storeExecute pc =>
    rw [pc] at source
    exact inv.move frames rfl waiting source (by simp [Pc.loadedText]) (by simp [Pc.armed])
      (by simp [pc, Pc.owner]) (by simp [pc, Pc.works]) rfl
      (by rw [pc]; rfl) rfl
  | @testTrue stage pc execute =>
    cases stage with
    | startup startup =>
      rw [pc] at source
      exact inv.move frames rfl waiting source (by simp [Pc.loadedText]) (by simp [Pc.armed])
        (by simp [pc, Pc.owner]) (by simp [pc, Pc.works]) rfl (by rw [pc]; rfl) rfl
    | dllExecute =>
      have other := idle (by rw [pc]; rfl) execute
      exact inv.move frames rfl waiting (fun stage _ => stage.owns_other other)
        (by simp [Pc.loadedText]) (fun _ _ => other) (by simp [Pc.owner]) (by simp [Pc.works])
        rfl (by rw [pc]; rfl) rfl
  | testFalse pc execute =>
    exact inv.leaveUnset frames rfl waiting (by simp [execute]) (by simp [pc, Pc.ended]) rfl rfl
  | @clearExecute stage pc =>
    rw [pc] at source
    refine inv.move frames rfl waiting source (by simp [Pc.loadedText]) (by simp) ?_ ?_ rfl
      (by rw [pc]; rfl) rfl
    · cases stage <;> simp [pc, Pc.owner]
    · cases stage <;> simp [pc, Pc.works]
  | @loadOk stage o slots pc status =>
    refine inv.load frames rfl waiting pc rfl rfl rfl rfl rfl ?_ rfl rfl rfl
    cases stage <;> simp [pc, Pc.owner]
  | @loadError stage o status slots pc error result =>
    refine inv.load frames rfl waiting pc rfl rfl rfl rfl rfl ?_ rfl rfl rfl
    cases stage <;> simp [pc, Pc.owner]
  | @call stage loaded func slots pc htop =>
    rw [pc] at text
    refine inv.move frames rfl waiting (by simp [Pc.source]) text
      (fun execute _ => idle (by rw [pc]; rfl) execute) ?_ (by simp [pc, Pc.works]) rfl
      (by rw [pc]; rfl) rfl
    cases stage <;> simp [pc, Pc.owner]
  | @finishOk stage loaded results pc =>
    rw [pc] at text
    refine inv.advance frames rfl waiting (by simp [Pc.source]) text
      (fun execute _ => idle (by rw [pc]; rfl) execute) ?_ (by simp [pc, Pc.works]) rfl ?_
    · cases stage <;> simp [pc, Pc.owner]
    · intro st
      simp [pc, Pc.ended, finishedRuns, List.countP_cons]
  | @finishError stage loaded e obj pc =>
    rw [pc] at text
    refine inv.move frames rfl waiting (by simp [Pc.source]) text
      (fun execute _ => idle (by rw [pc]; rfl) execute) ?_ (by simp [pc, Pc.works]) rfl
      (by rw [pc]; rfl) rfl
    cases stage <;> simp [pc, Pc.owner]
  | clearRan pc =>
    rw [pc] at text
    exact inv.move frames rfl waiting (by simp [Pc.source]) text
      (fun _ _ => not_isStartupText_nil) (by simp [pc, Pc.owner]) (by simp [pc, Pc.works]) rfl
      (by rw [pc]; rfl) rfl
  | @clearDone stage loaded ok pc plain =>
    refine inv.leaveUnset frames rfl waiting (fun _ => not_isStartupText_nil) ?_ rfl rfl
    rintro startup ended
    rcases plain with rfl | rfl
    · simp [pc, Pc.ended] at ended
    · have own := Pc.owner_of_works text (Pc.works_of_ended ended)
      simp [pc, Pc.owner] at own
  | @setFlag stage loaded pc =>
    have unarmed : f.pc.armed = false := by rw [pc]; rfl
    cases stage <;> exact inv.setFlag frames rfl waiting pc (idle unarmed) rfl rfl

theorem ReentryInv.submitStep {s s' : Session} {thread : Nat} {a : Action} (inv : ReentryInv s)
    (fresh : Unrepeated s a) (h : SubmitStep s thread a s') :
    ReentryInv s' := by
  cases h with
  | readLine text idle =>
    exact ⟨inv.source, inv.text, inv.idle, inv.alone, inv.apart, inv.undone, inv.runs⟩
  | ignored idle execute => exact inv
  | pressed idle execute =>
    exact ⟨inv.source, inv.text, inv.idle, inv.alone, inv.apart, inv.undone, inv.runs⟩
  | @storeBuffer text ready =>
    have other : ¬ IsStartupText text := fresh (.ready text) ready text rfl
    exact ⟨fun _ _ stage _ => stage.owns_other other, inv.text, fun _ _ => other, inv.alone,
      inv.apart, inv.undone, inv.runs⟩
  | storeExecute stored =>
    exact ⟨inv.source, inv.text, fun _ _ => fresh, inv.alone, inv.apart, inv.undone, inv.runs⟩

theorem reentryInv_step {s s' : Session} {a : Action} (inv : s.WellNested ∧ ReentryInv s)
    (fresh : Unrepeated s a) (h : step s a = some s') : s'.WellNested ∧ ReentryInv s' := by
  refine ⟨step_wellNested inv.1 h, ?_⟩
  obtain ⟨nested, inv⟩ := inv
  cases step_sound h with
  | intercepted game live =>
    refine ⟨?_, ?_, ?_, ?_, List.pairwise_cons.mpr ⟨?_, inv.apart⟩, ?_, ?_⟩
    · intro f hf stage loads
      rcases List.mem_cons.mp hf with rfl | old
      · simp [Pc.source] at loads
      · exact inv.source f old stage loads
    · intro f hf e loaded
      rcases List.mem_cons.mp hf with rfl | old
      · simp [Pc.loadedText] at loaded
      · exact inv.text f old e loaded
    · intro execute _
      refine inv.idle execute ?_
      intro f hf
      have top := Session.head_inGameCode game f hf
      cases pc : f.pc <;> simp_all [Pc.inGameCode, Pc.armed]
    · exact fun f hf => callsOf_eq_zero.mp fresh f hf
    · simp [Apart, Pc.owner]
    · intro f hf stage working
      rcases List.mem_cons.mp hf with rfl | old
      · simp [Pc.works] at working
      · exact inv.undone f old stage working
    · intro stage
      rw [callsOf_cons]
      exact inv.runs stage
  | bypassed => exact inv
  | hook frames inner => exact inv.hookStep nested frames fresh inner
  | submit inner => exact inv.submitStep fresh inner
  | installPcall =>
    exact ⟨inv.source, inv.text, inv.idle, inv.alone, inv.apart, inv.undone, inv.runs⟩
  | installParser =>
    exact ⟨inv.source, inv.text, inv.idle, inv.alone, inv.apart, inv.undone, inv.runs⟩

theorem reentryInv_start (hooks : Hooks) (configMenuEnable gameRunningHookComplete : Bool)
    (submitters : Nat) :
    ReentryInv (Session.start hooks configMenuEnable gameRunningHookComplete submitters) := by
  refine ⟨?_, ?_, ?_, ?_, List.Pairwise.nil, ?_, fun _ => Nat.zero_le _⟩ <;> simp [Session.start]

/-- In every run that keeps to the conditions, whatever the chunks and the commands do, each
startup chunk is in progress at most once and ends without error at most once. -/
theorem unrepeated_run_singleStartup {configMenuEnable gameRunningHookComplete : Bool}
    {submitters : Nat} {acts : List Action} {s : Session}
    (fresh : Trace.Obeys step Unrepeated
      (Session.start ⟨true, true⟩ configMenuEnable gameRunningHookComplete submitters) acts)
    (run : Trace.exec step
      (Session.start ⟨true, true⟩ configMenuEnable gameRunningHookComplete submitters) acts = some s) :
    SingleStartup s :=
  (Trace.exec_preserves (fun _ _ _ inv fresh h => reentryInv_step inv fresh h)
    ⟨start_wellNested _ _ _ _, reentryInv_start _ _ _ _⟩ fresh run).2.singleStartup

/-- A command is typed while the custom scripts load; a hook call below them runs it. -/
def commandDuringLoad : List Action :=
  enterHook ++ stageUntilRun [] ++ stageAfterRun ++ stageUntilRun [] ++
    submitLine (bytes "print(1)") ++ callChunk 2 ++ [.finish (.ok []), .clearBuffer] ++
    stageAfterRun ++ [.testExecute]

theorem unrepeated_run_singleStartup_command :
    ∃ s, Trace.exec step (Session.start ⟨true, true⟩ true false 1) commandDuringLoad = some s ∧
      finishedRuns s.ledger Startup.bootstrap.chunk = 1 ∧ SingleStartup s :=
  ⟨_, rfl, by decide, @unrepeated_run_singleStartup true false 1 commandDuringLoad _
    (by decide) rfl⟩

/-- The chunk of the configuration menu calls the builtin `pcall` while it runs. -/
def reenteredStartup : List Action :=
  enterHook ++ stageUntilRun [] ++ enterHook ++ stageUntilRun []

theorem reentered_startup_breaks_singleStartup :
    ∃ s, Trace.exec step (Session.start ⟨true, true⟩ true false 1) reenteredStartup = some s ∧
      callsOf Pc.inProgress s.frames Startup.configMenu.chunk = 2 ∧ ¬ SingleStartup s := by
  refine ⟨_, rfl, by decide, ?_⟩
  intro single
  have once := single.inProgress .configMenu
  revert once
  decide

end DriverSF
