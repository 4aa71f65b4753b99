import DriverSF.SessionSteps

namespace DriverSF

theorem Ledger.pending_eq_some {l : Ledger} {i : Nat} :
    l.pending = some i ↔ l.holder = some i ∧ i ∉ l.loadedIds := by
  simp [Ledger.pending, Option.filter_eq_some_iff]

theorem Ledger.pending_load (l : Ledger) (text : Bytes) : (l.load text).pending = none := by
  cases held : l.holder <;>
    simp [Ledger.pending, held, Ledger.loadedIds, Ledger.load, Option.filter]

/-- A thread that has stored its text and not yet set `execute`. -/
def Submitter.halfFinished : Submitter → Bool
  | .stored _ => true
  | _ => false

/-- An `execute_lua` that has loaded a text and has still to clear the buffer. -/
def Pc.holdsText : Pc → Bool
  | .call _ _ => true
  | .running _ _ => true
  | .clearBuffer _ _ _ => true
  | _ => false

def Session.holdsText (s : Session) : Bool :=
  s.frames.any fun f => f.pc.holdsText

/-- The buffer is loaded only while `execute` is false and no thread is between its two
assignments, and no thread stores into it between a load and the clear that follows it. -/
def Orderly (s : Session) : Action → Prop
  | .load _ => s.execute = false ∧ ∀ sub ∈ s.submitters, sub.halfFinished = false
  | .submitBuffer _ => s.holdsText = false
  | _ => True

instance (s : Session) (a : Action) : Decidable (Orderly s a) := by
  induction a using Action.casesOn <;> dsimp only [Orderly] <;> infer_instance

/-- A hook call that has stored a startup text or seen `execute`, up to its load. -/
def Pc.unloaded : Pc → Bool
  | .storeExecute _ _ => true
  | .testExecute (.startup _) => true
  | .clearExecute _ => true
  | .load _ => true
  | _ => false

/-- While a loaded text waits for its clear, only the hook's own stages store. -/
structure HeldInv (s : Session) : Prop where
  test : ∀ f ∈ s.frames, ∀ stage, f.pc = .testExecute (.startup stage) → s.execute = true
  submitter : s.holdsText = true → ∀ sub ∈ s.submitters, sub.halfFinished = false
  spent : s.holdsText = true → (∀ f ∈ s.frames.head?, f.pc.unloaded = false) →
    s.ledger.pending = none ∧ s.execute = false

theorem Session.holdsText_eq_true {s : Session} :
    s.holdsText = true ↔ ∃ f ∈ s.frames, f.pc.holdsText = true := by
  simp [Session.holdsText]

theorem HeldInv.clearBuffer {s : Session} {f : Frame} {rest : List Frame} {stage : Stage}
    {text : Bytes} {ok : Bool} (inv : HeldInv s) (frames : s.frames = f :: rest)
    (pc : f.pc = .clearBuffer stage text ok) : s.ledger.pending = none := by
  have holds : s.holdsText = true :=
    Session.holdsText_eq_true.mpr ⟨f, by simp [frames], by rw [pc]; rfl⟩
  exact (inv.spent holds (by simp [frames, pc, Pc.unloaded])).1

theorem HeldInv.hook {s s' : Session} {f : Frame} {front rest : List Frame} (inv : HeldInv s)
    (frames : s.frames = f :: rest) (frames' : s'.frames = front ++ rest)
    (waiting : ∀ g ∈ rest, g.pc.inGameCode = true) (submitters : s'.submitters = s.submitters)
    (held : ∀ g ∈ front, g.pc.holdsText = true → f.pc.holdsText = true)
    (test : ∀ g ∈ front, ∀ stage, g.pc = .testExecute (.startup stage) → s'.execute = true)
    (spent : s.holdsText = true → (∀ g ∈ s'.frames.head?, g.pc.unloaded = false) →
      s'.ledger.pending = none ∧ s'.execute = false) : HeldInv s' := by
  have before : s'.holdsText = true → s.holdsText = true := by
    intro holds
    obtain ⟨g, hg, text⟩ := Session.holdsText_eq_true.mp holds
    refine Session.holdsText_eq_true.mpr ?_
    rcases List.mem_append.mp (frames' ▸ hg) with new | old
    · exact ⟨f, by simp [frames], held g new text⟩
    · exact ⟨g, by simp [frames, old], text⟩
  refine ⟨?_, ?_, fun holds => spent (before holds)⟩
  · intro g hg stage pc
    rcases List.mem_append.mp (frames' ▸ hg) with new | old
    · exact test g new stage pc
    · have game := waiting g old
      simp [pc, Pc.inGameCode] at game
  · rw [submitters]
    exact fun holds => inv.submitter (before holds)

theorem next_holdsText {f : Frame} {stage : Stage} :
    ∀ g ∈ f.next stage, g.pc.holdsText = false ∧
      ∀ startup, g.pc ≠ .testExecute (.startup startup) := by
  intro g hg
  rcases (Frame.mem_next hg).1 with pc | pc <;> simp [pc, Pc.holdsText]

theorem HeldInv.leave {s s' : Session} {f : Frame} {rest : List Frame} {stage : Stage}
    (inv : HeldInv s) (frames : s.frames = f :: rest) (frames' : s'.frames = f.next stage ++ rest)
    (waiting : ∀ g ∈ rest, g.pc.inGameCode = true) (submitters : s'.submitters = s.submitters)
    (loaded : f.pc.unloaded = false) (pending : s.ledger.pending = none → s'.ledger.pending = none)
    (execute : s'.execute = s.execute) : HeldInv s' := by
  refine inv.hook frames frames' waiting submitters ?_ ?_ ?_
  · intro g hg holds
    simp [(next_holdsText g hg).1] at holds
  · intro g hg startup pc
    exact absurd pc ((next_holdsText g hg).2 startup)
  · intro holds _
    obtain ⟨empty, idle⟩ := inv.spent holds (by simp [frames, loaded])
    exact ⟨pending empty, execute.trans idle⟩

theorem HeldInv.advance {s s' : Session} {f f' : Frame} {rest : List Frame} (inv : HeldInv s)
    (frames : s.frames = f :: rest) (frames' : s'.frames = f' :: rest)
    (waiting : ∀ g ∈ rest, g.pc.inGameCode = true) (submitters : s'.submitters = s.submitters)
    (held : f'.pc.holdsText = true → f.pc.holdsText = true)
    (test : ∀ stage, f'.pc = .testExecute (.startup stage) → s'.execute = true)
    (spent : s.holdsText = true → f'.pc.unloaded = false →
      s'.ledger.pending = none ∧ s'.execute = false) : HeldInv s' := by
  have front : s'.frames = [f'] ++ rest := frames'
  refine HeldInv.hook inv frames front waiting submitters ?_ ?_ ?_
  · simpa using held
  · simpa using test
  · simpa [frames'] using spent

theorem HeldInv.load {s : Session} {f' : Frame} {rest : List Frame} {o : ParserOutcome}
    (waiting : ∀ g ∈ rest, g.pc.inGameCode = true) (orderly : Orderly s (.load o))
    (held : f'.pc.holdsText = true) :
    HeldInv { s with ledger := s.ledger.load s.buffer, frames := f' :: rest } := by
  refine ⟨?_, fun _ => orderly.2, fun _ _ => ⟨Ledger.pending_load _ _, orderly.1⟩⟩
  intro g hg stage pc
  rcases List.mem_cons.mp hg with rfl | old
  · simp [pc, Pc.holdsText] at held
  · have game := waiting g old
    simp [pc, Pc.inGameCode] at game

theorem HeldInv.hookStep {s s' : Session} {f : Frame} {rest : List Frame} {a : Action}
    (inv : HeldInv s) (nested : s.WellNested) (frames : s.frames = f :: rest)
    (orderly : Orderly s a) (h : HookStep s f rest a s') : HeldInv s' := by
  have waiting : ∀ g ∈ rest, g.pc.inGameCode = true := by
    intro g hg
    exact nested g (by simpa [frames] using hg)
  have spent : f.pc.unloaded = false → s.holdsText = true →
      s.ledger.pending = none ∧ s.execute = false := by
    intro loaded holds
    exact inv.spent holds (by simp [frames, loaded])
  cases h with
  | original slots pc =>
    exact inv.advance frames rfl waiting rfl (by simp [Pc.holdsText]) (by simp)
      fun holds _ => spent (by rw [pc]; rfl) holds
  | enter pc wants =>
    exact inv.advance frames rfl waiting rfl (by simp [Pc.holdsText]) (by simp)
      fun holds _ => spent (by rw [pc]; rfl) holds
  | skip pc wants => exact inv.leave frames rfl waiting rfl (by rw [pc]; rfl) id rfl
  | storeBuffer pc =>
    exact inv.advance frames rfl waiting rfl (by simp [Pc.holdsText]) (by simp)
      fun _ loaded => by simp [Pc.unloaded] at loaded
  | storeExecute pc =>
    exact inv.advance frames rfl waiting rfl (by simp [Pc.holdsText]) (fun _ _ => rfl)
      fun _ loaded => by simp [Pc.unloaded] at loaded
  | testTrue pc execute =>
    exact inv.advance frames rfl waiting rfl (by simp [Pc.holdsText]) (by simp)
      fun _ loaded => by simp [Pc.unloaded] at loaded
  | @testFalse stage pc execute =>
    cases stage with
    | startup startup =>
      -- the store of the stage itself has just set `execute`
      have set := inv.test f (by simp [frames]) startup pc
      simp [execute] at set
    | dllExecute => exact inv.leave frames rfl waiting rfl (by rw [pc]; rfl) id rfl
  | clearExecute pc =>
    exact inv.advance frames rfl waiting rfl (by simp [Pc.holdsText]) (by simp)
      fun _ loaded => by simp [Pc.unloaded] at loaded
  | loadOk pc status => exact HeldInv.load waiting orderly rfl
  | loadError pc error result => exact HeldInv.load waiting orderly rfl
  | call pc top =>
    exact inv.advance frames rfl waiting rfl (fun _ => by rw [pc]; rfl) (by simp)
      fun holds _ => spent (by rw [pc]; rfl) holds
  | finishOk results pc =>
    exact inv.advance frames rfl waiting rfl (fun _ => by rw [pc]; rfl) (by simp)
      fun holds _ => spent (by rw [pc]; rfl) holds
  | finishError e obj pc =>
    exact inv.advance frames rfl waiting rfl (fun _ => by rw [pc]; rfl) (by simp)
      fun holds _ => spent (by rw [pc]; rfl) holds
  | clearRan pc =>
    exact inv.advance frames rfl waiting rfl (by simp [Pc.holdsText]) (by simp)
      fun holds _ => ⟨rfl, (spent (by rw [pc]; rfl) holds).2⟩
  | clearDone pc plain =>
    exact inv.leave frames rfl waiting rfl (by rw [pc]; rfl) (fun _ => rfl) rfl
  | @setFlag stage text pc =>
    cases stage <;> exact inv.leave frames rfl waiting rfl (by rw [pc]; rfl) id rfl

theorem HeldInv.ready {s : Session} (inv : HeldInv s) (thread : Nat) (text : Bytes) :
    HeldInv { s with submitters := s.submitters.set thread (.ready text) } := by
  refine ⟨inv.test, ?_, inv.spent⟩
  intro holds sub hsub
  rcases List.mem_or_eq_of_mem_set hsub with old | rfl
  · exact inv.submitter holds sub old
  · rfl

theorem HeldInv.submitStep {s s' : Session} {thread : Nat} {a : Action} (inv : HeldInv s)
    (orderly : Orderly s a) (h : SubmitStep s thread a s') : HeldInv s' := by
  cases h with
  | readLine text idle => exact inv.ready thread text
  | ignored idle execute => exact inv
  | pressed idle execute => exact inv.ready thread toggleMenuChunk
  | storeBuffer ready =>
    have free : s.holdsText = true → False := by
      intro holds
      simp [Orderly, holds] at orderly
    exact ⟨inv.test, fun holds => (free holds).elim, fun holds => (free holds).elim⟩
  | @storeExecute id stored =>
    -- a thread that has stored its text keeps every load waiting
    have free : s.holdsText = true → False := by
      intro holds
      have idle := inv.submitter holds _ (List.mem_of_getElem? stored)
      simp [Submitter.halfFinished] at idle
    exact ⟨fun _ _ _ _ => rfl, fun holds => (free holds).elim, fun holds => (free holds).elim⟩

theorem heldInv_step {s s' : Session} {a : Action} (inv : HeldInv s) (nested : s.WellNested)
    (orderly : Orderly s a) (h : step s a = some s') : HeldInv s' := by
  cases step_sound h with
  | intercepted game live =>
    refine ⟨?_, inv.submitter, ?_⟩
    · intro f hf stage pc
      rcases List.mem_cons.mp hf with rfl | hf
      · cases pc
      · exact inv.test f hf stage pc
    · intro holds _
      refine inv.spent holds ?_
      intro f hf
      have top := Session.head_inGameCode game f hf
      cases pc : f.pc <;> simp_all [Pc.inGameCode, Pc.unloaded]
  | bypassed => exact inv
  | hook frames inner => exact inv.hookStep nested frames orderly inner
  | submit inner => exact inv.submitStep orderly inner
  | installPcall => exact ⟨inv.test, inv.submitter, inv.spent⟩
  | installParser => exact ⟨inv.test, inv.submitter, inv.spent⟩

theorem heldInv_start (hooks : Hooks) (configMenuEnable gameRunningHookComplete : Bool)
    (submitters : Nat) :
    HeldInv (Session.start hooks configMenuEnable gameRunningHookComplete submitters) := by
  refine ⟨?_, ?_, ?_⟩ <;> simp [Session.start, Session.holdsText]

end DriverSF
