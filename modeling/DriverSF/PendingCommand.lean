import DriverSF.HookInstall

namespace DriverSF

/-- A step of the game thread. `GameState` can read "Game Running" only if `running`. -/
def Action.ofGameThread (running : Bool) : Action → Bool
  | .guard reads => !reads || running
  | .readLine _ _ => false
  | .pressRightAlt _ => false
  | .submitBuffer _ => false
  | .submitExecute _ => false
  | .installPcall => false
  | .installParser => false
  | _ => true

/-- In every single-threaded run of hook calls, a startup stage assigns its text to `buffer`
only after submission `i` has been loaded. -/
def StartupWaits (s : Session) (i : Nat) (running : Bool) : Prop :=
  ∀ acts s', (∀ a ∈ acts, a.ofGameThread running = true) → Trace.exec step s acts = some s' →
    (step s' .storeBuffer).isSome → i ∈ s'.ledger.loadedIds

/-- No startup stage can pass its guard. -/
def Session.Idle (s : Session) (running : Bool) : Prop :=
  ∀ stage, s.wants stage running = false

/-- The hook call reaches its next load without passing the guard of a startup stage. -/
def Pc.serves (execute wants : Bool) : Pc → Bool
  | .guard .bootstrap => execute && !wants
  | .storeExecute _ _ => true
  | .testExecute _ => execute
  | .clearExecute _ => true
  | .load _ => true
  | .setFlag .configMenu _ => execute && !wants
  | .setFlag .bootstrap _ => execute
  | _ => false

/-- The innermost hook call is not about to store a startup text, and either it serves the
mailbox first or no startup stage can pass its guard, now or once the flag of the chunk
that has just ended is set. -/
def Session.Spares (s : Session) (running : Bool) : Prop :=
  match s.frames with
  | [] => s.Idle running
  | f :: _ =>
    match f.pc with
    | .storeBuffer _ => False
    | .clearBuffer (.startup stage) _ true => (s.setDone stage).Idle running
    | pc => pc.serves s.execute (s.wants .bootstrap running) = true ∨ s.Idle running

theorem Session.wants_mono {s : Session} {stage : Startup} {reads running : Bool}
    (own : (Action.guard reads).ofGameThread running = true) (h : s.wants stage reads = true) :
    s.wants stage running = true := by
  simp only [Session.wants, Action.ofGameThread, Bool.and_eq_true, Bool.or_eq_true] at *
  refine ⟨h.1, h.2.imp_right ?_⟩
  intro reads
  simpa [reads] using own

theorem setDone_wants {s : Session} {stage st : Startup} {running : Bool} :
    (s.setDone stage).wants st running = (decide (stage ≠ st) && s.wants st running) := by
  cases stage <;> cases st <;> simp [Session.wants, Session.done, Session.setDone]

theorem Session.Idle.setDone {s : Session} {running : Bool} (h : s.Idle running) (stage : Startup) :
    (s.setDone stage).Idle running := by
  intro st
  rw [setDone_wants, h st, Bool.and_false]

theorem Session.not_idle {s : Session} {running : Bool} (h : ¬ s.Idle running) :
    ∃ stage, s.wants stage running = true := by
  simpa [Session.Idle] using h

/-- A pending submission stays safe from the startup stages in one of four ways. -/
inductive Kept (s : Session) (i : Nat) (running : Bool) : Prop
  | loaded (loaded : i ∈ s.ledger.loadedIds)
  | idle (idle : s.Idle running) (top : ∀ f ∈ s.frames.head?, ∀ stage, f.pc ≠ .storeBuffer stage)
  | finishing {f : Frame} {rest : List Frame} {stage : Startup} {text : Bytes}
    (frames : s.frames = f :: rest)
    (pc : f.pc = .clearBuffer (.startup stage) text true ∨ f.pc = .setFlag stage text)
    (idle : (s.setDone stage).Idle running)
  | serving {f : Frame} {rest : List Frame} (frames : s.frames = f :: rest)
    (serves : f.pc.serves s.execute (s.wants .bootstrap running) = true)
    (held : s.ledger.holder = some i)

theorem Frame.next_ne_storeBuffer {f : Frame} {rest : List Frame} {ended : Stage}
    (waiting : ∀ g ∈ rest, g.pc.inGameCode = true) :
    ∀ g ∈ (f.next ended ++ rest).head?, ∀ stage, g.pc ≠ .storeBuffer stage := by
  intro g hg stage pc
  rcases List.mem_append.mp (List.mem_of_mem_head? hg) with hg | hg
  · rcases (Frame.mem_next hg).1 with h | h <;> simp [pc] at h
  · simpa [pc, Pc.inGameCode] using waiting g hg

theorem kept_idle_hookStep {s s' : Session} {f : Frame} {rest : List Frame} {a : Action} {i : Nat}
    {running : Bool} (idle : s.Idle running) (own : a.ofGameThread running = true)
    (waiting : ∀ g ∈ rest, g.pc.inGameCode = true) (h : HookStep s f rest a s') :
    Kept s' i running := by
  cases h with
  | original slots pc => exact .idle idle (by simp)
  | @enter stage reads pc wants =>
    have passed := Session.wants_mono own wants
    simp [idle stage] at passed
  | skip pc wants => exact .idle idle (Frame.next_ne_storeBuffer waiting)
  | storeBuffer pc => exact .idle idle (by simp)
  | storeExecute pc => exact .idle idle (by simp)
  | testTrue pc execute => exact .idle idle (by simp)
  | testFalse pc execute => exact .idle idle (Frame.next_ne_storeBuffer waiting)
  | clearExecute pc => exact .idle idle (by simp)
  | loadOk pc status => exact .idle idle (by simp)
  | loadError pc error result => exact .idle idle (by simp)
  | call pc top => exact .idle idle (by simp)
  | finishOk results pc => exact .idle idle (by simp)
  | finishError e obj pc => exact .idle idle (by simp)
  | clearRan pc => exact .idle idle (by simp)
  | clearDone pc plain => exact .idle idle (Frame.next_ne_storeBuffer waiting)
  | @setFlag stage text pc =>
    refine .idle ?_ (Frame.next_ne_storeBuffer waiting)
    cases stage <;> exact idle.setDone _

/-- A call whose startup chunk has ended sets its flag before any guard is evaluated. -/
theorem kept_finishing_hookStep {s s' : Session} {f : Frame} {rest : List Frame} {a : Action}
    {i : Nat} {running : Bool} {stage : Startup} {text : Bytes}
    (ended : f.pc = .clearBuffer (.startup stage) text true ∨ f.pc = .setFlag stage text)
    (idle : (s.setDone stage).Idle running) (waiting : ∀ g ∈ rest, g.pc.inGameCode = true)
    (h : HookStep s f rest a s') : Kept s' i running := by
  cases h with
  | @clearRan st chunk pc =>
    obtain ⟨rfl, rfl⟩ : st = stage ∧ chunk = text := by simpa [pc] using ended
    refine .finishing rfl (Or.inr rfl) ?_
    cases st <;> exact idle
  | clearDone pc plain =>
    rcases plain with rfl | rfl <;> simp [pc] at ended
  | @setFlag st chunk pc =>
    obtain ⟨rfl, rfl⟩ : st = stage ∧ chunk = text := by simpa [pc] using ended
    refine .idle ?_ (Frame.next_ne_storeBuffer waiting)
    cases st <;> exact idle
  | _ => simp_all

/-- A call that serves the mailbox loads the submission that `buffer` holds. -/
theorem kept_serving_hookStep {s s' : Session} {f : Frame} {rest : List Frame} {a : Action}
    {i : Nat} {running : Bool} (serves : f.pc.serves s.execute (s.wants .bootstrap running) = true)
    (held : s.ledger.holder = some i) (own : a.ofGameThread running = true)
    (h : HookStep s f rest a s') : Kept s' i running := by
  cases h with
  | @enter stage reads pc wants =>
    have passed := Session.wants_mono own wants
    cases stage <;> simp_all [Pc.serves]
  | @skip stage reads pc wants =>
    cases stage with
    | configMenu => simp [pc, Pc.serves] at serves
    | bootstrap =>
      simp only [pc, Pc.serves, Bool.and_eq_true] at serves
      exact .serving rfl serves.1 held
  | storeExecute pc => exact .serving rfl rfl held
  | testTrue pc execute => exact .serving rfl rfl held
  | testFalse pc execute => simp [pc, Pc.serves, execute] at serves
  | clearExecute pc => exact .serving rfl rfl held
  | loadOk pc status => exact .loaded (by simp [Ledger.loadedIds, Ledger.load, held])
  | loadError pc error result => exact .loaded (by simp [Ledger.loadedIds, Ledger.load, held])
  | @setFlag stage text pc =>
    cases stage with
    | configMenu =>
      rw [pc] at serves
      exact .serving rfl serves held
    | bootstrap =>
      rw [pc] at serves
      exact .serving rfl serves held
  | _ => simp_all [Pc.serves]

theorem Kept.not_inGameCode {s : Session} {i : Nat} {running : Bool} (h : Kept s i running) :
    i ∈ s.ledger.loadedIds ∨ s.Idle running ∨ s.inGameCode = false := by
  cases h with
  | loaded loaded => exact Or.inl loaded
  | idle idle top => exact Or.inr (Or.inl idle)
  | finishing frames pc idle =>
    refine Or.inr (Or.inr ?_)
    rcases pc with pc | pc <;> simp [Session.inGameCode, frames, pc, Pc.inGameCode]
  | @serving f rest frames serves held =>
    refine Or.inr (Or.inr ?_)
    rw [Session.inGameCode, frames]
    cases pc : f.pc <;> simp_all [Pc.serves, Pc.inGameCode]

theorem loadedIds_hookStep {s s' : Session} {f : Frame} {rest : List Frame} {a : Action} {i : Nat}
    (h : HookStep s f rest a s') (loaded : i ∈ s.ledger.loadedIds) : i ∈ s'.ledger.loadedIds := by
  cases h with
  | loadOk pc status => exact (List.sublist_cons_self _ _).filterMap _ |>.subset loaded
  | loadError pc error result => exact (List.sublist_cons_self _ _).filterMap _ |>.subset loaded
  | _ => exact loaded

theorem kept_step {s s' : Session} {a : Action} {i : Nat} {running : Bool}
    (kept : s.WellNested ∧ Kept s i running) (own : a.ofGameThread running = true)
    (h : step s a = some s') : s'.WellNested ∧ Kept s' i running := by
  refine ⟨step_wellNested kept.1 h, ?_⟩
  obtain ⟨nested, kept⟩ := kept
  cases step_sound h with
  | intercepted game live =>
    rcases kept.not_inGameCode with loaded | idle | inside
    · exact .loaded loaded
    · exact .idle idle (by simp)
    · simp [game] at inside
  | bypassed => exact kept
  | @hook f rest _ _ frames inner =>
    have waiting : ∀ g ∈ rest, g.pc.inGameCode = true := by
      intro g hg
      exact nested g (by simpa [frames] using hg)
    cases kept with
    | loaded loaded => exact .loaded (loadedIds_hookStep inner loaded)
    | idle idle top => exact kept_idle_hookStep idle own waiting inner
    | finishing frames' pc idle =>
      cases frames.symm.trans frames'
      exact kept_finishing_hookStep pc idle waiting inner
    | serving frames' serves held =>
      cases frames.symm.trans frames'
      exact kept_serving_hookStep serves held own inner
  | submit inner => cases inner <;> simp [Action.ofGameThread] at own
  | installPcall => simp [Action.ofGameThread] at own
  | installParser => simp [Action.ofGameThread] at own

theorem storeBuffer_enabled {s : Session} (h : (step s .storeBuffer).isSome) :
    ∃ f rest stage, s.frames = f :: rest ∧ f.pc = .storeBuffer stage := by
  obtain ⟨s', h⟩ := Option.isSome_iff_exists.mp h
  cases step_sound h with
  | hook frames inner =>
    cases inner with
    | storeBuffer pc => exact ⟨_, _, _, frames, pc⟩
  | submit inner => cases inner

theorem Kept.storeBuffer {s : Session} {i : Nat} {running : Bool} (kept : Kept s i running)
    (h : (step s .storeBuffer).isSome) : i ∈ s.ledger.loadedIds := by
  obtain ⟨f, rest, stage, frames, pc⟩ := storeBuffer_enabled h
  cases kept with
  | loaded loaded => exact loaded
  | idle idle top => exact absurd pc (top f (by simp [frames]) stage)
  | finishing frames' ended idle =>
    cases frames.symm.trans frames'
    simp [pc] at ended
  | serving frames' serves held =>
    cases frames.symm.trans frames'
    simp [pc, Pc.serves] at serves

theorem kept_of_spares {s : Session} {i : Nat} {running : Bool}
    (held : s.ledger.holder = some i) (spares : s.Spares running) : Kept s i running := by
  unfold Session.Spares at spares
  split at spares
  next frames => exact .idle spares (by simp [frames])
  next f rest frames =>
    split at spares
    next => exact absurd spares id
    next stage text pc => exact .finishing frames (Or.inl pc) spares
    next notStore _ =>
      rcases spares with serves | idle
      · exact .serving frames serves held
      · refine .idle idle ?_
        intro g hg
        obtain rfl : f = g := by simpa [frames] using hg
        exact notStore

/-- A run of the game thread reaches a startup store while submission `i` is not loaded. -/
def Discards (s : Session) (i : Nat) (running : Bool) : Prop :=
  ∃ acts s', (∀ a ∈ acts, a.ofGameThread running = true) ∧ Trace.exec step s acts = some s' ∧
    (step s' .storeBuffer).isSome ∧ i ∉ s'.ledger.loadedIds

theorem Discards.not_startupWaits {s : Session} {i : Nat} {running : Bool}
    (h : Discards s i running) : ¬ StartupWaits s i running := by
  obtain ⟨acts, s', own, run, store, unloaded⟩ := h
  intro waits
  exact unloaded (waits acts s' own run store)

theorem Discards.step {s t : Session} {a : Action} {i : Nat} {running : Bool}
    (own : a.ofGameThread running = true) (h : step s a = some t) (later : Discards t i running) :
    Discards s i running := by
  obtain ⟨acts, s', owns, run, store, unloaded⟩ := later
  refine ⟨a :: acts, s', ?_, by simpa [Trace.exec, h] using run, store, unloaded⟩
  intro b hb
  rcases List.mem_cons.mp hb with rfl | hb
  · exact own
  · exact owns b hb

section Discarding

variable {s : Session} {f : Frame} {rest : List Frame} {i : Nat} {running : Bool}

theorem discards_storeBuffer {stage : Startup} (frames : s.frames = f :: rest)
    (pc : f.pc = .storeBuffer stage) (unloaded : i ∉ s.ledger.loadedIds) :
    Discards s i running :=
  ⟨[], s, by simp, rfl, by simp [step, frames, hookStep, pc], unloaded⟩

theorem discards_guard {stage : Startup} (frames : s.frames = f :: rest)
    (pc : f.pc = .guard stage) (unloaded : i ∉ s.ledger.loadedIds)
    (wants : s.wants stage running = true) : Discards s i running := by
  refine Discards.step (a := .guard running) (by simp [Action.ofGameThread])
    (by simp [step, frames, hookStep, pc, wants]; rfl) ?_
  exact discards_storeBuffer rfl rfl unloaded

theorem discards_guard_configMenu {stage : Startup} (frames : s.frames = f :: rest)
    (pc : f.pc = .guard .configMenu) (unloaded : i ∉ s.ledger.loadedIds)
    (wants : s.wants stage running = true) : Discards s i running := by
  cases menu : s.wants .configMenu running with
  | true => exact discards_guard frames pc unloaded menu
  | false =>
    have bootstrap : s.wants .bootstrap running = true := by
      cases stage with
      | configMenu => simp [menu] at wants
      | bootstrap => exact wants
    refine Discards.step (a := .guard running) (by simp [Action.ofGameThread])
      (by simp [step, frames, hookStep, pc, menu]; rfl) ?_
    exact discards_guard rfl rfl unloaded bootstrap

theorem discards_inGameCode {stage : Startup} (game : s.inGameCode = true)
    (live : s.hooks.oLuaPcall = true) (unloaded : i ∉ s.ledger.loadedIds)
    (wants : s.wants stage running = true) : Discards s i running := by
  refine Discards.step (a := .pcall) rfl (by simp [step, game, live]; rfl) ?_
  refine Discards.step (a := .original []) rfl (by simp [step, hookStep]; rfl) ?_
  exact discards_guard_configMenu rfl rfl unloaded wants

theorem inGameCode_of_waiting (frames : s.frames = rest)
    (waiting : ∀ g ∈ rest, g.pc.inGameCode = true) : s.inGameCode = true := by
  rw [Session.inGameCode, frames]
  cases rest with
  | nil => rfl
  | cons g rest => exact waiting g List.mem_cons_self

theorem not_mem_loadedIds_load {l : Ledger} {text : Bytes} {i : Nat} (lost : l.holder ≠ some i)
    (unloaded : i ∉ l.loadedIds) : i ∉ (l.load text).loadedIds := by
  intro loaded
  cases held : l.holder with
  | none => exact unloaded (by simpa [Ledger.loadedIds, Ledger.load, held] using loaded)
  | some j =>
    have other : i ≠ j := by
      rintro rfl
      exact lost held
    exact unloaded (by simpa [Ledger.loadedIds, Ledger.load, held, other] using loaded)

theorem discards_testExecute {stage : Startup} (frames : s.frames = f :: rest)
    (pc : f.pc = .testExecute .dllExecute) (waiting : ∀ g ∈ rest, g.pc.inGameCode = true)
    (hooks : s.hooks = ⟨true, true⟩) (lost : s.ledger.holder ≠ some i)
    (unloaded : i ∉ s.ledger.loadedIds) (wants : s.wants stage running = true) :
    Discards s i running := by
  cases execute : s.execute with
  | false =>
    refine Discards.step (a := .testExecute) rfl
      (by simp [step, frames, hookStep, pc, execute]; rfl) ?_
    exact discards_inGameCode (inGameCode_of_waiting rfl waiting) (by simp [hooks]) unloaded wants
  | true =>
    refine Discards.step (a := .testExecute) rfl
      (by simp [step, frames, hookStep, pc, execute]; rfl) ?_
    refine Discards.step (a := .clearExecute) rfl (by simp [step, hookStep]; rfl) ?_
    refine Discards.step (a := .load (.error .errSyntax .nil)) rfl
      (by simp [step, hookStep, hooks, hookCall, ParserOutcome.apply, LuaError.status]; rfl) ?_
    refine Discards.step (a := .clearBuffer) rfl (by simp [step, hookStep]; rfl) ?_
    refine discards_inGameCode (inGameCode_of_waiting rfl waiting) rfl ?_ wants
    exact not_mem_loadedIds_load lost unloaded

theorem discards_next {ended : Stage} {stage : Startup} (frames : s.frames = f.next ended ++ rest)
    (waiting : ∀ g ∈ rest, g.pc.inGameCode = true) (hooks : s.hooks = ⟨true, true⟩)
    (lost : s.ledger.holder ≠ some i) (unloaded : i ∉ s.ledger.loadedIds)
    (wants : s.wants stage running = true) : Discards s i running := by
  cases ended with
  | dllExecute =>
    exact discards_inGameCode (inGameCode_of_waiting frames waiting) (by rw [hooks]) unloaded wants
  | startup startup =>
    cases startup with
    | bootstrap => exact discards_testExecute frames rfl waiting hooks lost unloaded wants
    | configMenu =>
      cases bootstrap : s.wants .bootstrap running with
      | true => exact discards_guard frames rfl unloaded bootstrap
      | false =>
        refine Discards.step (a := .guard running) (by simp [Action.ofGameThread])
          (by simp [step, frames, Frame.next, hookStep, bootstrap]; rfl) ?_
        exact discards_testExecute rfl rfl waiting hooks lost unloaded wants

theorem discards_setFlag {ended stage : Startup} {text : Bytes} (frames : s.frames = f :: rest)
    (pc : f.pc = .setFlag ended text) (waiting : ∀ g ∈ rest, g.pc.inGameCode = true)
    (hooks : s.hooks = ⟨true, true⟩) (lost : s.ledger.holder ≠ some i)
    (unloaded : i ∉ s.ledger.loadedIds) (wants : (s.setDone ended).wants stage running = true) :
    Discards s i running := by
  refine Discards.step (a := .setFlag) rfl (by simp [step, frames, hookStep, pc]; rfl) ?_
  cases ended <;> exact discards_next rfl waiting hooks lost unloaded wants

theorem discards_clearBuffer {ended : Stage} {stage : Startup} {text : Bytes} {ok : Bool}
    (frames : s.frames = f :: rest) (pc : f.pc = .clearBuffer ended text ok)
    (plain : ok = false ∨ ended = .dllExecute) (waiting : ∀ g ∈ rest, g.pc.inGameCode = true)
    (hooks : s.hooks = ⟨true, true⟩) (unloaded : i ∉ s.ledger.loadedIds)
    (wants : s.wants stage running = true) : Discards s i running := by
  have after : step s .clearBuffer =
      some { s with buffer := [], ledger := s.ledger.clear, frames := f.next ended ++ rest } := by
    rcases plain with rfl | rfl
    · cases ended <;> simp [step, frames, hookStep, pc]
    · cases ok <;> simp [step, frames, hookStep, pc]
  refine Discards.step (a := .clearBuffer) rfl after ?_
  exact discards_next rfl waiting hooks (by simp [Ledger.clear]) unloaded wants

theorem discards_clearBuffer_ran {ended stage : Startup} {text : Bytes}
    (frames : s.frames = f :: rest) (pc : f.pc = .clearBuffer (.startup ended) text true)
    (waiting : ∀ g ∈ rest, g.pc.inGameCode = true) (hooks : s.hooks = ⟨true, true⟩)
    (unloaded : i ∉ s.ledger.loadedIds) (wants : (s.setDone ended).wants stage running = true) :
    Discards s i running := by
  refine Discards.step (a := .clearBuffer) rfl (by simp [step, frames, hookStep, pc]; rfl) ?_
  refine @discards_setFlag _ _ rest i running ended stage text rfl rfl waiting hooks
    (by simp [Ledger.clear]) unloaded ?_
  cases ended <;> exact wants

theorem discards_call {ended : Stage} {stage : Startup} {text : Bytes} (frames : s.frames = f :: rest)
    (pc : f.pc = .call ended text) (slots : f.slots ≠ []) (hooks : s.hooks = ⟨true, true⟩)
    (unloaded : i ∉ s.ledger.loadedIds) (wants : s.wants stage running = true) :
    Discards s i running := by
  obtain ⟨func, below, top⟩ := List.exists_cons_of_ne_nil slots
  refine Discards.step (a := .call) rfl (by simp [step, frames, hookStep, pc, top]; rfl) ?_
  exact discards_inGameCode rfl (congrArg Hooks.oLuaPcall hooks) unloaded wants

end Discarding

structure Session.Settled (s : Session) : Prop where
  hooks : s.hooks = ⟨true, true⟩
  nested : s.WellNested
  tidy : s.Tidy

theorem settled_step {s s' : Session} {a : Action} (settled : s.Settled) (h : step s a = some s') :
    s'.Settled := by
  refine ⟨?_, step_wellNested settled.nested h, tidy_step settled.tidy ?_ h⟩
  · cases step_sound h with
    | hook frames inner =>
      cases inner with
      | @setFlag stage text pc => cases stage <;> exact settled.hooks
      | _ => exact settled.hooks
    | submit inner => cases inner <;> exact settled.hooks
    | installPcall dead => simp [settled.hooks] at dead
    | installParser live dead => simp [settled.hooks] at dead
    | _ => exact settled.hooks
  · cases a <;> simp [ParserLive, settled.hooks]

theorem discards_of_not_spares {s : Session} {i : Nat} {running : Bool} (settled : s.Settled)
    (execute : s.execute = true) (unloaded : i ∉ s.ledger.loadedIds)
    (exposed : ¬ s.Spares running) : Discards s i running := by
  have live : s.hooks.oLuaPcall = true := congrArg Hooks.oLuaPcall settled.hooks
  cases frames : s.frames with
  | nil =>
    obtain ⟨stage, wants⟩ := Session.not_idle (by simpa [Session.Spares, frames] using exposed)
    exact discards_inGameCode (inGameCode_of_waiting frames (by simp)) live unloaded wants
  | cons f rest =>
    have waiting : ∀ g ∈ rest, g.pc.inGameCode = true := by
      intro g hg
      exact settled.nested g (by simpa [frames] using hg)
    have game : f.pc.inGameCode = true → s.inGameCode = true := by
      intro h
      simpa [Session.inGameCode, frames] using h
    simp only [Session.Spares, frames] at exposed
    cases pc : f.pc with
    | storeBuffer stage => exact discards_storeBuffer frames pc unloaded
    | original =>
      obtain ⟨stage, wants⟩ := Session.not_idle (by simpa [pc, Pc.serves] using exposed)
      exact discards_inGameCode (game (by rw [pc]; rfl)) live unloaded wants
    | running st text =>
      obtain ⟨stage, wants⟩ := Session.not_idle (by simpa [pc, Pc.serves] using exposed)
      exact discards_inGameCode (game (by rw [pc]; rfl)) live unloaded wants
    | guard st =>
      cases st with
      | configMenu =>
        obtain ⟨stage, wants⟩ := Session.not_idle (by simpa [pc, Pc.serves] using exposed)
        exact discards_guard_configMenu frames pc unloaded wants
      | bootstrap =>
        simp only [pc, Pc.serves, execute, Bool.true_and, not_or] at exposed
        exact discards_guard frames pc unloaded (by simpa using exposed.1)
    | storeExecute st id => simp [pc, Pc.serves] at exposed
    | testExecute st => simp [pc, Pc.serves, execute] at exposed
    | clearExecute st => simp [pc, Pc.serves] at exposed
    | load st => simp [pc, Pc.serves] at exposed
    | call st text =>
      obtain ⟨stage, wants⟩ := Session.not_idle (by simpa [pc, Pc.serves] using exposed)
      obtain ⟨closure, slots⟩ := (settled.tidy f (by simp [frames])).call st text pc
      exact discards_call frames pc (by simp [slots]) settled.hooks unloaded wants
    | setFlag st text =>
      cases st with
      | configMenu =>
        simp only [pc, Pc.serves, execute, Bool.true_and, not_or] at exposed
        have wants : s.wants .bootstrap running = true := by simpa using exposed.1
        refine Discards.step (a := .setFlag) rfl (by simp [step, frames, hookStep, pc]; rfl) ?_
        exact discards_guard rfl rfl unloaded wants
      | bootstrap => simp [pc, Pc.serves, execute] at exposed
    | clearBuffer st text ok =>
      by_cases plain : ok = false ∨ st = .dllExecute
      · obtain ⟨stage, wants⟩ := Session.not_idle
          (by rcases plain with rfl | rfl <;> simpa [pc, Pc.serves] using exposed)
        exact discards_clearBuffer frames pc plain waiting settled.hooks unloaded wants
      · cases st with
        | dllExecute => simp at plain
        | startup ended =>
          obtain rfl : ok = true := by simpa using plain
          obtain ⟨stage, wants⟩ := Session.not_idle (by simpa [pc] using exposed)
          exact discards_clearBuffer_ran frames pc waiting settled.hooks unloaded wants

/-- With a command pending in any state that a run reaches, the startup stages wait for it
in every single-threaded run from there if and only if the state spares it. -/
theorem startupWaits_iff_spares {configMenuEnable gameRunningHookComplete : Bool}
    {submitters : Nat} {acts : List Action} {s : Session} {i : Nat} (running : Bool)
    (run : Trace.exec step
      (Session.start ⟨true, true⟩ configMenuEnable gameRunningHookComplete submitters) acts = some s)
    (execute : s.execute = true) (pending : s.ledger.pending = some i) :
    StartupWaits s i running ↔ s.Spares running := by
  have settled : s.Settled := by
    refine Trace.exec_invariant (fun _ _ _ settled h => settled_step settled h) ?_ run
    exact ⟨rfl, start_wellNested _ _ _ _, by simp [Session.Tidy, Session.start]⟩
  obtain ⟨held, unloaded⟩ : s.ledger.holder = some i ∧ i ∉ s.ledger.loadedIds := by
    simpa [Ledger.pending, Option.filter_eq_some_iff] using pending
  constructor
  · intro waits
    by_contra exposed
    exact (discards_of_not_spares settled execute unloaded exposed).not_startupWaits waits
  · intro spares later s' own run store
    have allowed : Trace.Obeys step (fun _ a => a.ofGameThread running = true) s later :=
      Trace.obeys_of_forall own
    exact (Trace.exec_preserves (fun _ _ _ kept own h => kept_step kept own h)
      ⟨settled.nested, kept_of_spares held spares⟩ allowed run).2.storeBuffer store

theorem startupWaits_iff_spares_idle :
    ∃ s, Trace.exec step (Session.start ⟨true, true⟩ false true 1)
        (submitLine (bytes "print(1)")) = some s ∧ StartupWaits s 0 true := by
  refine ⟨_, rfl, (@startupWaits_iff_spares false true 1 (submitLine (bytes "print(1)")) _ 0 true
    rfl rfl rfl).mpr ?_⟩
  intro stage
  cases stage <;> rfl

/-- The console submits a line before the first hook call of the game. -/
theorem startup_discards_console_line :
    ∃ s, Trace.exec step (Session.start ⟨true, true⟩ true false 1)
        (submitLine (bytes "print(1)")) = some s ∧
      s.execute = true ∧ s.buffer = bytes "print(1)" ∧ s.ledger.pending = some 0 ∧
      ¬ StartupWaits s 0 true := by
  refine ⟨_, rfl, rfl, rfl, rfl, ?_⟩
  intro waits
  have loaded := waits (enterHook ++ [.guard false]) _ (by decide) rfl rfl
  revert loaded
  decide

end DriverSF
