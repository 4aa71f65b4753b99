import DriverSF.MailboxOrder
import DriverSF.OneSlot

namespace DriverSF

/-- The one-slot mailbox that `buffer` and `execute` are meant to implement: its slot
holds the submission that is stored in `buffer` and still to be loaded. -/
def Ledger.mailbox (l : Ledger) : OneSlot Bytes :=
  ⟨l.texts, l.pending, l.loadedIds, l.replaced⟩

theorem Ledger.mailbox_store {l : Ledger} (law : l.mailbox.Law) (text : Bytes) :
    (l.store text).mailbox = l.mailbox.post text := by
  have fresh : l.texts.length ∉ l.loadedIds := fun h => Nat.lt_irrefl _ (law.taken_lt h)
  have held : (l.store text).pending = some l.texts.length :=
    Ledger.pending_eq_some.mpr ⟨rfl, fresh⟩
  simp only [Ledger.mailbox, held]
  rfl

theorem Ledger.mailbox_load {l : Ledger} {i : Nat} (hp : l.pending = some i) (text : Bytes) :
    (l.load text).mailbox = l.mailbox.take i := by
  obtain ⟨held, _⟩ := Ledger.pending_eq_some.mp hp
  have ids : (l.load text).loadedIds = i :: l.loadedIds := by
    simp [Ledger.loadedIds, Ledger.load, held]
  simp only [Ledger.mailbox, ids, Ledger.pending_load]
  rfl

theorem Ledger.mailbox_clear {l : Ledger} (spent : l.pending = none) :
    l.clear.mailbox = l.mailbox := by
  simp only [Ledger.mailbox, spent]
  rfl

structure MailboxLaw (l : Ledger) : Prop where
  submitted : ∀ e ∈ l.loaded, e.2 ∈ l.texts
  once : l.loadedIds.Nodup
  kept : ∀ i ∈ l.completed, i ∈ l.loadedIds ∨ l.pending = some i ∨
    ∃ j, (i, j) ∈ l.replaced ∧ i < j

/-- The hook's own code has taken a submission up or is in the middle of one. -/
def Pc.claims : Pc → Bool
  | .storeExecute _ _ => true
  | .clearExecute _ => true
  | .load _ => true
  | _ => false

/-- Every number that a step may still use belongs to a submission. -/
structure Ledger.Bounded (l : Ledger) (buffer : Bytes) : Prop where
  law : l.mailbox.Law
  text : ∀ i, l.holder = some i → l.texts[i]? = some buffer
  loaded : ∀ e ∈ l.loaded, ∃ i, e.1 = some i ∧ l.texts[i]? = some e.2
  completed : ∀ i ∈ l.completed, i < l.texts.length

structure MailboxInv (s : Session) : Prop where
  ledger : s.ledger.Bounded s.buffer
  execute : s.execute = true → s.ledger.pending.isSome
  frame : ∀ f ∈ s.frames, f.pc.claims = true → s.ledger.pending.isSome
  frameId : ∀ f ∈ s.frames, ∀ stage id, f.pc = .storeExecute stage id →
    id < s.ledger.texts.length
  submitter : ∀ sub ∈ s.submitters, sub.halfFinished = true → s.ledger.pending.isSome
  submitterId : ∀ id, .stored id ∈ s.submitters → id < s.ledger.texts.length

theorem Ledger.Bounded.mailboxLaw {l : Ledger} {buffer : Bytes} (h : l.Bounded buffer) :
    MailboxLaw l := by
  refine ⟨?_, h.law.taken_nodup, ?_⟩
  · intro e he
    obtain ⟨i, _, ht⟩ := h.loaded e he
    exact List.mem_of_getElem? ht
  · intro i hi
    rcases h.law.located (h.completed i hi) with slot | taken | replaced
    · exact Or.inr (Or.inl slot)
    · exact Or.inl taken
    · exact Or.inr (Or.inr replaced)

theorem Ledger.Bounded.store {l : Ledger} {buffer : Bytes} (h : l.Bounded buffer) (text : Bytes) :
    (l.store text).Bounded text := by
  refine ⟨?_, ?_, ?_, ?_⟩
  · rw [Ledger.mailbox_store h.law]
    exact h.law.post text
  · intro i hi
    cases Option.some.inj hi
    simp [Ledger.store]
  · intro e he
    obtain ⟨i, hi, ht⟩ := h.loaded e he
    have bound := (List.getElem?_eq_some_iff.mp ht).1
    exact ⟨i, hi, by simpa [Ledger.store, List.getElem?_append_left bound] using ht⟩
  · intro i hi
    have bound := h.completed i hi
    simp only [Ledger.store, List.length_append, List.length_singleton]
    omega

theorem Ledger.Bounded.complete {l : Ledger} {buffer : Bytes} (h : l.Bounded buffer) {id : Nat}
    (hid : id < l.texts.length) : (l.complete id).Bounded buffer := by
  refine ⟨h.law, h.text, h.loaded, ?_⟩
  intro i hi
  rcases List.mem_cons.mp hi with rfl | hi
  · exact hid
  · exact h.completed i hi

theorem Ledger.Bounded.load {l : Ledger} {buffer : Bytes} (h : l.Bounded buffer)
    (hp : l.pending.isSome) : (l.load buffer).Bounded buffer := by
  obtain ⟨i, hi⟩ := Option.isSome_iff_exists.mp hp
  obtain ⟨held, _⟩ := Ledger.pending_eq_some.mp hi
  refine ⟨?_, h.text, ?_, h.completed⟩
  · rw [Ledger.mailbox_load hi]
    exact h.law.take hi
  · intro e he
    rcases List.mem_cons.mp he with rfl | he
    · exact ⟨i, held, h.text i held⟩
    · exact h.loaded e he

theorem Ledger.Bounded.clear {l : Ledger} {buffer : Bytes} (h : l.Bounded buffer)
    (spent : l.pending = none) : l.clear.Bounded [] := by
  refine ⟨?_, by simp [Ledger.clear], h.loaded, h.completed⟩
  rw [Ledger.mailbox_clear spent]
  exact h.law

theorem MailboxInv.quiet {s s' : Session} (inv : MailboxInv s)
    (buffer : s'.buffer = s.buffer) (execute : s'.execute = s.execute)
    (submitters : s'.submitters = s.submitters) (texts : s'.ledger.texts = s.ledger.texts)
    (holder : s'.ledger.holder = s.ledger.holder)
    (completed : s'.ledger.completed = s.ledger.completed)
    (loaded : s'.ledger.loaded = s.ledger.loaded)
    (replaced : s'.ledger.replaced = s.ledger.replaced)
    (frames : ∀ f ∈ s'.frames, f ∈ s.frames ∨ f.pc.claims = false) : MailboxInv s' := by
  have ids : s'.ledger.loadedIds = s.ledger.loadedIds := by rw [Ledger.loadedIds, loaded]; rfl
  have pending : s'.ledger.pending = s.ledger.pending := by
    rw [Ledger.pending, holder, ids]
    rfl
  have mailbox : s'.ledger.mailbox = s.ledger.mailbox := by
    rw [Ledger.mailbox, texts, pending, ids, replaced]
    rfl
  refine ⟨⟨?_, ?_, ?_, ?_⟩, ?_, ?_, ?_, ?_, ?_⟩
  · rw [mailbox]
    exact inv.ledger.law
  · rw [holder, texts, buffer]
    exact inv.ledger.text
  · rw [loaded, texts]
    exact inv.ledger.loaded
  · rw [completed, texts]
    exact inv.ledger.completed
  · rw [execute, pending]
    exact inv.execute
  · intro f hf claims
    rw [pending]
    rcases frames f hf with old | free
    · exact inv.frame f old claims
    · simp [free] at claims
  · intro f hf stage id pc
    rw [texts]
    rcases frames f hf with old | free
    · exact inv.frameId f old stage id pc
    · simp [pc, Pc.claims] at free
  · rw [submitters, pending]
    exact inv.submitter
  · rw [submitters, texts]
    exact inv.submitterId

theorem rest_claims_false {s : Session} {f : Frame} {rest : List Frame} (nested : s.WellNested)
    (frames : s.frames = f :: rest) : ∀ f' ∈ rest, f'.pc.claims = false := by
  intro f' hf
  have game := nested f' (by simpa [frames] using hf)
  cases hp : f'.pc <;> simp_all [Pc.inGameCode, Pc.claims]

theorem next_claims_false {f : Frame} {stage : Stage} : ∀ f' ∈ f.next stage, f'.pc.claims = false := by
  intro f' hf
  rcases (Frame.mem_next hf).1 with pc | pc <;> simp [pc, Pc.claims]

theorem Ledger.Bounded.pending_store {l : Ledger} {buffer : Bytes} (h : l.Bounded buffer)
    (text : Bytes) : (l.store text).pending.isSome := by
  have slot : (l.store text).mailbox.slot = some l.texts.length := by
    rw [Ledger.mailbox_store h.law]
    rfl
  exact Option.isSome_iff_exists.mpr ⟨_, slot⟩

theorem Ledger.texts_length_store (l : Ledger) (text : Bytes) :
    (l.store text).texts.length = l.texts.length + 1 := by
  simp [Ledger.store]

theorem MailboxInv.of_pending {s : Session} (ledger : s.ledger.Bounded s.buffer)
    (pending : s.ledger.pending.isSome)
    (frameId : ∀ f ∈ s.frames, ∀ stage id, f.pc = .storeExecute stage id →
      id < s.ledger.texts.length)
    (submitterId : ∀ id, .stored id ∈ s.submitters → id < s.ledger.texts.length) :
    MailboxInv s :=
  ⟨ledger, fun _ => pending, fun _ _ _ => pending, frameId, fun _ _ _ => pending, submitterId⟩

theorem MailboxInv.load {s : Session} {f f' : Frame} {rest : List Frame} {stage : Stage}
    {o : ParserOutcome} (inv : MailboxInv s) (frames : s.frames = f :: rest)
    (waiting : ∀ f' ∈ rest, f'.pc.claims = false) (pc : f.pc = .load stage)
    (orderly : Orderly s (.load o)) (free : f'.pc.claims = false) :
    MailboxInv { s with ledger := s.ledger.load s.buffer, frames := f' :: rest } := by
  have pending := inv.frame f (by simp [frames]) (by simp [pc, Pc.claims])
  have unclaimed : ∀ g ∈ f' :: rest, g.pc.claims = false := by
    intro g hg
    rcases List.mem_cons.mp hg with rfl | hg
    · exact free
    · exact waiting g hg
  refine ⟨inv.ledger.load pending, ?_, ?_, ?_, ?_, inv.submitterId⟩
  · intro execute
    simp [orderly.1] at execute
  · intro g hg claims
    simp [unclaimed g hg] at claims
  · intro g hg startup id hpc
    have := unclaimed g hg
    simp [hpc, Pc.claims] at this
  · intro sub hsub half
    simp [orderly.2 sub hsub] at half

theorem MailboxInv.clear {s : Session} {frames : List Frame} (inv : MailboxInv s)
    (spent : s.ledger.pending = none)
    (quiet : ∀ f ∈ frames, f ∈ s.frames ∨ f.pc.claims = false) :
    MailboxInv { s with buffer := [], ledger := s.ledger.clear, frames } := by
  have slot : s.ledger.clear.pending = s.ledger.pending :=
    congrArg OneSlot.slot (Ledger.mailbox_clear spent)
  refine ⟨inv.ledger.clear spent, ?_, ?_, ?_, ?_, inv.submitterId⟩
  · simpa only [slot] using inv.execute
  · intro f hf claims
    rcases quiet f hf with old | free
    · simpa only [slot] using inv.frame f old claims
    · simp [free] at claims
  · intro f hf stage id pc
    rcases quiet f hf with old | free
    · exact inv.frameId f old stage id pc
    · simp [pc, Pc.claims] at free
  · simpa only [slot] using inv.submitter

theorem MailboxInv.hookStep {s s' : Session} {f : Frame} {rest : List Frame} {a : Action}
    (inv : MailboxInv s) (held : HeldInv s) (nested : s.WellNested)
    (frames : s.frames = f :: rest) (orderly : Orderly s a) (h : HookStep s f rest a s') : MailboxInv s' := by
  have waiting := rest_claims_false nested frames
  have top : f ∈ s.frames := by simp [frames]
  have quiet : ∀ front : List Frame, (∀ g ∈ front, g.pc.claims = false) →
      ∀ g ∈ front ++ rest, g ∈ s.frames ∨ g.pc.claims = false := by
    intro front free g hg
    rcases List.mem_append.mp hg with hg | hg
    · exact Or.inr (free g hg)
    · exact Or.inr (waiting g hg)
  have quietTop : ∀ f' : Frame, f'.pc.claims = false →
      ∀ g ∈ f' :: rest, g ∈ s.frames ∨ g.pc.claims = false := by
    intro f' free
    exact quiet [f'] (by simpa using free)
  have oldId : ∀ f' : Frame, (∀ stage id, f'.pc ≠ .storeExecute stage id) →
      ∀ g ∈ f' :: rest, ∀ stage id, g.pc = .storeExecute stage id →
        id < s.ledger.texts.length := by
    intro f' other g hg stage id pc
    rcases List.mem_cons.mp hg with rfl | hg
    · exact absurd pc (other stage id)
    · exact inv.frameId g (by simp [frames, hg]) stage id pc
  cases h with
  | original slots pc =>
    exact inv.quiet rfl rfl rfl rfl rfl rfl rfl rfl (quietTop _ rfl)
  | enter pc wants =>
    exact inv.quiet rfl rfl rfl rfl rfl rfl rfl rfl (quietTop _ rfl)
  | skip pc wants =>
    exact inv.quiet rfl rfl rfl rfl rfl rfl rfl rfl (quiet _ next_claims_false)
  | storeBuffer pc =>
    refine MailboxInv.of_pending (inv.ledger.store _) (inv.ledger.pending_store _) ?_ ?_
    · intro g hg stage id hpc
      simp only [Ledger.texts_length_store]
      rcases List.mem_cons.mp hg with rfl | hg
      · cases hpc
        omega
      · have := inv.frameId g (by simp [frames, hg]) stage id hpc
        omega
    · intro id hid
      have := inv.submitterId id hid
      simp only [Ledger.texts_length_store]
      omega
  | @storeExecute stage id pc =>
    have pending := inv.frame f top (by simp [pc, Pc.claims])
    have bound := inv.frameId f top stage id pc
    exact MailboxInv.of_pending (inv.ledger.complete bound) pending
      (oldId _ (by simp)) inv.submitterId
  | testTrue pc execute =>
    exact MailboxInv.of_pending inv.ledger (inv.execute execute) (oldId _ (by simp))
      inv.submitterId
  | testFalse pc execute =>
    exact inv.quiet rfl rfl rfl rfl rfl rfl rfl rfl (quiet _ next_claims_false)
  | clearExecute pc =>
    have pending := inv.frame f top (by simp [pc, Pc.claims])
    exact MailboxInv.of_pending inv.ledger pending (oldId _ (by simp)) inv.submitterId
  | loadOk pc status => exact inv.load frames waiting pc orderly rfl
  | loadError pc error result => exact inv.load frames waiting pc orderly rfl
  | call pc htop =>
    exact inv.quiet rfl rfl rfl rfl rfl rfl rfl rfl (quietTop _ rfl)
  | finishOk results pc =>
    exact inv.quiet rfl rfl rfl rfl rfl rfl rfl rfl (quietTop _ rfl)
  | finishError e obj pc =>
    exact inv.quiet rfl rfl rfl rfl rfl rfl rfl rfl (quietTop _ rfl)
  | clearRan pc => exact inv.clear (held.clearBuffer frames pc) (quietTop _ rfl)
  | clearDone pc plain =>
    exact inv.clear (held.clearBuffer frames pc) (quiet _ next_claims_false)
  | @setFlag stage text pc =>
    cases stage <;>
      exact inv.quiet rfl rfl rfl rfl rfl rfl rfl rfl (quiet _ next_claims_false)

theorem MailboxInv.ready {s : Session} (inv : MailboxInv s) (thread : Nat) (text : Bytes) :
    MailboxInv { s with submitters := s.submitters.set thread (.ready text) } := by
  refine ⟨inv.ledger, inv.execute, inv.frame, inv.frameId, ?_, ?_⟩
  · intro sub hsub half
    rcases List.mem_or_eq_of_mem_set hsub with old | rfl
    · exact inv.submitter sub old half
    · simp [Submitter.halfFinished] at half
  · intro id hid
    rcases List.mem_or_eq_of_mem_set hid with old | new
    · exact inv.submitterId id old
    · simp at new

theorem MailboxInv.submitStep {s s' : Session} {thread : Nat} {a : Action} (inv : MailboxInv s)
    (h : SubmitStep s thread a s') : MailboxInv s' := by
  cases h with
  | readLine text idle => exact inv.ready thread text
  | ignored idle execute => exact inv
  | pressed idle execute => exact inv.ready thread toggleMenuChunk
  | storeBuffer ready =>
    refine MailboxInv.of_pending (inv.ledger.store _) (inv.ledger.pending_store _) ?_ ?_
    · intro f hf stage id pc
      have := inv.frameId f hf stage id pc
      simp only [Ledger.texts_length_store]
      omega
    · intro id hid
      simp only [Ledger.texts_length_store]
      rcases List.mem_or_eq_of_mem_set hid with old | new
      · have := inv.submitterId id old
        omega
      · cases new
        omega
  | @storeExecute id stored =>
    have member := List.mem_of_getElem? stored
    have pending := inv.submitter _ member rfl
    have bound := inv.submitterId id member
    refine MailboxInv.of_pending (inv.ledger.complete bound) pending inv.frameId ?_
    intro id' hid
    rcases List.mem_or_eq_of_mem_set hid with old | new
    · exact inv.submitterId id' old
    · simp at new

theorem mailboxInv_step {s s' : Session} {a : Action} (inv : MailboxInv s) (held : HeldInv s)
    (nested : s.WellNested) (orderly : Orderly s a) (h : step s a = some s') : MailboxInv s' := by
  cases step_sound h with
  | intercepted game live =>
    refine inv.quiet rfl rfl rfl rfl rfl rfl rfl rfl ?_
    intro f hf
    rcases List.mem_cons.mp hf with rfl | hf
    · exact Or.inr rfl
    · exact Or.inl hf
  | bypassed => exact inv
  | hook frames inner => exact inv.hookStep held nested frames orderly inner
  | submit inner => exact inv.submitStep inner
  | installPcall => exact inv.quiet rfl rfl rfl rfl rfl rfl rfl rfl fun f hf => Or.inl hf
  | installParser => exact inv.quiet rfl rfl rfl rfl rfl rfl rfl rfl fun f hf => Or.inl hf

structure OrderlyInv (s : Session) : Prop where
  nested : s.WellNested
  mailbox : MailboxInv s
  held : HeldInv s

theorem orderlyInv_step {s s' : Session} {a : Action} (inv : OrderlyInv s)
    (orderly : Orderly s a) (h : step s a = some s') : OrderlyInv s' :=
  ⟨step_wellNested inv.nested h, mailboxInv_step inv.mailbox inv.held inv.nested orderly h,
    heldInv_step inv.held inv.nested orderly h⟩

theorem mailboxInv_start (hooks : Hooks) (configMenuEnable gameRunningHookComplete : Bool)
    (submitters : Nat) :
    MailboxInv (Session.start hooks configMenuEnable gameRunningHookComplete submitters) := by
  refine ⟨⟨?_, by simp [Session.start, Ledger.empty], by simp [Session.start, Ledger.empty],
    by simp [Session.start, Ledger.empty]⟩, by simp [Session.start], by simp [Session.start],
    by simp [Session.start], ?_, by simp [Session.start]⟩
  · exact OneSlot.law_empty
  · intro sub hsub half
    have idle : sub = .idle := (List.mem_replicate.mp hsub).2
    simp [idle, Submitter.halfFinished] at half

theorem orderlyInv_start (hooks : Hooks) (configMenuEnable gameRunningHookComplete : Bool)
    (submitters : Nat) :
    OrderlyInv (Session.start hooks configMenuEnable gameRunningHookComplete submitters) :=
  ⟨start_wellNested _ _ _ _, mailboxInv_start _ _ _ _, heldInv_start _ _ _ _⟩

theorem mailbox_step_refines {s s' : Session} {a : Action} (inv : MailboxInv s)
    (held : HeldInv s) (h : step s a = some s') :
    Relation.ReflTransGen OneSlot.Move s.ledger.mailbox s'.ledger.mailbox := by
  have stored : ∀ text, Relation.ReflTransGen OneSlot.Move s.ledger.mailbox
      (s.ledger.store text).mailbox := by
    intro text
    rw [Ledger.mailbox_store inv.ledger.law]
    exact .single (.post _ text)
  have loaded : ∀ f rest stage, s.frames = f :: rest → f.pc = .load stage →
      Relation.ReflTransGen OneSlot.Move s.ledger.mailbox (s.ledger.load s.buffer).mailbox := by
    intro f rest stage frames pc
    have pending := inv.frame f (by simp [frames]) (by simp [pc, Pc.claims])
    obtain ⟨i, hi⟩ := Option.isSome_iff_exists.mp pending
    rw [Ledger.mailbox_load hi]
    exact .single (.take hi)
  cases step_sound h with
  | intercepted => exact .refl
  | bypassed => exact .refl
  | hook frames inner =>
    cases inner with
    | storeBuffer pc => exact stored _
    | loadOk pc status => exact loaded _ _ _ frames pc
    | loadError pc error result => exact loaded _ _ _ frames pc
    | clearRan pc =>
      simpa only [Ledger.mailbox_clear (held.clearBuffer frames pc)] using .refl
    | clearDone pc plain =>
      simpa only [Ledger.mailbox_clear (held.clearBuffer frames pc)] using .refl
    | _ => exact .refl
  | submit inner =>
    cases inner with
    | storeBuffer ready => exact stored _
    | _ => exact .refl
  | installPcall => exact .refl
  | installParser => exact .refl

/-- An orderly run of the session is a run of the one-slot mailbox. -/
theorem orderly_run_refines_mailbox {configMenuEnable gameRunningHookComplete : Bool}
    {submitters : Nat} {acts : List Action} {s : Session}
    (orderly : Trace.Obeys step Orderly
      (Session.start ⟨true, true⟩ configMenuEnable gameRunningHookComplete submitters) acts)
    (run : Trace.exec step
      (Session.start ⟨true, true⟩ configMenuEnable gameRunningHookComplete submitters) acts = some s) :
    Relation.ReflTransGen OneSlot.Move ⟨[], none, [], []⟩ s.ledger.mailbox :=
  Trace.exec_refines (fun _ _ _ inv orderly h => orderlyInv_step inv orderly h)
    (fun _ _ _ inv _ h => mailbox_step_refines inv.mailbox inv.held h)
    (orderlyInv_start _ _ _ _) orderly run

/-- In every orderly run, whatever its interleaving and nesting, the commands obey the law
of the mailbox. -/
theorem orderly_run_mailboxLaw {configMenuEnable gameRunningHookComplete : Bool}
    {submitters : Nat} {acts : List Action} {s : Session}
    (orderly : Trace.Obeys step Orderly
      (Session.start ⟨true, true⟩ configMenuEnable gameRunningHookComplete submitters) acts)
    (run : Trace.exec step
      (Session.start ⟨true, true⟩ configMenuEnable gameRunningHookComplete submitters) acts = some s) :
    MailboxLaw s.ledger := by
  have inv := Trace.exec_preserves (fun _ _ _ inv orderly h => orderlyInv_step inv orderly h)
    (orderlyInv_start _ _ _ _) orderly run
  exact inv.mailbox.ledger.mailboxLaw

/-- A hook call inside a running chunk, which finds the game running and loads the custom
scripts; the console line typed meanwhile is stored when the chunk is done. -/
def twoLines : List Action :=
  submitLine (bytes "print(1)") ++ callChunk 1 ++
    (enterHook ++ [.guard false] ++ stageUntilRun [] ++ stageAfterRun ++ [.testExecute]) ++
    [.readLine 0 (bytes "print(2)"), .finish (.ok []), .clearBuffer] ++
    [.submitBuffer 0, .submitExecute 0] ++ callChunk 2 ++ [.finish (.ok []), .clearBuffer]

theorem orderly_run_mailboxLaw_two_lines :
    ∃ s, Trace.exec step (Session.start ⟨true, true⟩ false false 1) twoLines = some s ∧
      s.ledger.loadedIds = [2, 1, 0] ∧ MailboxLaw s.ledger :=
  ⟨_, rfl, by decide, @orderly_run_mailboxLaw false false 1 twoLines _ (by decide) rfl⟩

/-- A second command completes while the first one runs. The end of the first run clears
it, and the next hook call loads an empty text in its place. -/
def lateCommand : List Action :=
  submitLine (bytes "print(1)") ++ callChunk 1 ++ submitLine (bytes "print(2)") ++
    [.finish (.ok []), .clearBuffer] ++ callChunk 2

theorem late_command_breaks_mailboxLaw :
    ∃ s, Trace.exec step (Session.start ⟨true, true⟩ false true 1) lateCommand = some s ∧
      ¬ MailboxLaw s.ledger := by
  refine ⟨_, rfl, ?_⟩
  intro law
  have empty := law.submitted (none, []) (by decide)
  revert empty
  decide

end DriverSF
