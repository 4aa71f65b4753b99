import Mathlib.Data.Int.Order.Basic
import DriverSF.Overlay
import DriverSF.SharedLock
import DriverSF.SortedMap

namespace DriverSF

open FloatText (Library)
open SharedLock (Sections Move Ends Replay ReadSteps ReadsAlone WritesAlone)

variable {D F : Type}

/-- A call of one of the `Development` functions that hold `dev_text_mutex` alone. -/
inductive TextCall where
  | startBatch
  | removeBatch
  | clearScreen
  | eraseText (args : List Value)
  | add2dText (args : List Value)

abbrev TextMap (F : Type) := SortedMap Int (DevText F)

/-- The members that the assignment of a `dev_text` copies, one after the other. -/
inductive TextMember where
  | text | position | colour | scale

def TextMember.copy (source target : DevText F) : TextMember → DevText F
  | .text => { target with text := source.text }
  | .position => { target with position := source.position }
  | .colour => { target with colour := source.colour }
  | .scale => { target with scale := source.scale }

/-- How far a call has come under the lock. -/
inductive TextWrite (F : Type) where
  | entered (call : TextCall)
  | clearing
  | erasing (index : Int)
  | inserting (index : Int) (text : DevText F)
  | assigning (index : Int) (text : DevText F) (members : List TextMember)
  | leaving

/-- An exception leaves the function, and so ends its section. -/
def failed {α : Type} : DevFault → Move α
  | .exception _ => .done
  | .nullDereference => .crash
  | .invalidRead => .crash

section Write

variable (number2str : LuaNumber → Bytes) (m : Memory F) (lib : Library F)

def TextCall.run : TextCall → DevState F → DevOutcome × DevState F
  | .startBatch => developmentStartBatch
  | .removeBatch => developmentRemoveBatchOverride
  | .clearScreen => developmentClearScreenOverride
  | .eraseText args => developmentEraseTextOverride number2str args
  | .add2dText args => developmentAdd2dTextOverride number2str m lib args

def runTextCalls (calls : List TextCall) (st : DevState F) : DevState F :=
  calls.foldl (fun st call => (call.run number2str m lib st).2) st

/-- What a call does with its arguments, under the lock. -/
def enterText : TextCall → Move (TextWrite F)
  | .startBatch | .removeBatch | .clearScreen => .next .clearing
  | .eraseText args =>
    match argIndex number2str args with
    | .error f => failed f
    | .ok index => .next (.erasing index)
  | .add2dText args =>
    if args.length ≠ 7 then .done
    else if argType args 3 ≠ .number ∧ argType args 3 ≠ .string then .done
    else
      match argIndex number2str args with
      | .error f => failed f
      | .ok index =>
        match argText number2str m lib args with
        | .error f => failed f
        | .ok text => .next (.inserting index text)

/-- A step of a call that changes `dev_texts`. -/
def writeText [Inhabited F] : TextWrite F → TextMap F → Move (TextWrite F × TextMap F)
  | .entered call, texts =>
    match enterText number2str m lib call with
    | .next w => .next (w, texts)
    | .done => .done
    | .crash => .crash
  | .clearing, texts =>
    if texts.entries = [] then .done else .next (.clearing, texts.eraseFirst)
  | .erasing index, texts => .next (.leaving, texts.erase index)
  | .inserting index text, texts =>
    .next (.assigning index text [.text, .position, .colour, .scale],
      if (texts.find index).isSome then texts else texts.insert index default)
  | .assigning index text (member :: members), texts =>
    match texts.find index with
    | some target =>
      .next (.assigning index text members, texts.insert index (member.copy text target))
    | none => .crash
  | .assigning _ _ [], _ => .done
  | .leaving, _ => .done

end Write

/-- A call of `present_hook` on its device, from the size of the window on. -/
structure PresentCall (D : Type) where
  o : Overlay D
  buffer : BackBuffer

/-- How far the loop over the texts has come: the key of the last text, and the calls made. -/
structure TextRead (D F : Type) where
  o : Overlay D
  size : Nat × Nat
  inLoop : Bool
  last : Option Int
  draws : List (DrawCall F)

def readText (r : TextRead D F) (texts : TextMap F) : Move (TextRead D F) :=
  if r.inLoop then
    match texts.after r.last with
    | none => .done
    | some (index, text) =>
      let call : DrawCall F := ⟨r.o.pFont, r.o.pSprite, text, r.size.1, r.size.2⟩
      match drawMessage r.o call with
      | none => .crash
      | some _ => .next { r with last := some index, draws := r.draws ++ [call] }
  else if texts.entries = [] then .done
  else .next { r with inLoop := true }

/-- The sections under `dev_text_mutex`. -/
def textSections [Inhabited F] (number2str : LuaNumber → Bytes) (m : Memory F)
    (lib : Library F) :
    Sections (PresentCall D) TextCall (TextRead D F) (TextWrite F) (TextMap F) where
  beginRead p := ⟨p.o, p.buffer.size, false, none, []⟩
  read := readText
  beginWrite call := .entered call
  write := writeText number2str m lib

section Frames

theorem drawTexts_append (o : Overlay D) (size : Nat × Nat) {front : List (Int × DevText F)}
    (done : (drawTexts o size front).2 = true) (back : List (Int × DevText F)) :
    drawTexts o size (front ++ back) =
      ((drawTexts o size front).1 ++ (drawTexts o size back).1, (drawTexts o size back).2) := by
  induction front with
  | nil => rfl
  | cons e front ih =>
    obtain ⟨_, text⟩ := e
    rw [List.cons_append]
    simp only [drawTexts] at done ⊢
    split at done
    next => cases done
    next drawn =>
      rw [ih done]
      rfl

/-- The reader has drawn the texts of a front of the map. -/
structure TextRead.Drawn (p : PresentCall D) (texts : TextMap F) (r : TextRead D F) : Prop where
  o : r.o = p.o
  size : r.size = p.buffer.size
  front : ∃ front back, texts.entries = front ++ back ∧ r.last = front.getLast?.map Prod.fst ∧
    drawTexts p.o p.buffer.size front = (r.draws, true) ∧ (r.inLoop = false → front = [])

theorem drawn_step {p : PresentCall D} {texts : TextMap F} {r r' : TextRead D F}
    (h : r.Drawn p texts) (step : readText r texts = .next r') : r'.Drawn p texts := by
  obtain ⟨o, size, front, back, split, last, drawn, start⟩ := h
  unfold readText at step
  split at step
  next inLoop =>
    rw [last, texts.after_of_split split] at step
    cases back with
    | nil => cases step
    | cons e back =>
      obtain ⟨index, text⟩ := e
      simp only [List.head?_cons] at step
      split at step
      next => cases step
      next ok =>
        cases Move.next.inj step
        refine ⟨o, size, front ++ [(index, text)], back, ?_, ?_, ?_, ?_⟩
        · rw [split, List.append_assoc]
          rfl
        · rw [List.getLast?_concat]
          rfl
        · rw [drawTexts_append p.o p.buffer.size (by rw [drawn]), drawn]
          rw [o, size] at ok
          simp only [drawTexts, ok, o, size]
        · intro outside
          rw [inLoop] at outside
          cases outside
  next =>
    split at step
    next => cases step
    next =>
      cases Move.next.inj step
      exact ⟨o, size, front, back, split, last, drawn, fun h => Bool.noConfusion h⟩

theorem drawn_steps [Inhabited F] {number2str : LuaNumber → Bytes} {m : Memory F}
    {lib : Library F} {p : PresentCall D} {texts : TextMap F}
    {r r' : TextRead D F} (h : r.Drawn p texts)
    (steps : ReadSteps (textSections number2str m lib) texts r r') : r'.Drawn p texts := by
  induction steps with
  | refl => exact h
  | tail _ last ih => exact drawn_step ih last

/-- A call of `present_hook` that is alone with the texts draws all of them. -/
theorem drawn_alone [Inhabited F] {number2str : LuaNumber → Bytes} {m : Memory F}
    {lib : Library F} {p : PresentCall D} {texts : TextMap F}
    {r : TextRead D F} (h : ReadsAlone (textSections number2str m lib) texts p r) :
    drawTexts p.o p.buffer.size texts.entries = (r.draws, true) := by
  obtain ⟨steps, done⟩ := h
  obtain ⟨_, _, front, back, split, last, drawn, start⟩ :=
    drawn_steps ⟨rfl, rfl, [], texts.entries, rfl, rfl, rfl, fun _ => rfl⟩ steps
  have none_left : back = [] := by
    replace done : readText r texts = .done := done
    unfold readText at done
    split at done
    next =>
      rw [last, texts.after_of_split split] at done
      cases back with
      | nil => rfl
      | cons e back =>
        simp only [List.head?_cons] at done
        split at done <;> cases done
    next outside =>
      split at done
      next empty =>
        rw [split] at empty
        exact (List.append_eq_nil_iff.mp empty).2
      next => cases done
  rw [split, none_left, List.append_nil]
  exact drawn

end Frames

section Calls

variable [Inhabited F] {number2str : LuaNumber → Bytes} {m : Memory F}
  {lib : Library F} {texts texts' : TextMap F}

theorem ends_leaving (h : Ends (textSections (D := D) number2str m lib) (.leaving, texts) texts') :
    texts' = texts := h.of_done rfl

theorem ends_clearing
    (h : Ends (textSections (D := D) number2str m lib) (.clearing, texts) texts') :
    texts'.entries = [] := by
  obtain ⟨n, size⟩ : ∃ n, texts.entries.length = n := ⟨_, rfl⟩
  induction n generalizing texts with
  | zero =>
    have empty := List.length_eq_zero_iff.mp size
    rw [h.of_done (if_pos empty)]
    exact empty
  | succ n ih =>
    have some_left : texts.entries ≠ [] := by
      intro empty
      rw [empty] at size
      cases size
    refine ih (h.of_next (if_neg some_left)) ?_
    show texts.entries.tail.length = n
    rw [List.length_tail, size]
    rfl

/-- The rest of an assignment replaces just the text that is there. -/
theorem ends_assigning {index : Int} {text target : DevText F} {members : List TextMember}
    (h : Ends (textSections (D := D) number2str m lib) (.assigning index text members, texts)
      texts') (there : texts.find index = some target) (k : Int) :
    texts'.find k =
      if k = index then some (members.foldl (TextMember.copy text) target) else texts.find k := by
  induction members generalizing texts target with
  | nil =>
    rw [h.of_done rfl]
    split
    next same => rw [same, there, List.foldl_nil]
    next => rfl
  | cons member members ih =>
    have next : (textSections (D := D) number2str m lib).write
        (.assigning index text (member :: members)) texts =
        .next (.assigning index text members,
          texts.insert index (member.copy text target)) := by
      simp only [textSections, writeText, there]
    have placed : (texts.insert index (member.copy text target)).find index =
        some (member.copy text target) := by
      rw [SortedMap.find_insert, if_pos rfl]
    rw [ih (h.of_next next) placed, SortedMap.find_insert, List.foldl_cons]
    split
    next => rfl
    next => rfl

theorem ends_inserting {index : Int} {text : DevText F}
    (h : Ends (textSections (D := D) number2str m lib) (.inserting index text, texts) texts')
    (k : Int) : texts'.find k = if k = index then some text else texts.find k := by
  have later := h.of_next rfl
  obtain ⟨target, there, others⟩ : ∃ target,
      (if (texts.find index).isSome then texts else texts.insert index default).find index =
        some target ∧
      ∀ k, k ≠ index → (if (texts.find index).isSome then texts
        else texts.insert index default).find k = texts.find k := by
    split
    next some_text =>
      obtain ⟨target, there⟩ := Option.isSome_iff_exists.mp some_text
      exact ⟨target, there, fun _ _ => rfl⟩
    next =>
      refine ⟨default, by rw [SortedMap.find_insert, if_pos rfl], fun k other => ?_⟩
      rw [SortedMap.find_insert, if_neg other]
  have assigned := ends_assigning later there k
  -- the members together are the whole text
  have copied : [TextMember.text, .position, .colour, .scale].foldl (TextMember.copy text) target =
      text := rfl
  rw [copied] at assigned
  rw [assigned]
  split
  next => rfl
  next other => exact others k other

/-- A call that is alone ends at once or goes on behind its arguments. -/
theorem ends_entered {call : TextCall}
    (h : WritesAlone (textSections (D := D) number2str m lib) call texts texts') :
    enterText number2str m lib call = .done ∧ texts' = texts ∨
      ∃ w, enterText number2str m lib call = .next w ∧
        Ends (textSections (D := D) number2str m lib) (w, texts) texts' := by
  cases enter : enterText number2str m lib call with
  | done =>
    exact Or.inl ⟨rfl, h.of_done (by simp only [textSections, writeText, enter])⟩
  | next w =>
    exact Or.inr ⟨w, rfl, h.of_next (by simp only [textSections, writeText, enter])⟩
  | crash => exact absurd (by simp only [textSections, writeText, enter]) h.not_crash

theorem writes_clear {call : TextCall}
    (enter : enterText number2str m lib call = .next .clearing)
    (h : WritesAlone (textSections (D := D) number2str m lib) call texts texts') (k : Int) :
    texts'.find k = none := by
  rcases ends_entered h with ⟨done, _⟩ | ⟨w, next, later⟩
  · rw [enter] at done
    cases done
  · obtain rfl := Move.next.inj (enter.symm.trans next)
    rw [SortedMap.find, ends_clearing later]
    rfl

theorem writes_failed {call : TextCall} {f : DevFault}
    (enter : enterText number2str m lib call = failed f)
    (h : WritesAlone (textSections (D := D) number2str m lib) call texts texts') :
    texts' = texts := by
  rcases ends_entered h with ⟨_, same⟩ | ⟨w, next, _⟩
  · exact same
  · rw [enter] at next
    cases f <;> cases next

omit [Inhabited F] in
theorem enter_unchecked (number2str : LuaNumber → Bytes) (m : Memory F)
    (lib : Library F) {args : List Value} (h : ¬ Add2dChecked args) :
    enterText number2str m lib (.add2dText args) = .done := by
  simp only [enterText]
  split
  next => rfl
  next count =>
    refine if_pos ?_
    by_contra printable
    refine h ⟨not_not.mp count, ?_⟩
    by_contra neither
    exact printable (not_or.mp neither)

omit [Inhabited F] in
theorem update_agree {st : DevState F} (agree : ∀ k, st.devTexts k = texts.find k) (index : Int)
    (entry : Option (DevText F)) (k : Int) :
    Function.update st.devTexts index entry k = if k = index then entry else texts.find k := by
  rw [Function.update_apply, agree k]

/-- A call that is alone leaves the texts that its function leaves. -/
theorem writes_run {call : TextCall} {st : DevState F}
    (h : WritesAlone (textSections (D := D) number2str m lib) call texts texts')
    (agree : ∀ k, st.devTexts k = texts.find k) (k : Int) :
    (call.run number2str m lib st).2.devTexts k = texts'.find k := by
  cases call with
  | startBatch => exact (writes_clear rfl h k).symm
  | removeBatch => exact (writes_clear rfl h k).symm
  | clearScreen => exact (writes_clear rfl h k).symm
  | eraseText args =>
    cases hi : argIndex number2str args with
    | error f =>
      have enter : enterText number2str m lib (.eraseText args) = failed f := by
        simp only [enterText, hi]
      rw [writes_failed enter h, TextCall.run, (eraseText_error hi).2]
      exact agree k
    | ok index =>
      have enter : enterText number2str m lib (.eraseText args) = .next (.erasing index) := by
        simp only [enterText, hi]
      rcases ends_entered h with ⟨done, _⟩ | ⟨w, next, later⟩
      · rw [enter] at done
        cases done
      · obtain rfl := Move.next.inj (enter.symm.trans next)
        rw [ends_leaving (later.of_next rfl), TextCall.run, eraseText_ok hi]
        exact (update_agree agree index none k).trans (SortedMap.find_erase texts index k).symm
  | add2dText args =>
    by_cases checked : Add2dChecked args
    · have count : ¬ (args.length ≠ 7) := not_not_intro checked.1
      have printable : ¬ (argType args 3 ≠ .number ∧ argType args 3 ≠ .string) :=
        fun other => checked.2.elim other.1 other.2
      cases hi : argIndex number2str args with
      | error f =>
        have enter : enterText number2str m lib (.add2dText args) = failed f := by
          simp only [enterText, if_neg count, if_neg printable, hi]
        rw [writes_failed enter h, TextCall.run, (add2dText_index_error checked hi).2]
        exact agree k
      | ok index =>
        cases ht : argText number2str m lib args with
        | error f =>
          have enter : enterText number2str m lib (.add2dText args) = failed f := by
            simp only [enterText, if_neg count, if_neg printable, hi, ht]
          rw [writes_failed enter h, TextCall.run, (add2dText_text_error checked hi ht).2]
          exact agree k
        | ok text =>
          have enter : enterText number2str m lib (.add2dText args) =
              .next (.inserting index text) := by
            simp only [enterText, if_neg count, if_neg printable, hi, ht]
          rcases ends_entered h with ⟨done, _⟩ | ⟨w, next, later⟩
          · rw [enter] at done
            cases done
          · obtain rfl := Move.next.inj (enter.symm.trans next)
            rw [ends_inserting later, TextCall.run, add2dText_ok checked hi ht]
            exact update_agree agree index (some text) k
    · have enter := enter_unchecked number2str m lib checked
      obtain ⟨console, unchecked⟩ : ∃ console,
          developmentAdd2dTextOverride number2str m lib args st =
            (.returned 0, { st with devTextMutex := false, console }) :=
        add2dText_unchecked checked
      rcases ends_entered h with ⟨_, rfl⟩ | ⟨w, next, _⟩
      · rw [TextCall.run, unchecked]
        exact agree k
      · rw [enter] at next
        cases next

/-- Calls that follow one another leave the texts that their functions leave. -/
theorem replay_run {calls : List TextCall} {st : DevState F}
    (h : Replay (textSections (D := D) number2str m lib) texts calls texts')
    (agree : ∀ k, st.devTexts k = texts.find k) (k : Int) :
    (runTextCalls number2str m lib calls st).devTexts k = texts'.find k := by
  induction h generalizing k with
  | nil => exact agree k
  | snoc front last ih =>
    rw [runTextCalls, List.foldl_append]
    exact writes_run last ih k

end Calls

/-- Whatever the threads do, each frame shows the texts of the calls that had ended when it got the
lock, as a whole and in the order of their keys; later frames have seen all that earlier ones
have; and no section leaves the lock behind. -/
theorem present_draws_snapshot [Inhabited F] (number2str : LuaNumber → Bytes) (m : Memory F)
    (lib : Library F) (empty : DevState F)
    (none_yet : ∀ k, empty.devTexts k = none) {n : Nat}
    {acts : List (SharedLock.Action (PresentCall D) TextCall)}
    {s : SharedLock.State (PresentCall D) TextCall (TextRead D F) (TextWrite F) (TextMap F)}
    [DecidableEq D]
    (run : Trace.exec (SharedLock.step (textSections number2str m lib))
      (SharedLock.start n SortedMap.empty) acts = some s) :
    (∀ e ∈ s.seen, e.before <+: s.written ∧ ∃ texts : TextMap F,
      (∀ k, texts.find k = (runTextCalls number2str m lib e.before empty).devTexts k) ∧
      ∀ original pDevice, some pDevice = e.request.o.pMyDevice →
        presentHook e.request.buffer texts.entries original pDevice e.request.o =
          ⟨e.last.draws, some (hookCall e.request.o.oPresent (original, ()) ()).1⟩) ∧
    s.seen.Pairwise (fun e e' => e.before <+: e'.before) ∧
    ((∀ t ∈ s.threads, t = .outside) → s.exclusive = false ∧ s.shared = 0 ∧
      ∀ k, s.data.find k = (runTextCalls number2str m lib s.written empty).devTexts k) := by
  have inv := SharedLock.inv_run run
  refine ⟨?_, inv.order, ?_⟩
  · intro e he
    obtain ⟨front, texts, replay, alone⟩ := inv.seen e he
    refine ⟨front, texts, fun k => (replay_run replay none_yet k).symm, ?_⟩
    intro original pDevice device
    rw [presentHook, if_pos device, drawn_alone alone]
    rfl
  · intro outside
    obtain ⟨free, unshared⟩ := inv.unlocked outside
    obtain ⟨texts, replay, data, _⟩ := inv.alone
    refine ⟨free, unshared, fun k => ?_⟩
    rw [data free]
    exact (replay_run replay none_yet k).symm

def readyOverlay : Overlay Unit where
  oEndScene := true
  oPresent := true
  firstCall := false
  pFont := some 0
  pSprite := some 1
  pMyDevice := some ()
  objects := Objects.create (Objects.create [] ⟨.font, ()⟩) ⟨.sprite, ()⟩

def helloArguments : List Value :=
  [.table 0, .string (bytes "7"), .string (bytes "Hello"), .userdata 0, .userdata 1,
    .number (.int 1), .number (.int (-1))]

/-- A frame waits for a text, and two frames are drawn at a time. -/
def textTurns : List (SharedLock.Action (PresentCall Unit) TextCall) :=
  .lock 0 (.add2dText helloArguments) :: List.replicate 7 (.advance 0) ++
    [.lockShared 1 ⟨readyOverlay, ⟨0, some (0, 640, 480)⟩⟩,
      .lockShared 0 ⟨readyOverlay, ⟨0, some (0, 640, 480)⟩⟩, .advance 1, .advance 0, .advance 1,
      .advance 1, .advance 0, .advance 0]

theorem present_draws_snapshot_hello : ∃ s,
    Trace.exec (SharedLock.step (textSections (fun _ => bytes "1") plainMemory plainFloats))
      (SharedLock.start 2 SortedMap.empty) textTurns = some s ∧ s.seen.length = 2 ∧
    (∀ e ∈ s.seen, e.before <+: s.written ∧ ∃ texts : TextMap Unit,
      (∀ k, texts.find k = (runTextCalls (fun _ => bytes "1") plainMemory plainFloats
        e.before ⟨fun _ => none, false, ⟨false, []⟩⟩).devTexts k) ∧
      ∀ original pDevice, some pDevice = e.request.o.pMyDevice →
        presentHook e.request.buffer texts.entries original pDevice e.request.o =
          ⟨e.last.draws, some (hookCall e.request.o.oPresent (original, ()) ()).1⟩) ∧
    s.seen.Pairwise (fun e e' => e.before <+: e'.before) ∧
    ((∀ t ∈ s.threads, t = .outside) → s.exclusive = false ∧ s.shared = 0 ∧
      ∀ k, s.data.find k = (runTextCalls (fun _ => bytes "1") plainMemory plainFloats
        s.written ⟨fun _ => none, false, ⟨false, []⟩⟩).devTexts k) := by
  obtain ⟨s, run, two⟩ : ∃ s,
      Trace.exec (SharedLock.step (textSections (fun _ => bytes "1") plainMemory plainFloats))
        (SharedLock.start 2 SortedMap.empty) textTurns = some s ∧ s.seen.length = 2 := ⟨_, rfl, rfl⟩
  exact ⟨s, run, two, present_draws_snapshot _ _ _ _ (fun _ => rfl) run⟩

end DriverSF
