import DriverSF.Session
import DriverSF.TraceRules

namespace DriverSF

/-- `DIDEVICEOBJECTDATA`. -/
structure DeviceObjectData where
  dwOfs : Nat
  dwData : Nat
  dwTimeStamp : Nat
  dwSequence : Nat
  uAppData : Nat
  deriving DecidableEq, Repr

/-- What `GetDeviceData` leaves: the caller's array, where records of earlier calls are behind
the `numElements` that this call has returned. A null array asks for a flush. -/
structure DeviceData where
  data : Option (List DeviceObjectData)
  numElements : Nat
  room : ∀ array ∈ data, numElements ≤ array.length

def DeviceData.returned (d : DeviceData) : List DeviceObjectData :=
  (d.data.getD []).take d.numElements

def dikRalt : Nat := 0xB8

/-- Right Alt has been pressed. -/
def DeviceObjectData.Press (r : DeviceObjectData) : Prop := r.dwOfs = dikRalt ∧ r.dwData = 0x80

instance (r : DeviceObjectData) : Decidable r.Press :=
  inferInstanceAs (Decidable (r.dwOfs = dikRalt ∧ r.dwData = 0x80))

inductive InputOutcome where
  | nullDereference
  | outOfBounds
  | returned (hr : Int) (d : DeviceData)

/-- A call of the hook: how it ends, the array elements that it reads, and the DLL's variables
after it. -/
structure InputRun where
  outcome : InputOutcome
  reads : List Nat
  vars : Vars

/-- `get_device_data_hook` after the original call, of which it gets `hr` and `d`. -/
def getDeviceDataHook (hr : Int) (d : DeviceData) (vars : Vars) : InputRun :=
  if 0 ≤ hr then
    match d.data with
    | none => ⟨.nullDereference, [], vars⟩
    | some [] => ⟨.outOfBounds, [0], vars⟩
    | some (first :: _) =>
      -- Hardoded to right alt key
      if first.dwOfs = dikRalt then
        if first.dwData = 0x80 ∧ vars.execute = false then
          ⟨.returned hr d, [0], executeLuaBuffer vars toggleMenuChunk⟩
        else ⟨.returned hr d, [0], vars⟩
      else ⟨.returned hr d, [0], vars⟩
  else ⟨.returned hr d, [], vars⟩

/-- The hook passes everything on, reads only what the call has returned, and toggles the menu
if that contains a press and no chunk is pending. -/
structure RightCall (hr : Int) (d : DeviceData) (vars : Vars) : Prop where
  passed : (getDeviceDataHook hr d vars).outcome = .returned hr d
  reads : ∀ i ∈ (getDeviceDataHook hr d vars).reads, i < d.returned.length
  submits : (getDeviceDataHook hr d vars).vars =
    if (∃ r ∈ d.returned, r.Press) ∧ vars.execute = false then
      executeLuaBuffer vars toggleMenuChunk
    else vars

/-- The call has returned a record, and the first one is a press or none of them is, or a chunk
is pending. -/
def FirstDecides (d : DeviceData) (vars : Vars) : Prop :=
  ∃ first rest, d.returned = first :: rest ∧
    (vars.execute = true ∨ first.Press ∨ ∀ r ∈ first :: rest, ¬ r.Press)

theorem getDeviceDataHook_cons {hr : Int} {d : DeviceData} {first : DeviceObjectData}
    {rest : List DeviceObjectData} (succeeded : 0 ≤ hr) (h : d.data = some (first :: rest))
    (vars : Vars) :
    getDeviceDataHook hr d vars = ⟨.returned hr d, [0],
      if first.Press ∧ vars.execute = false then executeLuaBuffer vars toggleMenuChunk
      else vars⟩ := by
  unfold getDeviceDataHook
  rw [if_pos succeeded, h]
  simp only [DeviceObjectData.Press, and_assoc]
  by_cases key : first.dwOfs = dikRalt
  · by_cases down : first.dwData = 0x80 ∧ vars.execute = false
    · rw [if_pos key, if_pos down, if_pos ⟨key, down⟩]
    · rw [if_pos key, if_neg down, if_neg (fun press => down press.2)]
  · rw [if_neg key, if_neg (fun press => key press.1)]

/-- A returned record is in the array. -/
theorem DeviceData.data_of_returned {d : DeviceData} {first : DeviceObjectData}
    {rest : List DeviceObjectData} (h : d.returned = first :: rest) :
    ∃ behind, d.data = some (first :: behind) := by
  unfold returned at h
  cases array : d.data with
  | none => simp [array] at h
  | some records =>
    cases records with
    | nil => simp [array] at h
    | cons record behind =>
      rw [array, Option.getD_some] at h
      cases count : d.numElements with
      | zero => simp [count] at h
      | succ n =>
        rw [count, List.take_succ_cons] at h
        obtain ⟨rfl, _⟩ := List.cons.inj h
        exact ⟨behind, rfl⟩

theorem executeLuaBuffer_ne {vars : Vars} (idle : vars.execute = false) (chunk : Bytes) :
    executeLuaBuffer vars chunk ≠ vars := by
  intro same
  have flag := congrArg Vars.execute same
  rw [idle] at flag
  simp [executeLuaBuffer] at flag

/-- Without a returned record the hook reads one all the same. -/
theorem returned_ne_nil {hr : Int} {d : DeviceData} {vars : Vars} (succeeded : 0 ≤ hr)
    (right : RightCall hr d vars) : d.returned ≠ [] := by
  intro nothing
  have passed := right.passed
  have reads := right.reads
  rw [nothing] at reads
  cases array : d.data with
  | none => simp [getDeviceDataHook, succeeded, array] at passed
  | some records =>
    cases records with
    | nil => simp [getDeviceDataHook, succeeded, array] at passed
    | cons record behind =>
      rw [getDeviceDataHook_cons succeeded array] at reads
      exact absurd (reads 0 (by simp)) (by simp)

theorem rightCall_iff {hr : Int} (succeeded : 0 ≤ hr) (d : DeviceData) (vars : Vars) :
    RightCall hr d vars ↔ FirstDecides d vars := by
  constructor
  · intro right
    obtain ⟨first, rest, got⟩ := List.exists_cons_of_ne_nil (returned_ne_nil succeeded right)
    obtain ⟨behind, array⟩ := d.data_of_returned got
    have submits := right.submits
    rw [getDeviceDataHook_cons succeeded array, got] at submits
    refine ⟨first, rest, got, ?_⟩
    by_contra undecided
    have idle : vars.execute = false := by simpa using fun pending => undecided (.inl pending)
    have other : ¬ first.Press := fun press => undecided (.inr (.inl press))
    have missed : ∃ r ∈ first :: rest, r.Press := by
      by_contra none
      exact undecided (.inr (.inr fun r hr press => none ⟨r, hr, press⟩))
    rw [if_neg (fun h => other h.1), if_pos ⟨missed, idle⟩] at submits
    exact executeLuaBuffer_ne idle _ submits.symm
  · rintro ⟨first, rest, got, decided⟩
    obtain ⟨behind, array⟩ := d.data_of_returned got
    have same : (first.Press ∧ vars.execute = false) ↔
        ((∃ r ∈ first :: rest, r.Press) ∧ vars.execute = false) := by
      constructor
      · intro ⟨press, idle⟩
        exact ⟨⟨first, List.mem_cons_self, press⟩, idle⟩
      · rintro ⟨⟨r, hr, press⟩, idle⟩
        rcases decided with pending | down | none
        · simp [pending] at idle
        · exact ⟨down, idle⟩
        · exact absurd press (none r hr)
    refine ⟨?_, ?_, ?_⟩
    · rw [getDeviceDataHook_cons succeeded array]
    · rw [getDeviceDataHook_cons succeeded array, got]
      simp
    · rw [getDeviceDataHook_cons succeeded array, got]
      exact if_congr same rfl rfl

/-- The input of the game: what the hook has toggled so far, and the presses that the device has
delivered so far. -/
structure InputState where
  vars : Vars
  toggles : Nat
  presses : Nat

/-- A call of `GetDeviceData`, peeking or not, or what other threads do to the pending chunk. -/
inductive InputEvent where
  | call (hr : Int) (peek : Bool) (d : DeviceData)
  | elsewhere (buffer : Bytes) (execute : Bool)

/-- The presses that a call takes out of the device's buffer. -/
def delivered (hr : Int) (peek : Bool) (d : DeviceData) : Nat :=
  if 0 ≤ hr ∧ peek = false then d.returned.countP fun r => r.Press else 0

def toggled (before after : Vars) : Nat :=
  if before.execute = false ∧ after.execute = true then 1 else 0

/-- The game stops where the hook does not return. -/
def inputStep (s : InputState) : InputEvent → Option InputState
  | .call hr peek d =>
    match getDeviceDataHook hr d s.vars with
    | ⟨.returned _ _, _, vars⟩ =>
      some { vars
             toggles := s.toggles + toggled s.vars vars
             presses := s.presses + delivered hr peek d }
    | _ => none
  | .elsewhere buffer execute => some { s with vars := { s.vars with buffer, execute } }

/-- A guard on the successful calls only. -/
def OnCalls (guard : Int → DeviceData → Vars → Prop) (s : InputState) : InputEvent → Prop
  | .call hr _ d => 0 ≤ hr → guard hr d s.vars
  | .elsewhere _ _ => True

/-- No peeking, at most one press in a call, and no chunk pending at a press. -/
def OnePress (s : InputState) : InputEvent → Prop
  | .call hr peek d => 0 ≤ hr → peek = false ∧ d.returned.countP (fun r => r.Press) ≤ 1 ∧
      ((∃ r ∈ d.returned, r.Press) → s.vars.execute = false)
  | .elsewhere _ _ => True

theorem onCalls_right_iff (s : InputState) (e : InputEvent) :
    OnCalls RightCall s e ↔ OnCalls (fun _ => FirstDecides) s e := by
  cases e with
  | call hr peek d => exact forall_congr' fun succeeded => rightCall_iff succeeded d s.vars
  | elsewhere buffer execute => exact Iff.rfl

theorem passed_of_right {s : InputState} {hr : Int} {peek : Bool} {d : DeviceData}
    (right : OnCalls RightCall s (.call hr peek d)) :
    (getDeviceDataHook hr d s.vars).outcome = .returned hr d := by
  by_cases succeeded : 0 ≤ hr
  · exact (right succeeded).passed
  · rw [getDeviceDataHook, if_neg succeeded]

theorem inputStep_call {s : InputState} {hr : Int} {d : DeviceData}
    (passed : (getDeviceDataHook hr d s.vars).outcome = .returned hr d) (peek : Bool) :
    inputStep s (.call hr peek d) = some
      { vars := (getDeviceDataHook hr d s.vars).vars
        toggles := s.toggles + toggled s.vars (getDeviceDataHook hr d s.vars).vars
        presses := s.presses + delivered hr peek d } := by
  simp only [inputStep]
  generalize getDeviceDataHook hr d s.vars = run at passed ⊢
  obtain ⟨outcome, reads, vars⟩ := run
  cases passed
  rfl

theorem inputStep_possible (s : InputState) (e : InputEvent) (right : OnCalls RightCall s e) :
    ∃ s', inputStep s e = some s' := by
  cases e with
  | call hr peek d => exact ⟨_, inputStep_call (passed_of_right right) peek⟩
  | elsewhere buffer execute => exact ⟨_, rfl⟩

theorem toggled_self (vars : Vars) : toggled vars vars = 0 := by
  simp +contextual [toggled]

/-- A call with one press or none toggles the menu as often as it delivers a press. -/
theorem toggled_eq_delivered {s : InputState} {hr : Int} {peek : Bool} {d : DeviceData}
    (right : OnCalls RightCall s (.call hr peek d)) (one : OnePress s (.call hr peek d)) :
    toggled s.vars (getDeviceDataHook hr d s.vars).vars = delivered hr peek d := by
  by_cases succeeded : 0 ≤ hr
  · obtain ⟨taken, single, idle⟩ := one succeeded
    have count : delivered hr peek d = d.returned.countP fun r => r.Press :=
      if_pos ⟨succeeded, taken⟩
    rw [(right succeeded).submits, count]
    by_cases pressed : ∃ r ∈ d.returned, r.Press
    · obtain ⟨r, member, press⟩ := id pressed
      have some_press : 0 < d.returned.countP fun r => r.Press :=
        List.countP_pos_iff.mpr ⟨r, member, decide_eq_true press⟩
      rw [if_pos ⟨pressed, idle pressed⟩, toggled, if_pos ⟨idle pressed, rfl⟩]
      omega
    · have no_press : d.returned.countP (fun r => r.Press) = 0 := by
        rw [List.countP_eq_zero]
        intro r member press
        exact pressed ⟨r, member, of_decide_eq_true press⟩
      rw [if_neg (fun h => pressed h.1), toggled_self, no_press]
  · have count : delivered hr peek d = 0 := if_neg fun h => succeeded h.1
    rw [getDeviceDataHook, if_neg succeeded, toggled_self, count]

theorem inputStep_counts {s s' : InputState} {e : InputEvent} (right : OnCalls RightCall s e)
    (one : OnePress s e) (h : inputStep s e = some s') :
    s'.toggles + s.presses = s'.presses + s.toggles := by
  cases e with
  | elsewhere buffer execute =>
    cases Option.some.inj h
    exact Nat.add_comm _ _
  | call hr peek d =>
    rw [inputStep_call (passed_of_right right), toggled_eq_delivered right one] at h
    cases Option.some.inj h
    show s.toggles + delivered hr peek d + s.presses = s.presses + delivered hr peek d + s.toggles
    omega

/-- In every run all successful calls are right exactly if the first record decides in each of
them, and then the run goes on to its end and toggles the menu once for each press. -/
theorem rightAlt_iff (s : InputState) (events : List InputEvent) :
    (Trace.Obeys inputStep (OnCalls RightCall) s events ↔
      Trace.Obeys inputStep (OnCalls fun _ => FirstDecides) s events) ∧
    (Trace.Obeys inputStep (OnCalls fun _ => FirstDecides) s events →
      ∃ s', Trace.exec inputStep s events = some s' ∧
        (Trace.Obeys inputStep OnePress s events →
          s'.toggles + s.presses = s'.presses + s.toggles)) := by
  have agree : OnCalls RightCall = OnCalls fun _ => FirstDecides :=
    funext₂ fun s e => propext (onCalls_right_iff s e)
  rw [← agree]
  refine ⟨Iff.rfl, ?_⟩
  intro right
  obtain ⟨s', run⟩ := Trace.exec_of_obeys inputStep_possible right
  refine ⟨s', run, ?_⟩
  intro one
  have counts : ∀ t e t', t.toggles + s.presses = t.presses + s.toggles →
      OnCalls RightCall t e ∧ OnePress t e → inputStep t e = some t' →
      t'.toggles + s.presses = t'.presses + s.toggles := by
    intro t e t' before allowed stepped
    have after := inputStep_counts allowed.1 allowed.2 stepped
    omega
  exact Trace.exec_preserves counts (Nat.add_comm _ _) (right.and one) run

def altPress : DeviceObjectData := ⟨dikRalt, 0x80, 1000, 1, 0⟩

def otherKey : DeviceObjectData := ⟨0x1E, 0x80, 1000, 0, 0⟩

theorem room_some (array : List DeviceObjectData) {n : Nat} (h : n ≤ array.length) :
    ∀ a ∈ some array, n ≤ a.length := by
  intro a ha
  cases Option.some.inj ha
  exact h

theorem room_none (n : Nat) : ∀ a ∈ (none : Option (List DeviceObjectData)), n ≤ a.length := by
  intro a ha
  cases ha

/-- Two presses, each taken up by another thread, and between them a call that fails and one
without a press. -/
def twoPresses : List InputEvent :=
  [.call 0 false ⟨some [altPress], 1, room_some _ (Nat.le_refl 1)⟩, .elsewhere [] false,
    .call (-1) false ⟨none, 0, room_none 0⟩,
    .call 0 false ⟨some [otherKey], 1, room_some _ (Nat.le_refl 1)⟩,
    .call 0 false ⟨some [altPress, otherKey], 2, room_some _ (Nat.le_refl 2)⟩]

theorem rightAlt_iff_twoPresses :
    ∃ s', Trace.exec inputStep ⟨idleVars, 0, 0⟩ twoPresses = some s' ∧
      s'.toggles + 0 = s'.presses + 0 := by
  have first : Trace.Obeys inputStep (OnCalls fun _ => FirstDecides) ⟨idleVars, 0, 0⟩ twoPresses :=
    And.intro (fun _ => ⟨altPress, [], rfl, .inr (.inl (by decide))⟩) <| And.intro trivial <|
      And.intro (fun succeeded => absurd succeeded (by decide)) <|
      And.intro (fun _ => ⟨otherKey, [], rfl, .inr (.inr (by decide))⟩) <|
      And.intro (fun _ => ⟨altPress, [otherKey], rfl, .inr (.inl (by decide))⟩) trivial
  have one : Trace.Obeys inputStep OnePress ⟨idleVars, 0, 0⟩ twoPresses :=
    And.intro (fun _ => ⟨rfl, by decide, fun _ => rfl⟩) <| And.intro trivial <|
      And.intro (fun succeeded => absurd succeeded (by decide)) <|
      And.intro (fun _ => ⟨rfl, by decide, fun _ => rfl⟩) <|
      And.intro (fun _ => ⟨rfl, by decide, fun _ => rfl⟩) trivial
  obtain ⟨s', run, counts⟩ := (rightAlt_iff ⟨idleVars, 0, 0⟩ twoPresses).2 first
  exact ⟨s', run, counts one⟩

/-- An old press in the array is toggled again, a press behind another key is missed, and a
flush with a null array crashes. -/
theorem stale_press_breaks_rightCall :
    (¬ RightCall 0 ⟨some [altPress], 0, room_some _ (Nat.zero_le 1)⟩ idleVars) ∧
    (¬ RightCall 0 ⟨some [otherKey, altPress], 2, room_some _ (Nat.le_refl 2)⟩ idleVars) ∧
    ¬ RightCall 0 ⟨none, 0, room_none 0⟩ idleVars := by
  refine ⟨?_, ?_, ?_⟩
  · intro right
    exact absurd (right.reads 0 (by decide)) (by decide)
  · intro right
    have submits := congrArg Vars.execute right.submits
    revert submits
    decide
  · intro right
    exact absurd right.passed (by simp [getDeviceDataHook])

end DriverSF
