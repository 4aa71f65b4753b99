import Mathlib.Logic.Function.Basic
import DriverSF.Upvalues

namespace DriverSF

open Objects Simulation

variable {V : Type}

/-- Variables as the language has them: a slot of the stack is a variable, which closures may
share. -/
structure Variables (V : Type) where
  cells : List V
  slots : List Nat
  closures : List (Option (List Nat))

def Variables.start : Variables V := ⟨[], [], []⟩

def Variables.captured (t : Variables V) (cl : List Nat) : List Capture → Option (List Nat)
  | [] => some []
  | .getupval b :: captures => do
    let c ← cl[b]?
    let cs ← t.captured cl captures
    return c :: cs
  | .move level :: captures => do
    let c ← t.slots[level]?
    let cs ← t.captured cl captures
    return c :: cs

/-- From here on the slots from a level on are new variables with the same values. -/
def Variables.renew (t : Variables V) (level : Nat) : Variables V :=
  let values := (t.slots.drop level).filterMap fun c => t.cells[c]?
  { t with
    cells := t.cells ++ values
    slots := t.slots.take level ++ List.range' t.cells.length (t.slots.length - level) }

def variableStep (t : Variables V) : UpvalAction V → Option (Option V × Variables V)
  | .push x =>
    some (none, { t with cells := t.cells ++ [x], slots := t.slots ++ [t.cells.length] })
  | .getSlot level => do
    let c ← t.slots[level]?
    let x ← t.cells[c]?
    return (some x, t)
  | .setSlot level x => do
    let c ← t.slots[level]?
    return (none, { t with cells := t.cells.set c x })
  | .closure cl captures => do
    let cells ← match cl with
      | none => some []
      | some cl => closureAt t.closures cl
    let cs ← t.captured cells captures
    return (none, { t with closures := t.closures ++ [some cs] })
  | .getUpval cl j => do
    let cells ← closureAt t.closures cl
    let c ← cells[j]?
    let x ← t.cells[c]?
    return (some x, t)
  | .setUpval cl j x => do
    let cells ← closureAt t.closures cl
    let c ← cells[j]?
    return (none, { t with cells := t.cells.set c x })
  | .close level => some (none, t.renew level)
  | .leave level => some (none, { t with slots := t.slots.take level })
  | .drop cl => some (none, { t with closures := t.closures.set cl none })
  | .collect _ => some (none, t)
  | .sweep _ => some (none, t)

section OpenLevel

variable {upvals : List (Cell (UpVal V))} {id : Nat}

theorem openLevel_eq_some {level : Nat} :
    openLevel upvals id = some level ↔ ∃ dead, live upvals id = some ⟨.slot level, dead⟩ := by
  unfold openLevel
  rcases live upvals id with _ | ⟨v, dead⟩
  · simp
  · cases v <;> simp

theorem openLevel_update_dead (dead : Bool) (p : Nat) :
    openLevel (update upvals p fun uv => { uv with dead := dead }) id = openLevel upvals id := by
  by_cases same : id = p
  · subst same
    unfold openLevel
    rw [live_update_self]
    rcases live upvals id with _ | ⟨v, _⟩
    · rfl
    · cases v <;> rfl
  · unfold openLevel
    rw [live_update_of_ne upvals same]

theorem openLevel_create_self (level : Nat) :
    openLevel (create upvals ⟨.slot level, false⟩) upvals.length = some level :=
  openLevel_eq_some.mpr ⟨false, live_create_self _ _⟩

theorem openLevel_create_of_ne (other : id ≠ upvals.length) (uv : UpVal V) :
    openLevel (create upvals uv) id = openLevel upvals id := by
  unfold openLevel
  rw [live_create_of_ne other]

theorem openLevel_congr {upvals' : List (Cell (UpVal V))}
    (same : live upvals' id = live upvals id) : openLevel upvals' id = openLevel upvals id := by
  unfold openLevel
  rw [same]

theorem lt_of_openLevel {level : Nat} (h : openLevel upvals id = some level) :
    id < upvals.length := by
  obtain ⟨_, found⟩ := openLevel_eq_some.mp h
  exact lt_of_live found

end OpenLevel

/-- The levels go down along the chain. -/
def Descending (upvals : List (Cell (UpVal V))) (chain : List Nat) : Prop :=
  chain.Pairwise fun id id' => ∀ l l', openLevel upvals id = some l →
    openLevel upvals id' = some l' → l' < l

section Chain

variable {upvals : List (Cell (UpVal V))} {chain : List Nat}

/-- The search finds the upvalue of the slot, or the proper place for a new one. -/
theorem findChain_spec (level new : Nat) (sorted : Descending upvals chain)
    (opened : ∀ id ∈ chain, ∃ l, openLevel upvals id = some l) :
    (∃ id ∈ chain, openLevel upvals id = some level ∧
      findChain upvals level new chain = some (id, chain)) ∨
    ∃ front back, chain = front ++ back ∧
      findChain upvals level new chain = some (new, front ++ new :: back) ∧
      (∀ id ∈ front, ∀ l, openLevel upvals id = some l → level < l) ∧
      ∀ id ∈ back, ∀ l, openLevel upvals id = some l → l < level := by
  induction chain with
  | nil => exact Or.inr ⟨[], [], rfl, rfl, fun _ h => (List.not_mem_nil h).elim,
      fun _ h => (List.not_mem_nil h).elim⟩
  | cons id chain ih =>
    obtain ⟨l, at_id⟩ := opened id List.mem_cons_self
    obtain ⟨behind, later⟩ := List.pairwise_cons.mp sorted
    have rest := ih later fun id' h => opened id' (List.mem_cons_of_mem id h)
    rcases Nat.lt_trichotomy l level with below | rfl | above
    · refine Or.inr ⟨[], id :: chain, rfl, ?_, fun _ h => (List.not_mem_nil h).elim, ?_⟩
      · rw [findChain, at_id]
        simp [Nat.not_le_of_lt below]
      · intro id' h l' at_id'
        rcases List.mem_cons.mp h with rfl | h
        · rw [at_id] at at_id'
          cases at_id'
          exact below
        · exact Nat.lt_trans (behind id' h l l' at_id at_id') below
    · refine Or.inl ⟨id, List.mem_cons_self, at_id, ?_⟩
      rw [findChain, at_id]
      simp
    · have other : l ≠ level := Nat.ne_of_gt above
      rcases rest with ⟨found, member, at_found, run⟩ | ⟨front, back, rfl, run, high, low⟩
      · refine Or.inl ⟨found, List.mem_cons_of_mem id member, at_found, ?_⟩
        rw [findChain, at_id]
        simp [Nat.le_of_lt above, other, run]
      · refine Or.inr ⟨id :: front, back, rfl, ?_, ?_, low⟩
        · rw [findChain, at_id]
          simp [Nat.le_of_lt above, other, run]
        · intro id' h l' at_id'
          rcases List.mem_cons.mp h with rfl | h
          · rw [at_id] at at_id'
            cases at_id'
            exact above
          · exact high id' h l' at_id'

theorem not_mem_of_descending {id level : Nat} (at_id : openLevel upvals id = some level)
    (behind : ∀ id' ∈ chain, ∀ l l', openLevel upvals id = some l →
      openLevel upvals id' = some l' → l' < l) : id ∉ chain :=
  fun member => Nat.lt_irrefl level (behind id member level level at_id at_id)

/-- What an upvalue that is closed becomes. -/
def closedAs (stack : List V) : UpVal V → Option (UpVal V)
  | ⟨.slot level, dead⟩ =>
    if dead then none else stack[level]?.map fun value => ⟨.own value, false⟩
  | ⟨.own value, dead⟩ => some ⟨.own value, dead⟩

/-- Closing goes down the chain to the level, and leaves the other upvalues as they are. -/
theorem closeChain_spec (stack : List V) (level : Nat) (sorted : Descending upvals chain)
    (opened : ∀ id ∈ chain, ∃ l, openLevel upvals id = some l ∧ l < stack.length) :
    ∃ upvals' front back, chain = front ++ back ∧
      closeChain stack level upvals chain = some (upvals', back) ∧
      (∀ id ∈ front, (∃ l, openLevel upvals id = some l ∧ level ≤ l) ∧
        live upvals' id = (live upvals id).bind (closedAs stack)) ∧
      (∀ id ∈ back, ∀ l, openLevel upvals id = some l → l < level) ∧
      ∀ id, id ∉ front → live upvals' id = live upvals id := by
  induction chain generalizing upvals with
  | nil => exact ⟨upvals, [], [], rfl, rfl, fun _ h => (List.not_mem_nil h).elim,
      fun _ h => (List.not_mem_nil h).elim, fun _ _ => rfl⟩
  | cons id chain ih =>
    obtain ⟨l, at_id, inside⟩ := opened id List.mem_cons_self
    obtain ⟨dead, found⟩ := openLevel_eq_some.mp at_id
    obtain ⟨behind, later⟩ := List.pairwise_cons.mp sorted
    have fresh := not_mem_of_descending at_id behind
    by_cases high : level ≤ l
    · obtain ⟨x, slot⟩ : ∃ x, stack[l]? = some x := ⟨_, List.getElem?_eq_getElem inside⟩
      -- the upvalues behind are as before
      obtain ⟨next, step, self, others⟩ : ∃ next,
          closeChain stack level upvals (id :: chain) = closeChain stack level next chain ∧
          live next id = (live upvals id).bind (closedAs stack) ∧
          ∀ id', id' ≠ id → live next id' = live upvals id' := by
        cases dead with
        | true =>
          refine ⟨release upvals id, ?_, ?_, fun id' other => live_release_of_ne upvals other⟩
          · rw [closeChain, found]
            simp [high]
          · rw [live_release_self, found]
            rfl
        | false =>
          refine ⟨update upvals id fun uv => { uv with v := .own x }, ?_, ?_,
            fun id' other => live_update_of_ne upvals other _⟩
          · rw [closeChain, found]
            simp [high, slot]
          · rw [live_update_self, found]
            simp [closedAs, slot]
      have same : ∀ id' ∈ chain, openLevel next id' = openLevel upvals id' := by
        intro id' member
        exact openLevel_congr (others id' fun eq => fresh (eq ▸ member))
      have sorted' : Descending next chain := by
        refine later.imp_of_mem ?_
        intro a b ha hb less l l' hl hl'
        rw [same a ha] at hl
        rw [same b hb] at hl'
        exact less l l' hl hl'
      obtain ⟨upvals', front, back, rfl, run, closed, low, kept⟩ := ih sorted' (by
        intro id' member
        rw [same id' member]
        exact opened id' (List.mem_cons_of_mem id member))
      have behind_front : id ∉ front := fun h => fresh (List.mem_append_left back h)
      refine ⟨upvals', id :: front, back, rfl, step.trans run, ?_, ?_, ?_⟩
      · intro id' h
        rcases List.mem_cons.mp h with rfl | h
        · exact ⟨⟨l, at_id, high⟩, (kept id' behind_front).trans self⟩
        · have other : id' ≠ id := fun eq => behind_front (eq ▸ h)
          obtain ⟨place, result⟩ := closed id' h
          rw [same id' (List.mem_append_left back h)] at place
          rw [others id' other] at result
          exact ⟨place, result⟩
      · intro id' h
        rw [← same id' (List.mem_append_right front h)]
        exact low id' h
      · intro id' h
        obtain ⟨other, outside⟩ := not_or.mp fun eq => h (List.mem_cons.mpr eq)
        exact (kept id' outside).trans (others id' other)
    · refine ⟨upvals, [], id :: chain, rfl, ?_, fun _ h => (List.not_mem_nil h).elim, ?_,
        fun _ _ => rfl⟩
      · rw [closeChain, found]
        simp [high]
      · intro id' h l' at_id'
        have below : l < level := Nat.lt_of_not_le high
        rcases List.mem_cons.mp h with rfl | h
        · rw [at_id] at at_id'
          cases at_id'
          exact below
        · exact Nat.lt_trans (behind id' h l l' at_id at_id') below

end Chain

def IsOwn (upvals : List (Cell (UpVal V))) (id : Nat) : Prop :=
  ∃ x dead, live upvals id = some ⟨.own x, dead⟩

/-- The thread is in the state of the variables, where `f` gives the variable of each upvalue. -/
structure Shares (s : UpvalState V) (t : Variables V) (f : Nat → Nat) : Prop where
  length : s.stack.length = t.slots.length
  slots : ∀ (l c : Nat), t.slots[l]? = some c → ∃ x, t.cells[c]? = some x ∧ s.stack[l]? = some x
  distinct : t.slots.Nodup
  sorted : Descending s.upvals s.openupval
  chained : ∀ id, id ∈ s.openupval ↔ ∃ l, openLevel s.upvals id = some l
  opened : ∀ id l, openLevel s.upvals id = some l → t.slots[l]? = some (f id)
  own : ∀ id x dead, live s.upvals id = some ⟨.own x, dead⟩ →
    t.cells[f id]? = some x ∧ f id ∉ t.slots
  apart : ∀ id id', IsOwn s.upvals id → IsOwn s.upvals id' → f id = f id' → id = id'
  closures : t.closures = s.closures.map (Option.map (List.map f))
  alive : ∀ id, held s.closures id = true → ∃ v, live s.upvals id = some ⟨v, false⟩

theorem held_iff {closures : List (Option (List Nat))} {id : Nat} :
    held closures id = true ↔ ∃ ids, some ids ∈ closures ∧ id ∈ ids := by
  unfold held
  rw [List.any_eq_true]
  constructor
  · rintro ⟨_ | ids, member, inside⟩
    · cases inside
    · exact ⟨ids, member, List.contains_iff_mem.mp inside⟩
  · rintro ⟨ids, member, inside⟩
    exact ⟨some ids, member, List.contains_iff_mem.mpr inside⟩

theorem closureAt_map (closures : List (Option (List Nat))) (f : Nat → Nat) (cl : Nat) :
    closureAt (closures.map (Option.map (List.map f))) cl =
      (closureAt closures cl).map (List.map f) := by
  unfold closureAt
  rw [List.getElem?_map]
  rcases closures[cl]? with _ | _ | ids <;> rfl

theorem mem_of_closureAt {closures : List (Option (List Nat))} {cl : Nat} {ids : List Nat}
    (h : closureAt closures cl = some ids) : some ids ∈ closures := by
  unfold closureAt at h
  rcases found : closures[cl]? with _ | slot
  · rw [found] at h
    cases h
  · rw [found] at h
    exact List.mem_of_getElem? (found.trans (congrArg some h))

/-- Two maps that agree on the upvalues that are held give the same closures. -/
theorem map_closures_congr {closures : List (Option (List Nat))} {f f' : Nat → Nat}
    (agree : ∀ id, held closures id = true → f' id = f id) :
    closures.map (Option.map (List.map f')) = closures.map (Option.map (List.map f)) := by
  refine List.map_congr_left fun cl member => ?_
  cases cl with
  | none => rfl
  | some ids =>
    refine congrArg some (List.map_congr_left fun id inside => ?_)
    exact agree id (held_iff.mpr ⟨ids, member, inside⟩)

section Sharing

variable {s : UpvalState V} {t : Variables V} {f : Nat → Nat}

theorem Shares.slot_inj (h : Shares s t f) {l l' c : Nat} (at_l : t.slots[l]? = some c)
    (at_l' : t.slots[l']? = some c) : l = l' :=
  (List.getElem?_inj (List.getElem?_eq_some_iff.mp at_l).1 h.distinct).mp (at_l.trans at_l'.symm)

theorem Shares.variable (h : Shares s t f) {l : Nat} (inside : l < s.stack.length) :
    ∃ c, t.slots[l]? = some c := by
  rw [h.length] at inside
  exact ⟨_, List.getElem?_eq_getElem inside⟩

theorem Shares.read (h : Shares s t f) {id : Nat} {uv : UpVal V}
    (found : live s.upvals id = some uv) :
    ∃ x, readUpval s id = some x ∧ t.cells[f id]? = some x := by
  obtain ⟨v, dead⟩ := uv
  cases v with
  | slot level =>
    obtain ⟨x, cell, slot⟩ := h.slots level _ (h.opened id level (openLevel_eq_some.mpr ⟨_, found⟩))
    refine ⟨x, ?_, cell⟩
    rw [readUpval, found]
    exact slot
  | own x =>
    refine ⟨x, ?_, (h.own id x dead found).1⟩
    rw [readUpval, found]
    rfl

/-- A variable in a slot is assigned. -/
theorem Shares.assign (h : Shares s t f) {l c : Nat} (slot : t.slots[l]? = some c) (x : V) :
    Shares { s with stack := s.stack.set l x } { t with cells := t.cells.set c x } f where
  length := by
    rw [List.length_set]
    exact h.length
  slots l' c' slot' := by
    obtain ⟨y, cell, value⟩ := h.slots l' c' slot'
    by_cases same : l = l'
    · subst same
      obtain rfl := Option.some.inj (slot.symm.trans slot')
      refine ⟨x, ?_, ?_⟩
      · exact List.getElem?_set_self (List.getElem?_eq_some_iff.mp cell).1
      · exact List.getElem?_set_self (List.getElem?_eq_some_iff.mp value).1
    · have other : c ≠ c' := by
        rintro rfl
        exact same (h.slot_inj slot slot')
      refine ⟨y, ?_, ?_⟩
      · rw [List.getElem?_set_ne other]
        exact cell
      · rw [List.getElem?_set_ne same]
        exact value
  distinct := h.distinct
  sorted := h.sorted
  chained := h.chained
  opened := h.opened
  own id y dead found := by
    obtain ⟨cell, outside⟩ := h.own id y dead found
    have other : c ≠ f id := by
      rintro rfl
      exact outside (List.mem_of_getElem? slot)
    refine ⟨?_, outside⟩
    rw [List.getElem?_set_ne other]
    exact cell
  apart := h.apart
  closures := h.closures
  alive := h.alive

/-- Upvalues change without leaving their slots or values of their own. -/
theorem Shares.change (h : Shares s t f) {upvals : List (Cell (UpVal V))} {cells : List V}
    (levels : ∀ id, openLevel upvals id = openLevel s.upvals id)
    (kept : ∀ c ∈ t.slots, cells[c]? = t.cells[c]?)
    (own : ∀ id x dead, live upvals id = some ⟨.own x, dead⟩ →
      IsOwn s.upvals id ∧ cells[f id]? = some x)
    (alive : ∀ id, held s.closures id = true → ∃ v, live upvals id = some ⟨v, false⟩) :
    Shares { s with upvals } { t with cells } f where
  length := h.length
  slots l c slot := by
    obtain ⟨x, cell, value⟩ := h.slots l c slot
    exact ⟨x, (kept c (List.mem_of_getElem? slot)).trans cell, value⟩
  distinct := h.distinct
  sorted := h.sorted.imp fun less l l' hl hl' =>
    less l l' ((levels _).symm.trans hl) ((levels _).symm.trans hl')
  chained id := by
    rw [levels]
    exact h.chained id
  opened id l at_l := h.opened id l ((levels id).symm.trans at_l)
  own id x dead found := by
    obtain ⟨⟨y, dead', before⟩, cell⟩ := own id x dead found
    exact ⟨cell, (h.own id y dead' before).2⟩
  apart id id' first second := by
    obtain ⟨x, dead, found⟩ := first
    obtain ⟨x', dead', found'⟩ := second
    exact h.apart id id' (own id x dead found).1 (own id' x' dead' found').1
  closures := h.closures
  alive := alive

/-- An upvalue is assigned, wherever its value is. -/
theorem Shares.write (h : Shares s t f) {id : Nat} {v : Place V}
    (found : live s.upvals id = some ⟨v, false⟩) (x : V) :
    ∃ s', writeUpval s id x = some s' ∧
      Shares s' { t with cells := t.cells.set (f id) x } f := by
  cases v with
  | slot level =>
    have slot := h.opened id level (openLevel_eq_some.mpr ⟨_, found⟩)
    have inside : level < s.stack.length := by
      rw [h.length]
      exact (List.getElem?_eq_some_iff.mp slot).1
    refine ⟨_, ?_, h.assign slot x⟩
    rw [writeUpval, found]
    exact if_pos inside
  | own y =>
    obtain ⟨cell, outside⟩ := h.own id y false found
    have written : live (update s.upvals id fun uv => { uv with v := .own x }) id =
        some ⟨.own x, false⟩ := by
      rw [live_update_self, found]
      rfl
    have same_level : ∀ id', openLevel (update s.upvals id fun uv => { uv with v := .own x }) id' =
        openLevel s.upvals id' := by
      intro id'
      by_cases same : id' = id
      · subst same
        unfold openLevel
        rw [written, found]
      · exact openLevel_congr (live_update_of_ne s.upvals same _)
    refine ⟨{ s with upvals := update s.upvals id fun uv => { uv with v := .own x } }, ?_,
      h.change same_level ?_ ?_ ?_⟩
    · rw [writeUpval, found]
      rfl
    · intro c member
      refine List.getElem?_set_ne ?_
      rintro rfl
      exact outside member
    · intro id' z dead found'
      by_cases same : id' = id
      · subst same
        rw [written] at found'
        cases found'
        exact ⟨⟨y, false, found⟩,
          List.getElem?_set_self (List.getElem?_eq_some_iff.mp cell).1⟩
      · rw [live_update_of_ne s.upvals same] at found'
        have other : f id ≠ f id' := fun eq =>
          same (h.apart id id' ⟨y, false, found⟩ ⟨z, dead, found'⟩ eq).symm
        refine ⟨⟨z, dead, found'⟩, ?_⟩
        rw [List.getElem?_set_ne other]
        exact (h.own id' z dead found').1
    · intro id' member
      obtain ⟨v, found'⟩ := h.alive id' member
      by_cases same : id' = id
      · subst same
        exact ⟨_, written⟩
      · rw [live_update_of_ne s.upvals same]
        exact ⟨v, found'⟩

theorem live_undead {upvals : List (Cell (UpVal V))} {p id : Nat} {v : Place V} {dead : Bool}
    (found : live (update upvals p fun uv => { uv with dead := false }) id = some ⟨v, dead⟩) :
    ∃ dead', live upvals id = some ⟨v, dead'⟩ := by
  by_cases same : id = p
  · subst same
    rw [live_update_self] at found
    obtain ⟨⟨v', dead'⟩, before, eq⟩ := Option.map_eq_some_iff.mp found
    cases eq
    exact ⟨dead', before⟩
  · rw [live_update_of_ne upvals same] at found
    exact ⟨dead, found⟩

theorem live_undead_of_live {upvals : List (Cell (UpVal V))} {p id : Nat} {v : Place V}
    (found : live upvals id = some ⟨v, false⟩) :
    live (update upvals p fun uv => { uv with dead := false }) id = some ⟨v, false⟩ := by
  by_cases same : id = p
  · subst same
    rw [live_update_self, found]
    rfl
  · rw [live_update_of_ne upvals same]
    exact found

/-- A new upvalue is chained between those of higher and those of lower slots. -/
theorem Shares.create (h : Shares s t f) {level c : Nat} (slot : t.slots[level]? = some c)
    {front back : List Nat} (chain : s.openupval = front ++ back)
    (high : ∀ id ∈ front, ∀ l, openLevel s.upvals id = some l → level < l)
    (low : ∀ id ∈ back, ∀ l, openLevel s.upvals id = some l → l < level) :
    Shares { s with
      upvals := Objects.create s.upvals ⟨.slot level, false⟩
      openupval := front ++ s.upvals.length :: back } t (Function.update f s.upvals.length c) := by
  have old : ∀ id ∈ s.openupval, id ≠ s.upvals.length := by
    intro id member
    obtain ⟨l, at_id⟩ := (h.chained id).mp member
    exact Nat.ne_of_lt (lt_of_openLevel at_id)
  have same : ∀ id, id ≠ s.upvals.length →
      openLevel (Objects.create s.upvals ⟨.slot level, false⟩) id = openLevel s.upvals id :=
    fun id other => openLevel_create_of_ne other _
  have self : openLevel (Objects.create s.upvals ⟨.slot level, false⟩) s.upvals.length =
      some level := openLevel_create_self level
  have own_old : ∀ id x dead,
      live (Objects.create s.upvals ⟨.slot level, false⟩) id = some ⟨.own x, dead⟩ →
      id ≠ s.upvals.length ∧ live s.upvals id = some ⟨.own x, dead⟩ := by
    intro id x dead found
    have other : id ≠ s.upvals.length := by
      rintro rfl
      rw [live_create_self] at found
      cases found
    exact ⟨other, (live_create_of_ne other _).symm.trans found⟩
  refine ⟨h.length, h.slots, h.distinct, ?_, ?_, ?_, ?_, ?_, ?_, ?_⟩
  · have before := h.sorted
    rw [chain] at before old
    obtain ⟨sorted_front, sorted_back, across⟩ := List.pairwise_append.mp before
    have keep : ∀ a b, a ∈ front ++ back → b ∈ front ++ back →
        (∀ l l', openLevel s.upvals a = some l → openLevel s.upvals b = some l' → l' < l) →
        ∀ l l', openLevel (Objects.create s.upvals ⟨.slot level, false⟩) a = some l →
          openLevel (Objects.create s.upvals ⟨.slot level, false⟩) b = some l' → l' < l := by
      intro a b ha hb less l l' hl hl'
      rw [same a (old a ha)] at hl
      rw [same b (old b hb)] at hl'
      exact less l l' hl hl'
    refine List.pairwise_append.mpr ⟨?_, List.pairwise_cons.mpr ⟨?_, ?_⟩, ?_⟩
    · exact sorted_front.imp_of_mem fun ha hb less =>
        keep _ _ (List.mem_append_left back ha) (List.mem_append_left back hb) less
    · intro b hb l l' hl hl'
      rw [self] at hl
      cases hl
      rw [same b (old b (List.mem_append_right front hb))] at hl'
      exact low b hb l' hl'
    · exact sorted_back.imp_of_mem fun ha hb less =>
        keep _ _ (List.mem_append_right front ha) (List.mem_append_right front hb) less
    · intro a ha b hb
      rcases List.mem_cons.mp hb with rfl | hb
      · intro l l' hl hl'
        rw [self] at hl'
        cases hl'
        rw [same a (old a (List.mem_append_left back ha))] at hl
        exact high a ha l hl
      · exact keep a b (List.mem_append_left back ha) (List.mem_append_right front hb)
          (across a ha b hb)
  · intro id
    by_cases new : id = s.upvals.length
    · subst new
      refine ⟨fun _ => ⟨level, self⟩, fun _ => ?_⟩
      exact List.mem_append_right front List.mem_cons_self
    · rw [same id new, ← h.chained id, chain]
      simp [new]
  · intro id l at_id
    by_cases new : id = s.upvals.length
    · subst new
      rw [self] at at_id
      cases at_id
      rw [Function.update_self]
      exact slot
    · rw [same id new] at at_id
      rw [Function.update_of_ne new]
      exact h.opened id l at_id
  · intro id x dead found
    obtain ⟨other, found⟩ := own_old id x dead found
    rw [Function.update_of_ne other]
    exact h.own id x dead found
  · rintro id id' ⟨x, dead, found⟩ ⟨x', dead', found'⟩ eq
    obtain ⟨other, found⟩ := own_old id x dead found
    obtain ⟨other', found'⟩ := own_old id' x' dead' found'
    rw [Function.update_of_ne other, Function.update_of_ne other'] at eq
    exact h.apart id id' ⟨x, dead, found⟩ ⟨x', dead', found'⟩ eq
  · rw [h.closures]
    refine (map_closures_congr fun id member => ?_).symm
    obtain ⟨v, found⟩ := h.alive id member
    exact Function.update_of_ne (Nat.ne_of_lt (lt_of_live found)) c f
  · intro id member
    obtain ⟨v, found⟩ := h.alive id member
    exact ⟨v, live_create_of_live found _⟩

/-- A slot is captured: its upvalue is that of its variable. -/
theorem Shares.findupval (h : Shares s t f) {level c : Nat} (slot : t.slots[level]? = some c) :
    ∃ id s' f', luaFFindupval s level = some (id, s') ∧ Shares s' t f' ∧ f' id = c ∧
      s'.closures = s.closures ∧ live s'.upvals id = some ⟨.slot level, false⟩ ∧
      ∀ id' v, live s.upvals id' = some ⟨v, false⟩ →
        live s'.upvals id' = some ⟨v, false⟩ ∧ f' id' = f id' := by
  have opened : ∀ id ∈ s.openupval, ∃ l, openLevel s.upvals id = some l :=
    fun id member => (h.chained id).mp member
  rcases findChain_spec level s.upvals.length h.sorted opened with
    ⟨id, member, at_id, run⟩ | ⟨front, back, chain, run, high, low⟩
  · have old : id ≠ s.upvals.length := Nat.ne_of_lt (lt_of_openLevel at_id)
    refine ⟨id, { s with upvals := update s.upvals id fun uv => { uv with dead := false } }, f,
      ?_, ?_, ?_, rfl, ?_, ?_⟩
    · rw [luaFFindupval, run]
      simp [old]
    · refine h.change (fun id' => openLevel_update_dead false id) (fun _ _ => rfl) ?_ ?_
      · intro id' x dead found
        obtain ⟨dead', before⟩ := live_undead found
        exact ⟨⟨x, dead', before⟩, (h.own id' x dead' before).1⟩
      · intro id' member'
        obtain ⟨v, found⟩ := h.alive id' member'
        exact ⟨v, live_undead_of_live found⟩
    · exact Option.some.inj ((h.opened id level at_id).symm.trans slot)
    · obtain ⟨dead, found⟩ := openLevel_eq_some.mp at_id
      rw [live_update_self, found]
      rfl
    · exact fun id' v found => ⟨live_undead_of_live found, rfl⟩
  · have new := h.create slot chain high low
    refine ⟨s.upvals.length, _, _, ?_, new, Function.update_self _ _ _, rfl,
      live_create_self _ _, fun id' v found => ?_⟩
    · rw [luaFFindupval, run]
      simp
    · have old : id' ≠ s.upvals.length := Nat.ne_of_lt (lt_of_live found)
      exact ⟨live_create_of_live found _, Function.update_of_ne old c f⟩

/-- The upvalues of a new closure are those of the variables that it captures. -/
theorem Shares.capture (h : Shares s t f) {upvals : List Nat}
    (kept : ∀ id ∈ upvals, ∃ v, live s.upvals id = some ⟨v, false⟩) (captures : List Capture) :
    (captureAll upvals captures s = none ∧ t.captured (upvals.map f) captures = none) ∨
    ∃ ids s' f', captureAll upvals captures s = some (ids, s') ∧
      t.captured (upvals.map f) captures = some (ids.map f') ∧ Shares s' t f' ∧
      s'.closures = s.closures ∧ (∀ id ∈ ids, ∃ v, live s'.upvals id = some ⟨v, false⟩) ∧
      ∀ id v, live s.upvals id = some ⟨v, false⟩ →
        live s'.upvals id = some ⟨v, false⟩ ∧ f' id = f id := by
  induction captures generalizing s f with
  | nil =>
    exact Or.inr ⟨[], s, f, rfl, rfl, h, rfl, fun _ member => (List.not_mem_nil member).elim,
      fun _ _ found => ⟨found, rfl⟩⟩
  | cons capture captures ih =>
    cases capture with
    | getupval b =>
      rcases at_b : upvals[b]? with _ | id
      · refine Or.inl ⟨?_, ?_⟩
        · simp [captureAll, at_b]
        · simp [Variables.captured, at_b]
      · rcases ih h kept with ⟨run, run'⟩ | ⟨ids, s', f', run, run', shares, same, alive, before⟩
        · refine Or.inl ⟨?_, ?_⟩
          · simp [captureAll, run]
          · simp [Variables.captured, run']
        · obtain ⟨v, found⟩ := kept id (List.mem_of_getElem? at_b)
          obtain ⟨found', agree⟩ := before id v found
          refine Or.inr ⟨id :: ids, s', f', ?_, ?_, shares, same, ?_, before⟩
          · simp [captureAll, at_b, run]
          · simp [Variables.captured, at_b, run', agree]
          · intro id' member
            rcases List.mem_cons.mp member with rfl | member
            · exact ⟨v, found'⟩
            · exact alive id' member
    | move level =>
      by_cases inside : level < s.stack.length
      · obtain ⟨c, slot⟩ := h.variable inside
        obtain ⟨id, s₁, f₁, found, shares₁, at_id, same₁, alive₁, before₁⟩ := h.findupval slot
        have kept₁ : ∀ id ∈ upvals, ∃ v, live s₁.upvals id = some ⟨v, false⟩ := by
          intro id' member
          obtain ⟨v, found'⟩ := kept id' member
          exact ⟨v, (before₁ id' v found').1⟩
        have agree : upvals.map f₁ = upvals.map f := by
          refine List.map_congr_left fun id' member => ?_
          obtain ⟨v, found'⟩ := kept id' member
          exact (before₁ id' v found').2
        have rest := ih shares₁ kept₁
        rw [agree] at rest
        rcases rest with ⟨run, run'⟩ | ⟨ids, s', f', run, run', shares, same, alive, before⟩
        · refine Or.inl ⟨?_, ?_⟩
          · simp [captureAll, inside, found, run]
          · simp [Variables.captured, run']
        · obtain ⟨found', agree'⟩ := before id _ alive₁
          refine Or.inr ⟨id :: ids, s', f', ?_, ?_, shares, same.trans same₁, ?_, ?_⟩
          · simp [captureAll, inside, found, run]
          · simp [Variables.captured, slot, run', agree', at_id]
          · intro id' member
            rcases List.mem_cons.mp member with rfl | member
            · exact ⟨_, found'⟩
            · exact alive id' member
          · intro id' v first
            obtain ⟨second, eq⟩ := before₁ id' v first
            obtain ⟨third, eq'⟩ := before id' v second
            exact ⟨third, eq'.trans eq⟩
      · have outside : t.slots[level]? = none := by
          rw [List.getElem?_eq_none_iff, ← h.length]
          exact Nat.le_of_not_lt inside
        refine Or.inl ⟨?_, ?_⟩
        · simp [captureAll, inside]
        · simp [Variables.captured, outside]

theorem Shares.addClosure (h : Shares s t f) {ids : List Nat}
    (alive : ∀ id ∈ ids, ∃ v, live s.upvals id = some ⟨v, false⟩) :
    Shares { s with closures := s.closures ++ [some ids] }
      { t with closures := t.closures ++ [some (ids.map f)] } f :=
  { h with
    closures := by
      rw [List.map_append, h.closures]
      rfl
    alive := by
      intro id member
      obtain ⟨ids', found, inside⟩ := held_iff.mp member
      rcases List.mem_append.mp found with found | found
      · exact h.alive id (held_iff.mpr ⟨ids', found, inside⟩)
      · cases List.mem_singleton.mp found
        exact alive id inside }

theorem Shares.dropClosure (h : Shares s t f) (cl : Nat) :
    Shares { s with closures := s.closures.set cl none }
      { t with closures := t.closures.set cl none } f :=
  { h with
    closures := by
      rw [List.map_set, h.closures]
      rfl
    alive := by
      intro id member
      obtain ⟨ids, found, inside⟩ := held_iff.mp member
      rcases List.mem_or_eq_of_mem_set found with found | none
      · exact h.alive id (held_iff.mpr ⟨ids, found, inside⟩)
      · cases none }

/-- Two open upvalues are in different slots. -/
theorem Shares.open_inj (h : Shares s t f) {id id' level : Nat}
    (at_id : openLevel s.upvals id = some level) (at_id' : openLevel s.upvals id' = some level) :
    id = id' := by
  obtain ⟨i, first⟩ := List.getElem?_of_mem ((h.chained id).mpr ⟨level, at_id⟩)
  obtain ⟨j, second⟩ := List.getElem?_of_mem ((h.chained id').mpr ⟨level, at_id'⟩)
  obtain ⟨hi, rfl⟩ := List.getElem?_eq_some_iff.mp first
  obtain ⟨hj, rfl⟩ := List.getElem?_eq_some_iff.mp second
  have behind := List.pairwise_iff_getElem.mp h.sorted
  rcases Nat.lt_trichotomy i j with less | rfl | less
  · exact absurd (behind i j hi hj less level level at_id at_id') (Nat.lt_irrefl level)
  · rfl
  · exact absurd (behind j i hj hi less level level at_id' at_id) (Nat.lt_irrefl level)

theorem Shares.chain_nodup (h : Shares s t f) : s.openupval.Nodup := by
  refine h.sorted.imp_of_mem fun {a b} member _ less => ?_
  rintro rfl
  obtain ⟨l, at_a⟩ := (h.chained a).mp member
  exact Nat.lt_irrefl l (less l l at_a at_a)

/-- The collector frees an upvalue that no closure has. -/
theorem Shares.free (h : Shares s t f) {id : Nat} (unheld : held s.closures id = false) :
    Shares { s with upvals := release s.upvals id, openupval := s.openupval.erase id } t f := by
  have old : ∀ id' uv, live (release s.upvals id) id' = some uv →
      id' ≠ id ∧ live s.upvals id' = some uv := fun id' uv found => live_release_cases found
  have old_level : ∀ id' l, openLevel (release s.upvals id) id' = some l →
      id' ≠ id ∧ openLevel s.upvals id' = some l := by
    intro id' l at_id'
    obtain ⟨dead, found⟩ := openLevel_eq_some.mp at_id'
    obtain ⟨other, before⟩ := old id' _ found
    exact ⟨other, openLevel_eq_some.mpr ⟨dead, before⟩⟩
  refine ⟨h.length, h.slots, h.distinct, ?_, ?_, ?_, ?_, ?_, h.closures, ?_⟩
  · refine (h.sorted.sublist (List.erase_sublist)).imp fun less l l' hl hl' => ?_
    exact less l l' (old_level _ l hl).2 (old_level _ l' hl').2
  · intro id'
    rw [h.chain_nodup.mem_erase_iff, h.chained]
    constructor
    · rintro ⟨other, l, at_id'⟩
      exact ⟨l, (openLevel_congr (live_release_of_ne s.upvals other)).trans at_id'⟩
    · rintro ⟨l, at_id'⟩
      obtain ⟨other, before⟩ := old_level id' l at_id'
      exact ⟨other, l, before⟩
  · exact fun id' l at_id' => h.opened id' l (old_level id' l at_id').2
  · exact fun id' x dead found => h.own id' x dead (old id' _ found).2
  · rintro a b ⟨x, dead, found⟩ ⟨x', dead', found'⟩ eq
    exact h.apart a b ⟨x, dead, (old a _ found).2⟩ ⟨x', dead', (old b _ found').2⟩ eq
  · intro id' member
    obtain ⟨v, found⟩ := h.alive id' member
    have other : id' ≠ id := by
      rintro rfl
      rw [unheld] at member
      cases member
    exact ⟨v, (live_release_of_ne s.upvals other).trans found⟩

theorem Shares.push (h : Shares s t f) (x : V) :
    Shares { s with stack := s.stack ++ [x] }
      { t with cells := t.cells ++ [x], slots := t.slots ++ [t.cells.length] } f := by
  have bound : ∀ c ∈ t.slots, c < t.cells.length := by
    intro c member
    obtain ⟨l, slot⟩ := List.getElem?_of_mem member
    obtain ⟨y, cell, _⟩ := h.slots l c slot
    exact (List.getElem?_eq_some_iff.mp cell).1
  refine ⟨?_, ?_, ?_, h.sorted, h.chained, ?_, ?_, h.apart, h.closures, h.alive⟩
  · rw [List.length_append, List.length_append, h.length]
    rfl
  · intro l c slot
    by_cases top : l < t.slots.length
    · rw [List.getElem?_append_left top] at slot
      obtain ⟨y, cell, value⟩ := h.slots l c slot
      have low : l < s.stack.length := by rwa [h.length]
      refine ⟨y, ?_, ?_⟩
      · rwa [List.getElem?_append_left (List.getElem?_eq_some_iff.mp cell).1]
      · rwa [List.getElem?_append_left low]
    · have last : l = t.slots.length := by
        have := (List.getElem?_eq_some_iff.mp slot).1
        rw [List.length_append, List.length_singleton] at this
        omega
      subst last
      rw [List.getElem?_concat_length] at slot
      cases slot
      refine ⟨x, List.getElem?_concat_length, ?_⟩
      rw [← h.length]
      exact List.getElem?_concat_length
  · refine List.nodup_append.mpr ⟨h.distinct, List.nodup_cons.mpr ⟨List.not_mem_nil, List.nodup_nil⟩, ?_⟩
    intro c member c' last
    rw [List.mem_singleton.mp last]
    exact Nat.ne_of_lt (bound c member)
  · intro id l at_id
    have slot := h.opened id l at_id
    exact (List.getElem?_append_left (List.getElem?_eq_some_iff.mp slot).1).trans slot
  · intro id y dead found
    obtain ⟨cell, outside⟩ := h.own id y dead found
    have low := (List.getElem?_eq_some_iff.mp cell).1
    refine ⟨(List.getElem?_append_left low).trans cell, fun member => ?_⟩
    rcases List.mem_append.mp member with member | last
    · exact outside member
    · exact Nat.ne_of_lt low (List.mem_singleton.mp last)

theorem Shares.pushAll (h : Shares s t f) (values : List V) :
    Shares { s with stack := s.stack ++ values }
      { t with
        cells := t.cells ++ values
        slots := t.slots ++ List.range' t.cells.length values.length } f := by
  induction values generalizing s t with
  | nil => simpa using h
  | cons x values ih =>
    have later := ih (h.push x)
    simp only [List.append_assoc, List.singleton_append, List.length_append,
      List.length_singleton] at later
    rw [List.length_cons, List.range'_succ]
    exact later

/-- The slots from a level on are given up, and the upvalues that are in them get values of their
own. -/
theorem Shares.leave (h : Shares s t f) (level : Nat) :
    ∃ s', luaFClose s level = some s' ∧ s'.stack = s.stack ∧
      Shares { s' with stack := s.stack.take level } { t with slots := t.slots.take level } f := by
  have inside : ∀ id l, openLevel s.upvals id = some l → l < s.stack.length := by
    intro id l at_id
    rw [h.length]
    exact (List.getElem?_eq_some_iff.mp (h.opened id l at_id)).1
  obtain ⟨upvals', front, back, chain, run, closed, low, kept⟩ :=
    closeChain_spec s.stack level h.sorted (by
      intro id member
      obtain ⟨l, at_id⟩ := (h.chained id).mp member
      exact ⟨l, at_id, inside id l at_id⟩)
  refine ⟨{ s with upvals := upvals', openupval := back }, ?_, rfl, ?_⟩
  · rw [luaFClose, run]
    rfl
  have nodup := h.chain_nodup
  have sorted := h.sorted
  rw [chain] at nodup sorted
  obtain ⟨_, _, disjoint⟩ := List.nodup_append.mp nodup
  have outside_front : ∀ id ∈ back, id ∉ front := fun id member member' =>
    disjoint id member' id member rfl
  -- an upvalue of the front is closed or freed
  have front_closed : ∀ id ∈ front, ∀ uv, live upvals' id = some uv →
      ∃ l x, level ≤ l ∧ openLevel s.upvals id = some l ∧ s.stack[l]? = some x ∧
        uv = ⟨.own x, false⟩ := by
    intro id member uv found
    obtain ⟨⟨l, at_id, high⟩, result⟩ := closed id member
    obtain ⟨dead, before⟩ := openLevel_eq_some.mp at_id
    rw [result, before] at found
    cases dead with
    | true => cases found
    | false =>
      obtain ⟨x, value, eq⟩ := Option.map_eq_some_iff.mp found
      exact ⟨l, x, high, at_id, value, eq.symm⟩
  have still_open : ∀ id l, openLevel upvals' id = some l →
      id ∈ back ∧ openLevel s.upvals id = some l := by
    intro id l at_id
    obtain ⟨dead, found⟩ := openLevel_eq_some.mp at_id
    have later : id ∉ front := by
      intro member
      obtain ⟨_, _, _, _, _, eq⟩ := front_closed id member _ found
      cases eq
    have before : openLevel s.upvals id = some l := (openLevel_congr (kept id later)).symm.trans at_id
    have member := (h.chained id).mpr ⟨l, before⟩
    rw [chain] at member
    exact ⟨(List.mem_append.mp member).resolve_left later, before⟩
  have own_cases : ∀ id x dead, live upvals' id = some ⟨.own x, dead⟩ →
      (∃ l, level ≤ l ∧ openLevel s.upvals id = some l ∧ s.stack[l]? = some x) ∨
        live s.upvals id = some ⟨.own x, dead⟩ := by
    intro id x dead found
    by_cases member : id ∈ front
    · obtain ⟨l, y, high, at_id, value, eq⟩ := front_closed id member _ found
      cases eq
      exact Or.inl ⟨l, high, at_id, value⟩
    · exact Or.inr ((kept id member).symm.trans found)
  have taken : ∀ {l c}, (t.slots.take level)[l]? = some c → l < level ∧ t.slots[l]? = some c := by
    intro l c slot
    by_cases below : l < level
    · rw [List.getElem?_take_of_lt below] at slot
      exact ⟨below, slot⟩
    · rw [List.getElem?_take_eq_none (Nat.le_of_not_lt below)] at slot
      cases slot
  refine ⟨?_, ?_, ?_, ?_, ?_, ?_, ?_, ?_, h.closures, ?_⟩
  · rw [List.length_take, List.length_take, h.length]
  · intro l c slot
    obtain ⟨below, slot⟩ := taken slot
    obtain ⟨x, cell, value⟩ := h.slots l c slot
    exact ⟨x, cell, (List.getElem?_take_of_lt below).trans value⟩
  · exact h.distinct.sublist (List.take_sublist level t.slots)
  · refine (List.pairwise_append.mp sorted).2.1.imp fun less l l' hl hl' => ?_
    exact less l l' (still_open _ l hl).2 (still_open _ l' hl').2
  · intro id
    constructor
    · intro member
      have all : id ∈ s.openupval := by
        rw [chain]
        exact List.mem_append_right front member
      obtain ⟨l, at_id⟩ := (h.chained id).mp all
      exact ⟨l, (openLevel_congr (kept id (outside_front id member))).trans at_id⟩
    · rintro ⟨l, at_id⟩
      exact (still_open id l at_id).1
  · intro id l at_id
    obtain ⟨member, before⟩ := still_open id l at_id
    exact (List.getElem?_take_of_lt (low id member l before)).trans (h.opened id l before)
  · intro id x dead found
    rcases own_cases id x dead found with ⟨l, high, at_id, value⟩ | before
    · have slot := h.opened id l at_id
      obtain ⟨y, cell, value'⟩ := h.slots l _ slot
      refine ⟨cell.trans (value'.symm.trans value), fun member => ?_⟩
      obtain ⟨l', slot'⟩ := List.getElem?_of_mem member
      obtain ⟨below, slot'⟩ := taken slot'
      exact Nat.not_le_of_lt below (h.slot_inj slot slot' ▸ high)
    · obtain ⟨cell, outside⟩ := h.own id x dead before
      exact ⟨cell, fun member => outside (List.mem_of_mem_take member)⟩
  · rintro id id' ⟨x, dead, found⟩ ⟨x', dead', found'⟩ eq
    rcases own_cases id x dead found with ⟨l, _, at_id, _⟩ | before
    · have slot := h.opened id l at_id
      rcases own_cases id' x' dead' found' with ⟨l', _, at_id', _⟩ | before'
      · have slot' := h.opened id' l' at_id'
        rw [← eq] at slot'
        rw [h.slot_inj slot slot'] at at_id
        exact h.open_inj at_id at_id'
      · exact absurd (List.mem_of_getElem? slot) (eq ▸ (h.own id' x' dead' before').2)
    · rcases own_cases id' x' dead' found' with ⟨l', _, at_id', _⟩ | before'
      · have slot' := h.opened id' l' at_id'
        exact absurd (List.mem_of_getElem? slot') (eq ▸ (h.own id x dead before).2)
      · exact h.apart id id' ⟨x, dead, before⟩ ⟨x', dead', before'⟩ eq
  · intro id member
    obtain ⟨v, found⟩ := h.alive id member
    by_cases first : id ∈ front
    · obtain ⟨⟨l, at_id, _⟩, result⟩ := closed id first
      obtain ⟨x, value⟩ : ∃ x, s.stack[l]? = some x :=
        ⟨_, List.getElem?_eq_getElem (inside id l at_id)⟩
      obtain ⟨dead, found'⟩ := openLevel_eq_some.mp at_id
      rw [found] at found'
      cases found'
      refine ⟨.own x, result.trans ?_⟩
      rw [found]
      simp [closedAs, value]
    · exact ⟨v, (kept id first).trans found⟩

/-- The values that the variables of the slots have are on the stack. -/
theorem Shares.values (h : Shares s t f) (level : Nat) :
    ((t.slots.drop level).filterMap fun c => t.cells[c]?) = s.stack.drop level := by
  have total : t.slots.map (fun c => t.cells[c]?) = s.stack.map some := by
    refine List.ext_getElem? fun l => ?_
    rw [List.getElem?_map, List.getElem?_map]
    rcases slot : t.slots[l]? with _ | c
    · rw [List.getElem?_eq_none_iff, ← h.length] at slot
      rw [List.getElem?_eq_none slot]
      rfl
    · obtain ⟨x, cell, value⟩ := h.slots l c slot
      rw [value, Option.map_some, Option.map_some, cell]
  have rest : (t.slots.drop level).map (fun c => t.cells[c]?) = (s.stack.drop level).map some := by
    rw [List.map_drop, List.map_drop, total]
  calc (t.slots.drop level).filterMap (fun c => t.cells[c]?)
      = ((t.slots.drop level).map fun c => t.cells[c]?).filterMap id := by
        rw [List.filterMap_map]
        rfl
    _ = ((s.stack.drop level).map some).filterMap id := by rw [rest]
    _ = s.stack.drop level := by
        rw [List.filterMap_map]
        exact List.filterMap_some

/-- Closing upvalues is as if the slots from the level on were made anew. -/
theorem Shares.renew (h : Shares s t f) (level : Nat) :
    ∃ s', luaFClose s level = some s' ∧ Shares s' (t.renew level) f := by
  obtain ⟨s', run, stack, left⟩ := h.leave level
  have again := left.pushAll (s.stack.drop level)
  refine ⟨s', run, ?_⟩
  have whole : { s' with stack := s.stack.take level ++ s.stack.drop level } = s' := by
    rw [List.take_append_drop, ← stack]
  have count : (s.stack.drop level).length = t.slots.length - level := by
    rw [List.length_drop, h.length]
  rw [Variables.renew, h.values level, ← count, ← whole]
  exact again

end Sharing

section Steps

variable {s : UpvalState V} {t : Variables V} {f : Nat → Nat}

/-- What relates the states of the two systems. -/
def Agree (s : UpvalState V) (t : Variables V) : Prop := ∃ f, Shares s t f

theorem Shares.outside (h : Shares s t f) {level : Nat} (out : ¬level < s.stack.length) :
    s.stack[level]? = none ∧ t.slots[level]? = none := by
  refine ⟨List.getElem?_eq_none (Nat.le_of_not_lt out), List.getElem?_eq_none ?_⟩
  rw [← h.length]
  exact Nat.le_of_not_lt out

theorem Shares.closureAt (h : Shares s t f) (cl : Nat) :
    DriverSF.closureAt t.closures cl = (DriverSF.closureAt s.closures cl).map (List.map f) := by
  rw [h.closures]
  exact closureAt_map s.closures f cl

/-- The upvalue of a closure can be used. -/
theorem Shares.usable (h : Shares s t f) {cl id : Nat} {ids : List Nat}
    (found : DriverSF.closureAt s.closures cl = some ids) (member : id ∈ ids) :
    ∃ v, live s.upvals id = some ⟨v, false⟩ :=
  h.alive id (held_iff.mpr ⟨ids, mem_of_closureAt found, member⟩)

theorem Shares.collect (h : Shares s t f) (id : Nat) : Shares (collectUpval s id) t f := by
  unfold collectUpval
  rcases unheld : held s.closures id with _ | _
  · rcases found : live s.upvals id with _ | ⟨v, dead⟩
    · simpa using h
    · cases v with
      | slot level =>
        refine h.change (fun id' => openLevel_update_dead true id) (fun _ _ => rfl) ?_ ?_
        · intro id' x dead' found'
          have other : id' ≠ id := by
            rintro rfl
            rw [live_update_self, found] at found'
            cases found'
          rw [live_update_of_ne s.upvals other] at found'
          exact ⟨⟨x, dead', found'⟩, (h.own id' x dead' found').1⟩
        · intro id' member
          have other : id' ≠ id := by
            rintro rfl
            rw [unheld] at member
            cases member
          rw [live_update_of_ne s.upvals other]
          exact h.alive id' member
      | own x =>
        have unchained : id ∉ s.openupval := by
          intro member
          obtain ⟨l, at_id⟩ := (h.chained id).mp member
          obtain ⟨dead', found'⟩ := openLevel_eq_some.mp at_id
          rw [found] at found'
          cases found'
        have freed := h.free unheld
        rw [List.erase_of_not_mem unchained] at freed
        exact freed
  · exact h

theorem Shares.sweep (h : Shares s t f) (id : Nat) : Shares (sweepUpval s id) t f := by
  unfold sweepUpval
  rcases found : live s.upvals id with _ | ⟨v, dead⟩
  · exact h
  · cases v with
    | own x => exact h
    | slot level =>
      cases dead with
      | false => exact h
      | true =>
        refine h.free ?_
        by_contra member
        rw [Bool.not_eq_false] at member
        obtain ⟨v, found'⟩ := h.alive id member
        rw [found] at found'
        cases found'

/-- A closure is made in both systems, or in none. -/
theorem Shares.make (h : Shares s t f) (upvals : List Nat)
    (kept : ∀ id ∈ upvals, ∃ v, live s.upvals id = some ⟨v, false⟩) (captures : List Capture) :
    Matches Agree
      ((captureAll upvals captures s).bind fun r =>
        some ((none : Option V), { r.2 with closures := r.2.closures ++ [some r.1] }))
      ((t.captured (upvals.map f) captures).bind fun cs =>
        some (none, { t with closures := t.closures ++ [some cs] })) := by
  rcases h.capture kept captures with ⟨run, run'⟩ | ⟨ids, s', f', run, run', shares, _, alive, _⟩
  · rw [run, run']
    trivial
  · rw [run, run']
    exact ⟨rfl, f', shares.addClosure alive⟩

/-- Every action gives the same in the two systems. -/
theorem agree_step (s : UpvalState V) (t : Variables V) (act : UpvalAction V) (agree : Agree s t) :
    Matches Agree (upvalStep s act) (variableStep t act) := by
  obtain ⟨f, h⟩ := agree
  cases act with
  | push x => exact ⟨rfl, f, h.push x⟩
  | getSlot level =>
    by_cases inside : level < s.stack.length
    · obtain ⟨c, slot⟩ := h.variable inside
      obtain ⟨x, cell, value⟩ := h.slots level c slot
      simp only [upvalStep, variableStep, slot, value, Option.bind_eq_bind, Option.bind_some, cell]
      exact ⟨rfl, f, h⟩
    · obtain ⟨none_left, none_right⟩ := h.outside inside
      simp only [upvalStep, variableStep, none_left, none_right]
      trivial
  | setSlot level x =>
    by_cases inside : level < s.stack.length
    · obtain ⟨c, slot⟩ := h.variable inside
      simp only [upvalStep, variableStep, slot, if_pos inside]
      exact ⟨rfl, f, h.assign slot x⟩
    · obtain ⟨_, none_right⟩ := h.outside inside
      simp only [upvalStep, variableStep, none_right, if_neg inside]
      trivial
  | closure cl captures =>
    cases cl with
    | none => exact h.make [] (fun _ member => (List.not_mem_nil member).elim) captures
    | some cl =>
      have both := h.closureAt cl
      rcases found : closureAt s.closures cl with _ | upvals
      · rw [found] at both
        simp only [upvalStep, variableStep, found, both]
        trivial
      · rw [found] at both
        simp only [upvalStep, variableStep, found, both]
        exact h.make upvals (fun id member => h.usable found member) captures
  | getUpval cl j =>
    have both := h.closureAt cl
    rcases found : closureAt s.closures cl with _ | ids
    · rw [found] at both
      simp only [upvalStep, variableStep, found, both]
      trivial
    · rw [found] at both
      rcases at_j : ids[j]? with _ | id
      · simp [upvalStep, variableStep, found, both, at_j, Matches]
      · obtain ⟨v, alive⟩ := h.usable found (List.mem_of_getElem? at_j)
        obtain ⟨x, read, cell⟩ := h.read alive
        simp only [upvalStep, variableStep, found, both, Option.map_some, List.getElem?_map, at_j,
          read, cell, Option.bind_eq_bind, Option.bind_some]
        exact ⟨rfl, f, h⟩
  | setUpval cl j x =>
    have both := h.closureAt cl
    rcases found : closureAt s.closures cl with _ | ids
    · rw [found] at both
      simp [upvalStep, variableStep, found, both, Matches]
    · rw [found] at both
      rcases at_j : ids[j]? with _ | id
      · simp [upvalStep, variableStep, found, both, at_j, Matches]
      · obtain ⟨v, alive⟩ := h.usable found (List.mem_of_getElem? at_j)
        obtain ⟨s', written, shares⟩ := h.write alive x
        simp only [upvalStep, variableStep, found, both, Option.map_some, List.getElem?_map, at_j,
          written, Option.bind_eq_bind, Option.bind_some]
        exact ⟨rfl, f, shares⟩
  | close level =>
    obtain ⟨s', run, shares⟩ := h.renew level
    simp only [upvalStep, variableStep, run]
    exact ⟨rfl, f, shares⟩
  | leave level =>
    obtain ⟨s', run, stack, shares⟩ := h.leave level
    simp only [upvalStep, variableStep, run]
    refine ⟨rfl, f, ?_⟩
    rw [stack]
    exact shares
  | drop cl => exact ⟨rfl, f, h.dropClosure cl⟩
  | collect id => exact ⟨rfl, f, h.collect id⟩
  | sweep id => exact ⟨rfl, f, h.sweep id⟩

end Steps

theorem agree_start : Agree (UpvalState.start : UpvalState V) Variables.start := by
  refine ⟨id, rfl, ?_, List.nodup_nil, List.Pairwise.nil, ?_, ?_, ?_, ?_, rfl, ?_⟩
  · intro l c slot
    cases slot
  · intro id
    refine ⟨fun member => (List.not_mem_nil member).elim, ?_⟩
    rintro ⟨l, at_id⟩
    exact absurd (lt_of_openLevel at_id) (Nat.not_lt_zero id)
  · intro id l at_id
    exact absurd (lt_of_openLevel at_id) (Nat.not_lt_zero id)
  · intro id x dead found
    exact absurd (lt_of_live found) (Nat.not_lt_zero id)
  · rintro id _ ⟨x, dead, found⟩
    exact absurd (lt_of_live found) (Nat.not_lt_zero id)
  · intro id member
    obtain ⟨ids, found, _⟩ := held_iff.mp member
    cases found

/-- Upvalues, shared while they are open and closed or freed at any time, give every read the value
that the variables of the language have. -/
theorem upvalues_are_variables (acts : List (UpvalAction V)) :
    replies upvalStep UpvalState.start acts = replies variableStep Variables.start acts :=
  replies_eq agree_step agree_start acts

end DriverSF
