import Mathlib.Data.List.Basic

namespace Objects

variable {α : Type*}

/-- An object behind a pointer, which is its place in the list of all objects ever created. -/
structure Cell (α : Type*) where
  value : α
  released : Bool

/-- The new object is at the first free place. -/
def create (objects : List (Cell α)) (a : α) : List (Cell α) := objects ++ [⟨a, false⟩]

def release (objects : List (Cell α)) (p : Nat) : List (Cell α) :=
  objects.modify p fun c => { c with released := true }

/-- Changes the object behind a pointer. -/
def update (objects : List (Cell α)) (p : Nat) (f : α → α) : List (Cell α) :=
  objects.modify p fun c => { c with value := f c.value }

/-- Nothing is released through a null pointer. -/
def releaseSet (objects : List (Cell α)) (p : Option Nat) : List (Cell α) :=
  p.elim objects (release objects)

/-- The object that a pointer may still be used for. -/
def live (objects : List (Cell α)) (p : Nat) : Option α :=
  objects[p]?.bind fun c => if c.released then none else some c.value

theorem lt_of_live {objects : List (Cell α)} {p : Nat} {a : α} (h : live objects p = some a) :
    p < objects.length := by
  obtain ⟨c, found, _⟩ := Option.bind_eq_some_iff.mp h
  exact (List.getElem?_eq_some_iff.mp found).1

theorem live_create_self (objects : List (Cell α)) (a : α) :
    live (create objects a) objects.length = some a := by
  simp [live, create]

theorem live_create_of_ne {objects : List (Cell α)} {p : Nat} (other : p ≠ objects.length) (a : α) :
    live (create objects a) p = live objects p := by
  unfold live create
  by_cases old : p < objects.length
  · rw [List.getElem?_append_left old]
  · have beyond : ([⟨a, false⟩] : List (Cell α)).length ≤ p - objects.length := by
      rw [List.length_singleton]
      omega
    rw [List.getElem?_append_right (by omega), List.getElem?_eq_none beyond,
      List.getElem?_eq_none (by omega)]

/-- What is live stays so while others are created. -/
theorem live_create_of_live {objects : List (Cell α)} {p : Nat} {a : α}
    (h : live objects p = some a) (b : α) : live (create objects b) p = some a := by
  have old := lt_of_live h
  rw [live_create_of_ne (by omega), h]

/-- Nothing but the new object becomes live. -/
theorem live_create_cases {objects : List (Cell α)} {p : Nat} {a b : α}
    (h : live (create objects b) p = some a) : p = objects.length ∨ live objects p = some a := by
  by_cases new : p = objects.length
  · exact Or.inl new
  · exact Or.inr ((live_create_of_ne new b).symm.trans h)

theorem live_release_self (objects : List (Cell α)) (p : Nat) :
    live (release objects p) p = none := by
  unfold live release
  rw [List.getElem?_modify_eq]
  cases objects[p]? with
  | none => rfl
  | some c => rfl

theorem live_release_of_ne (objects : List (Cell α)) {p q : Nat} (other : q ≠ p) :
    live (release objects p) q = live objects q := by
  unfold live release
  rw [List.getElem?_modify_ne _ _ (Ne.symm other)]

/-- A released object is not live again, and nothing becomes live. -/
theorem live_release_cases {objects : List (Cell α)} {p q : Nat} {a : α}
    (h : live (release objects p) q = some a) : q ≠ p ∧ live objects q = some a := by
  by_cases same : q = p
  · rw [same, live_release_self] at h
    cases h
  · exact ⟨same, (live_release_of_ne objects same).symm.trans h⟩

theorem live_releaseSet_cases {objects : List (Cell α)} {p : Option Nat} {q : Nat} {a : α}
    (h : live (releaseSet objects p) q = some a) : p ≠ some q ∧ live objects q = some a := by
  cases p with
  | none => exact ⟨(Option.some_ne_none q).symm, h⟩
  | some p =>
    obtain ⟨other, old⟩ := live_release_cases h
    exact ⟨fun same => other (Option.some.inj same).symm, old⟩

theorem live_update_self (objects : List (Cell α)) (p : Nat) (f : α → α) :
    live (update objects p f) p = (live objects p).map f := by
  unfold live update
  rw [List.getElem?_modify_eq]
  rcases objects[p]? with _ | c
  · rfl
  · by_cases gone : c.released = true
    · simp [gone]
    · simp [gone]

theorem live_update_of_ne (objects : List (Cell α)) {p q : Nat} (other : q ≠ p) (f : α → α) :
    live (update objects p f) q = live objects q := by
  unfold live update
  rw [List.getElem?_modify_ne _ _ (Ne.symm other)]

end Objects
