import Mathlib.Logic.Function.Iterate

namespace CallbackCode

inductive Result where
  | returned
  | raised
  deriving DecidableEq, Repr

/-- The code of a function that ends by itself: it acts on a state, and it calls back named
functions, which may or may not end. -/
inductive Code (σ ε : Type*) where
  | ret
  | raise
  | act (f : σ → σ) (next : σ → Code σ ε)
  | call (e : ε) (next : Result → Code σ ε)

variable {σ ε : Type*}

/-- What a call with a bound on its depth yields; `none` when the depth does not suffice. -/
abbrev Outcome (σ : Type*) := Option (Result × σ)

def Outcome.seq (first : Outcome σ) (next : σ → Outcome σ) : Outcome σ :=
  match first with
  | some (.returned, s) => next s
  | ended => ended

def Code.run (calls : ε → σ → Outcome σ) : Code σ ε → σ → Outcome σ
  | .ret, s => some (.returned, s)
  | .raise, s => some (.raised, s)
  | .act f next, s => (next (f s)).run calls (f s)
  | .call e next, s =>
    match calls e s with
    | none => none
    | some (r, s') => (next r).run calls s'

@[simp] theorem Outcome.seq_none (next : σ → Outcome σ) : Outcome.seq none next = none := rfl

/-- Every end of the one outcome is an end of the other. -/
def Outcome.Below (a b : Outcome σ) : Prop := ∀ r, a = some r → b = some r

theorem Outcome.Below.refl (a : Outcome σ) : a.Below a := fun _ h => h

theorem Outcome.Below.trans {a b c : Outcome σ} (h : a.Below b) (h' : b.Below c) : a.Below c :=
  fun r hr => h' r (h r hr)

theorem Outcome.Below.seq {a b : Outcome σ} {f g : σ → Outcome σ} (h : a.Below b)
    (rest : ∀ s, (f s).Below (g s)) : (a.seq f).Below (b.seq g) := by
  intro r hr
  match a with
  | none => simp at hr
  | some (.raised, s) =>
    rw [h _ rfl]
    exact hr
  | some (.returned, s) =>
    rw [h _ rfl]
    exact rest s r hr

/-- The one code and, where it returns, the other. -/
def Code.seq : Code σ ε → Code σ ε → Code σ ε
  | .ret, next => next
  | .raise, _ => .raise
  | .act f rest, next => .act f fun s => (rest s).seq next
  | .call e rest, next => .call e fun r => (rest r).seq next

/-- A call that passes an error on. -/
def Code.invoke (e : ε) : Code σ ε :=
  .call e fun
    | .returned => .ret
    | .raised => .raise

/-- Whatever the state and the results of its calls, the code calls allowed functions only. -/
def Code.Calls (allowed : ε → Prop) : Code σ ε → Prop
  | .ret => True
  | .raise => True
  | .act _ next => ∀ s, (next s).Calls allowed
  | .call e next => allowed e ∧ ∀ r, (next r).Calls allowed

theorem Code.Calls.seq {allowed : ε → Prop} {code next : Code σ ε} (h : code.Calls allowed)
    (h' : next.Calls allowed) : (code.seq next).Calls allowed := by
  induction code with
  | ret => exact h'
  | raise => trivial
  | act f rest ih => exact fun s => ih s (h s)
  | call e rest ih => exact ⟨h.1, fun r => ih r (h.2 r)⟩

theorem Code.Calls.invoke {allowed : ε → Prop} {e : ε} (h : allowed e) :
    (Code.invoke e : Code σ ε).Calls allowed := by
  refine ⟨h, ?_⟩
  rintro (_ | _) <;> trivial

end CallbackCode
