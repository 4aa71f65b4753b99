import Mathlib.Logic.Basic

namespace StateRules

variable {σ τ ε ε' α β : Type}

section Posts

variable {m : StateT σ (Except ε) α} {f : α → StateT σ (Except ε) β} {s : σ}
  {fails fails' : ε → Prop} {post post' : α → σ → Prop} {post₂ : β → σ → Prop}

/-- A program ends as `post` says, or fails as `fails` says. -/
def Meets (fails : ε → Prop) (m : StateT σ (Except ε) α) (s : σ) (post : α → σ → Prop) : Prop :=
  match m s with
  | .ok (a, s') => post a s'
  | .error e => fails e

theorem Meets.pure {a : α} (h : post a s) : Meets fails (Pure.pure a) s post := h

theorem Meets.of_ok {a : α} {s' : σ} (run : m s = .ok (a, s')) (h : post a s') :
    Meets fails m s post := by
  unfold Meets
  rw [run]
  exact h

theorem Meets.of_error {e : ε} (run : m s = .error e) (h : fails e) : Meets fails m s post := by
  unfold Meets
  rw [run]
  exact h

theorem Meets.mono (h : Meets fails m s post) (ends : ∀ a s', post a s' → post' a s')
    (stops : ∀ e, fails e → fails' e) : Meets fails' m s post' := by
  unfold Meets at h ⊢
  split
  · next a s' run =>
    rw [run] at h
    exact ends a s' h
  · next e run =>
    rw [run] at h
    exact stops e h

theorem Meets.bind (first : Meets fails m s post)
    (next : ∀ a s', post a s' → Meets fails (f a) s' post₂) : Meets fails (m >>= f) s post₂ := by
  unfold Meets at first
  cases run : m s with
  | ok x =>
    obtain ⟨a, s'⟩ := x
    rw [run] at first
    have later := next a s' first
    have both : (m >>= f) s = f a s' := by
      show (m s >>= fun x => f x.1 x.2) = _
      rw [run]
      rfl
    unfold Meets at later ⊢
    rw [both]
    exact later
  | error e =>
    rw [run] at first
    refine Meets.of_error (e := e) ?_ first
    show (m s >>= fun x => f x.1 x.2) = _
    rw [run]
    rfl

theorem Meets.after {a : α} {s' : σ} (run : m s = .ok (a, s'))
    (next : Meets fails (f a) s' post₂) : Meets fails (m >>= f) s post₂ := by
  have first : Meets fails m s fun b t => b = a ∧ t = s' := Meets.of_ok run ⟨rfl, rfl⟩
  refine first.bind fun b t same => ?_
  rw [same.1, same.2]
  exact next

theorem Meets.ite {c : Prop} [Decidable c] {m' : StateT σ (Except ε) α}
    (yes : c → Meets fails m s post) (no : ¬c → Meets fails m' s post) :
    Meets fails (if c then m else m') s post := by
  by_cases h : c
  · rw [if_pos h]
    exact yes h
  · rw [if_neg h]
    exact no h

theorem Meets.result {a : α} {s' : σ} (h : Meets fails m s post) (run : m s = .ok (a, s')) :
    post a s' := by
  unfold Meets at h
  rwa [run] at h

theorem Meets.self : Meets (fun _ => True) m s fun a s' => m s = .ok (a, s') := by
  unfold Meets
  split
  · next a s' run => exact run
  · trivial

/-- A program that does not fail ends. -/
theorem Meets.total (h : Meets (fun _ => False) m s post) :
    ∃ a s', m s = .ok (a, s') ∧ post a s' := by
  cases run : m s with
  | ok x => exact ⟨x.1, x.2, rfl, h.result run⟩
  | error e =>
    unfold Meets at h
    rw [run] at h
    exact h.elim

end Posts

section Pairs

variable {R : σ → τ → Prop} {E : ε → ε' → Prop} {stop : ε'} {m : StateT σ (Except ε) α}
  {m' : StateT τ (Except ε') α} {f : α → StateT σ (Except ε) β} {f' : α → StateT τ (Except ε') β}

/-- The first program does what the second one does, as long as this one does not stop. -/
def Mimics (R : σ → τ → Prop) (E : ε → ε' → Prop) (stop : ε') (m : StateT σ (Except ε) α)
    (m' : StateT τ (Except ε') α) : Prop :=
  ∀ s t, R s t → m' t = .error stop ∨
    (∃ e e', m s = .error e ∧ m' t = .error e' ∧ E e e') ∨
    ∃ a s' t', m s = .ok (a, s') ∧ m' t = .ok (a, t') ∧ R s' t'

theorem Mimics.pure (a : α) : Mimics R E stop (Pure.pure a) (Pure.pure a) :=
  fun s t related => Or.inr (Or.inr ⟨a, s, t, rfl, rfl, related⟩)

theorem Mimics.bind (first : Mimics R E stop m m') (next : ∀ a, Mimics R E stop (f a) (f' a)) :
    Mimics R E stop (m >>= f) (m' >>= f') := by
  intro s t related
  have left : (m >>= f) s = m s >>= fun x => f x.1 x.2 := rfl
  have right : (m' >>= f') t = m' t >>= fun x => f' x.1 x.2 := rfl
  rw [left, right]
  rcases first s t related with stopped | ⟨e, e', run, run', same⟩ | ⟨a, s', t', run, run', related'⟩
  · rw [stopped]
    exact Or.inl rfl
  · rw [run, run']
    exact Or.inr (Or.inl ⟨e, e', rfl, rfl, same⟩)
  · rw [run, run']
    exact next a s' t' related'

theorem Mimics.ite {c : Prop} [Decidable c] {n : StateT σ (Except ε) α}
    {n' : StateT τ (Except ε') α} (yes : Mimics R E stop m m') (no : Mimics R E stop n n') :
    Mimics R E stop (if c then m else n) (if c then m' else n') := by
  by_cases h : c
  · rw [if_pos h, if_pos h]
    exact yes
  · rw [if_neg h, if_neg h]
    exact no

end Pairs

end StateRules
