import Mathlib.Logic.Basic

namespace Simulation

variable {σ τ α β : Type*} {step : σ → α → Option (β × σ)} {step' : τ → α → Option (β × τ)}

/-- The replies to the actions one after the other, if each of them is possible. -/
def replies (step : σ → α → Option (β × σ)) : σ → List α → Option (List β)
  | _, [] => some []
  | s, a :: acts => (step s a).bind fun x => (replies step x.2 acts).map (x.1 :: ·)

/-- An action is impossible in both systems, or gives the same reply and related states. -/
def Matches (R : σ → τ → Prop) : Option (β × σ) → Option (β × τ) → Prop
  | none, none => True
  | some (b, s), some (b', t) => b = b' ∧ R s t
  | _, _ => False

/-- Systems whose steps match give the same replies. -/
theorem replies_eq {R : σ → τ → Prop} (matched : ∀ s t a, R s t → Matches R (step s a) (step' t a))
    {s : σ} {t : τ} (start : R s t) (acts : List α) :
    replies step s acts = replies step' t acts := by
  induction acts generalizing s t with
  | nil => rfl
  | cons a acts ih =>
    have both := matched s t a start
    rw [replies, replies]
    rcases h : step s a with _ | ⟨b, s'⟩
    · rcases h' : step' t a with _ | ⟨b', t'⟩
      · rfl
      · rw [h, h'] at both
        exact both.elim
    · rcases h' : step' t a with _ | ⟨b', t'⟩
      · rw [h, h'] at both
        exact both.elim
      · rw [h, h'] at both
        obtain ⟨rfl, related⟩ := both
        have later := ih related
        rw [Option.bind_some, Option.bind_some, later]

section Outputs

variable {step : σ → α → β × σ} {step' : τ → α → β × τ}

def outputs (step : σ → α → β × σ) : σ → List α → List β
  | _, [] => []
  | s, a :: acts => (step s a).1 :: outputs step (step s a).2 acts

def after (step : σ → α → β × σ) : σ → List α → σ
  | s, [] => s
  | s, a :: acts => after step (step s a).2 acts

theorem after_append (s : σ) (front back : List α) :
    after step s (front ++ back) = after step (after step s front) back := by
  induction front generalizing s with
  | nil => rfl
  | cons a front ih => exact ih (step s a).2

/-- A run of related systems, as long as the second one stays within a bound. -/
theorem outputs_eq {R : σ → τ → Prop} {bound : τ → Prop} {acts : List α}
    (matched : ∀ s t a, a ∈ acts → R s t → bound t →
      (step s a).1 = (step' t a).1 ∧ R (step s a).2 (step' t a).2)
    {s : σ} {t : τ} (start : R s t)
    (within : ∀ front, front <+: acts → bound (after step' t front)) :
    outputs step s acts = outputs step' t acts ∧ R (after step s acts) (after step' t acts) := by
  induction acts generalizing s t with
  | nil => exact ⟨rfl, start⟩
  | cons a acts ih =>
    obtain ⟨same, related⟩ := matched s t a List.mem_cons_self start (within [] List.nil_prefix)
    have later := ih (fun s t b member => matched s t b (List.mem_cons_of_mem a member)) related
      fun front before => within (a :: front) (List.cons_prefix_cons.mpr ⟨rfl, before⟩)
    rw [outputs, outputs, same, later.1]
    exact ⟨rfl, later.2⟩

end Outputs

end Simulation
