import Mathlib.Data.List.Basic

namespace StreamRun

variable {σ τ ρ A α : Type*} {step : σ → ρ → Option (A × σ)} {spec : τ → ρ → A → τ → Prop}
  {ends : A → Prop} [DecidablePred ends]

/-- The replies to a list of requests, up to and including the first one that ends the stream. -/
def run (step : σ → ρ → Option (A × σ)) (ends : A → Prop) [DecidablePred ends] :
    σ → List ρ → Option (List A)
  | _, [] => some []
  | s, r :: rs =>
    (step s r).bind fun (a, s) =>
      if ends a then some [a] else (run step ends s rs).map (a :: ·)

omit [DecidablePred ends] in
/-- The replies are those of the specification, from one abstract state to another. -/
inductive Allows (spec : τ → ρ → A → τ → Prop) (ends : A → Prop) :
    τ → List ρ → List A → τ → Prop
  | done (t : τ) : Allows spec ends t [] [] t
  | last {t t' : τ} {r : ρ} {a : A} (rs : List ρ) (h : spec t r a t') (he : ends a) :
    Allows spec ends t (r :: rs) [a] t'
  | next {t t' t'' : τ} {r : ρ} {a : A} {rs : List ρ} {as : List A} (h : spec t r a t')
    (he : ¬ ends a) (rest : Allows spec ends t' rs as t'') :
    Allows spec ends t (r :: rs) (a :: as) t''

/-- If each reply of a represented state is allowed, and the states represent each other again
unless it ends the stream, then the replies of a run are allowed. -/
theorem run_allows {Represents : σ → τ → Prop}
    (reply : ∀ {s t} r, Represents s t → ∃ a s' t', step s r = some (a, s') ∧ spec t r a t' ∧
      (¬ ends a → Represents s' t'))
    {s : σ} {t : τ} (h : Represents s t) (rs : List ρ) :
    ∃ as t', run step ends s rs = some as ∧ Allows spec ends t rs as t' := by
  induction rs generalizing s t with
  | nil => exact ⟨[], t, rfl, .done t⟩
  | cons r rs ih =>
    obtain ⟨a, s', t', stepped, allowed, further⟩ := reply r h
    by_cases he : ends a
    · exact ⟨[a], t', by simp [run, stepped, he], .last rs allowed he⟩
    · obtain ⟨as, t'', ran, rest⟩ := ih (further he)
      exact ⟨a :: as, t'', by simp [run, stepped, he, ran], .next allowed he rest⟩

omit [DecidablePred ends] in
/-- What the replies take from a sequence, reply by reply, is the front of it. -/
theorem Allows.taken {spec : List α → ρ → A → List α → Prop} {take : ρ → A → List α}
    (taken : ∀ t r a t', spec t r a t' → t = take r a ++ t')
    {t t' : List α} {rs : List ρ} {as : List A} (h : Allows spec ends t rs as t') :
    t = (List.zipWith take rs as).flatten ++ t' := by
  induction h with
  | done t => rfl
  | last rs h he => simpa using taken _ _ _ _ h
  | next h he rest ih => rw [taken _ _ _ _ h, ih]; simp

omit [DecidablePred ends] in
theorem Allows.ended {spec : List α → ρ → A → List α → Prop}
    (ended : ∀ t r a t', spec t r a t' → ends a → t' = [])
    {t t' : List α} {rs : List ρ} {as : List A} (h : Allows spec ends t rs as t') {a : A}
    (ha : a ∈ as) (he : ends a) : t' = [] := by
  induction h with
  | done t => simp at ha
  | last rs h last => exact ended _ _ _ _ h last
  | next h not_last rest ih =>
    rcases List.mem_cons.mp ha with rfl | later
    · exact absurd he not_last
    · exact ih later

end StreamRun
