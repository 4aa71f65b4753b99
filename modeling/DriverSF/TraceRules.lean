import Mathlib.Logic.Relation

namespace Trace

variable {σ α : Type*} {step : σ → α → Option σ} {guard : σ → α → Prop}

/-- The state after performing the actions one by one, if each of them is possible. -/
def exec (step : σ → α → Option σ) : σ → List α → Option σ
  | s, [] => some s
  | s, a :: acts => (step s a).bind fun s' => exec step s' acts

/-- Every action of the run is performed in a state where the guard allows it. -/
def Obeys (step : σ → α → Option σ) (guard : σ → α → Prop) : σ → List α → Prop
  | _, [] => True
  | s, a :: acts =>
    guard s a ∧ match step s a with
      | none => True
      | some s' => Obeys step guard s' acts

/-- A property holds in every state of the run. -/
def Always (step : σ → α → Option σ) (good : σ → Prop) : σ → List α → Prop
  | s, [] => good s
  | s, a :: acts =>
    good s ∧ match step s a with
      | none => True
      | some s' => Always step good s' acts

instance Obeys.decidable [∀ s a, Decidable (guard s a)] :
    (s : σ) → (acts : List α) → Decidable (Obeys step guard s acts)
  | _, [] => inferInstanceAs (Decidable True)
  | s, a :: acts =>
    match h : step s a with
    | none => decidable_of_iff (guard s a) (by simp [Obeys, h])
    | some s' =>
      have := Obeys.decidable s' acts
      decidable_of_iff (guard s a ∧ Obeys step guard s' acts) (by simp [Obeys, h])

theorem exec_cons {s s' : σ} {a : α} {acts : List α} (h : exec step s (a :: acts) = some s') :
    ∃ t, step s a = some t ∧ exec step t acts = some s' :=
  Option.bind_eq_some_iff.mp h

theorem exec_append_eq (s : σ) (front back : List α) :
    exec step s (front ++ back) = (exec step s front).bind fun t => exec step t back := by
  induction front generalizing s with
  | nil => rfl
  | cons a front ih =>
    rw [List.cons_append, exec, exec, Option.bind_assoc]
    exact congrArg _ (funext ih)

theorem exec_append {s t u : σ} {front back : List α}
    (hf : exec step s front = some t) (hb : exec step t back = some u) :
    exec step s (front ++ back) = some u := by
  rw [exec_append_eq, hf]
  exact hb

/-- Some run of allowed actions leads from one state to the other. -/
def Reaches (step : σ → α → Option σ) (allowed : α → Prop) (s s' : σ) : Prop :=
  ∃ acts, (∀ a ∈ acts, allowed a) ∧ exec step s acts = some s'

theorem Reaches.trans {allowed : α → Prop} {s t u : σ} (front : Reaches step allowed s t)
    (back : Reaches step allowed t u) : Reaches step allowed s u := by
  obtain ⟨acts, ha, hf⟩ := front
  obtain ⟨acts', ha', hb⟩ := back
  refine ⟨acts ++ acts', ?_, exec_append hf hb⟩
  intro a h
  exact (List.mem_append.mp h).elim (ha a) (ha' a)

theorem Reaches.single {allowed : α → Prop} {s t : σ} {a : α} (ha : allowed a)
    (h : step s a = some t) : Reaches step allowed s t :=
  ⟨[a], by simpa using ha, by simp [exec, h]⟩

/-- Two guards that agree while an invariant holds allow the same runs. -/
theorem obeys_iff {inv : σ → Prop} {guard' : σ → α → Prop}
    (agree : ∀ s a, inv s → (guard s a ↔ guard' s a))
    (preserved : ∀ s a s', inv s → guard' s a → step s a = some s' → inv s')
    {s : σ} {acts : List α} (start : inv s) : Obeys step guard s acts ↔ Obeys step guard' s acts := by
  induction acts generalizing s with
  | nil => exact Iff.rfl
  | cons a acts ih =>
    simp only [Obeys, agree s a start]
    refine and_congr_right ?_
    intro allowed
    cases hs : step s a with
    | none => exact Iff.rfl
    | some s' => exact ih (preserved s a s' start allowed hs)

theorem obeys_of_forall {allowed : α → Prop} {s : σ} {acts : List α}
    (h : ∀ a ∈ acts, allowed a) : Obeys step (fun _ a => allowed a) s acts := by
  induction acts generalizing s with
  | nil => trivial
  | cons a acts ih =>
    refine ⟨h a List.mem_cons_self, ?_⟩
    cases step s a with
    | none => trivial
    | some s' => exact ih fun b hb => h b (List.mem_cons_of_mem a hb)

/-- A run keeps to the guard exactly if the guard allows every action after those before it. -/
theorem obeys_iff_forall_split {s : σ} {acts : List α} : Obeys step guard s acts ↔
    ∀ front a back t, acts = front ++ a :: back → exec step s front = some t → guard t a := by
  induction acts generalizing s with
  | nil => simp [Obeys]
  | cons b acts ih =>
    constructor
    · rintro ⟨hb, later⟩ front a back t split run
      cases front with
      | nil =>
        obtain ⟨rfl, rfl⟩ := List.cons.inj split
        cases Option.some.inj run
        exact hb
      | cons c front =>
        obtain ⟨rfl, rfl⟩ := List.cons.inj split
        obtain ⟨u, hu, run⟩ := exec_cons run
        rw [hu] at later
        exact ih.mp later front a back t rfl run
    · intro allowed
      refine ⟨allowed [] b acts s rfl rfl, ?_⟩
      cases hs : step s b with
      | none => trivial
      | some u =>
        refine ih.mpr ?_
        intro front a back t split run
        refine allowed (b :: front) a back t (congrArg (b :: ·) split) ?_
        rw [exec, hs]
        exact run

theorem Obeys.front {s : σ} {front back : List α} (h : Obeys step guard s (front ++ back)) :
    Obeys step guard s front := by
  rw [obeys_iff_forall_split] at h ⊢
  rintro before a after t rfl run
  exact h before a (after ++ back) t (by simp) run

theorem Obeys.and {guard' : σ → α → Prop} {s : σ} {acts : List α} (h : Obeys step guard s acts)
    (h' : Obeys step guard' s acts) : Obeys step (fun s a => guard s a ∧ guard' s a) s acts := by
  induction acts generalizing s with
  | nil => trivial
  | cons a acts ih =>
    obtain ⟨ha, later⟩ := h
    obtain ⟨ha', later'⟩ := h'
    refine ⟨⟨ha, ha'⟩, ?_⟩
    cases hs : step s a with
    | none => trivial
    | some s' =>
      rw [hs] at later later'
      exact ih later later'

/-- If every allowed action is possible, then so is every run of allowed actions. -/
theorem exec_of_obeys (possible : ∀ s a, guard s a → ∃ s', step s a = some s') {s : σ}
    {acts : List α} (allowed : Obeys step guard s acts) : ∃ s', exec step s acts = some s' := by
  induction acts generalizing s with
  | nil => exact ⟨s, rfl⟩
  | cons a acts ih =>
    obtain ⟨ha, later⟩ := allowed
    obtain ⟨t, ht⟩ := possible s a ha
    rw [ht] at later
    obtain ⟨s', run⟩ := ih later
    exact ⟨s', by simpa [exec, ht] using run⟩

/-- What every allowed step preserves holds after every run of allowed steps. -/
theorem exec_preserves {inv : σ → Prop}
    (preserved : ∀ s a s', inv s → guard s a → step s a = some s' → inv s')
    {s s' : σ} {acts : List α} (start : inv s) (allowed : Obeys step guard s acts)
    (run : exec step s acts = some s') : inv s' := by
  induction acts generalizing s with
  | nil => cases Option.some.inj run; exact start
  | cons a acts ih =>
    obtain ⟨t, ht, run⟩ := exec_cons run
    obtain ⟨ha, allowed⟩ := allowed
    simp only [ht] at allowed
    exact ih (preserved s a t start ha ht) allowed run

theorem Always.head {good : σ → Prop} {s : σ} {acts : List α} (h : Always step good s acts) :
    good s := by
  cases acts with
  | nil => exact h
  | cons a acts => exact h.1

/-- If the guard keeps an invariant and a step against the guard always breaks the property,
then the property holds throughout a run exactly when the run keeps to the guard. -/
theorem always_iff_obeys {inv good : σ → Prop} (holds : ∀ s, inv s → good s)
    (preserved : ∀ s a s', inv s → guard s a → step s a = some s' → inv s')
    (needed : ∀ s a s', inv s → step s a = some s' → good s' → guard s a)
    {s s' : σ} {acts : List α} (start : inv s) (run : exec step s acts = some s') :
    Always step good s acts ↔ Obeys step guard s acts := by
  induction acts generalizing s with
  | nil => exact ⟨fun _ => trivial, fun _ => holds s start⟩
  | cons a acts ih =>
    obtain ⟨t, ht, run⟩ := exec_cons run
    simp only [Always, Obeys, ht]
    constructor
    · intro ⟨_, later⟩
      have allowed := needed s a t start ht later.head
      exact ⟨allowed, (ih (preserved s a t start allowed ht) run).mp later⟩
    · intro ⟨allowed, later⟩
      exact ⟨holds s start, (ih (preserved s a t start allowed ht) run).mpr later⟩

theorem exec_invariant {inv : σ → Prop}
    (preserved : ∀ s a s', inv s → step s a = some s' → inv s')
    {s s' : σ} {acts : List α} (start : inv s) (run : exec step s acts = some s') : inv s' :=
  exec_preserves (fun s a s' hi _ hs => preserved s a s' hi hs) start
    (obeys_of_forall (fun _ _ => trivial)) run

/-- If every allowed step is seen as some moves of an abstract system, so is every run. -/
theorem exec_refines {τ : Type*} {move : τ → τ → Prop} {view : σ → τ} {inv : σ → Prop}
    (preserved : ∀ s a s', inv s → guard s a → step s a = some s' → inv s')
    (refined : ∀ s a s', inv s → guard s a → step s a = some s' →
      Relation.ReflTransGen move (view s) (view s'))
    {s s' : σ} {acts : List α} (start : inv s) (allowed : Obeys step guard s acts)
    (run : exec step s acts = some s') : Relation.ReflTransGen move (view s) (view s') := by
  have both : ∀ t a t', inv t ∧ Relation.ReflTransGen move (view s) (view t) → guard t a →
      step t a = some t' → inv t' ∧ Relation.ReflTransGen move (view s) (view t') := by
    intro t a t' ht ha hs
    exact ⟨preserved t a t' ht.1 ha hs, ht.2.trans (refined t a t' ht.1 ha hs)⟩
  exact (exec_preserves both ⟨start, .refl⟩ allowed run).2

end Trace
