import Mathlib.Data.List.Basic
import DriverSF.TraceRules

namespace SharedLock

/-- A step inside a section goes on, ends the section, or never returns. -/
inductive Move (α : Type*) where
  | next (a : α)
  | done
  | crash

/-- How the requests of one kind read the data, and how those of the other kind change it, step by
step. -/
structure Sections (α β ρ ω σ : Type*) where
  beginRead : α → ρ
  read : ρ → σ → Move ρ
  beginWrite : β → ω
  write : ω → σ → Move (ω × σ)

/-- Where a thread is; `before` are the writes that had ended when it got the lock. -/
inductive Phase (α β ρ ω : Type*) where
  | outside
  | reading (before : List β) (request : α) (now : ρ)
  | writing (request : β) (now : ω)

structure Reading (α β ρ : Type*) where
  before : List β
  request : α
  last : ρ

/-- The lock, held by one writer or by a number of readers, the data and the threads. The writes
and the readings that have ended are recorded. -/
structure State (α β ρ ω σ : Type*) where
  exclusive : Bool
  shared : Nat
  data : σ
  threads : List (Phase α β ρ ω)
  written : List β
  seen : List (Reading α β ρ)

inductive Action (α β : Type*) where
  | lock (i : Nat) (request : β)
  | lockShared (i : Nat) (request : α)
  | advance (i : Nat)

variable {α β ρ ω σ : Type*}

/-- A thread that cannot get the lock waits, and after a crash there are no further steps. -/
def step (S : Sections α β ρ ω σ) (s : State α β ρ ω σ) : Action α β → Option (State α β ρ ω σ)
  | .lock i request =>
    match s.threads[i]? with
    | some .outside =>
      if s.exclusive = false ∧ s.shared = 0 then
        some { s with
          exclusive := true
          threads := s.threads.set i (.writing request (S.beginWrite request)) }
      else none
    | _ => none
  | .lockShared i request =>
    match s.threads[i]? with
    | some .outside =>
      if s.exclusive = false then
        some { s with
          shared := s.shared + 1
          threads := s.threads.set i (.reading s.written request (S.beginRead request)) }
      else none
    | _ => none
  | .advance i =>
    match s.threads[i]? with
    | some (.reading before request now) =>
      match S.read now s.data with
      | .next r => some { s with threads := s.threads.set i (.reading before request r) }
      | .done =>
        some { s with
          shared := s.shared - 1
          threads := s.threads.set i .outside
          seen := s.seen ++ [⟨before, request, now⟩] }
      | .crash => none
    | some (.writing request now) =>
      match S.write now s.data with
      | .next (w, d) => some { s with data := d, threads := s.threads.set i (.writing request w) }
      | .done =>
        some { s with
          exclusive := false
          threads := s.threads.set i .outside
          written := s.written ++ [request] }
      | .crash => none
    | _ => none

def start (n : Nat) (data : σ) : State α β ρ ω σ where
  exclusive := false
  shared := 0
  data := data
  threads := List.replicate n .outside
  written := []
  seen := []

section Alone

variable (S : Sections α β ρ ω σ)

/-- Some steps of a reader, over data that stays the same. -/
inductive ReadSteps (d : σ) : ρ → ρ → Prop
  | refl (r : ρ) : ReadSteps d r r
  | tail {r r' r'' : ρ} (front : ReadSteps d r r') (last : S.read r' d = .next r'') :
      ReadSteps d r r''

/-- Some steps of a writer that is alone. -/
inductive WriteSteps : ω × σ → ω × σ → Prop
  | refl (x : ω × σ) : WriteSteps x x
  | tail {x y z : ω × σ} (front : WriteSteps x y) (last : S.write y.1 y.2 = .next z) :
      WriteSteps x z

/-- What a request reads alone, up to its end. -/
def ReadsAlone (d : σ) (request : α) (last : ρ) : Prop :=
  ReadSteps S d (S.beginRead request) last ∧ S.read last d = .done

/-- The data that a writer leaves at the end of its section, if it is alone. -/
def Ends (x : ω × σ) (d' : σ) : Prop :=
  ∃ now, WriteSteps S x (now, d') ∧ S.write now d' = .done

/-- How a request changes the data alone. -/
def WritesAlone (request : β) (d d' : σ) : Prop := Ends S (S.beginWrite request, d) d'

/-- The data after some requests, one after the other. -/
inductive Replay (d : σ) : List β → σ → Prop
  | nil : Replay d [] d
  | snoc {requests : List β} {request : β} {d' d'' : σ} (front : Replay d requests d')
      (last : WritesAlone S request d' d'') : Replay d (requests ++ [request]) d''

variable {S}

theorem WriteSteps.first {x z : ω × σ} (h : WriteSteps S x z) :
    x = z ∨ ∃ y, S.write x.1 x.2 = .next y ∧ WriteSteps S y z := by
  induction h with
  | refl => exact Or.inl rfl
  | tail front last ih =>
    rcases ih with rfl | ⟨y, first, later⟩
    · exact Or.inr ⟨_, last, .refl _⟩
    · exact Or.inr ⟨y, first, later.tail last⟩

theorem Ends.of_next {x y : ω × σ} {d' : σ} (h : Ends S x d') (next : S.write x.1 x.2 = .next y) :
    Ends S y d' := by
  obtain ⟨now, steps, last⟩ := h
  rcases steps.first with rfl | ⟨y', first, later⟩
  · rw [next] at last
    cases last
  · obtain rfl := Move.next.inj (next.symm.trans first)
    exact ⟨now, later, last⟩

theorem Ends.of_done {x : ω × σ} {d' : σ} (h : Ends S x d') (done : S.write x.1 x.2 = .done) :
    d' = x.2 := by
  obtain ⟨now, steps, last⟩ := h
  rcases steps.first with rfl | ⟨y, first, _⟩
  · rfl
  · rw [done] at first
    cases first

theorem Ends.not_crash {x : ω × σ} {d' : σ} (h : Ends S x d') : S.write x.1 x.2 ≠ .crash := by
  intro crash
  obtain ⟨now, steps, last⟩ := h
  rcases steps.first with rfl | ⟨y, first, _⟩
  · rw [crash] at last
    cases last
  · rw [crash] at first
    cases first

end Alone

def Phase.isReading : Phase α β ρ ω → Bool
  | .reading _ _ _ => true
  | _ => false

def Phase.isWriting : Phase α β ρ ω → Bool
  | .writing _ _ => true
  | _ => false

/-- A thread inside a section is as far as it would be alone, from the data that the writes before
have left. -/
def Phase.Alone (S : Sections α β ρ ω σ) (written : List β) (d data : σ) : Phase α β ρ ω → Prop
  | .outside => True
  | .reading before request now => before = written ∧ ReadSteps S d (S.beginRead request) now
  | .writing request now => WriteSteps S (S.beginWrite request, d) (now, data)

structure Inv (S : Sections α β ρ ω σ) (d₀ : σ) (s : State α β ρ ω σ) : Prop where
  readers : s.threads.countP Phase.isReading = s.shared
  writers : s.threads.countP Phase.isWriting = s.exclusive.toNat
  apart : s.exclusive = true → s.shared = 0
  alone : ∃ d, Replay S d₀ s.written d ∧ (s.exclusive = false → s.data = d) ∧
    ∀ (i : Nat) t, s.threads[i]? = some t → t.Alone S s.written d s.data
  seen : ∀ e ∈ s.seen, e.before <+: s.written ∧
    ∃ d, Replay S d₀ e.before d ∧ ReadsAlone S d e.request e.last
  order : s.seen.Pairwise fun e e' => e.before <+: e'.before

/-- What a step does: a thread gets the lock, advances inside its section or leaves it. -/
theorem step_cases {S : Sections α β ρ ω σ} {s s' : State α β ρ ω σ} {a : Action α β}
    (h : step S s a = some s') :
    (∃ i request, s.threads[i]? = some .outside ∧ s.exclusive = false ∧ s.shared = 0 ∧
      s' = { s with
        exclusive := true
        threads := s.threads.set i (.writing request (S.beginWrite request)) }) ∨
    (∃ i request, s.threads[i]? = some .outside ∧ s.exclusive = false ∧
      s' = { s with
        shared := s.shared + 1
        threads := s.threads.set i (.reading s.written request (S.beginRead request)) }) ∨
    (∃ i before request now r, s.threads[i]? = some (.reading before request now) ∧
      S.read now s.data = .next r ∧
      s' = { s with threads := s.threads.set i (.reading before request r) }) ∨
    (∃ i before request now, s.threads[i]? = some (.reading before request now) ∧
      S.read now s.data = .done ∧
      s' = { s with
        shared := s.shared - 1
        threads := s.threads.set i .outside
        seen := s.seen ++ [⟨before, request, now⟩] }) ∨
    (∃ i request now w d, s.threads[i]? = some (.writing request now) ∧
      S.write now s.data = .next (w, d) ∧
      s' = { s with data := d, threads := s.threads.set i (.writing request w) }) ∨
    (∃ i request now, s.threads[i]? = some (.writing request now) ∧
      S.write now s.data = .done ∧
      s' = { s with
        exclusive := false
        threads := s.threads.set i .outside
        written := s.written ++ [request] }) := by
  cases a with
  | lock i request =>
    simp only [step] at h
    split at h
    next thread =>
      split at h
      next free => exact Or.inl ⟨i, request, thread, free.1, free.2, (Option.some.inj h).symm⟩
      next => cases h
    next => cases h
  | lockShared i request =>
    simp only [step] at h
    split at h
    next thread =>
      split at h
      next free =>
        exact Or.inr (Or.inl ⟨i, request, thread, free, (Option.some.inj h).symm⟩)
      next => cases h
    next => cases h
  | advance i =>
    simp only [step] at h
    split at h
    next before request now thread =>
      split at h
      next r read =>
        exact Or.inr (Or.inr (Or.inl ⟨i, before, request, now, r, thread, read,
          (Option.some.inj h).symm⟩))
      next read =>
        exact Or.inr (Or.inr (Or.inr (Or.inl ⟨i, before, request, now, thread, read,
          (Option.some.inj h).symm⟩)))
      next => cases h
    next request now thread =>
      split at h
      next w d write =>
        exact Or.inr (Or.inr (Or.inr (Or.inr (Or.inl ⟨i, request, now, w, d, thread, write,
          (Option.some.inj h).symm⟩))))
      next write =>
        exact Or.inr (Or.inr (Or.inr (Or.inr (Or.inr ⟨i, request, now, thread, write,
          (Option.some.inj h).symm⟩))))
      next => cases h
    next => cases h

section Threads

variable {threads : List (Phase α β ρ ω)} {i : Nat} {t : Phase α β ρ ω}

/-- Moving one thread changes a count by the thread before and behind the move. -/
theorem countP_move (t' : Phase α β ρ ω) (p : Phase α β ρ ω → Bool)
    (thread : threads[i]? = some t) :
    (threads.set i t').countP p + (p t).toNat = threads.countP p + (p t').toNat := by
  obtain ⟨inside, same⟩ := List.getElem?_eq_some_iff.mp thread
  have least : (if p threads[i] then 1 else 0) ≤ threads.countP p :=
    List.boole_getElem_le_countP inside
  rw [List.countP_set inside]
  rw [same] at least ⊢
  generalize threads.countP p = n at least ⊢
  generalize p t = b at least ⊢
  cases b <;> cases p t' <;> simp at least ⊢ <;> omega

/-- If one thread writes, then no other does. -/
theorem eq_of_writing {t' : Phase α β ρ ω} (one : threads.countP Phase.isWriting = 1) {j : Nat}
    (here : threads[i]? = some t) (there : threads[j]? = some t') (ht : t.isWriting = true)
    (ht' : t'.isWriting = true) : i = j := by
  by_contra other
  have moved := countP_move .outside Phase.isWriting here
  rw [ht, one] at moved
  have still : (threads.set i .outside)[j]? = some t' := by
    rw [List.getElem?_set_ne other]
    exact there
  have some_left := List.countP_pos_iff.mpr ⟨t', List.mem_of_getElem? still, ht'⟩
  have none_outside : (Phase.outside : Phase α β ρ ω).isWriting.toNat = 0 := rfl
  rw [none_outside, Bool.toNat_true] at moved
  omega

end Threads

section Run

variable {S : Sections α β ρ ω σ} {d₀ : σ} {s s' : State α β ρ ω σ}

theorem inv_start (n : Nat) : Inv S d₀ (start n d₀) where
  readers := List.countP_eq_zero.mpr fun t ht => by
    rw [List.eq_of_mem_replicate ht]
    exact Bool.false_ne_true
  writers := List.countP_eq_zero.mpr fun t ht => by
    rw [List.eq_of_mem_replicate ht]
    exact Bool.false_ne_true
  apart := fun h => absurd h Bool.false_ne_true
  alone := by
    refine ⟨d₀, .nil, fun _ => rfl, fun i t thread => ?_⟩
    rw [List.eq_of_mem_replicate (List.mem_of_getElem? thread)]
    trivial
  seen := fun e he => nomatch he
  order := List.Pairwise.nil

/-- While a thread reads, the data stay as the writes have left them. -/
theorem Inv.reading (h : Inv S d₀ s) {i : Nat} {before : List β} {request : α} {now : ρ}
    (thread : s.threads[i]? = some (.reading before request now)) : s.exclusive = false := by
  have some_reader := List.countP_pos_iff.mpr
    ⟨_, List.mem_of_getElem? thread, (rfl : Phase.isReading (.reading before request now) = true)⟩
  rw [h.readers] at some_reader
  cases held : s.exclusive with
  | false => rfl
  | true =>
    have apart := h.apart held
    omega

theorem Inv.writing (h : Inv S d₀ s) {i : Nat} {request : β} {now : ω}
    (thread : s.threads[i]? = some (.writing request now)) :
    s.exclusive = true ∧ s.shared = 0 := by
  have some_writer := List.countP_pos_iff.mpr
    ⟨_, List.mem_of_getElem? thread, (rfl : Phase.isWriting (.writing request now) = true)⟩
  rw [h.writers] at some_writer
  cases held : s.exclusive with
  | false =>
    rw [held] at some_writer
    exact absurd some_writer (Nat.lt_irrefl 0)
  | true => exact ⟨rfl, h.apart held⟩

/-- What holds of the other threads holds of all, if it holds of the one that has moved. -/
theorem moved_alone {threads : List (Phase α β ρ ω)} {i : Nat} {t' : Phase α β ρ ω}
    {good : Phase α β ρ ω → Prop} (others : ∀ j t, j ≠ i → threads[j]? = some t → good t)
    (moved : good t') (j : Nat) (t : Phase α β ρ ω) (h : (threads.set i t')[j]? = some t) :
    good t := by
  by_cases same : i = j
  · subst same
    rw [List.getElem?_set_self'] at h
    obtain ⟨_, _, rfl⟩ := Option.map_eq_some_iff.mp h
    exact moved
  · rw [List.getElem?_set_ne same] at h
    exact others j t (Ne.symm same) h

/-- While a thread writes, all others are outside. -/
theorem Inv.others_outside (h : Inv S d₀ s) {i : Nat} {request : β} {now : ω}
    (thread : s.threads[i]? = some (.writing request now)) {j : Nat} {t : Phase α β ρ ω}
    (other : j ≠ i) (there : s.threads[j]? = some t) : t = .outside := by
  obtain ⟨held, none_shared⟩ := h.writing thread
  cases t with
  | outside => rfl
  | reading before request' now' =>
    have free := h.reading there
    rw [held] at free
    cases free
  | writing request' now' =>
    have one : s.threads.countP Phase.isWriting = 1 := by
      rw [h.writers, held]
      rfl
    exact absurd (eq_of_writing one there thread rfl rfl) other

theorem Inv.lock (h : Inv S d₀ s) {i : Nat} (request : β) (thread : s.threads[i]? = some .outside)
    (free : s.exclusive = false) (unshared : s.shared = 0) :
    Inv S d₀ { s with
      exclusive := true
      threads := s.threads.set i (.writing request (S.beginWrite request)) } := by
  have readers := countP_move (.writing request (S.beginWrite request)) Phase.isReading thread
  have writers := countP_move (.writing request (S.beginWrite request)) Phase.isWriting thread
  obtain ⟨d, replay, data, alone⟩ := h.alone
  refine ⟨readers.trans h.readers, ?_, fun _ => unshared, ⟨d, replay, ?_, ?_⟩, h.seen, h.order⟩
  · rw [h.writers, free] at writers
    exact writers
  · exact fun held => nomatch held
  · refine moved_alone (fun j t _ there => alone j t there) ?_
    show WriteSteps S (S.beginWrite request, d) (S.beginWrite request, s.data)
    rw [data free]
    exact .refl _

theorem Inv.lockShared (h : Inv S d₀ s) {i : Nat} (request : α)
    (thread : s.threads[i]? = some .outside) (free : s.exclusive = false) :
    Inv S d₀ { s with
      shared := s.shared + 1
      threads := s.threads.set i (.reading s.written request (S.beginRead request)) } := by
  have readers := countP_move (.reading s.written request (S.beginRead request)) Phase.isReading thread
  have writers := countP_move (.reading s.written request (S.beginRead request)) Phase.isWriting thread
  obtain ⟨d, replay, data, alone⟩ := h.alone
  refine ⟨?_, writers.trans h.writers, ?_, ⟨d, replay, data, ?_⟩, h.seen, h.order⟩
  · rw [h.readers] at readers
    exact readers
  · intro held
    rw [free] at held
    cases held
  · exact moved_alone (fun j t _ there => alone j t there) ⟨rfl, .refl _⟩

theorem Inv.readNext (h : Inv S d₀ s) {i : Nat} {before : List β} {request : α} {now r : ρ}
    (thread : s.threads[i]? = some (.reading before request now))
    (read : S.read now s.data = .next r) :
    Inv S d₀ { s with threads := s.threads.set i (.reading before request r) } := by
  have readers := countP_move (.reading before request r) Phase.isReading thread
  have writers := countP_move (.reading before request r) Phase.isWriting thread
  obtain ⟨d, replay, data, alone⟩ := h.alone
  refine ⟨?_, writers.trans h.writers, h.apart, ⟨d, replay, data, ?_⟩, h.seen, h.order⟩
  · exact (Nat.add_right_cancel readers).trans h.readers
  · obtain ⟨current, steps⟩ := alone i _ thread
    rw [data (h.reading thread)] at read
    exact moved_alone (fun j t _ there => alone j t there) ⟨current, steps.tail read⟩

theorem Inv.readDone (h : Inv S d₀ s) {i : Nat} {before : List β} {request : α} {now : ρ}
    (thread : s.threads[i]? = some (.reading before request now))
    (read : S.read now s.data = .done) :
    Inv S d₀ { s with
      shared := s.shared - 1
      threads := s.threads.set i .outside
      seen := s.seen ++ [⟨before, request, now⟩] } := by
  have readers := countP_move .outside Phase.isReading thread
  have writers := countP_move .outside Phase.isWriting thread
  have free := h.reading thread
  obtain ⟨d, replay, data, alone⟩ := h.alone
  obtain ⟨rfl, steps⟩ := alone i _ thread
  rw [data free] at read
  refine ⟨?_, writers.trans h.writers, ?_, ⟨d, replay, data, ?_⟩, ?_, ?_⟩
  · have less : (s.threads.set i .outside).countP Phase.isReading + 1 = s.shared :=
      readers.trans h.readers
    exact Nat.eq_sub_of_add_eq less
  · intro held
    rw [free] at held
    cases held
  · exact moved_alone (fun j t _ there => alone j t there) trivial
  · intro e he
    rcases List.mem_append.mp he with old | new
    · exact h.seen e old
    · obtain rfl := List.mem_singleton.mp new
      exact ⟨List.prefix_refl _, d, replay, steps, read⟩
  · refine List.pairwise_append.mpr ⟨h.order, List.pairwise_singleton _ _, ?_⟩
    intro e he e' he'
    obtain rfl := List.mem_singleton.mp he'
    exact (h.seen e he).1

theorem Inv.writeNext (h : Inv S d₀ s) {i : Nat} {request : β} {now w : ω} {d' : σ}
    (thread : s.threads[i]? = some (.writing request now))
    (write : S.write now s.data = .next (w, d')) :
    Inv S d₀ { s with data := d', threads := s.threads.set i (.writing request w) } := by
  have readers := countP_move (.writing request w) Phase.isReading thread
  have writers := countP_move (.writing request w) Phase.isWriting thread
  obtain ⟨held, unshared⟩ := h.writing thread
  obtain ⟨d, replay, _, alone⟩ := h.alone
  refine ⟨readers.trans h.readers, ?_, h.apart, ⟨d, replay, ?_, ?_⟩, h.seen, h.order⟩
  · exact (Nat.add_right_cancel writers).trans h.writers
  · intro free
    rw [held] at free
    cases free
  · refine moved_alone (fun j t other there => ?_) ?_
    · rw [h.others_outside thread other there]
      trivial
    · exact WriteSteps.tail (alone i _ thread) write

theorem Inv.writeDone (h : Inv S d₀ s) {i : Nat} {request : β} {now : ω}
    (thread : s.threads[i]? = some (.writing request now)) (write : S.write now s.data = .done) :
    Inv S d₀ { s with
      exclusive := false
      threads := s.threads.set i .outside
      written := s.written ++ [request] } := by
  have readers := countP_move .outside Phase.isReading thread
  have writers := countP_move .outside Phase.isWriting thread
  obtain ⟨held, unshared⟩ := h.writing thread
  obtain ⟨d, replay, _, alone⟩ := h.alone
  refine ⟨readers.trans h.readers, ?_, fun _ => unshared,
    ⟨s.data, replay.snoc ⟨now, alone i _ thread, write⟩, fun _ => rfl, ?_⟩, ?_, h.order⟩
  · have less : (s.threads.set i .outside).countP Phase.isWriting + 1 = 1 := by
      rw [h.writers, held] at writers
      exact writers
    exact Nat.succ.inj less
  · refine moved_alone (fun j t other there => ?_) trivial
    rw [h.others_outside thread other there]
    trivial
  · intro e he
    obtain ⟨front, replayed⟩ := h.seen e he
    exact ⟨front.trans (List.prefix_append _ _), replayed⟩

theorem inv_step {a : Action α β} (h : Inv S d₀ s) (hs : step S s a = some s') : Inv S d₀ s' := by
  rcases step_cases hs with ⟨i, request, thread, free, unshared, rfl⟩ |
    ⟨i, request, thread, free, rfl⟩ | ⟨i, before, request, now, r, thread, read, rfl⟩ |
    ⟨i, before, request, now, thread, read, rfl⟩ |
    ⟨i, request, now, w, d, thread, write, rfl⟩ | ⟨i, request, now, thread, write, rfl⟩
  · exact h.lock request thread free unshared
  · exact h.lockShared request thread free
  · exact h.readNext thread read
  · exact h.readDone thread read
  · exact h.writeNext thread write
  · exact h.writeDone thread write

theorem inv_run {n : Nat} {acts : List (Action α β)}
    (run : Trace.exec (step S) (start n d₀) acts = some s) : Inv S d₀ s :=
  Trace.exec_invariant (fun _ _ _ h hs => inv_step h hs) (inv_start n) run

/-- The lock is free when no thread is inside a section. -/
theorem Inv.unlocked (h : Inv S d₀ s) (outside : ∀ t ∈ s.threads, t = .outside) :
    s.exclusive = false ∧ s.shared = 0 := by
  have no_reader : s.threads.countP Phase.isReading = 0 :=
    List.countP_eq_zero.mpr fun t ht => by
      rw [outside t ht]
      exact Bool.false_ne_true
  have no_writer : s.threads.countP Phase.isWriting = 0 :=
    List.countP_eq_zero.mpr fun t ht => by
      rw [outside t ht]
      exact Bool.false_ne_true
  rw [h.readers] at no_reader
  rw [h.writers] at no_writer
  refine ⟨?_, no_reader⟩
  cases held : s.exclusive with
  | false => rfl
  | true =>
    rw [held] at no_writer
    cases no_writer

end Run

end SharedLock
