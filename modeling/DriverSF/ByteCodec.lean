import Mathlib.Algebra.Group.Nat.Defs
import Mathlib.Data.List.Basic

namespace ByteCodec

/-- The `width` low bytes of a number, the lowest first. -/
def encode : Nat → Nat → List UInt8
  | 0, _ => []
  | width + 1, n => UInt8.ofNat n :: encode width (n / 256)

def decode (code : List UInt8) : Nat := code.foldr (fun b n => b.toNat + 256 * n) 0

@[simp] theorem length_encode (width n : Nat) : (encode width n).length = width := by
  induction width generalizing n with
  | zero => rfl
  | succ width ih => rw [encode, List.length_cons, ih]

theorem decode_encode {width n : Nat} (small : n < 256 ^ width) : decode (encode width n) = n := by
  induction width generalizing n with
  | zero =>
    have none : n = 0 := by simpa using small
    rw [none]
    rfl
  | succ width ih =>
    have rest : n / 256 < 256 ^ width := by
      rw [Nat.div_lt_iff_lt_mul (by decide), ← Nat.pow_succ]
      exact small
    have byte : (UInt8.ofNat n).toNat = n % 256 := UInt8.toNat_ofNat'
    show (UInt8.ofNat n).toNat + 256 * decode (encode width (n / 256)) = n
    rw [ih rest, byte, Nat.mod_add_div]

theorem decode_lt (code : List UInt8) : decode code < 256 ^ code.length := by
  induction code with
  | nil => decide
  | cons b code ih =>
    have byte := b.toNat_lt
    show b.toNat + 256 * decode code < 256 ^ (code.length + 1)
    rw [Nat.pow_succ]
    omega

section Readers

variable {σ ε α γ : Type} {β : Type*} {Holds : σ → List β → Prop} {short : ε}

/-- From every stream that begins with the code the reader takes just the code and returns `a`, and
on every stream that ends within the code it fails with `short`. -/
structure Reads (Holds : σ → List β → Prop) (short : ε) (p : StateT σ (Except ε) α) (code : List β)
    (a : α) : Prop where
  whole : ∀ s rest, Holds s (code ++ rest) → ∃ s', p s = .ok (a, s') ∧ Holds s' rest
  cut : ∀ s front tail, Holds s front → code = front ++ tail → tail ≠ [] → p s = .error short

/-- What the reader returns is good, and leaves an end of the stream. -/
def Yields (Holds : σ → List β → Prop) (p : StateT σ (Except ε) α) (good : α → Prop) : Prop :=
  ∀ s unread a s', Holds s unread → p s = .ok (a, s') →
    good a ∧ ∃ rest, rest <:+ unread ∧ Holds s' rest

/-- The results of `n` calls of a reader. -/
def readMany (p : StateT σ (Except ε) α) : Nat → StateT σ (Except ε) (List α)
  | 0 => pure []
  | n + 1 => do
    let a ← p
    let as ← readMany p n
    return a :: as

theorem bind_eq_ok {p : StateT σ (Except ε) α} {f : α → StateT σ (Except ε) γ} {s u : σ} {c : γ} :
    (p >>= f) s = .ok (c, u) ↔ ∃ a t, p s = .ok (a, t) ∧ f a t = .ok (c, u) := by
  show (p s >>= fun x => f x.1 x.2) = _ ↔ _
  cases p s with
  | error e => simp [bind, Except.bind]
  | ok x =>
    constructor
    · intro h
      exact ⟨x.1, x.2, rfl, h⟩
    · rintro ⟨a, t, same, h⟩
      obtain rfl := Except.ok.inj same
      exact h

theorem bind_error {p : StateT σ (Except ε) α} {s : σ} {e : ε} (h : p s = .error e)
    (f : α → StateT σ (Except ε) γ) : (p >>= f) s = .error e := by
  show (p s >>= fun x => f x.1 x.2) = _
  rw [h]
  rfl

theorem bind_ok {p : StateT σ (Except ε) α} {s t : σ} {a : α} (h : p s = .ok (a, t))
    (f : α → StateT σ (Except ε) γ) : (p >>= f) s = f a t := by
  show (p s >>= fun x => f x.1 x.2) = _
  rw [h]
  rfl

theorem Reads.pure (a : α) : Reads Holds short (Pure.pure a) [] a where
  whole s _ h := ⟨s, rfl, h⟩
  cut _ _ _ _ empty some_tail :=
    absurd (List.append_eq_nil_iff.mp empty.symm).2 some_tail

theorem Reads.bind {p : StateT σ (Except ε) α} {f : α → StateT σ (Except ε) γ} {code more : List β}
    {a : α} {c : γ} (first : Reads Holds short p code a) (second : Reads Holds short (f a) more c) :
    Reads Holds short (p >>= f) (code ++ more) c := by
  constructor
  · intro s rest h
    rw [List.append_assoc] at h
    obtain ⟨t, read, held⟩ := first.whole s _ h
    obtain ⟨u, read', held'⟩ := second.whole t _ held
    exact ⟨u, (bind_ok read f).trans read', held'⟩
  · intro s front tail h split some_tail
    -- the stream ends within the first code or behind it
    rcases List.append_eq_append_iff.mp split with ⟨middle, rfl, rest⟩ | ⟨middle, rfl, rest⟩
    · obtain ⟨t, read, held⟩ := first.whole s _ h
      exact (bind_ok read f).trans (second.cut t middle tail held rest some_tail)
    · by_cases none : middle = []
      · subst none
        rw [List.nil_append] at rest
        rw [List.append_nil] at first
        obtain ⟨t, read, held⟩ := first.whole s [] (by rwa [List.append_nil])
        exact (bind_ok read f).trans (second.cut t [] tail held rest.symm some_tail)
      · exact bind_error (first.cut s front middle h rfl none) f

theorem Reads.last {p : StateT σ (Except ε) α} {f : α → γ} {code : List β} {a : α}
    (h : Reads Holds short p code a) :
    Reads Holds short (p >>= fun a => Pure.pure (f a)) code (f a) := by
  have both : Reads Holds short (p >>= fun a => Pure.pure (f a)) (code ++ []) (f a) :=
    h.bind (Reads.pure (f a))
  rwa [List.append_nil] at both

theorem Reads.many {ι : Type*} {p : StateT σ (Except ε) α} {code : ι → List β} {out : ι → α}
    {entries : List ι} (each : ∀ x ∈ entries, Reads Holds short p (code x) (out x)) :
    Reads Holds short (readMany p entries.length) (entries.flatMap code) (entries.map out) := by
  induction entries with
  | nil => exact Reads.pure []
  | cons x entries ih =>
    have rest := ih fun y hy => each y (List.mem_cons_of_mem x hy)
    exact (each x List.mem_cons_self).bind rest.last

theorem Yields.pure {good : α → Prop} {a : α} (h : good a) :
    Yields Holds (Pure.pure a : StateT σ (Except ε) α) good := by
  intro s unread b s' held read
  obtain ⟨rfl, rfl⟩ := Prod.mk.inj (Except.ok.inj read)
  exact ⟨h, unread, List.suffix_refl unread, held⟩

theorem Yields.throw {good : α → Prop} (e : ε) :
    Yields Holds (throw e : StateT σ (Except ε) α) good :=
  fun _ _ _ _ _ read => nomatch read

theorem Yields.bind {p : StateT σ (Except ε) α} {f : α → StateT σ (Except ε) γ} {good : α → Prop}
    {good' : γ → Prop} (first : Yields Holds p good)
    (second : ∀ a, good a → Yields Holds (f a) good') : Yields Holds (p >>= f) good' := by
  intro s unread c u held read
  obtain ⟨a, t, readFirst, readSecond⟩ := bind_eq_ok.mp read
  obtain ⟨ha, left, end_, held'⟩ := first s unread a t held readFirst
  obtain ⟨hc, rest, end', held''⟩ := second a ha t left c u held' readSecond
  exact ⟨hc, rest, end'.trans end_, held''⟩

theorem Yields.mono {p : StateT σ (Except ε) α} {good good' : α → Prop} (h : Yields Holds p good)
    (weaker : ∀ a, good a → good' a) : Yields Holds p good' := by
  intro s unread a s' held read
  obtain ⟨ha, rest⟩ := h s unread a s' held read
  exact ⟨weaker a ha, rest⟩

theorem Yields.ite {c : Prop} [Decidable c] {p q : StateT σ (Except ε) α} {good : α → Prop}
    (hp : c → Yields Holds p good) (hq : ¬ c → Yields Holds q good) :
    Yields Holds (if c then p else q) good := by
  split
  next h => exact hp h
  next h => exact hq h

theorem Yields.many {p : StateT σ (Except ε) α} {good : α → Prop} (h : Yields Holds p good)
    (n : Nat) : Yields Holds (readMany p n) fun as => as.length = n ∧ ∀ a ∈ as, good a := by
  induction n with
  | zero => exact Yields.pure ⟨rfl, List.forall_mem_nil _⟩
  | succ n ih =>
    refine h.bind fun a ha => ih.bind fun as has => Yields.pure ⟨?_, ?_⟩
    · rw [List.length_cons, has.1]
    · exact List.forall_mem_cons.mpr ⟨ha, has.2⟩

end Readers

end ByteCodec
