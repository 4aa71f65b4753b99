import Mathlib.Data.List.Basic

namespace Decimal

/-- The character of a decimal digit. -/
def digit (d : Nat) : UInt8 := UInt8.ofNat (48 + d)

def isDigit (c : UInt8) : Bool := 48 ≤ c.toNat && c.toNat ≤ 57

/-- The number that some digits spell. -/
def value (s : List UInt8) : Nat := s.foldl (fun n c => 10 * n + (c.toNat - 48)) 0

/-- The decimal digits of a number, without leading zeros; the first argument bounds them. -/
def spell : Nat → Nat → List UInt8
  | 0, n => [digit n]
  | bound + 1, n => if n < 10 then [digit n] else spell bound (n / 10) ++ [digit (n % 10)]

def ofNat (n : Nat) : List UInt8 := spell n n

theorem digit_toNat {d : Nat} (h : d < 10) : (digit d).toNat = 48 + d := by
  simp [digit]
  omega

theorem isDigit_digit {d : Nat} (h : d < 10) : isDigit (digit d) = true := by
  simp only [isDigit, digit_toNat h, Bool.and_eq_true, decide_eq_true_eq]
  omega

theorem value_singleton {d : Nat} (h : d < 10) : value [digit d] = d := by
  simp [value, digit_toNat h]

theorem value_le_nine {c : UInt8} (h : isDigit c = true) : value [c] ≤ 9 := by
  simp only [isDigit, Bool.and_eq_true, decide_eq_true_eq] at h
  simp [value]
  omega

theorem value_append_digit (s : List UInt8) {d : Nat} (h : d < 10) :
    value (s ++ [digit d]) = 10 * value s + d := by
  simp [value, List.foldl_append, digit_toNat h]

theorem value_spell {bound n : Nat} (h : n ≤ bound) : value (spell bound n) = n := by
  induction bound generalizing n with
  | zero =>
    obtain rfl : n = 0 := Nat.le_zero.mp h
    rfl
  | succ bound ih =>
    rw [spell]
    split
    next small => exact value_singleton small
    next large =>
      rw [value_append_digit _ (Nat.mod_lt n (by omega)), ih (by omega)]
      omega

theorem value_ofNat (n : Nat) : value (ofNat n) = n := value_spell (Nat.le_refl n)

theorem isDigit_of_mem_spell {bound n : Nat} (h : n ≤ bound) {c : UInt8} (hc : c ∈ spell bound n) :
    isDigit c = true := by
  induction bound generalizing n with
  | zero =>
    obtain rfl : n = 0 := Nat.le_zero.mp h
    obtain rfl := List.mem_singleton.mp hc
    rfl
  | succ bound ih =>
    rw [spell] at hc
    split at hc
    next small =>
      obtain rfl := List.mem_singleton.mp hc
      exact isDigit_digit small
    next large =>
      rcases List.mem_append.mp hc with before | last
      · exact ih (by omega) before
      · obtain rfl := List.mem_singleton.mp last
        exact isDigit_digit (Nat.mod_lt n (by omega))

theorem isDigit_of_mem {n : Nat} {c : UInt8} (hc : c ∈ ofNat n) : isDigit c = true :=
  isDigit_of_mem_spell (Nat.le_refl n) hc

theorem ofNat_ne_nil (n : Nat) : ofNat n ≠ [] := by
  unfold ofNat
  cases n with
  | zero => simp [spell]
  | succ n =>
    rw [spell]
    split <;> simp

def isSpace (c : UInt8) : Bool := c = 32 || (9 ≤ c.toNat && c.toNat ≤ 13)

/-- The sign that may stand before a number, and what is behind it. -/
def signed : List UInt8 → Int × List UInt8
  | 45 :: s => (-1, s)
  | 43 :: s => (1, s)
  | s => (1, s)

/-- The longest number at the start, behind white space and a sign. -/
def readInt (s : List UInt8) : Option Int :=
  let (unit, rest) := signed (s.dropWhile isSpace)
  let digits := rest.takeWhile isDigit
  if digits = [] then none else some (unit * value digits)

inductive Sign : List UInt8 → Int → Prop
  | minus : Sign [45] (-1)
  | plus : Sign [43] 1
  | none : Sign [] 1

/-- White space, a sign, at least one digit, and behind the digits no further one. -/
inductive IntText : List UInt8 → Int → Prop
  | intro {blanks sign digits rest : List UInt8} {unit : Int}
    (blank : ∀ c ∈ blanks, isSpace c = true) (hs : Sign sign unit) (found : digits ≠ [])
    (digit : ∀ c ∈ digits, isDigit c = true) (stop : ∀ c ∈ rest.head?, isDigit c = false) :
    IntText (blanks ++ (sign ++ (digits ++ rest))) (unit * value digits)

theorem takeWhile_append_of_stop {p : UInt8 → Bool} {front rest : List UInt8}
    (all : ∀ c ∈ front, p c = true) (stop : ∀ c ∈ rest.head?, p c = false) :
    (front ++ rest).takeWhile p = front := by
  rw [List.takeWhile_append_of_pos all]
  cases rest with
  | nil => simp
  | cons c rest => simp [stop c rfl]

theorem dropWhile_append_of_stop {p : UInt8 → Bool} {front rest : List UInt8}
    (all : ∀ c ∈ front, p c = true) (stop : ∀ c ∈ rest.head?, p c = false) :
    (front ++ rest).dropWhile p = rest := by
  rw [List.dropWhile_append_of_pos all]
  cases rest with
  | nil => rfl
  | cons c rest => simp [stop c rfl]

theorem head?_dropWhile {p : UInt8 → Bool} {s : List UInt8} :
    ∀ c ∈ (s.dropWhile p).head?, p c = false := by
  intro c hc
  have := List.head?_dropWhile_not p s
  rw [hc] at this
  simpa using this

/-- A character that can follow white space and a sign, being neither. -/
structure Plain (c : UInt8) : Prop where
  blank : isSpace c = false
  minus : c ≠ 45
  plus : c ≠ 43

theorem plain_of_isDigit {c : UInt8} (h : isDigit c = true) : Plain c := by
  have ne : c ≠ 32 := by rintro rfl; simp [isDigit] at h
  refine ⟨?_, by rintro rfl; simp [isDigit] at h, by rintro rfl; simp [isDigit] at h⟩
  simp only [isDigit, Bool.and_eq_true, decide_eq_true_eq] at h
  simp [isSpace, ne]
  omega

theorem Plain.signed {c : UInt8} (h : Plain c) (s : List UInt8) : signed (c :: s) = (1, c :: s) := by
  unfold Decimal.signed
  split
  next he => cases he; exact absurd rfl h.minus
  next he => cases he; exact absurd rfl h.plus
  next => rfl

theorem Sign.signed {sign : List UInt8} {unit : Int} (hs : Sign sign unit) {c : UInt8}
    (plain : Plain c) (s : List UInt8) :
    Decimal.signed (sign ++ c :: s) = (unit, c :: s) := by
  cases hs with
  | minus => rfl
  | plus => rfl
  | none => exact plain.signed s

theorem Sign.not_space {sign : List UInt8} {unit : Int} (hs : Sign sign unit) {c : UInt8}
    (plain : Plain c) (s : List UInt8) :
    ∀ b ∈ (sign ++ c :: s).head?, isSpace b = false := by
  cases hs with
  | none =>
    rintro b ⟨⟩
    exact plain.blank
  | _ =>
    rintro b ⟨⟩
    rfl

theorem sign_of_signed {s rest : List UInt8} {unit : Int} (h : signed s = (unit, rest)) :
    ∃ sign, Sign sign unit ∧ s = sign ++ rest := by
  unfold signed at h
  split at h
  next => cases h; exact ⟨_, .minus, rfl⟩
  next => cases h; exact ⟨_, .plus, rfl⟩
  next => cases h; exact ⟨_, .none, rfl⟩

theorem readInt_of_intText {s : List UInt8} {n : Int} (h : IntText s n) : readInt s = some n := by
  cases h with
  | @intro blanks sign digits rest unit blank hs found digit stop =>
    obtain ⟨c, tail, rfl⟩ := List.exists_cons_of_ne_nil found
    have first := plain_of_isDigit (digit c List.mem_cons_self)
    have behind := hs.not_space first (tail ++ rest)
    have taken := takeWhile_append_of_stop digit stop
    unfold readInt
    rw [List.cons_append, dropWhile_append_of_stop blank behind, hs.signed first]
    rw [List.cons_append] at taken
    simp only [taken, if_neg found]

theorem intText_of_readInt {s : List UInt8} {n : Int} (h : readInt s = some n) : IntText s n := by
  unfold readInt at h
  rcases cut : signed (s.dropWhile isSpace) with ⟨unit, behind⟩
  obtain ⟨sign, hs, split⟩ := sign_of_signed cut
  simp only [cut] at h
  split at h
  next => cases h
  next found =>
    cases Option.some.inj h
    have parts : s = s.takeWhile isSpace ++
        (sign ++ (behind.takeWhile isDigit ++ behind.dropWhile isDigit)) := by
      rw [List.takeWhile_append_dropWhile, ← split, List.takeWhile_append_dropWhile]
    rw [parts]
    exact .intro (List.all_eq_true.mp List.all_takeWhile) hs found
      (List.all_eq_true.mp List.all_takeWhile) head?_dropWhile

theorem readInt_eq_some_iff {s : List UInt8} {n : Int} : readInt s = some n ↔ IntText s n :=
  ⟨intText_of_readInt, readInt_of_intText⟩

end Decimal
