import Mathlib.Algebra.Group.Nat.Defs
import DriverSF.Decimal

namespace FloatText

open Decimal

/-- The number `mantissa * base ^ exponent`. -/
structure Scaled where
  mantissa : Nat
  base : Nat
  exponent : Int
  deriving DecidableEq, Repr

def Scaled.numerator (x : Scaled) : Nat := x.mantissa * x.base ^ x.exponent.toNat

def Scaled.denominator (x : Scaled) : Nat := x.base ^ (-x.exponent).toNat

/-- The number from which on a value rounds to infinity: half a unit beyond the largest finite
`float`, which has a mantissa of 24 bits and the exponent 127. -/
def overflow : Nat := 2 ^ 128 - 2 ^ 103

def Scaled.Overflows (x : Scaled) : Prop := overflow * x.denominator ≤ x.numerator

instance (x : Scaled) : Decidable x.Overflows := inferInstanceAs (Decidable (_ ≤ _))

/-- Not zero, and below the smallest `float` with a full mantissa. -/
def Scaled.Tiny (x : Scaled) : Prop := 0 < x.numerator ∧ 2 ^ 126 * x.numerator < x.denominator

inductive Magnitude where
  | finite (x : Scaled)
  | infinity
  | nan
  deriving DecidableEq, Repr

/-- A number as text gives it, before it is rounded. -/
structure Number where
  negative : Bool
  magnitude : Magnitude
  deriving DecidableEq, Repr

/-- What the C library leaves to its implementation: the `float` of a number, and for which
of the tiny numbers `strtof` reports an underflow. -/
structure Library (F : Type) where
  value : Number → F
  underflows : Scaled → Bool
  tiny : ∀ x, underflows x = true → x.Tiny

/-- No range error is reported for the number. -/
def Number.InRange {F : Type} (lib : Library F) (n : Number) : Prop :=
  match n.magnitude with
  | .finite x => ¬ x.Overflows ∧ lib.underflows x = false
  | .infinity => True
  | .nan => True

instance {F : Type} (lib : Library F) (n : Number) : Decidable (n.InRange lib) := by
  unfold Number.InRange
  split <;> infer_instance

def lower (c : UInt8) : UInt8 := if 65 ≤ c.toNat && c.toNat ≤ 90 then c + 32 else c

def startsWith (word s : List UInt8) : Bool := (s.take word.length).map lower = word

def isHexDigit (c : UInt8) : Bool :=
  isDigit c || (97 ≤ (lower c).toNat && (lower c).toNat ≤ 102)

/-- The number that some hexadecimal digits spell. -/
def hexValue (s : List UInt8) : Nat :=
  s.foldl (fun n c =>
    16 * n + if isDigit c then c.toNat - 48 else (lower c).toNat - 87) 0

/-- The digits before and behind a point, if there are any, and what follows them. -/
def readDigits (p : UInt8 → Bool) (s : List UInt8) :
    Option (List UInt8 × List UInt8 × List UInt8) :=
  let whole := s.takeWhile p
  let (fraction, rest) := match s.dropWhile p with
    | 46 :: behind => (behind.takeWhile p, behind.dropWhile p)
    | rest => ([], rest)
  if whole ++ fraction = [] then none else some (whole, fraction, rest)

/-- The exponent behind a mark, zero where no number follows. -/
def readExponent (mark : UInt8) : List UInt8 → Int
  | [] => 0
  | c :: s =>
    if lower c = mark then
      let (unit, rest) := signed s
      unit * value (rest.takeWhile isDigit)
    else 0

def readDecimal (s : List UInt8) : Option Scaled :=
  (readDigits isDigit s).map fun (whole, fraction, rest) =>
    ⟨value (whole ++ fraction), 10, readExponent 101 rest - fraction.length⟩

/-- `0x` and hexadecimal digits; each digit behind the point counts four powers of two. -/
def readHex (s : List UInt8) : Option Scaled :=
  if startsWith [48, 120] s then
    (readDigits isHexDigit (s.drop 2)).map fun (whole, fraction, rest) =>
      ⟨hexValue (whole ++ fraction), 2, readExponent 112 rest - 4 * fraction.length⟩
  else none

/-- The longest number at the start; a `0x` without digits is the number zero. -/
def readMagnitude (s : List UInt8) : Option Magnitude :=
  match readHex s, readDecimal s with
  | some x, _ => some (.finite x)
  | none, some x => some (.finite x)
  | none, none =>
    if startsWith [105, 110, 102] s then some .infinity
    else if startsWith [110, 97, 110] s then some .nan
    else none

/-- The longest number at the start, behind white space and a sign. -/
def readNumber (s : List UInt8) : Option Number :=
  let (unit, rest) := signed (s.dropWhile isSpace)
  (readMagnitude rest).map fun magnitude => ⟨unit = -1, magnitude⟩

/-- How a number starts behind its sign. -/
inductive Start : List UInt8 → Prop
  | digit {c : UInt8} {s : List UInt8} (hc : isDigit c = true) : Start (c :: s)
  | point {c : UInt8} {s : List UInt8} (hc : isDigit c = true) : Start (46 :: c :: s)
  | infinity {s : List UInt8} (word : startsWith [105, 110, 102] s = true) : Start s
  | nan {s : List UInt8} (word : startsWith [110, 97, 110] s = true) : Start s

/-- White space, a sign, and the start of a number. -/
inductive NumberText : List UInt8 → Prop
  | intro {blanks sign rest : List UInt8} {unit : Int}
    (blank : ∀ c ∈ blanks, isSpace c = true) (hs : Sign sign unit) (start : Start rest) :
    NumberText (blanks ++ (sign ++ rest))

theorem readDigits_isSome_iff {p : UInt8 → Bool} {s : List UInt8} (point : p 46 = false) :
    (readDigits p s).isSome ↔
      (∃ c ∈ s.head?, p c = true) ∨ ∃ c t, s = 46 :: c :: t ∧ p c = true := by
  match s with
  | [] => simp [readDigits]
  | c :: s =>
    by_cases hc : p c = true
    · simp [readDigits, hc]
    · by_cases dot : c = 46
      · subst dot
        cases s with
        | nil => simp [readDigits, point]
        | cons d s => by_cases hd : p d = true <;> simp [readDigits, point, hd]
      · simp [readDigits, hc, dot]

theorem lower_eq {c letter : UInt8} (h : lower c = letter) :
    c = letter ∨ 65 ≤ c.toNat ∧ c.toNat + 32 = letter.toNat := by
  unfold lower at h
  split at h
  next upper =>
    simp only [Bool.and_eq_true, decide_eq_true_eq] at upper
    refine Or.inr ⟨upper.1, ?_⟩
    rw [← h, UInt8.toNat_add]
    have small : c.toNat + 32 < 256 := by omega
    simpa using (Nat.mod_eq_of_lt small).symm
  next => exact Or.inl h

theorem startsWith_cons {letter : UInt8} {word s : List UInt8}
    (h : startsWith (letter :: word) s = true) : ∃ c t, s = c :: t ∧ lower c = letter := by
  cases s with
  | nil => simp [startsWith] at h
  | cons c t =>
    simp only [startsWith, List.length_cons, List.take_succ_cons, List.map_cons,
      List.cons.injEq, decide_eq_true_eq] at h
    exact ⟨c, t, rfl, h.1⟩

theorem plain_of_lower {c letter : UInt8} (h : lower c = letter) (late : 78 ≤ letter.toNat) :
    Plain c := by
  have bound : 46 ≤ c.toNat := by
    rcases lower_eq h with rfl | ⟨upper, _⟩ <;> omega
  refine ⟨?_, ?_, ?_⟩
  · have ne : c ≠ 32 := by rintro rfl; simp at bound
    simp [isSpace, ne]
    omega
  · rintro rfl; simp at bound
  · rintro rfl; simp at bound

theorem Start.plain {s : List UInt8} (h : Start s) : ∃ c t, s = c :: t ∧ Plain c := by
  cases h with
  | digit hc => exact ⟨_, _, rfl, plain_of_isDigit hc⟩
  | point hc => exact ⟨_, _, rfl, by decide, by decide, by decide⟩
  | infinity word =>
    obtain ⟨c, t, rfl, first⟩ := startsWith_cons word
    exact ⟨c, t, rfl, plain_of_lower first (by decide)⟩
  | nan word =>
    obtain ⟨c, t, rfl, first⟩ := startsWith_cons word
    exact ⟨c, t, rfl, plain_of_lower first (by decide)⟩

theorem readDecimal_isSome_iff {s : List UInt8} : (readDecimal s).isSome ↔
    (∃ c ∈ s.head?, isDigit c = true) ∨ ∃ c t, s = 46 :: c :: t ∧ isDigit c = true := by
  rw [readDecimal, Option.isSome_map]
  exact readDigits_isSome_iff (by decide)

theorem start_of_readDecimal {s : List UInt8} (h : (readDecimal s).isSome) : Start s := by
  rcases readDecimal_isSome_iff.mp h with ⟨c, first, hc⟩ | ⟨c, t, rfl, hc⟩
  · obtain ⟨t, rfl⟩ := List.head?_eq_some_iff.mp first
    exact .digit hc
  · exact .point hc

/-- A hexadecimal number starts with the digit zero. -/
theorem start_of_readHex {s : List UInt8} (h : (readHex s).isSome) : Start s := by
  unfold readHex at h
  split at h
  next mark =>
    obtain ⟨c, t, rfl, zero⟩ := startsWith_cons mark
    refine .digit ?_
    rcases lower_eq zero with rfl | ⟨upper, shifted⟩
    · rfl
    · have small : (48 : UInt8).toNat = 48 := rfl
      omega
  next => simp at h

theorem readMagnitude_isSome_iff {s : List UInt8} : (readMagnitude s).isSome ↔ Start s := by
  unfold readMagnitude
  constructor
  · intro h
    split at h
    next hex => exact start_of_readHex (by rw [hex]; rfl)
    next dec => exact start_of_readDecimal (by rw [dec]; rfl)
    next =>
      split at h
      next word => exact .infinity word
      next =>
        split at h
        next word => exact .nan word
        next => simp at h
  · intro start
    split
    next => rfl
    next => rfl
    next hex dec =>
      have none : ¬ (readDecimal s).isSome := by simp [dec]
      rw [readDecimal_isSome_iff] at none
      cases start with
      | digit hc => exact absurd (Or.inl ⟨_, rfl, hc⟩) none
      | point hc => exact absurd (Or.inr ⟨_, _, rfl, hc⟩) none
      | infinity word => rw [if_pos word]; rfl
      | nan word =>
        split
        next => rfl
        next => rfl

theorem readNumber_isSome_iff {s : List UInt8} : (readNumber s).isSome ↔ NumberText s := by
  constructor
  · intro h
    unfold readNumber at h
    rcases cut : signed (s.dropWhile isSpace) with ⟨unit, behind⟩
    obtain ⟨sign, hs, split⟩ := sign_of_signed cut
    simp only [cut, Option.isSome_map] at h
    rw [← List.takeWhile_append_dropWhile (p := isSpace) (l := s), split]
    exact .intro (List.all_eq_true.mp List.all_takeWhile) hs (readMagnitude_isSome_iff.mp h)
  · rintro ⟨blank, hs, start⟩
    obtain ⟨c, t, rfl, plain⟩ := start.plain
    unfold readNumber
    rw [dropWhile_append_of_stop blank (hs.not_space plain t), hs.signed plain]
    simp only [Option.isSome_map]
    exact readMagnitude_isSome_iff.mpr start

end FloatText
