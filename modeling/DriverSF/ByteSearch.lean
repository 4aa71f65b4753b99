import Mathlib.Data.List.Basic
import Mathlib.Algebra.Group.Nat.Defs

namespace ByteSearch

variable {α : Type*}

/-- `std::string::substr`, which throws when the position is behind the end. -/
def substr (s : List α) (pos count : Nat) : Option (List α) :=
  if pos ≤ s.length then some ((s.drop pos).take count) else none

theorem substr_eq_none {s : List α} {pos count : Nat} :
    substr s pos count = none ↔ s.length < pos := by
  simp [substr]

/-- The pattern first occurs in `s` behind `front`, and `back` follows it. -/
structure Splits (pat s front back : List α) : Prop where
  eq : s = front ++ pat ++ back
  first : ∀ j < front.length, ¬ pat <+: s.drop j

theorem Splits.inside {pat s front back : List α} (h : Splits pat s front back) : pat <:+: s :=
  ⟨front, back, h.eq.symm⟩

theorem Splits.prefix_drop {pat s front back : List α} (h : Splits pat s front back) :
    pat <+: s.drop front.length := by
  rw [h.eq, List.append_assoc, List.drop_left]
  exact List.prefix_append pat back

/-- An element at which the pattern does not begin moves the first occurrence by one. -/
theorem Splits.cons {pat s front back : List α} (h : Splits pat s front back) {a : α}
    (ha : ¬ pat <+: a :: s) : Splits pat (a :: s) (a :: front) back := by
  refine ⟨by simp [h.eq], ?_⟩
  intro j hj
  cases j with
  | zero => exact ha
  | succ j => exact h.first j (by simpa using hj)

theorem Splits.append {pat s front back : List α} (h : Splits pat s front back) (tail : List α) :
    Splits pat (s ++ tail) front (back ++ tail) := by
  refine ⟨by simp [h.eq], ?_⟩
  intro j hj found
  have len := congrArg List.length h.eq
  simp only [List.length_append] at len
  rw [List.drop_append_of_le_length (by omega)] at found
  have short : pat.length ≤ (s.drop j).length := by rw [List.length_drop]; omega
  exact h.first j hj (List.prefix_of_prefix_length_le found (List.prefix_append _ tail) short)

theorem Splits.prepend {pat s front back head : List α} (h : Splits pat s front back)
    (absent : ∀ j < head.length, ¬ pat <+: (head ++ s).drop j) :
    Splits pat (head ++ s) (head ++ front) back := by
  refine ⟨by simp [h.eq], ?_⟩
  intro j hj found
  rcases Nat.lt_or_ge j head.length with early | late
  · exact absent j early found
  · rw [List.length_append] at hj
    rw [List.drop_append, List.drop_eq_nil_of_le late, List.nil_append] at found
    exact h.first (j - head.length) (by omega) found

theorem Splits.of_append {pat s tail front back : List α} (h : Splits pat (s ++ tail) front back)
    (inside : front.length + pat.length ≤ s.length) : ∃ back', Splits pat s front back' := by
  have whole : front ++ pat <+: s :=
    List.prefix_of_prefix_length_le (h.eq ▸ List.prefix_append _ back) (List.prefix_append s tail)
      (by simpa using inside)
  obtain ⟨back', eq⟩ := whole
  refine ⟨back', eq.symm, ?_⟩
  intro j hj found
  refine h.first j hj (found.trans ?_)
  rw [List.drop_append_of_le_length (by omega)]
  exact List.prefix_append _ tail

theorem Splits.of_prepend {pat head s front back : List α} (h : Splits pat (head ++ s) front back)
    (inside : head.length ≤ front.length) : ∃ front', front = head ++ front' ∧
      Splits pat s front' back := by
  have start : head <+: front := by
    refine List.prefix_of_prefix_length_le (List.prefix_append head s) ?_ inside
    rw [h.eq, List.append_assoc]
    exact List.prefix_append front _
  obtain ⟨front', rfl⟩ := start
  refine ⟨front', rfl, ?_, ?_⟩
  · have eq := h.eq
    rw [List.append_assoc, List.append_assoc] at eq
    rw [List.append_cancel_left eq, List.append_assoc]
  · intro j hj found
    refine h.first (head.length + j) (by simpa using hj) ?_
    rwa [List.drop_append, List.drop_eq_nil_of_le (Nat.le_add_right _ _), Nat.add_sub_cancel_left,
      List.nil_append]

theorem Splits.unique {pat s front back front' back' : List α} (h : Splits pat s front back)
    (h' : Splits pat s front' back') : front = front' ∧ back = back' := by
  have len : front.length = front'.length := by
    rcases Nat.lt_trichotomy front.length front'.length with before | same | behind
    · exact absurd h.prefix_drop (h'.first _ before)
    · exact same
    · exact absurd h'.prefix_drop (h.first _ behind)
  have eq := h.eq.symm.trans h'.eq
  rw [List.append_assoc, List.append_assoc] at eq
  obtain ⟨same, rest⟩ := List.append_inj eq len
  exact ⟨same, List.append_cancel_left rest⟩

/-- A longer pattern first occurs where the shorter one does, if it does so there. -/
theorem Splits.extend {pat s front back : List α} (h : Splits pat s front back) (ext : List α) :
    Splits (pat ++ ext) (front ++ (pat ++ ext)) front [] := by
  refine ⟨by simp, ?_⟩
  intro j hj found
  have inner : pat <+: (front ++ pat ++ ext).drop j := by
    rw [← List.append_assoc] at found
    exact (List.prefix_append pat ext).trans found
  have short : pat.length ≤ ((front ++ pat).drop j).length := by simp; omega
  have behind : j ≤ (front ++ pat).length := by simp; omega
  rw [List.drop_append_of_le_length behind] at inner
  have early := List.prefix_of_prefix_length_le inner (List.prefix_append _ ext) short
  refine h.first j hj (early.trans ?_)
  rw [h.eq, List.drop_append_of_le_length behind]
  exact List.prefix_append _ back

variable [DecidableEq α]

/-- The largest value of a 32-bit `size_t`, which a search returns when it finds nothing. -/
def npos : Nat := 2 ^ 32 - 1

def search (pat : List α) : List α → Option Nat
  | [] => if pat.isPrefixOf [] then some 0 else none
  | a :: s => if pat.isPrefixOf (a :: s) then some 0 else (search pat s).map (· + 1)

/-- `std::string::find`. -/
def find (s pat : List α) (pos : Nat) : Nat :=
  if pos ≤ s.length then ((search pat (s.drop pos)).map (pos + ·)).getD npos else npos

theorem search_found {pat s : List α} {i : Nat} (h : search pat s = some i) :
    pat <+: s.drop i := by
  induction s generalizing i with
  | nil =>
    rw [search] at h
    split at h
    next here =>
      cases Option.some.inj h
      exact List.isPrefixOf_iff_prefix.mp here
    next => simp at h
  | cons a s ih =>
    rw [search] at h
    split at h
    next here =>
      cases Option.some.inj h
      exact List.isPrefixOf_iff_prefix.mp here
    next =>
      obtain ⟨j, hj, rfl⟩ := Option.map_eq_some_iff.mp h
      exact ih hj

theorem search_le {pat s : List α} {i : Nat} (h : search pat s = some i) (hp : pat ≠ []) :
    i + pat.length ≤ s.length := by
  have bound := (search_found h).length_le
  have pos := List.length_pos_iff.mpr hp
  rw [List.length_drop] at bound
  omega

theorem find_cases (s : List α) {pat : List α} (hp : pat ≠ []) (pos : Nat) :
    find s pat pos = npos ∨ (pos ≤ find s pat pos ∧ find s pat pos + pat.length ≤ s.length) := by
  by_cases inside : pos ≤ s.length
  · cases found : search pat (s.drop pos) with
    | none => exact Or.inl (by simp [find, found])
    | some i =>
      have bound := search_le found hp
      rw [List.length_drop] at bound
      refine Or.inr ?_
      simp only [find, inside, found, if_true, Option.map_some, Option.getD_some]
      omega
  · exact Or.inl (if_neg inside)

theorem search_first {pat s : List α} {i : Nat} (h : search pat s = some i) :
    ∀ j < i, ¬ pat <+: s.drop j := by
  induction s generalizing i with
  | nil =>
    rw [search] at h
    split at h
    next => cases Option.some.inj h; exact fun j hj => absurd hj j.not_lt_zero
    next => simp at h
  | cons a s ih =>
    rw [search] at h
    split at h
    next => cases Option.some.inj h; exact fun j hj => absurd hj j.not_lt_zero
    next later =>
      obtain ⟨k, hk, rfl⟩ := Option.map_eq_some_iff.mp h
      intro j hj found
      cases j with
      | zero => exact later (List.isPrefixOf_iff_prefix.mpr found)
      | succ j => exact ih hk j (by omega) found

theorem search_eq_none {pat s : List α} (h : search pat s = none) : ¬ pat <:+: s := by
  induction s with
  | nil =>
    rw [search] at h
    split at h
    next => simp at h
    next absent =>
      intro inside
      exact absent (List.isPrefixOf_iff_prefix.mpr (List.infix_nil.mp inside ▸ List.nil_prefix))
  | cons a s ih =>
    rw [search] at h
    split at h
    next => simp at h
    next absent =>
      intro inside
      rcases List.infix_cons_iff.mp inside with here | later
      · exact absent (List.isPrefixOf_iff_prefix.mpr here)
      · exact ih (Option.map_eq_none_iff.mp h) later

theorem splits_of_search {pat s : List α} {i : Nat} (h : search pat s = some i)
    (hp : pat ≠ []) : ∃ front back, Splits pat s front back ∧ front.length = i := by
  have bound := search_le h hp
  obtain ⟨back, hb⟩ := search_found h
  have len : (s.take i).length = i := by rw [List.length_take]; omega
  refine ⟨s.take i, back, ⟨?_, ?_⟩, len⟩
  · rw [List.append_assoc, hb, List.take_append_drop]
  · rw [len]
    exact search_first h

theorem exists_splits {pat s : List α} (hp : pat ≠ []) (h : pat <:+: s) :
    ∃ front back, Splits pat s front back := by
  cases found : search pat s with
  | none => exact absurd h (search_eq_none found)
  | some i =>
    obtain ⟨front, back, split, _⟩ := splits_of_search found hp
    exact ⟨front, back, split⟩

theorem Splits.search_eq {pat s front back : List α} (h : Splits pat s front back) :
    search pat s = some front.length := by
  cases found : search pat s with
  | none => exact absurd h.inside (search_eq_none found)
  | some i =>
    rcases Nat.lt_trichotomy i front.length with before | same | behind
    · exact absurd (search_found found) (h.first i before)
    · rw [same]
    · exact absurd h.prefix_drop (search_first found front.length behind)

theorem find_of_splits {pat s front back : List α} {pos : Nat}
    (h : Splits pat (s.drop pos) front back) (inside : pos ≤ s.length) :
    find s pat pos = pos + front.length := by
  simp [find, inside, h.search_eq]

theorem find_zero_of_splits {pat s front back : List α} (h : Splits pat s front back) :
    find s pat 0 = front.length := by
  have found : Splits pat (s.drop 0) front back := h
  rw [find_of_splits found (Nat.zero_le _), Nat.zero_add]

theorem find_of_absent {pat s : List α} {pos : Nat} (h : ¬ pat <:+: s.drop pos) (hp : pat ≠ []) :
    find s pat pos = npos := by
  unfold find
  split
  next =>
    cases found : search pat (s.drop pos) with
    | none => rfl
    | some i =>
      obtain ⟨front, back, split, _⟩ := splits_of_search found hp
      exact absurd split.inside h
  next => rfl

/-- In strings shorter than `npos` a search tells whether the pattern occurs. -/
theorem find_ne_npos {pat s : List α} (hp : pat ≠ []) (short : s.length ≤ npos) :
    find s pat 0 ≠ npos ↔ pat <:+: s := by
  constructor
  · intro found
    by_contra absent
    exact found (find_of_absent absent hp)
  · intro inside
    obtain ⟨front, back, split⟩ := exists_splits hp inside
    have pos := List.length_pos_iff.mpr hp
    have len := congrArg List.length split.eq
    rw [find_zero_of_splits split]
    simp only [List.length_append] at len
    omega

end ByteSearch
